import AliOS.Heap.Blocks

/-!
# AliOS.Heap.Partition

The blocks of the heap tile its pages, after any calls of `heap_init`, `kmalloc` and
`kfree` in which `pmm_alloc` hands out pages of the identity map.  Each routine does to
the list of chunks what its name says: `heap_grow` appends one or extends the last one,
`kmalloc` cuts one in two or takes it whole, `kfree` marks one free and joins neighbours.
The loops end: a pass of `kfree` that joins something makes the list shorter, and a round
of `kmalloc` that fails takes a page from the PMM.  None of them leaves two neighbours that
join.
-/

namespace AliOS

open Lib Function List Option

variable {n size m : Nat}

namespace Heap

section

variable {h h' : Heap} {cs cs' cs₁ cs₂ : List Chunk} {c d : Chunk}

/-- The same chunks are in use. -/
def SameUsed (cs cs' : List Chunk) : Prop := ∀ d : Chunk, d.free = false → (d ∈ cs' ↔ d ∈ cs)

theorem SameUsed.refl (cs : List Chunk) : SameUsed cs cs := fun _ _ => Iff.rfl

theorem SameUsed.trans {cs'' : List Chunk} (h : SameUsed cs cs') (h' : SameUsed cs' cs'') :
    SameUsed cs cs'' :=
  fun d hd => (h' d hd).trans (h d hd)

/-! ## heap_grow -/

/-- Only the PMM changes, and the pages of the heap stay used. -/
theorem Inv.setPmm (hi : Inv h cs) {p : Pmm}
    (hp : ∀ a ∈ h.pages, pageIsFree p (a / pageSize) = false) :
    Inv { h with pmm := p } cs where
  links := hi.links
  size := hi.size
  free := hi.free
  tiles := hi.tiles
  aligned := hi.aligned
  pages := fun a ha => by
    obtain ⟨n, hn, hmax, rfl, -⟩ := hi.pages a ha
    have hused := hp _ ha
    rw [mul_pageSize_div] at hused
    exact ⟨n, hn, hmax, rfl, hused⟩
  nodup := hi.nodup

/-- A page that was free is apart from the chunks. -/
theorem Inv.fresh_apart (hi : Inv h cs) (hfree : pageIsFree h.pmm n) (hc : c ∈ cs) :
    Apart (n * pageSize, pageSize) (c.span hdrSize) := by
  by_contra hmeet
  simp only [Apart, Chunk.span, not_or, Nat.not_le] at hmeet
  obtain ⟨p, hp, hx⟩ := hi.inPage (x := max (n * pageSize) c.addr) hc
    (by simp [hdrSize, pageSize] at *; omega)
  obtain ⟨m, -, -, rfl, hused⟩ := hi.pages p hp
  have hnm : n = m := by
    simp only [pageSize] at *
    omega
  simp [hnm, hused] at hfree

theorem Inv.fresh_hdrApart (hi : Inv h cs) (hfree : pageIsFree h.pmm n) (hc : c ∈ cs) :
    HdrApart (n * pageSize) c.addr := by
  have hap := hi.fresh_apart hfree hc
  have hle : hdrSize ≤ pageSize := by decide
  simp only [Apart, Chunk.span, HdrApart] at hap ⊢
  omega

/-- The chunk that a page becomes. -/
def pageChunk (page : Nat) : Chunk := ⟨page, pageSize - hdrSize, true⟩

theorem span_pageChunk (page : Nat) : (pageChunk page).span hdrSize = (page, pageSize) := by
  simp [pageChunk, Chunk.span, hdrSize, pageSize]

/-- The tiling after the free page `n` has been added to the heap. -/
theorem Inv.tiling_grow (hi : Inv h cs) (hn : n ≠ 0) (hmax : n * pageSize < identityEnd)
    (hfree : pageIsFree h.pmm n)
    (hpages : h'.pages = n * pageSize :: h.pages) (hpmm : h'.pmm = h.pmm.grant n)
    (hcover : ∀ x, cover (cs'.map (Chunk.span hdrSize)) x =
      (inSpan x (n * pageSize, pageSize)).toNat + cover (cs.map (Chunk.span hdrSize)) x)
    (haligned : ∀ c ∈ cs', c.addr % 4 = 0 ∧ c.size % 4 = 0) : Tiling h' cs' := by
  refine ⟨fun x => ?_, haligned, fun p hp => ?_, ?_⟩
  · rw [hcover, hi.tiles, hpages, map_cons, cover_cons]
  · rw [hpages] at hp
    rcases mem_cons.mp hp with rfl | hp
    · exact ⟨n, hn, hmax, rfl, by simp [hpmm]⟩
    · obtain ⟨m, hm, hmmax, rfl, hused⟩ := hi.pages p hp
      exact ⟨m, hm, hmmax, rfl, by simp [hpmm, hused]⟩
  · rw [hpages, nodup_cons]
    refine ⟨fun hmem => ?_, hi.nodup⟩
    obtain ⟨m, -, -, heq, hused⟩ := hi.pages _ hmem
    have hnm : n = m := by simp only [pageSize] at heq; omega
    simp [hnm, hused] at hfree

theorem pageChunk_aligned (n : Nat) :
    (pageChunk (n * pageSize)).addr % 4 = 0 ∧ (pageChunk (n * pageSize)).size % 4 = 0 :=
  ⟨by simp only [pageChunk, pageSize]; omega, by simp [pageChunk, pageSize, hdrSize]⟩

theorem sameUsed_pageChunk (cs : List Chunk) (page : Nat) :
    SameUsed cs (cs ++ [pageChunk page]) := by
  intro d hd
  have hne : d ≠ pageChunk page := by
    rintro rfl
    simp [pageChunk] at hd
  simp [hne]

theorem sameRest_growAt {page cur : Nat} (hgrow : h.growAt page cur = some h') : SameRest h h' := by
  unfold Heap.growAt at hgrow
  split at hgrow
  · cases hgrow
    exact sameRest_setSize _ _ _
  · obtain ⟨-, hgrow⟩ := ite_none_right_eq_some.mp hgrow
    cases hgrow
    exact (sameRest_newBlock _ _).trans (sameRest_setNext _ _ _)

/-- The header of a page in the identity map. -/
theorem hdr_low (hn : n * pageSize < identityEnd) : n * pageSize + hdrSize ≤ 2 ^ 27 := by
  unfold pageSize identityEnd identityTables hdrSize at *
  omega

/-- The heap when the PMM has handed out the page `n`. -/
def withPage (h : Heap) (n : Nat) : Heap :=
  { h with pmm := h.pmm.grant n, pages := n * pageSize :: h.pages }

/-- The free tail takes in the page behind it. -/
theorem Inv.growTail (hi : Inv h (cs ++ [c])) (hn : n ≠ 0) (hmax : n * pageSize < identityEnd)
    (hfree : pageIsFree h.pmm n) (hend : c.addr + hdrSize + c.size = n * pageSize) :
    Inv ((h.withPage n).setSize c.addr (c.size + pageSize))
      (cs ++ [{ c with size := c.size + pageSize }]) := by
  have hc : c ∈ cs ++ [c] := by simp
  have hholds : Holds (h.withPage n) (cs ++ [c] ++ []) := by
    rw [append_nil]
    exact ⟨hi.links, hi.size, hi.free⟩
  rw [← append_nil (cs ++ [_])]
  refine ⟨?_, ?_⟩
  · refine hholds.replace (sameRest_setSize _ _ _) (fun d hd => sameHdr_setSize _ _ ?_)
      (fun a x hl => ?_) fun d hd => ?_
    · exact hi.hdrApart_mid hd (by omega)
    · simpa [Leads] using hl
    · obtain rfl := mem_singleton.mp hd
      refine ⟨size_setSize _ _ ?_, (free_setSize _ _ _).trans (hi.free c hc)⟩
      unfold hdrSize pageSize identityEnd identityTables at *
      omega
  · refine hi.tiling_grow hn hmax hfree rfl rfl (fun x => ?_) fun d hd => ?_
    · have hcut := inSpan_cut c.addr (hdrSize + c.size) pageSize x
      have hspan : Chunk.span hdrSize { c with size := c.size + pageSize } =
          (c.addr, hdrSize + c.size + pageSize) := by simp [Chunk.span, Nat.add_assoc]
      simp only [append_nil, map_append, map_cons, map_nil, cover_append, cover_cons,
        hspan, hcut, ← hend]
      simp only [Chunk.span, Nat.add_assoc]
      omega
    · simp only [append_nil, mem_append, mem_singleton] at hd
      obtain hd | rfl := hd
      · exact hi.aligned d (by simp [hd])
      · have hal := hi.aligned c hc
        simp only [pageSize]
        omega

/-- The page becomes the last block. -/
theorem Inv.growLast (hi : Inv h (cs ++ [c])) (hn : n ≠ 0) (hmax : n * pageSize < identityEnd)
    (hfree : pageIsFree h.pmm n) :
    Inv (((h.withPage n).newBlock (n * pageSize)).setNext c.addr (n * pageSize))
      (cs ++ [c, pageChunk (n * pageSize)]) := by
  have hc : c ∈ cs ++ [c] := by simp
  have hholds : Holds (h.withPage n) (cs ++ [c] ++ []) := by
    rw [append_nil]
    exact ⟨hi.links, hi.size, hi.free⟩
  have hnext : (h.withPage n).next c.addr = 0 := hi.next_last
  have hpage := hi.fresh_hdrApart hfree hc
  obtain ⟨hnsize, hnfree, hnnext⟩ := (h.withPage n).newBlock_hdr (n * pageSize)
  have hown := sameHdr_newBlock (h.withPage n) hpage
  have hfar := sameHdr_setNext ((h.withPage n).newBlock (n * pageSize)) (n * pageSize) hpage.symm
  have hsame := (sameRest_newBlock (h.withPage n) (n * pageSize)).trans
    (sameRest_setNext _ c.addr (n * pageSize))
  rw [← append_nil (cs ++ [_, _])]
  refine ⟨?_, ?_⟩
  · refine hholds.replace hsame (fun d hd => ?_) (fun a x hl => ?_) fun d hd => ?_
    · have hd' : d ∈ cs ++ [c] := by
        rw [append_nil] at hd
        simp [hd]
      exact (sameHdr_newBlock (h.withPage n) (hi.fresh_hdrApart hfree hd')).trans
        (sameHdr_setNext _ _ (hi.hdrApart_mid hd (by omega)))
    · refine ⟨hl.1, ?_, ?_⟩
      · exact next_setNext _ _ (by unfold pageSize identityEnd identityTables at *; omega)
      · rw [← hl.2, hnext]
        exact hfar.next.trans hnnext
    · simp only [mem_cons, not_mem_nil, or_false] at hd
      rcases hd with rfl | rfl
      · rw [size_setNext, free_setNext, hown.size, hown.free]
        exact ⟨hi.size d hc, hi.free d hc⟩
      · exact ⟨hfar.size.trans hnsize, hfar.free.trans hnfree⟩
  · refine hi.tiling_grow hn hmax hfree hsame.pages hsame.pmm (fun x => ?_) fun d hd => ?_
    · simp only [append_nil, map_append, map_cons, map_nil, cover_append, cover_cons,
        span_pageChunk]
      omega
    · simp only [append_nil, mem_append, mem_cons, not_mem_nil, or_false] at hd
      obtain hd | rfl | rfl := hd
      · exact hi.aligned d (by simp [hd])
      · exact hi.aligned d hc
      · exact pageChunk_aligned n

/-- `heap_grow` with a page and the tail of the list. -/
theorem Inv.growAt (hi : Inv h (cs ++ [c])) (hn : n ≠ 0) (hmax : n * pageSize < identityEnd)
    (hfree : pageIsFree h.pmm n) :
    ∃ h' cs', (h.withPage n).growAt (n * pageSize) c.addr = some h' ∧ Inv h' cs' ∧
      SameUsed (cs ++ [c]) cs' ∧ cs'.length ≤ (cs ++ [c]).length + 1 ∧
      (Coalesced hdrSize (cs ++ [c]) → Coalesced hdrSize cs') := by
  have hc : c ∈ cs ++ [c] := by simp
  have hb := hi.bounds hc
  have hsize : (h.withPage n).size c.addr = c.size := hi.size c hc
  have hcfree : (h.withPage n).free c.addr = c.free := hi.free c hc
  have hstop : (h.withPage n).stop c.addr = c.addr + hdrSize + c.size := by
    simp only [stop, hsize, hdrSize, pageSize] at hb ⊢
    omega
  unfold Heap.growAt
  rw [hcfree, hstop, hsize]
  split
  · rename_i htail
    obtain ⟨hfr, hend⟩ := htail
    have hlt : (c.size + pageSize) % 2 ^ 32 = c.size + pageSize := by
      unfold hdrSize pageSize identityEnd identityTables at *
      omega
    rw [hlt]
    refine ⟨_, _, rfl, hi.growTail hn hmax hfree hend, fun d hd => ?_, by simp, fun hcs => ?_⟩
    · have hne : d ≠ c ∧ d ≠ { c with size := c.size + pageSize } := by
        constructor <;> (rintro rfl; simp [hfr] at hd)
      simp [hne]
    · obtain ⟨hpre, -, hseam⟩ := isChain_append.mp hcs
      refine isChain_append.mpr ⟨hpre, .singleton _, fun p hp d hd => ?_⟩
      obtain rfl : { c with size := c.size + pageSize } = d := by simpa using hd
      exact hseam p hp c rfl
  · rename_i htail
    have hmapped := (h.withPage n).hdrMapped_of_le (b := n * pageSize) (hdr_low hmax)
    refine ⟨_, _, if_pos hmapped, hi.growLast hn hmax hfree, fun d hd => ?_, by simp,
      fun hcs => ?_⟩
    · simpa using sameUsed_pageChunk (cs ++ [c]) (n * pageSize) d hd
    · obtain ⟨hpre, -, hseam⟩ := isChain_append.mp hcs
      have hjoin : c.joins hdrSize (pageChunk (n * pageSize)) = false := by
        rw [Bool.eq_false_iff]
        intro hjoin
        obtain ⟨hfr, -, hend⟩ := Chunk.joins_iff.mp hjoin
        exact htail ⟨hfr, hend⟩
      exact isChain_append.mpr ⟨hpre, isChain_cons_cons.mpr ⟨hjoin, .singleton _⟩, hseam⟩

/-- `heap_grow` with the first page. -/
theorem Inv.growFirst (hi : Inv h []) (hn : n ≠ 0) (hmax : n * pageSize < identityEnd)
    (hfree : pageIsFree h.pmm n) :
    Inv { newBlock { h with pmm := h.pmm.grant n, pages := n * pageSize :: h.pages }
            (n * pageSize) with head := n * pageSize } [pageChunk (n * pageSize)] := by
  set g : Heap := { h with pmm := h.pmm.grant n, pages := n * pageSize :: h.pages }
  obtain ⟨hsize, hnfree, hnext⟩ := g.newBlock_hdr (n * pageSize)
  have hsame := sameRest_newBlock g (n * pageSize)
  refine ⟨⟨⟨rfl, hnext⟩, ?_, ?_⟩, ?_⟩
  · intro c hc
    obtain rfl := mem_singleton.mp hc
    exact hsize
  · intro c hc
    obtain rfl := mem_singleton.mp hc
    exact hnfree
  · refine hi.tiling_grow hn hmax hfree hsame.pages hsame.pmm (fun x => by simp [span_pageChunk])
      fun c hc => ?_
    obtain rfl := mem_singleton.mp hc
    exact pageChunk_aligned n

/-- All pages are in the identity map. -/
def Low (h : Heap) : Prop := ∀ p ∈ h.pages, p < identityEnd

/-- The routine can only come to an end with a page that is not in the identity map, and the PMM
has one. -/
def Strays {α : Type} (h : Heap) (f : α → Option Heap) : Prop :=
  (∃ p < pagesMax, pageIsFree h.pmm p ∧ identityEnd ≤ p * pageSize) ∧
    ∀ x h', f x = some h' → ¬h'.Low

/-- `heap_grow` takes a page from the PMM, whatever becomes of it, or there is none. -/
theorem heapGrow_cases {ok : Bool} {fuel : Nat} (hgrow : h.heapGrow fuel = some (ok, h')) :
    (∃ p < pagesMax, pageIsFree h.pmm p ∧ pmmAlloc h.pmm = (p * pageSize, h.pmm.grant p) ∧
      h'.pmm = h.pmm.grant p ∧ h'.pages = if p = 0 then h.pages else p * pageSize :: h.pages) ∨
    (∀ p < pagesMax, pageIsFree h.pmm p = false) ∧ ok = false ∧ h' = h := by
  unfold Heap.heapGrow at hgrow
  obtain ⟨p, hp, hfree, -, heq⟩ | ⟨hnone, heq⟩ := pmmAlloc_cases h.pmm
  · refine .inl ⟨p, hp, hfree, heq, ?_⟩
    rw [heq] at hgrow
    dsimp only at hgrow
    by_cases h0 : p = 0
    · subst h0
      rw [if_pos (Nat.zero_mul _)] at hgrow
      cases hgrow
      exact ⟨rfl, rfl⟩
    · rw [if_neg (by simp [h0, pageSize])] at hgrow
      rw [if_neg h0]
      split at hgrow
      · obtain ⟨-, hgrow⟩ := ite_none_right_eq_some.mp hgrow
        cases hgrow
        exact ⟨rfl, rfl⟩
      · obtain ⟨_ | cur, -, hrest⟩ := bind_eq_some_iff.mp hgrow
        · cases hrest
        · obtain ⟨h1, hat, hrest⟩ := map_eq_some_iff.mp hrest
          cases hrest
          exact ⟨(sameRest_growAt hat).pmm, (sameRest_growAt hat).pages⟩
  · rw [heq] at hgrow
    cases hgrow
    exact .inr ⟨hnone, rfl, rfl⟩

/-- `heap_grow` with a page that is not in the identity map. -/
theorem heapGrow_strays (hmax : n < pagesMax) (hfree : pageIsFree h.pmm n)
    (heq : pmmAlloc h.pmm = (n * pageSize, h.pmm.grant n)) (hhigh : identityEnd ≤ n * pageSize) :
    Strays h fun fuel => (h.heapGrow fuel).map Prod.snd := by
  refine ⟨⟨n, hmax, hfree, hhigh⟩, fun fuel h' hgrow hlow => ?_⟩
  obtain ⟨⟨ok, h1⟩, hres, rfl⟩ := map_eq_some_iff.mp hgrow
  obtain ⟨p, -, -, heq', -, hpages⟩ | ⟨hnone, -⟩ := heapGrow_cases hres
  · obtain rfl : n = p := by
      have := congrArg Prod.fst (heq.symm.trans heq')
      simpa [pageSize] using this
    have hn : n ≠ 0 := by
      rintro rfl
      exact absurd hhigh (by decide)
    rw [if_neg hn] at hpages
    exact absurd (hlow (n * pageSize) (by rw [hpages]; simp)) (Nat.not_lt.mpr hhigh)
  · simp [hnone n hmax] at hfree

/-- `heap_grow` takes a page into the heap, or fails and leaves the heap as it is, or the page
is not in the identity map. -/
theorem Inv.heapGrow (hi : Inv h cs) : (∃ ok h' cs',
    Settles cs.length (fun fuel => h.heapGrow fuel) (ok, h') ∧
    Inv h' cs' ∧ SameUsed cs cs' ∧ cs'.length ≤ cs.length + 1 ∧
    (Coalesced hdrSize cs → Coalesced hdrSize cs') ∧
    (ok → (freeSet h'.pmm).card + 1 = (freeSet h.pmm).card)) ∨
    Strays h fun fuel => (h.heapGrow fuel).map Prod.snd := by
  obtain ⟨n, hmax, hfree, -, heq⟩ | ⟨-, heq⟩ := pmmAlloc_cases h.pmm
  · have hcard : (freeSet (h.pmm.grant n)).card + 1 = (freeSet h.pmm).card :=
      card_freeSet_of_taken hmax hfree (pageIsFree_grant h.pmm n)
    by_cases hlow : n * pageSize < identityEnd
    · left
      unfold Heap.heapGrow
      rw [heq]
      by_cases hn : n = 0
      · -- page 0 is lost: its address is NULL
        subst hn
        refine ⟨false, _, cs, by simpa using Settles.pure _ _, hi.setPmm fun a ha => ?_, .refl cs,
          by simp, id, by simp⟩
        obtain ⟨m, -, -, rfl, hused⟩ := hi.pages a ha
        simp [hused]
      · have hne : n * pageSize ≠ 0 := by simp [pageSize, hn]
        simp only [hne, if_false, hi.head_eq_zero]
        obtain rfl | ⟨cs₁, c, rfl⟩ := eq_nil_or_concat' cs
        · refine ⟨true, _, _, ?_, hi.growFirst hn hlow hfree, sameUsed_pageChunk [] _, by simp,
            fun _ => .singleton _, fun _ => hcard⟩
          simp only [if_true, hdrMapped_of_le _ (hdr_low hlow)]
          exact .pure _ _
        · obtain ⟨h', cs', hat, hi', hused, hlen, hcoal⟩ := hi.growAt hn hlow hfree
          obtain ⟨q, htail⟩ := hi.find_tail
          have hfind := hi.find fun b => h.next b == 0
          rw [htail] at hfind
          refine ⟨true, h', cs', ?_, hi', hused, hlen, hcoal, fun _ => ?_⟩
          · simp only [append_eq_nil_iff, cons_ne_self, and_false, if_false]
            refine hfind.bind ?_
            change Settles _ (fun _ => (Heap.growAt (h.withPage n) _ c.addr).map _) _
            rw [hat]
            exact .pure _ _
          · rw [(sameRest_growAt hat).pmm]
            exact hcard
    · exact .inr (heapGrow_strays hmax hfree heq (Nat.not_lt.mp hlow))
  · left
    unfold Heap.heapGrow
    rw [heq]
    exact ⟨false, _, cs, by simpa using Settles.pure _ _, hi, .refl cs, by simp, id, by simp⟩

/-! ## kmalloc -/

/-- What becomes of a free chunk that is taken for `size` bytes. -/
def carve (c : Chunk) (size : Nat) : List Chunk :=
  if size + minSplit ≤ c.size then
    [⟨c.addr, size, false⟩, ⟨c.addr + hdrSize + size, c.size - size - hdrSize, true⟩]
  else [{ c with free := false }]

theorem cover_carve (c : Chunk) (size x : Nat) :
    cover ((carve c size).map (Chunk.span hdrSize)) x = cover ([c].map (Chunk.span hdrSize)) x := by
  unfold carve
  split
  · have hcut := inSpan_cut c.addr (hdrSize + size) (hdrSize + (c.size - size - hdrSize)) x
    have hsum : hdrSize + size + (hdrSize + (c.size - size - hdrSize)) = hdrSize + c.size := by
      simp only [minSplit, hdrSize] at *
      omega
    rw [hsum] at hcut
    simp only [map_cons, map_nil, cover_cons, Chunk.span, hcut, Nat.add_assoc]
  · rfl

/-- The headers after a block has been cut in two. -/
theorem cut_hdrs (h : Heap) {cur : Nat} (hcur : cur + hdrSize + h.size cur < 2 ^ 32)
    (hsize : size + minSplit ≤ h.size cur) :
    (h.cut cur size).size cur = size ∧ (h.cut cur size).next cur = cur + hdrSize + size ∧
    (h.cut cur size).size (cur + hdrSize + size) = h.size cur - size - hdrSize ∧
    (h.cut cur size).free (cur + hdrSize + size) ∧
    (h.cut cur size).next (cur + hdrSize + size) = h.next cur ∧ SameRest h (h.cut cur size) ∧
    ∀ b, HdrApart cur b → HdrApart (cur + hdrSize + size) b → SameHdr h (h.cut cur size) b := by
  have hlt : cur + hdrSize + size < 2 ^ 32 := by simp only [minSplit] at hsize; omega
  have hsplit : (cur + hdrSize + size) % 2 ^ 32 = cur + hdrSize + size := Nat.mod_eq_of_lt hlt
  have hleft : (h.size cur + 2 ^ 32 - size - hdrSize) % 2 ^ 32 = h.size cur - size - hdrSize := by
    simp only [minSplit, hdrSize] at *
    omega
  have hap : HdrApart (cur + hdrSize + size) cur := .inr (by omega)
  unfold cut
  rw [hsplit, hleft]
  set h1 := h.setSize (cur + hdrSize + size) (h.size cur - size - hdrSize)
  set h2 := h1.setFree (cur + hdrSize + size) true
  set h3 := h2.setNext (cur + hdrSize + size) (h2.next cur)
  set h4 := h3.setNext cur (cur + hdrSize + size)
  have h2cur : SameHdr h h2 cur := (sameHdr_setSize h _ hap).trans (sameHdr_setFree _ _ hap)
  have hend : SameHdr h3 (h4.setSize cur size) (cur + hdrSize + size) :=
    (sameHdr_setNext _ _ hap.symm).trans (sameHdr_setSize _ _ hap.symm)
  refine ⟨size_setSize _ _ (by omega), ?_, ?_, ?_, ?_, ?_, fun b hcb hsb => ?_⟩
  · rw [next_setSize]
    exact next_setNext _ _ hlt
  · rw [hend.size, size_setNext, size_setFree]
    exact size_setSize _ _ (by omega)
  · rw [hend.free, free_setNext, free_setFree]
  · rw [hend.next]
    exact (next_setNext _ _ (load32_lt _ _)).trans h2cur.next
  · exact ⟨rfl, rfl, rfl⟩
  · exact ((((sameHdr_setSize h _ hsb).trans (sameHdr_setFree _ _ hsb)).trans
      (sameHdr_setNext _ _ hsb)).trans
      (sameHdr_setNext _ _ hcb)).trans (sameHdr_setSize _ _ hcb)

theorem carve_aligned (hc : c.addr % 4 = 0 ∧ c.size % 4 = 0) (hsize : size % 4 = 0) :
    ∀ d ∈ carve c size, d.addr % 4 = 0 ∧ d.size % 4 = 0 := by
  unfold carve
  split
  · simp only [minSplit, hdrSize, forall_mem_cons, not_mem_nil, false_implies, implies_true,
      and_true] at *
    omega
  · simpa using hc

/-- The first free block that fits is taken. -/
theorem Inv.take (hi : Inv h (cs₁ ++ c :: cs₂)) (hsize : size ≤ c.size) (h4 : size % 4 = 0) :
    ∃ h', h.take c.addr size = some h' ∧ Inv h' (cs₁ ++ carve c size ++ cs₂) := by
  have hc : c ∈ cs₁ ++ c :: cs₂ := by simp
  have hb := hi.bounds hc
  have hcs := hi.size c hc
  have hmid : Inv h (cs₁ ++ [c] ++ cs₂) := by simpa using hi
  have hother : ∀ d ∈ cs₁ ++ cs₂, HdrApart c.addr d.addr :=
    fun d hd => hi.hdrApart_mid hd (by omega)
  have hmod : (size + minSplit) % 2 ^ 32 = size + minSplit := by
    simp only [minSplit, hdrSize, pageSize] at *
    omega
  have hlt : c.addr + hdrSize + c.size < 2 ^ 32 := by
    simp only [pageSize] at hb
    omega
  unfold Heap.take
  rw [hmod, hcs]
  by_cases hcut : size + minSplit ≤ c.size
  · obtain ⟨hsz, hnext, hssize, hsfree, hsnext, hrest, hsame⟩ := cut_hdrs h (hcs ▸ hlt) (hcs ▸ hcut)
    have hap : HdrApart c.addr (c.addr + hdrSize + size) := .inl (by omega)
    have hcarve : carve c size =
        [⟨c.addr, size, false⟩, ⟨c.addr + hdrSize + size, c.size - size - hdrSize, true⟩] :=
          if_pos hcut
    have hmapped : h.hdrMapped ((c.addr + hdrSize + size) % 2 ^ 32) = true := by
      refine h.hdrMapped_of_le ?_
      rw [Nat.mod_eq_of_lt (by omega)]
      simp only [minSplit] at hcut
      omega
    rw [if_pos hcut, if_pos hmapped]
    have hsplit := sameHdr_setFree (h.cut c.addr size) false hap
    have hrest' := hrest.trans (sameRest_setFree _ c.addr false)
    refine ⟨_, rfl, ?_, hmid.toTiling.replace hrest' (fun x => cover_carve c size x)
      (carve_aligned (hi.aligned c hc) h4)⟩
    refine hmid.toHolds.replace hrest' (fun d hd => ?_) (fun a x hl => ?_) fun d hd => ?_
    · have hpiece : HdrApart (c.addr + hdrSize + size) d.addr :=
        hi.hdrApart_mid hd (by simp only [minSplit] at hcut; omega)
      exact (hsame _ (hother d hd) hpiece).trans (sameHdr_setFree _ _ (hother d hd))
    · obtain ⟨rfl, hx⟩ : a = c.addr ∧ h.next c.addr = x := hl
      rw [hcarve]
      refine ⟨rfl, ?_, ?_⟩
      · rw [next_setFree, hnext]
      · exact hsplit.next.trans (hsnext.trans hx)
    · rw [hcarve] at hd
      simp only [mem_cons, not_mem_nil, or_false] at hd
      rcases hd with rfl | rfl
      · exact ⟨by rw [size_setFree, hsz], by simp⟩
      · exact ⟨hsplit.size.trans (by rw [hssize, hcs]), hsplit.free.trans hsfree⟩
  · have hcarve : carve c size = [{ c with free := false }] := if_neg hcut
    rw [if_neg hcut]
    have hrest := sameRest_setFree h c.addr false
    refine ⟨_, rfl, ?_, hmid.toTiling.replace hrest (fun x => cover_carve c size x)
      (carve_aligned (hi.aligned c hc) h4)⟩
    refine hmid.toHolds.replace hrest (fun d hd => sameHdr_setFree _ _ (hother d hd))
      (fun a x hl => ?_) fun d hd => ?_
    · rw [hcarve]
      simpa [Leads] using hl
    · rw [hcarve, mem_singleton] at hd
      subst hd
      exact ⟨by simpa using hcs, by simp⟩

/-- Cutting a free chunk leaves nothing to join: its end stays where it was. -/
theorem coalesced_carve (hcs : Coalesced hdrSize (cs₁ ++ c :: cs₂)) (hfree : c.free) :
    Coalesced hdrSize (cs₁ ++ carve c size ++ cs₂) := by
  unfold carve
  split
  · rename_i hcut
    refine hcs.replace (by simp) ?_ (fun d hd p _ => ?_) fun d hd n hn => ?_
    · exact isChain_cons_cons.mpr ⟨Chunk.joins_of_not_free (.inl rfl), .singleton _⟩
    · cases hd
      exact Chunk.joins_of_not_free (.inr rfl)
    · cases hd
      have hend : c.addr + hdrSize + size + hdrSize + (c.size - size - hdrSize) =
          c.addr + hdrSize + c.size := by
        simp only [minSplit] at hcut
        omega
      simpa [Chunk.joins, hfree, hend] using hn
  · refine hcs.replace (by simp) (.singleton _) (fun d hd p _ => ?_) fun d hd n _ => ?_
    · cases hd
      exact Chunk.joins_of_not_free (.inr rfl)
    · cases hd
      exact Chunk.joins_of_not_free (.inl rfl)

/-- The chunk that `kmalloc` hands out; the other chunks in use stay. -/
theorem mem_carve_used (cs₁ cs₂ : List Chunk) (hfree : c.free) (hsize : size ≤ c.size) :
    ∃ e : Chunk, e.addr = c.addr ∧ e.free = false ∧ size ≤ e.size ∧
      ∀ d : Chunk, d.free = false →
        (d ∈ cs₁ ++ carve c size ++ cs₂ ↔ d = e ∨ d ∈ cs₁ ++ c :: cs₂) := by
  have hne : ∀ {d e : Chunk}, d.free = false → e.free = true → d ≠ e := by
    rintro d e hd he rfl
    simp [hd] at he
  unfold carve
  split
  · refine ⟨⟨c.addr, size, false⟩, rfl, rfl, le_rfl, fun d hd => ?_⟩
    have hd1 := hne hd hfree
    have hd2 : d ≠ ⟨c.addr + hdrSize + size, c.size - size - hdrSize, true⟩ := hne hd rfl
    simp [hd1, hd2]
    tauto
  · refine ⟨{ c with free := false }, rfl, rfl, hsize, fun d hd => ?_⟩
    have hd1 := hne hd hfree
    simp [hd1]
    tauto

/-- The chunk `e` of at least `size` bytes has come into use, and nothing else changed for
the chunks in use. -/
structure Granted (cs cs' : List Chunk) (size : Nat) (e : Chunk) : Prop where
  mem : e ∈ cs'
  used : e.free = false
  size : size ≤ e.size
  fresh : ∀ d ∈ cs, d.free = false → d.addr ≠ e.addr
  others : ∀ d : Chunk, d.free = false → (d ∈ cs' ↔ d = e ∨ d ∈ cs)

theorem Granted.of_sameUsed {cs0 : List Chunk} {e : Chunk} (hg : Granted cs cs' size e)
    (hs : SameUsed cs0 cs) :
    Granted cs0 cs' size e where
  mem := hg.mem
  used := hg.used
  size := hg.size
  fresh := fun d hd hdf => hg.fresh d ((hs d hdf).mpr hd) hdf
  others := fun d hd => by rw [hg.others d hd, hs d hd]

theorem Inv.granted (hi : Inv h (cs₁ ++ c :: cs₂)) (hfree : c.free) (hsize : size ≤ c.size) :
    ∃ e, e.addr = c.addr ∧ Granted (cs₁ ++ c :: cs₂) (cs₁ ++ carve c size ++ cs₂) size e := by
  obtain ⟨e, haddr, hused, hle, hothers⟩ := mem_carve_used cs₁ cs₂ hfree hsize
  refine ⟨e, haddr, (hothers e hused).mpr (.inl rfl), hused, hle, fun d hd hdf heq => ?_, hothers⟩
  have hd' : d ∈ cs₁ ++ cs₂ := by
    have hne : d ≠ c := by
      rintro rfl
      simp [hdf] at hfree
    simpa [hne] using hd
  have hap := hi.apart_mid hd'
  simp only [Apart, Chunk.span, hdrSize] at hap
  omega

/-- The block that the search of `kmalloc` finds. -/
theorem Inv.found {r : Nat × Nat} (hi : Inv h cs)
    (hf : findPrev (h.fits size) 0 (cs.map Chunk.addr) = some r) :
    ∃ cs₁ c cs₂, cs = cs₁ ++ c :: cs₂ ∧ r.2 = c.addr ∧ c.free ∧ size ≤ c.size := by
  obtain ⟨l₁, l₂, hmap, hfits, -, -⟩ := findPrev_eq_some hf
  obtain ⟨cs₁, rest, rfl, -, hrest⟩ := map_eq_append_iff.mp hmap
  obtain ⟨c, cs₂, rfl, hc, -⟩ := map_eq_cons_iff.mp hrest
  have hmem : c ∈ cs₁ ++ c :: cs₂ := by simp
  rw [← hc] at hfits
  simp only [fits, Bool.and_eq_true, decide_eq_true_eq, hi.free c hmem, hi.size c hmem] at hfits
  exact ⟨cs₁, c, cs₂, rfl, hc.symm, hfits⟩

/-- What `kmalloc` does for `size` bytes: it fails, or a chunk comes into use. -/
def Grants (cs cs' : List Chunk) (size ptr : Nat) : Prop :=
  ptr = 0 ∧ SameUsed cs cs' ∨ ∃ e, Granted cs cs' size e ∧ ptr = e.addr + hdrSize

theorem sameRest_take {cur : Nat} (htake : h.take cur size = some h') : SameRest h h' := by
  unfold Heap.take at htake
  split at htake
  · obtain ⟨-, htake⟩ := ite_none_right_eq_some.mp htake
    cases htake
    exact ⟨rfl, rfl, rfl⟩
  · cases htake
    exact ⟨rfl, rfl, rfl⟩

/-- What an iteration of `kmalloc` does. -/
theorem kmallocRound_cases {fuel ptr : Nat} {retry : Heap → Option (Nat × Heap)}
    (hround : h.kmallocRound fuel size retry = some (ptr, h')) :
    (∃ cur, h.search (h.fits size) fuel = some (some cur) ∧ ptr = (cur + hdrSize) % 2 ^ 32 ∧
      h.take cur size = some h') ∨
    h.search (h.fits size) fuel = some none ∧ ∃ ok h1, h.heapGrow fuel = some (ok, h1) ∧
      if ok then retry h1 = some (ptr, h') else ptr = 0 ∧ h' = h1 := by
  obtain ⟨_ | cur, hfind, hrest⟩ := bind_eq_some_iff.mp hround
  · obtain ⟨⟨ok, h1⟩, hgrow, hrest⟩ := bind_eq_some_iff.mp hrest
    refine .inr ⟨hfind, ok, h1, hgrow, ?_⟩
    cases ok with
    | true => exact hrest
    | false =>
      cases hrest
      exact ⟨rfl, rfl⟩
  · obtain ⟨h1, htake, hrest⟩ := map_eq_some_iff.mp hrest
    cases hrest
    exact .inl ⟨cur, hfind, rfl, htake⟩

/-- No page is given back while `kmalloc` runs. -/
theorem kmallocLoop_keeps {bound fuel ptr : Nat}
    (hloop : h.kmallocLoop bound size fuel = some (ptr, h')) :
    h.pages ⊆ h'.pages ∧ ∀ p, pageIsFree h.pmm p = false → pageIsFree h'.pmm p = false := by
  induction fuel generalizing h with
  | zero => cases hloop
  | succ fuel ih =>
    obtain ⟨cur, -, -, htake⟩ | ⟨-, ok, h1, hgrow, hrest⟩ := kmallocRound_cases hloop
    · rw [(sameRest_take htake).pages, (sameRest_take htake).pmm]
      exact ⟨Subset.refl _, fun _ => id⟩
    · have hkeep : h.pages ⊆ h1.pages ∧
          ∀ p, pageIsFree h.pmm p = false → pageIsFree h1.pmm p = false := by
        obtain ⟨p, -, -, -, hpmm, hpages⟩ | ⟨-, -, rfl⟩ := heapGrow_cases hgrow
        · rw [hpages, hpmm]
          refine ⟨?_, fun q hq => by simp [hq]⟩
          split <;> simp
        · exact ⟨Subset.refl _, fun _ => id⟩
      cases ok with
      | true => exact ⟨fun _ hp => (ih hrest).1 (hkeep.1 hp),
          fun p hp => (ih hrest).2 p (hkeep.2 p hp)⟩
      | false =>
        obtain ⟨-, rfl⟩ := hrest
        exact hkeep

/-- An iteration that finds a block. -/
theorem kmallocRound_found {retry : Nat → Nat → Heap → Option (Nat × Heap)}
    (hfind : Settles n (h.search (h.fits size)) (some c.addr))
    (htake : h.take c.addr size = some h') :
    LoopSettles n m (fun bound fuel => kmallocRound bound size (retry bound fuel) h)
      ((c.addr + hdrSize) % 2 ^ 32, h') := by
  refine LoopSettles.bind hfind ?_
  simp only [htake, map_some]
  exact .pure n m _

/-- An iteration that finds none. -/
theorem kmallocRound_grow {ok : Bool} {v : Nat × Heap}
    {retry : Nat → Nat → Heap → Option (Nat × Heap)}
    (hfind : Settles n (h.search (h.fits size)) none)
    (hgrow : Settles n (fun fuel => h.heapGrow fuel) (ok, h'))
    (hretry : if ok then LoopSettles n m (fun bound fuel => retry bound fuel h') v
      else v = (0, h')) :
    LoopSettles n m (fun bound fuel => kmallocRound bound size (retry bound fuel) h) v := by
  refine LoopSettles.bind hfind (LoopSettles.bind hgrow ?_)
  cases ok with
  | true => exact hretry
  | false =>
    obtain rfl : v = (0, h') := hretry
    exact .pure n m _

/-- An iteration that finds none, after which the loop does not end in the identity map. -/
theorem strays_kmallocLoop (hfind : Settles n (h.search (h.fits size)) none)
    (hhigh : ∃ p < pagesMax, pageIsFree h.pmm p ∧ identityEnd ≤ p * pageSize)
    (hgrow : ∀ bound ok h1, h.heapGrow bound = some (ok, h1) → ¬h1.Low ∨
      ok = true ∧ ∀ fuel r, h1.kmallocLoop bound size fuel = some r → ¬r.2.Low) :
    Strays h fun x : Nat × Nat => (h.kmallocLoop x.1 size x.2).map Prod.snd := by
  refine ⟨hhigh, fun ⟨bound, fuel⟩ h' hmap hlow => ?_⟩
  obtain ⟨⟨ptr, h'⟩, hloop, rfl⟩ := map_eq_some_iff.mp hmap
  cases fuel with
  | zero => cases hloop
  | succ fuel =>
    obtain ⟨cur, hfound, -⟩ | ⟨-, ok, h1, hg, hrest⟩ := kmallocRound_cases hloop
    · cases hfind.eq_of_some hfound
    · obtain hh1 | ⟨rfl, hh1⟩ := hgrow bound ok h1 hg
      · refine hh1 fun p hp => hlow p ?_
        cases ok with
        | true => exact (kmallocLoop_keeps hrest).1 hp
        | false =>
          obtain ⟨-, rfl⟩ := hrest
          exact hp
      · exact hh1 fuel _ hrest hlow

/-- The loop of `kmalloc` ends: with a block of the heap, or when the PMM has no page
left; or it comes to a page that is not in the identity map. -/
theorem Inv.kmallocLoop (size : Nat) (h4 : size % 4 = 0) (n : Nat) :
    ∀ {h : Heap} {cs : List Chunk}, Inv h cs → (freeSet h.pmm).card = n → (∃ ptr h' cs',
      LoopSettles (cs.length + n) (n + 1)
        (fun bound fuel => Heap.kmallocLoop bound size fuel h) (ptr, h') ∧
      Inv h' cs' ∧ Grants cs cs' size ptr ∧ (Coalesced hdrSize cs → Coalesced hdrSize cs')) ∨
      Strays h fun x : Nat × Nat => (h.kmallocLoop x.1 size x.2).map Prod.snd := by
  -- every further round takes one of the `n` free pages
  induction n using Nat.strong_induction_on with
  | _ n ih =>
    intro h cs hi hcard
    have hle : cs.length ≤ cs.length + n := by omega
    have hfind := (hi.find (h.fits size)).mono hle
    cases hf : findPrev (h.fits size) 0 (cs.map Chunk.addr) with
    | some r =>
      obtain ⟨cs₁, c, cs₂, rfl, hr, hfree, hsize⟩ := hi.found hf
      obtain ⟨e, haddr, hgranted⟩ := hi.granted hfree hsize
      obtain ⟨h', htake, hi'⟩ := hi.take hsize h4
      have hb := hi.bounds (c := c) (by simp)
      have hptr : (c.addr + hdrSize) % 2 ^ 32 = e.addr + hdrSize := by
        simp only [hdrSize, pageSize] at *
        omega
      rw [hf, map_some, hr] at hfind
      exact .inl ⟨_, _, _, (kmallocRound_found hfind htake).succ (fun _ => rfl) fun _ _ => rfl, hi',
        .inr ⟨e, hgranted, hptr⟩, fun hcs => coalesced_carve hcs hfree⟩
    | none =>
      rw [hf] at hfind
      obtain ⟨ok, h1, cs₁, hgrow, hi1, hused, hlen, hcoal, hpages⟩ | hstray := hi.heapGrow
      · cases ok with
        | false =>
          exact .inl ⟨0, h1, cs₁, (kmallocRound_grow hfind (hgrow.mono hle) rfl).succ (fun _ => rfl)
            fun _ _ => rfl, hi1, .inl ⟨rfl, hused⟩, hcoal⟩
        | true =>
          have hcard1 := hpages rfl
          obtain ⟨ptr, h2, cs₂, hloop, hi2, hres, hcoal2⟩ | hstray :=
            ih (freeSet h1.pmm).card (by omega) hi1 rfl
          · have hretry := hloop.mono (k := cs.length + n) (j := n) (by omega) (by omega)
            refine .inl ⟨ptr, h2, cs₂, ?_, hi2, ?_, fun hcs => hcoal2 (hcoal hcs)⟩
            · exact (kmallocRound_grow hfind (hgrow.mono hle) hretry).succ (fun _ => rfl)
                fun _ _ => rfl
            · obtain ⟨hptr, hs⟩ | ⟨e, hg, hptr⟩ := hres
              · exact .inl ⟨hptr, hused.trans hs⟩
              · exact .inr ⟨e, hg.of_sameUsed hused, hptr⟩
          · obtain ⟨⟨p, hp, hfree, hhigh⟩, hstray⟩ := hstray
            have hfree' : pageIsFree h.pmm p = true := by
              obtain ⟨q, -, -, -, hpmm, -⟩ | ⟨-, hok, -⟩ := heapGrow_cases (hgrow.total le_rfl)
              · simp only [hpmm, pageIsFree_grant, Bool.and_eq_true] at hfree
                exact hfree.1
              · cases hok
            refine .inr (strays_kmallocLoop hfind ⟨p, hp, hfree', hhigh⟩ fun bound ok h2 hg => ?_)
            obtain ⟨rfl, rfl⟩ := Prod.mk.inj (hgrow.eq_of_some hg)
            exact .inr ⟨rfl, fun fuel r hloop => hstray (bound, fuel) r.2 (by simp [hloop])⟩
      · exact .inr (strays_kmallocLoop hfind hstray.1 fun bound ok h1 hg =>
          .inl (hstray.2 bound h1 (by simp [hg])))

/-- `kmalloc` ends, with NULL or with a chunk of the rounded size, or comes to a page that is not
in the identity map. -/
theorem Inv.kmalloc (hi : Inv h cs) (size : UInt32) : (∃ ptr h' cs',
    Settles (cs.length + (freeSet h.pmm).card + 1) (fun fuel => h.kmalloc fuel size) (ptr, h') ∧
      Inv h' cs' ∧ Grants cs cs' (roundUp size) ptr ∧
      (Coalesced hdrSize cs → Coalesced hdrSize cs')) ∨
      Strays h fun fuel => (h.kmalloc fuel size).map Prod.snd := by
  unfold Heap.kmalloc
  by_cases h0 : size = 0
  · refine .inl ⟨0, h, cs, ?_, hi, .inl ⟨rfl, .refl cs⟩, id⟩
    simp only [h0, if_true]
    exact .pure _ _
  · simp only [h0, if_false]
    obtain ⟨ptr, h', cs', hloop, hi', hres, hcoal⟩ | ⟨hhigh, hstray⟩ :=
      Inv.kmallocLoop (roundUp size) (by unfold roundUp; omega) _ hi rfl
    · exact .inl ⟨ptr, h', cs', hloop.diag.mono (by omega), hi', hres, hcoal⟩
    · exact .inr ⟨hhigh, fun fuel => hstray (fuel, fuel)⟩

/-! ## kfree -/

/-- A block takes in the next one. -/
theorem Inv.absorb (hi : Inv h (cs₁ ++ c :: d :: cs₂)) (hjoin : c.joins hdrSize d) :
    Inv (h.absorb c.addr) (cs₁ ++ c.join hdrSize d :: cs₂) := by
  obtain ⟨-, -, hadj⟩ := Chunk.joins_iff.mp hjoin
  have hc : c ∈ cs₁ ++ c :: d :: cs₂ := by simp
  have hd : d ∈ cs₁ ++ c :: d :: cs₂ := by simp
  have hb := hi.bounds hd
  have hnext : h.next c.addr = d.addr := hi.next_mid
  have hmid : Inv h (cs₁ ++ [c, d] ++ cs₂) := by simpa using hi
  have hother : ∀ e ∈ cs₁ ++ cs₂, HdrApart c.addr e.addr := fun e he =>
    hi.hdrApart_mid (by simp only [mem_append, mem_cons] at he ⊢; tauto) (by omega)
  have hcd : HdrApart c.addr d.addr := .inl (by omega)
  have hsize : (h.size c.addr + hdrSize + h.size d.addr) % 2 ^ 32 = c.size + hdrSize + d.size := by
    rw [hi.size c hc, hi.size d hd]
    simp only [pageSize] at hb
    omega
  unfold Heap.absorb
  rw [hnext, hsize]
  dsimp only
  set h1 := h.setSize c.addr (c.size + hdrSize + d.size)
  have hnext1 : h1.next (h1.next c.addr) = h.next d.addr := by
    rw [next_setSize, hnext, (sameHdr_setSize h _ hcd).next]
  rw [hnext1]
  have hrest := (sameRest_setSize h c.addr (c.size + hdrSize + d.size)).trans
    (sameRest_setNext _ c.addr (h.next d.addr))
  have hlist : cs₁ ++ c.join hdrSize d :: cs₂ = cs₁ ++ [c.join hdrSize d] ++ cs₂ := by simp
  rw [hlist]
  refine ⟨hmid.toHolds.replace hrest (fun e he => ?_) (fun a x hl => ?_) fun e he => ?_,
    hmid.toTiling.replace hrest (fun x => ?_) fun e he => ?_⟩
  · exact (sameHdr_setSize h _ (hother e he)).trans (sameHdr_setNext _ _ (hother e he))
  · obtain ⟨rfl, -, hx⟩ : a = c.addr ∧ h.next c.addr = d.addr ∧ h.next d.addr = x := hl
    exact ⟨rfl, (next_setNext _ _ (load32_lt _ _)).trans hx⟩
  · obtain rfl := mem_singleton.mp he
    have hlt : c.size + hdrSize + d.size < 2 ^ 32 := by
      omega
    exact ⟨(size_setNext h1 c.addr _).trans (size_setSize h c.addr hlt),
      (free_setNext h1 c.addr _).trans ((free_setSize h c.addr _).trans (hi.free c hc))⟩
  · have hpass := cover_coalesce hdrSize c [d] x
    simpa only [coalesce, hjoin, if_true] using hpass
  · obtain rfl := mem_singleton.mp he
    have hac := hi.aligned c hc
    have had := hi.aligned d hd
    simp only [Chunk.join, hdrSize]
    omega

/-- The test of `kfree` says whether two neighbours join. -/
theorem Inv.joins_eq (hi : Inv h (cs₁ ++ c :: d :: cs₂)) :
    (h.free c.addr && h.free (h.next c.addr) && h.stop c.addr == h.next c.addr) =
      c.joins hdrSize d := by
  have hc : c ∈ cs₁ ++ c :: d :: cs₂ := by simp
  have hb := hi.bounds hc
  have hstop : h.stop c.addr = c.addr + hdrSize + c.size := by
    simp only [stop, hi.size c hc, hdrSize, pageSize] at hb ⊢
    omega
  rw [hi.next_mid, hi.free c hc, hi.free d (by simp), hstop]
  rfl

/-- A pass over the list from the block `c` on joins what can be joined. -/
theorem Inv.mergePass (merged : Bool) (hi : Inv h (cs₁ ++ c :: cs)) : ∃ h',
    Settles (cs.length + 1) (fun fuel => Heap.mergePass fuel merged c.addr h)
      (merged || decide ((coalesce hdrSize c cs).length ≤ cs.length), h') ∧
    Inv h' (cs₁ ++ coalesce hdrSize c cs) := by
  induction cs generalizing c cs₁ h merged with
  | nil =>
    refine ⟨h, Settles.succ (g := fun _ => some (merged, h)) ?_ rfl fun fuel => ?_, hi⟩
    · simpa [coalesce] using Settles.pure 0 (merged, h)
    · rw [Heap.mergePass, if_neg (hi.addr_ne_zero (by simp)), if_neg (by simp [hi.hdrMapped]),
        if_pos hi.next_last]
  | cons d cs ih =>
    have hround : ∀ fuel, Heap.mergePass (fuel + 1) merged c.addr h =
        if c.joins hdrSize d then Heap.mergePass fuel true c.addr (h.absorb c.addr)
        else Heap.mergePass fuel merged d.addr h := by
      intro fuel
      rw [Heap.mergePass, if_neg (hi.addr_ne_zero (by simp)), if_neg (by simp [hi.hdrMapped]),
        hi.joins_eq, hi.next_mid, if_neg (hi.addr_ne_zero (by simp)),
        if_neg (by simp [hi.hdrMapped (c := d)])]
    cases hjoin : c.joins hdrSize d with
    | true =>
      obtain ⟨h', hpass, hi'⟩ := ih true (hi.absorb hjoin)
      have hlen : (coalesce hdrSize (c.join hdrSize d) cs).length ≤ (d :: cs).length := by
        rcases length_coalesce hdrSize (c.join hdrSize d) cs with heq | hle
        · simp [heq]
        · exact Nat.le_succ_of_le hle
      refine ⟨h', ?_, by simpa only [coalesce, hjoin, if_true] using hi'⟩
      simp only [coalesce, hjoin, if_true, decide_eq_true hlen, Bool.or_true]
      exact hpass.succ rfl fun fuel => by rw [hround, hjoin, if_pos rfl]; rfl
    | false =>
      have hi1 : Inv h ((cs₁ ++ [c]) ++ d :: cs) := by simpa using hi
      obtain ⟨h', hpass, hi'⟩ := ih merged hi1
      refine ⟨h', ?_, by simpa [coalesce, hjoin] using hi'⟩
      simp only [coalesce, hjoin, Bool.false_eq_true, if_false, length_cons,
        Nat.add_le_add_iff_right]
      exact hpass.succ rfl fun fuel => by rw [hround, hjoin, if_neg (by simp)]

/-- A pass of `kfree`, and what follows it. -/
theorem mergeRound_settles {merged : Bool} {v : Heap} {again : Nat → Nat → Heap → Option Heap}
    (hpass : Settles n (fun fuel => Heap.mergePass fuel false h.head h) (merged, h'))
    (hagain : if merged then LoopSettles n m (fun bound fuel => again bound fuel h') v
      else v = h') :
    LoopSettles n m (fun bound fuel => mergeRound bound (again bound fuel) h) v := by
  refine LoopSettles.bind hpass ?_
  cases merged with
  | true => exact hagain
  | false =>
    obtain rfl : v = h' := hagain
    exact .pure n m _

/-- The loop of `kfree` ends: every pass but the last makes the list shorter. -/
theorem Inv.mergeLoop (n : Nat) : ∀ {h : Heap} {cs : List Chunk}, Inv h cs →
    cs.length = n → ∃ h' cs',
    LoopSettles (n + 1) (n + 1) (fun bound fuel => Heap.mergeLoop bound fuel h) h' ∧ Inv h' cs' ∧
      SameUsed cs cs' ∧ Coalesced hdrSize cs' := by
  induction n using Nat.strong_induction_on with
  | _ n ih =>
    intro h cs hi hlen
    cases cs with
    | nil =>
      have hpass : Settles (n + 1) (fun fuel => Heap.mergePass fuel false h.head h) (false, h) := by
        refine Settles.succ (g := fun _ => some (false, h)) (.pure n _) rfl fun fuel => ?_
        rw [Heap.mergePass, if_pos (hi.head_eq_zero.mpr rfl)]
      exact ⟨h, [], (mergeRound_settles hpass rfl).succ (fun _ => rfl) fun _ _ => rfl, hi,
        .refl _, .nil⟩
    | cons c cs =>
      have hi0 : Inv h ([] ++ c :: cs) := hi
      obtain ⟨h1, hpass, hi1⟩ := hi0.mergePass false
      rw [← hi.toHolds.head_eq] at hpass
      rw [nil_append] at hi1
      have hused : SameUsed (c :: cs) (coalesce hdrSize c cs) := fun d hd => mem_coalesce_used hd
      by_cases hshort : (coalesce hdrSize c cs).length ≤ cs.length
      · rw [decide_eq_true hshort] at hpass
        obtain ⟨h2, cs₂, hloop, hi2, hused2, hcoal2⟩ := ih _ (by simp at hlen; omega) hi1 rfl
        have hagain := hloop.mono (k := n + 1) (j := n) (by simp at hlen ⊢; omega)
          (by simp at hlen ⊢; omega)
        exact ⟨h2, cs₂, (mergeRound_settles (hpass.mono (by simp at hlen; omega)) hagain).succ
          (fun _ => rfl)
          fun _ _ => rfl, hi2, hused.trans hused2, hcoal2⟩
      · rw [decide_eq_false hshort] at hpass
        exact ⟨h1, _, (mergeRound_settles (hpass.mono (by simp at hlen; omega)) rfl).succ
          (fun _ => rfl)
          fun _ _ => rfl, hi1, hused, coalesced_coalesce hdrSize c cs⟩

/-- `kfree` of a block. -/
theorem Inv.kfree (hi : Inv h cs) (hc : c ∈ cs) : ∃ h' cs',
    Settles (cs.length + 1) (fun fuel => h.kfree fuel (c.addr + hdrSize)) h' ∧ Inv h' cs' ∧
      Coalesced hdrSize cs' ∧ ∀ d : Chunk, d.free = false →
        (d ∈ cs' ↔ d ∈ cs ∧ d.addr ≠ c.addr) := by
  obtain ⟨cs₁, cs₂, rfl⟩ := append_of_mem hc
  have hb := hi.bounds hc
  have hblk : (c.addr + hdrSize + 2 ^ 32 - hdrSize) % 2 ^ 32 = c.addr := by
    unfold hdrSize pageSize at *
    omega
  have hptr : c.addr + hdrSize ≠ 0 := by simp [hdrSize]
  have hmid : Inv h (cs₁ ++ [c] ++ cs₂) := by simpa using hi
  have hrest := sameRest_setFree h c.addr true
  have hfreed : Inv (h.setFree c.addr true) (cs₁ ++ [{ c with free := true }] ++ cs₂) := by
    refine ⟨hmid.toHolds.replace hrest
      (fun d hd => sameHdr_setFree _ _ (hi.hdrApart_mid hd (by omega)))
      (fun a x hl => by simpa [Leads] using hl) fun d hd => ?_,
      hmid.toTiling.replace hrest (fun x => rfl) fun d hd => ?_⟩
    · obtain rfl := mem_singleton.mp hd
      exact ⟨by simpa using hi.size c hc, by simp⟩
    · obtain rfl := mem_singleton.mp hd
      exact hi.aligned c hc
  obtain ⟨h', cs', hloop, hi', hsame, hcoal⟩ := Inv.mergeLoop _ hfreed rfl
  have hkfree : (fun fuel => h.kfree fuel (c.addr + hdrSize)) =
      fun fuel => Heap.mergeLoop fuel fuel (h.setFree c.addr true) := by
    simp only [Heap.kfree, hptr, if_false, hblk, hi.hdrMapped hc, if_true]
  have hsettles := hloop.diag
  rw [← hkfree] at hsettles
  refine ⟨h', cs', hsettles.mono (by simp), hi', hcoal, fun d hd => ?_⟩
  · rw [hsame d hd]
    have hne : d ≠ { c with free := true } := by
      rintro rfl
      simp at hd
    have hother : d ∈ cs₁ ++ cs₂ → d.addr ≠ c.addr := by
      intro hmem heq
      have hap := hi.apart_mid hmem
      simp only [Apart, Chunk.span, hdrSize] at hap
      omega
    constructor
    · intro hmem
      have hmem' : d ∈ cs₁ ++ cs₂ := by simpa [hne] using hmem
      refine ⟨?_, hother hmem'⟩
      rcases mem_append.mp hmem' with h1 | h2
      · exact mem_append_left _ h1
      · exact mem_append_right _ (mem_cons_of_mem _ h2)
    · rintro ⟨hmem, haddr⟩
      have hnc : d ≠ c := fun heq => haddr (by rw [heq])
      simpa [hne, hnc] using hmem

end

end Heap

/-! ## runs -/

namespace HeapUse

/-- The pointers that `kmalloc` has returned and `kfree` has not got back lead to the
blocks in use. -/
structure Inv (u : HeapUse) (cs : List Chunk) : Prop extends Heap.Inv u.toHeap cs where
  live : ∀ p, p ∈ u.live ↔ ∃ c ∈ cs, c.free = false ∧ p = c.addr + hdrSize
  distinct : u.live.Nodup

section

variable {u u' : HeapUse} {cs : List Chunk}

theorem Fresh.inv (hf : Fresh u) : Inv u [] where
  links := hf.head
  size := by simp
  free := by simp
  tiles := by simp [hf.pages]
  aligned := by simp
  pages := by simp [hf.pages]
  nodup := by simp [hf.pages]
  live := by simp [hf.live]
  distinct := by simp [hf.live]

/-- The chunk of a live pointer. -/
theorem Inv.chunk (hi : Inv u cs) {p : Nat} (hp : p ∈ u.live) :
    ∃ c ∈ cs, c.free = false ∧ p = c.addr + hdrSize ∧ u.size (p - hdrSize) = c.size := by
  obtain ⟨c, hc, hused, rfl⟩ := (hi.live p).mp hp
  refine ⟨c, hc, hused, rfl, ?_⟩
  exact hi.size c hc

/-- No header changes when no byte of a header does. -/
theorem Inv.setMem (hi : Inv u cs) {mem : Bytes} (mapped : Nat → Bool)
    (hmem : ∀ c ∈ cs, ∀ k < hdrSize, mem (c.addr + k) = u.mem (c.addr + k)) :
    Inv { u with mem := mem, mapped := mapped } cs := by
  have hsame : ∀ c ∈ cs, Heap.SameHdr u.toHeap { u.toHeap with mem := mem, mapped := mapped }
      c.addr := by
    intro c hc
    have hword : ∀ k, k + 4 ≤ hdrSize → load32 mem (c.addr + k) = load32 u.mem (c.addr + k) := by
      intro k hk
      refine load32_congr fun i hi => ?_
      rw [Nat.add_assoc]
      exact hmem c hc _ (by omega)
    refine ⟨hword 0 (by decide), ?_, hword 8 (by decide)⟩
    unfold Heap.free
    rw [hword 4 (by decide)]
  exact ⟨⟨hi.toHolds.congr ⟨rfl, rfl, rfl⟩ hsame, ⟨hi.tiles, hi.aligned, hi.pages, hi.nodup⟩⟩,
    hi.live, hi.distinct⟩

/-- A store that is allowed leaves the headers alone. -/
theorem Inv.store (hi : Inv u cs) {a : Nat} {v : UInt8} (ha : u.Owned a ∨ ¬u.InPages a) :
    Inv { u with mem := update u.mem a v } cs := by
  have hout : ∀ c ∈ cs, a < c.addr ∨ c.addr + hdrSize ≤ a := by
    intro d hd
    rcases ha with ⟨p, hp, hlo, hhi⟩ | hpages
    · obtain ⟨c, hc, -, rfl, hsize⟩ := hi.chunk hp
      by_cases heq : c.addr = d.addr
      · omega
      · have hap := hi.apart_of_ne hc hd heq
        simp only [Apart, Chunk.span] at hap
        omega
    · by_contra hin
      exact hpages (hi.inPage hd (by omega))
  refine hi.setMem u.mapped fun c hc k hk => update_of_ne ?_ _ _
  have := hout c hc
  omega

/-- The headers are in the memory that every address space has. -/
theorem Inv.space (hi : Inv u cs) (mem : Bytes) (mapped : Nat → Bool) :
    Inv { u with mem := fun a => if a < identityEnd then u.mem a else mem a, mapped := mapped }
      cs := by
  refine hi.setMem mapped fun c hc k hk => if_pos ?_
  have hb := hi.bounds hc
  unfold identityEnd identityTables
  omega

/-- The live pointers when the same chunks are in use. -/
theorem Inv.live_of_sameUsed (hi : Inv u cs) {cs' : List Chunk} (hs : Heap.SameUsed cs cs')
    (p : Nat) :
    p ∈ u.live ↔ ∃ c ∈ cs', c.free = false ∧ p = c.addr + hdrSize := by
  rw [hi.live p]
  constructor
  · rintro ⟨c, hc, hused, rfl⟩
    exact ⟨c, (hs c hused).mpr hc, hused, rfl⟩
  · rintro ⟨c, hc, hused, rfl⟩
    exact ⟨c, (hs c hused).mp hc, hused, rfl⟩

/-- An operation ends, and the heap stays as it should be; or the operation comes to a page that
is not in the identity map. -/
def Steps (u : HeapUse) (cs : List Chunk) (op : HeapOp) : Prop :=
  (∃ n u' cs', Settles n (fun fuel => u.step fuel op) u' ∧ Inv u' cs' ∧
    (Coalesced hdrSize cs → Coalesced hdrSize cs')) ∨
  Heap.Strays u.toHeap fun fuel => (u.step fuel op).map toHeap

theorem Inv.malloc (hi : Inv u cs) (size : UInt32) : u.Steps cs (.malloc size) := by
  obtain ⟨ptr, h', cs', hsettles, hi', hres, hcoal⟩ | hstray := hi.kmalloc size
  swap
  · refine .inr ⟨hstray.1, fun fuel h' hstep => hstray.2 fuel h' ?_⟩
    simpa [HeapUse.step, Function.comp_def] using hstep
  refine .inl ⟨_, _, cs', hsettles.map _, ⟨hi', fun p => ?_, ?_⟩, hcoal⟩
  · obtain ⟨rfl, hs⟩ | ⟨e, hg, rfl⟩ := hres
    · exact hi.live_of_sameUsed hs p
    · have hne : e.addr + hdrSize ≠ 0 := by simp [hdrSize]
      simp only [hne, if_false, mem_cons, hi.live p]
      constructor
      · rintro (rfl | ⟨c, hc, hused, rfl⟩)
        · exact ⟨e, hg.mem, hg.used, rfl⟩
        · exact ⟨c, (hg.others c hused).mpr (.inr hc), hused, rfl⟩
      · rintro ⟨c, hc, hused, rfl⟩
        rcases (hg.others c hused).mp hc with rfl | hold
        · exact .inl rfl
        · exact .inr ⟨c, hold, hused, rfl⟩
  · obtain ⟨rfl, -⟩ | ⟨e, hg, rfl⟩ := hres
    · exact hi.distinct
    · have hne : e.addr + hdrSize ≠ 0 := by simp [hdrSize]
      simp only [hne, if_false, nodup_cons, hi.live]
      refine ⟨?_, hi.distinct⟩
      rintro ⟨c, hc, hused, heq⟩
      exact hg.fresh c hc hused (Nat.add_right_cancel heq).symm

theorem Inv.free_step (hi : Inv u cs) {ptr : Nat} (hptr : ptr = 0 ∨ ptr ∈ u.live) :
    u.Steps cs (.free ptr) := by
  rcases hptr with rfl | hptr
  · have h0 : 0 ∉ u.live := by
      rw [hi.live]
      rintro ⟨c, -, -, hc⟩
      simp [hdrSize] at hc
    have hkeep : u.live.filter (· != 0) = u.live :=
      filter_eq_self.mpr fun p hp => bne_iff_ne.mpr fun heq => h0 (heq ▸ hp)
    have hnull : ∀ fuel, u.step fuel (.free 0) = some u := by
      intro fuel
      rw [HeapUse.step, show u.kfree fuel 0 = some u.toHeap from if_pos rfl, hkeep]
      rfl
    exact .inl ⟨0, u, cs, fun fuel => .inl (hnull fuel), hi, id⟩
  · obtain ⟨c, hc, -, rfl, -⟩ := hi.chunk hptr
    obtain ⟨h', cs', hfree, hi', hcoal, hothers⟩ := hi.toInv.kfree hc
    have hstep := hfree.map fun h =>
      ({ toHeap := h, live := u.live.filter (· != c.addr + hdrSize) } : HeapUse)
    refine .inl ⟨_, _, cs', hstep, ⟨hi', fun p => ?_, hi.distinct.filter _⟩, fun _ => hcoal⟩
    simp only [mem_filter, hi.live p, bne_iff_ne]
    constructor
    · rintro ⟨⟨d, hd, hdu, rfl⟩, hne⟩
      exact ⟨d, (hothers d hdu).mpr ⟨hd, fun heq => hne (by rw [heq])⟩, hdu, rfl⟩
    · rintro ⟨d, hd, hdu, rfl⟩
      obtain ⟨hd', hne⟩ := (hothers d hdu).mp hd
      exact ⟨⟨d, hd', hdu, rfl⟩, fun heq => hne (Nat.add_right_cancel heq)⟩

theorem Inv.step (hi : Inv u cs) {op : HeapOp} (hop : u.Allowed op) : u.Steps cs op := by
  cases op with
  | init =>
    obtain ⟨ok, h', cs', hgrow, hi', hs, -, hcoal, -⟩ | hstray := hi.heapGrow
    · exact .inl ⟨_, { u with toHeap := h' }, cs',
        (hgrow.map Prod.snd).map fun h => { u with toHeap := h },
        ⟨hi', hi.live_of_sameUsed hs, hi.distinct⟩, hcoal⟩
    · refine .inr ⟨hstray.1, fun fuel h' hstep => hstray.2 fuel h' ?_⟩
      simpa [HeapUse.step, Heap.heapInit, Function.comp_def] using hstep
  | malloc size => exact hi.malloc size
  | free ptr => exact hi.free_step hop
  | store a v => exact .inl ⟨0, _, cs, .pure _ _, hi.store hop, id⟩
  | pmm p => exact .inl ⟨0, _, cs, .pure _ _, ⟨hi.setPmm hop, hi.live, hi.distinct⟩, id⟩
  | space mem mapped => exact .inl ⟨0, _, cs, .pure _ _, hi.space mem mapped, id⟩

/-- All pages of the heap are in the identity map. -/
def LowPages (u : HeapUse) : Prop := u.toHeap.Low

theorem Run.inv {u₀ : HeapUse} (hfresh : Fresh u₀) (hrun : Run LowPages u₀ u) :
    ∃ cs, Inv u cs ∧ Coalesced hdrSize cs := by
  induction hrun with
  | nil => exact ⟨[], hfresh.inv, .nil⟩
  | step fuel op _ hop hstep hlow ih =>
    obtain ⟨cs, hi, hcs⟩ := ih
    obtain ⟨n, v, cs', hv, hi', hcoal⟩ | ⟨-, hstray⟩ := hi.step hop
    · obtain rfl := hv.eq_of_some hstep
      exact ⟨cs', hi', hcoal hcs⟩
    · exact absurd hlow (hstray fuel _ (by simp [hstep]))

/-- No page beyond the identity map is free. -/
def NoHighFree (u : HeapUse) : Prop :=
  ∀ p < pagesMax, pageIsFree u.pmm p → p * pageSize < identityEnd

theorem NoHighFree.not_strays {α : Type} {f : α → Option Heap} (h : u.NoHighFree) :
    ¬Heap.Strays u.toHeap f := by
  rintro ⟨⟨p, hp, hfree, hhigh⟩, -⟩
  have := h p hp hfree
  omega

/-- The blocks of the heap tile its pages. -/
theorem Inv.partition (hi : Inv u cs) :
    (∀ x, u.InPages x ↔ ∃ a ∈ cs.map Chunk.addr, a ≤ x ∧ x < a + hdrSize + u.size a) ∧
    (cs.map Chunk.addr).Pairwise fun a b => a + hdrSize + u.size a ≤ b ∨
      b + hdrSize + u.size b ≤ a := by
  constructor
  · intro x
    have hpages : u.InPages x ↔ 0 < cover (u.pages.map fun p => (p, pageSize)) x := by
      rw [cover_pos]
      simp [HeapUse.InPages]
    rw [hpages, ← hi.tiles x, cover_pos]
    simp only [List.mem_map, exists_exists_and_eq_and, Chunk.span]
    refine exists_congr fun c => and_congr_right fun hc => ?_
    rw [hi.size c hc, Nat.add_assoc]
  · have hap := hi.apart
    rw [pairwise_map] at hap ⊢
    refine hap.imp_of_mem fun {c d} hc hd hcd => ?_
    simp only [Apart, Chunk.span] at hcd
    rw [hi.size c hc, hi.size d hd]
    omega

/-- A live allocation: aligned, and apart from the others and from all headers. -/
theorem Inv.live_apart (hi : Inv u cs) {p : Nat} (hp : p ∈ u.live) : p % 4 = 0 ∧
    (∀ q ∈ u.live, q ≠ p → p + u.size (p - hdrSize) ≤ q ∨ q + u.size (q - hdrSize) ≤ p) ∧
    ∀ a ∈ cs.map Chunk.addr, a + hdrSize ≤ p ∨ p + u.size (p - hdrSize) ≤ a := by
  obtain ⟨c, hc, -, rfl, hsize⟩ := hi.chunk hp
  have hal := hi.aligned c hc
  have happart : ∀ d ∈ cs, c.addr ≠ d.addr →
      c.addr + hdrSize + c.size ≤ d.addr ∨ d.addr + hdrSize + d.size ≤ c.addr := by
    intro d hd hne
    have hap := hi.apart_of_ne hc hd hne
    simp only [Apart, Chunk.span] at hap
    omega
  refine ⟨by simp only [hdrSize]; omega, fun q hq hne => ?_, fun a ha => ?_⟩
  · obtain ⟨d, hd, -, rfl, hsize'⟩ := hi.chunk hq
    have := happart d hd fun heq => hne (by rw [heq])
    omega
  · obtain ⟨d, hd, rfl⟩ := List.mem_map.mp ha
    by_cases heq : c.addr = d.addr
    · exact .inl (by omega)
    · have := happart d hd heq
      omega

end

end HeapUse

open HeapUse

/-- **The heap is a partition of its pages** while these are in the identity map.  After any
calls of `heap_init`, `kmalloc` and `kfree`, the links lead from `heap_head` once through the
blocks to NULL; header and payload of the blocks cover the pages got from the PMM, without gap
or overlap; the live allocations are the blocks in use; and a live pointer is aligned, and its
payload apart from the other live ones and from every header.  Every further call comes to an
end if no page beyond the identity map is free. -/
theorem heap_partition {u₀ u : HeapUse} (hfresh : Fresh u₀) (hrun : Run LowPages u₀ u) :
    (∃ blocks : List Nat, Leads u.next u.head blocks 0 ∧ 0 ∉ blocks ∧ blocks.Nodup ∧
      (∀ x, u.InPages x ↔ ∃ a ∈ blocks, a ≤ x ∧ x < a + hdrSize + u.size a) ∧
      (blocks.Pairwise fun a b => a + hdrSize + u.size a ≤ b ∨ b + hdrSize + u.size b ≤ a) ∧
      (∀ p, p ∈ u.live ↔ ∃ a ∈ blocks, u.free a = false ∧ p = a + hdrSize) ∧
      ∀ p ∈ u.live, p % 4 = 0 ∧
        (∀ q ∈ u.live, q ≠ p → p + u.size (p - hdrSize) ≤ q ∨ q + u.size (q - hdrSize) ≤ p) ∧
        ∀ a ∈ blocks, a + hdrSize ≤ p ∨ p + u.size (p - hdrSize) ≤ a) ∧
    ∀ op, u.Allowed op → u.NoHighFree → ∃ n u', ∀ fuel, n ≤ fuel → u.step fuel op = some u' := by
  obtain ⟨cs, hi, -⟩ := hrun.inv hfresh
  obtain ⟨htiles, hapart⟩ := hi.partition
  refine ⟨⟨cs.map Chunk.addr, hi.links, hi.zero_notMem, ?_, htiles, hapart, fun p => ?_,
    fun p hp => hi.live_apart hp⟩, fun op hop hfree => ?_⟩
  · refine hapart.imp fun {a b} hab heq => ?_
    simp only [heq, hdrSize] at hab
    omega
  · rw [hi.live p]
    simp only [List.mem_map, exists_exists_and_eq_and]
    exact exists_congr fun c => and_congr_right fun hc => by rw [hi.free c hc]
  · obtain ⟨n, u', cs', hu', -, -⟩ | hstray := hi.step hop
    · exact ⟨n, u', fun fuel hfuel => hu'.total hfuel⟩
    · exact absurd hstray hfree.not_strays

theorem HeapUse.low_of_pages {u : HeapUse} (h : u.pages = [0x1000]) : u.LowPages := by
  intro p hp
  obtain rfl := mem_singleton.mp (h ▸ hp)
  decide

/-- A heap whose PMM has page `n` to give. -/
def onePageAt (n : Nat) : HeapUse where
  mem := fun _ => 0
  mapped := fun _ => false
  head := 0
  pmm := ⟨fun i => if i = n / 8 then ~~~(1#8 <<< (n % 8)) else 0xFF#8, 1, fun _ => 0⟩
  pages := []
  live := []

/-- A heap whose PMM has page 1 to give. -/
def onePage : HeapUse := onePageAt 1

theorem pageIsFree_onePageAt {n p : Nat} (hp : pageIsFree (onePageAt n).pmm p) : p = n := by
  have hbits : ∀ k < 8, 0xFF#8 &&& 1#8 <<< k ≠ 0#8 := by decide
  have hone : ∀ j < 8, ∀ k < 8, (~~~(1#8 <<< j) &&& 1#8 <<< k == 0#8) = true → k = j := by decide
  unfold pageIsFree at hp
  by_cases h0 : p / 8 = n / 8
  · simp only [onePageAt, h0, if_true] at hp
    have := hone (n % 8) (by omega) (p % 8) (by omega) hp
    omega
  · simp only [onePageAt, h0, if_false, beq_iff_eq] at hp
    exact absurd hp (hbits (p % 8) (by omega))

theorem pmmAlloc_onePageAt {n : Nat} (hn : n < pagesMax) :
    pmmAlloc (onePageAt n).pmm = (n * pageSize, (onePageAt n).pmm.grant n) := by
  obtain ⟨p, -, hfree, -, heq⟩ | ⟨hnone, -⟩ := pmmAlloc_cases (onePageAt n).pmm
  · obtain rfl := pageIsFree_onePageAt hfree
    exact heq
  · have hone : ∀ j < 8, (~~~(1#8 <<< j) &&& 1#8 <<< j == 0#8) = true := by decide
    have hused := hnone n hn
    simp only [pageIsFree, onePageAt, if_true, hone (n % 8) (by omega)] at hused
    cases hused

/-- 5 bytes are taken from the page, and given back. -/
theorem onePage_malloc : ∃ u, onePage.step 2 (.malloc 5) = some u ∧ Run LowPages onePage u ∧
    u.live = [0x100C] ∧ ∃ u', u.step 3 (.free 0x100C) = some u' ∧ u'.pages = [0x1000] ∧
      u'.live = [] ∧ u'.size 0x1000 = 4084 := by
  have htest : (onePage.step 2 (.malloc 5)).any (fun u => u.pages == [0x1000] &&
      u.live == [0x100C] && (u.step 3 (.free 0x100C)).any fun u' => u'.pages == [0x1000] &&
        u'.live == [] && u'.size 0x1000 == 4084) = true := by decide +kernel
  obtain ⟨u, hmalloc, htest⟩ := (Option.any_eq_true _ _).mp htest
  simp only [Bool.and_eq_true, beq_iff_eq] at htest
  obtain ⟨⟨hpages, hlive⟩, htest⟩ := htest
  obtain ⟨u', hfree, htest⟩ := (Option.any_eq_true _ _).mp htest
  simp only [Bool.and_eq_true, beq_iff_eq, and_assoc] at htest
  exact ⟨u, hmalloc, .step 2 (.malloc 5) .nil trivial hmalloc (low_of_pages hpages), hlive, u',
    hfree, htest⟩

/-- 5 bytes from a heap of one page: 8 bytes behind the first header. -/
theorem heap_partition_malloc : ∃ u, Run LowPages onePage u ∧ u.live = [0x100C] ∧
    ∃ blocks : List Nat, Leads u.next u.head blocks 0 ∧ blocks.Nodup ∧
      (∀ p, p ∈ u.live ↔ ∃ a ∈ blocks, u.free a = false ∧ p = a + hdrSize) := by
  obtain ⟨u, -, hrun, hlive, -⟩ := onePage_malloc
  obtain ⟨⟨blocks, hlinks, -, hnodup, -, -, hiff, -⟩, -⟩ := heap_partition ⟨rfl, rfl, rfl⟩ hrun
  exact ⟨u, hrun, hlive, blocks, hlinks, hnodup, hiff⟩

/-- The PMM has page 0x8000 to give, at 128 MB, where the process that runs has a page, too. -/
def strayHeap : HeapUse := { onePageAt 0x8000 with mapped := fun a => a / pageSize == 0x8000 }

/-- The header goes to the page of the process, which may have anything there later on. -/
theorem strayHeap_space (mem : Bytes) : ∃ u, Run (fun _ => True) strayHeap u ∧
    u.head = 0x8000000 ∧ u.pages = [0x8000000] ∧ ∀ b, identityEnd ≤ b →
      u.size b = load32 mem b ∧ u.free b = (load32 mem (b + 4) != 0) ∧
        u.next b = load32 mem (b + 8) := by
  obtain ⟨u, hinit, hhead, hpages⟩ : ∃ u, strayHeap.step 1 .init = some u ∧ u.head = 0x8000000 ∧
      u.pages = [0x8000000] := by
    have hgrow : ∃ h, strayHeap.heapGrow 1 = some (true, h) ∧ h.head = 0x8000000 ∧
        h.pages = [0x8000000] := by
      have halloc : pmmAlloc strayHeap.pmm = _ := pmmAlloc_onePageAt (by decide)
      unfold Heap.heapGrow
      rw [halloc]
      exact ⟨_, rfl, rfl, rfl⟩
    obtain ⟨h, hgrow, hrest⟩ := hgrow
    exact ⟨{ strayHeap with toHeap := h }, by simp [HeapUse.step, Heap.heapInit, hgrow], hrest⟩
  refine ⟨_, .step 0 (.space mem fun _ => false) (.step 1 .init .nil trivial hinit trivial) trivial
    rfl trivial, hhead, hpages, fun b hb => ?_⟩
  have hword : ∀ k, load32 (fun a => if a < identityEnd then u.mem a else mem a) (b + k) =
      load32 mem (b + k) := fun k => load32_congr fun i _ => if_neg (by omega)
  exact ⟨hword 0, by rw [Heap.free, hword], hword 8⟩

/-- The block that the header describes then does not cover the page. -/
theorem heap_partition_stray : ∃ u, Run (fun _ => True) strayHeap u ∧
    ¬∃ blocks : List Nat, Leads u.next u.head blocks 0 ∧ 0 ∉ blocks ∧
      ∀ x, u.InPages x ↔ ∃ a ∈ blocks, a ≤ x ∧ x < a + hdrSize + u.size a := by
  obtain ⟨u, hrun, hhead, hpages, hmem⟩ := strayHeap_space fun _ => 0
  obtain ⟨hsize, -, hnext⟩ := hmem 0x8000000 (by decide)
  refine ⟨u, hrun, ?_⟩
  rintro ⟨blocks, hlinks, h0, hcover⟩
  have hblocks : ∀ a ∈ blocks, a = 0x8000000 := by
    rw [hhead] at hlinks
    match blocks, hlinks with
    | a :: rest, hlinks =>
      obtain ⟨rfl, hrest⟩ := hlinks
      rw [hnext, show load32 (fun _ => 0) (0x8000000 + 8) = 0 from rfl] at hrest
      match rest, hrest with
      | [], _ => simp
      | b :: _, hrest =>
        obtain ⟨rfl, -⟩ := hrest
        simp at h0
  have hin : u.InPages 0x8000100 := ⟨0x8000000, by simp [hpages], by decide, by decide⟩
  obtain ⟨a, ha, -, hhi⟩ := (hcover _).mp hin
  rw [hblocks a ha, hsize] at hhi
  exact absurd hhi (by decide)

end AliOS
