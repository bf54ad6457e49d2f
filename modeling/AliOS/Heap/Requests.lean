import AliOS.Heap.Partition

/-!
# AliOS.Heap.Requests

What a single request may rely on.

`kmalloc` rounds the size up to a multiple of 4 in 32 bits, so the three largest sizes
become 0, and a block of any size will do for them.  All other sizes are honoured while
the pages of the heap lie in the identity map (`kmalloc_honours_iff`).

When no block fits, `kmalloc` adds pages to the heap one by one until one does.  If the
PMM runs out of pages first, it returns NULL and the pages stay in the heap
(`kmalloc_null_unchanged_iff`).

`kfree` joins neighbours, and neither `kmalloc` nor `heap_grow` makes any that join
(`heap_coalesced`).

Both return: a round of `kmalloc` that finds no block takes a page of the PMM, and a pass
of `kfree` that joins blocks makes the list shorter (`heap_calls_return`).
-/

namespace AliOS

open Lib Option

/-! ## the size of a block -/

/-- The block at `ptr` has `size` bytes of payload; its payload lies in the pages of the
heap `h'`, apart from what was live in `u`. -/
def HeapUse.Honours (u : HeapUse) (size : UInt32) (ptr : Nat) (h' : Heap) : Prop :=
  size.toNat ≤ h'.size (ptr - hdrSize) ∧
  ∀ x, ptr ≤ x → x < ptr + h'.size (ptr - hdrSize) →
    HeapUse.InPages { u with toHeap := h' } x ∧
      ∀ q ∈ u.live, ¬(q ≤ x ∧ x < q + h'.size (q - hdrSize))

namespace Heap

/-- The payload of a chunk that comes into use. -/
theorem Granted.apart {u : HeapUse} {h' : Heap} {cs cs' : List Chunk} {size : Nat} {e : Chunk}
    (hg : Granted cs cs' size e) (hi : HeapUse.Inv u cs) (hi' : Inv h' cs') {x : Nat}
    (hlo : e.addr + hdrSize ≤ x) (hhi : x < e.addr + hdrSize + e.size) :
    HeapUse.InPages { u with toHeap := h' } x ∧
      ∀ q ∈ u.live, ¬(q ≤ x ∧ x < q + h'.size (q - hdrSize)) := by
  refine ⟨hi'.inPage hg.mem (by omega), fun q hq hx => ?_⟩
  obtain ⟨d, hd, hused, rfl⟩ := (hi.live q).mp hq
  have hd' : d ∈ cs' := (hg.others d hused).mpr (.inr hd)
  have hap := hi'.apart_of_ne hg.mem hd' (hg.fresh d hd hused).symm
  rw [Nat.add_sub_cancel, hi'.size d hd'] at hx
  simp only [Apart, Chunk.span] at hap
  omega

end Heap

open HeapUse

/-- **`kmalloc` honours a size iff it can round it up**, while the pages of the heap are in the
identity map.  In every state that is reached `kmalloc` returns if no page beyond is free.  If
it has taken none, a block that it returns has the payload that was asked for, in the pages of
the heap and apart from the other live allocations, iff the size is at most 2³² - 4. -/
theorem kmalloc_honours_iff {u₀ u : HeapUse} (hfresh : Fresh u₀) (hrun : Run LowPages u₀ u)
    (size : UInt32) :
    (u.NoHighFree → ∃ n r, ∀ fuel, n ≤ fuel → u.kmalloc fuel size = some r) ∧
    ∀ fuel ptr h', u.kmalloc fuel size = some (ptr, h') → ptr ≠ 0 → h'.Low →
      (u.Honours size ptr h' ↔ size.toNat ≤ 0xFFFFFFFC) := by
  obtain ⟨cs, hi, -⟩ := hrun.inv hfresh
  obtain ⟨ptr0, h0, cs', hsettles, hi', hres, -⟩ | hstray := hi.kmalloc size
  · refine ⟨fun _ => ⟨_, _, fun fuel hfuel => hsettles.total hfuel⟩,
      fun fuel ptr h' hcall hptr _ => ?_⟩
    obtain ⟨rfl, rfl⟩ := Prod.mk.inj (hsettles.eq_of_some hcall)
    obtain ⟨rfl, -⟩ | ⟨e, hg, rfl⟩ := hres
    · exact absurd rfl hptr
    · have hsize : h'.size (e.addr + hdrSize - hdrSize) = e.size := hi'.size e hg.mem
      unfold Honours
      rw [hsize]
      constructor
      · -- no block is as large as the sizes that wrap around
        have hb := hi'.bounds hg.mem
        omega
      · intro hle
        exact ⟨Nat.le_trans (by unfold Heap.roundUp; omega) hg.size,
          fun x hlo hhi => hg.apart hi hi' hlo hhi⟩
  · exact ⟨fun hfree => absurd hstray hfree.not_strays,
      fun fuel ptr h' hcall _ hlow => absurd hlow (hstray.2 fuel h' (by simp [hcall]))⟩

/-- 5 bytes from a heap of one page. -/
theorem kmalloc_honours_five : ∃ h', onePage.kmalloc 2 5 = some (0x100C, h') ∧
    onePage.Honours 5 0x100C h' := by
  have htest : (onePage.kmalloc 2 5).any (fun r => r.1 == 0x100C && r.2.pages == [0x1000]) =
      true := by
    decide +kernel
  obtain ⟨⟨ptr, h'⟩, hcall, htest⟩ := (Option.any_eq_true _ _).mp htest
  simp only [Bool.and_eq_true, beq_iff_eq] at htest
  obtain ⟨rfl, hpages⟩ := htest
  have hlow : h'.Low := HeapUse.low_of_pages (u := { onePage with toHeap := h' }) hpages
  have hiff := (kmalloc_honours_iff ⟨rfl, rfl, rfl⟩ .nil 5).2 2 0x100C h' hcall (by decide) hlow
  exact ⟨h', hcall, hiff.mpr (by decide)⟩

/-- Asked for 2³² - 1 bytes, `kmalloc` returns a block without payload. -/
theorem kmalloc_not_honours : ∃ u, Run LowPages onePage u ∧
    ∃ h', u.kmalloc 2 0xFFFFFFFF = some (0x100C, h') ∧ h'.Low ∧
      h'.size 0x1000 = 0 ∧ ¬u.Honours 0xFFFFFFFF 0x100C h' := by
  have htest : (onePage.kmalloc 2 0xFFFFFFFF).any
      (fun r => r.1 == 0x100C && r.2.pages == [0x1000] && r.2.size 0x1000 == 0) = true := by
    decide +kernel
  obtain ⟨⟨ptr, h'⟩, hcall, htest⟩ := (Option.any_eq_true _ _).mp htest
  simp only [Bool.and_eq_true, beq_iff_eq] at htest
  obtain ⟨⟨rfl, hpages⟩, hsize⟩ := htest
  refine ⟨onePage, .nil, h', hcall,
    HeapUse.low_of_pages (u := { onePage with toHeap := h' }) hpages, hsize, fun hhon => ?_⟩
  have hle : (0xFFFFFFFF : UInt32).toNat ≤ h'.size 0x1000 := hhon.1
  rw [hsize] at hle
  exact absurd hle (by decide)

/-! ## NULL -/

namespace Heap

section

variable {h h' : Heap} {fuel n : Nat}

/-- The PMM and the block list are the same. -/
def SameState (h h' : Heap) : Prop := h'.pmm = h.pmm ∧ ∀ cs, Holds h' cs ↔ Holds h cs

/-- `heap_grow` without a page. -/
theorem heapGrow_of_none (hnone : ∀ p < pagesMax, pageIsFree h.pmm p = false) :
    h.heapGrow fuel = some (false, h) := by
  unfold Heap.heapGrow
  obtain ⟨p, hp, hfree, -⟩ | ⟨-, heq⟩ := pmmAlloc_cases h.pmm
  · simp [hnone p hp] at hfree
  · rw [heq]
    rfl

/-- An iteration of `kmalloc` that finds no block. -/
theorem kmallocRound_of_none {size : Nat} {ok : Bool} {h1 : Heap}
    {retry : Heap → Option (Nat × Heap)}
    (hfind : h.search (h.fits size) fuel = some none) (hgrow : h.heapGrow fuel = some (ok, h1)) :
    h.kmallocRound fuel size retry = if ok then retry h1 else some (0, h1) := by
  rw [Heap.kmallocRound, hfind, bind_some, hgrow, bind_some]
  cases ok <;> rfl

theorem kmalloc_eq (h : Heap) {size : UInt32} (hsize : size ≠ 0) :
    h.kmalloc fuel size = h.kmallocLoop fuel (roundUp size) fuel := if_neg hsize

/-- A first iteration that fails has taken a page that was free, if there is one. -/
theorem kmallocLoop_null {size : Nat} {cs : List Chunk} (hh : Holds h cs)
    (hlow : ∀ c ∈ cs, c.addr + hdrSize < 2 ^ 32)
    (hloop : h.kmallocLoop fuel size n = some (0, h')) :
    (∃ p < pagesMax, pageIsFree h.pmm p ∧ pageIsFree h'.pmm p = false) ∨
    (∀ p < pagesMax, pageIsFree h.pmm p = false) ∧ h' = h := by
  cases n with
  | zero => exact nomatch hloop
  | succ n =>
    obtain ⟨cur, hfind, hptr, -⟩ | ⟨-, ok, h1, hgrow, hrest⟩ := kmallocRound_cases hloop
    · -- the pointer to a block of the list is not NULL
      obtain ⟨c, hc, rfl⟩ := hh.search_mem hfind
      have hlt := hlow c hc
      rw [Nat.mod_eq_of_lt hlt] at hptr
      simp [hdrSize] at hptr
    · obtain ⟨p, hp, hfree, -, hpmm, -⟩ | ⟨hnone, rfl, rfl⟩ := heapGrow_cases hgrow
      · have hp1 : pageIsFree h1.pmm p = false := by simp [hpmm]
        refine .inl ⟨p, hp, hfree, ?_⟩
        cases ok with
        | true => exact (kmallocLoop_keeps hrest).2 p hp1
        | false =>
          obtain ⟨-, rfl⟩ := hrest
          exact hp1
      · exact .inr ⟨hnone, hrest.2⟩

end

end Heap

open Heap in
/-- **A `kmalloc` that fails leaves its pages in the heap.**  Let the heap be any list of
blocks, with the PMM in any state.  When `kmalloc` returns NULL, the PMM and the block
list are as before iff nothing was asked for or the PMM had no free page to begin with. -/
theorem kmalloc_null_unchanged_iff {h h' : Heap} {cs : List Chunk} (hh : Holds h cs)
    (hlow : ∀ c ∈ cs, c.addr + hdrSize < 2 ^ 32) {fuel : Nat} {size : UInt32}
    (hcall : h.kmalloc fuel size = some (0, h')) :
    SameState h h' ↔ size = 0 ∨ ∀ p < pagesMax, pageIsFree h.pmm p = false := by
  unfold Heap.kmalloc at hcall
  split at hcall
  · rename_i h0
    obtain ⟨-, rfl⟩ := Prod.mk.inj (some.inj hcall)
    exact iff_of_true ⟨rfl, fun _ => Iff.rfl⟩ (.inl h0)
  · rename_i h0
    obtain ⟨p, hp, hfree, hused⟩ | ⟨hnone, rfl⟩ := kmallocLoop_null hh hlow hcall
    · refine iff_of_false (fun hsame => ?_) ?_
      · rw [hsame.1, hfree] at hused
        exact nomatch hused
      · rintro (h0' | hnone)
        · exact h0 h0'
        · rw [hnone p hp] at hfree
          exact nomatch hfree
    · exact iff_of_true ⟨rfl, fun _ => Iff.rfl⟩ (.inr hnone)

/-- The heap of `onePage` after its page has been taken. -/
def onePageTaken : Heap :=
  { Heap.newBlock (onePage.toHeap.withPage 1) 0x1000 with head := 0x1000 }

theorem pageIsFree_onePageTaken (p : Nat) : pageIsFree onePageTaken.pmm p = false := by
  have hpmm : onePageTaken.pmm = onePage.pmm.grant 1 := rfl
  rw [hpmm, pageIsFree_grant]
  cases hp : pageIsFree onePage.pmm p with
  | false => rfl
  | true => simp [pageIsFree_onePageAt hp]

/-- No block has 5000 bytes. -/
theorem kmallocLoop_onePageTaken (n : Nat) :
    onePageTaken.kmallocLoop 3 (Heap.roundUp 5000) (n + 1) = some (0, onePageTaken) := by
  have hfind : onePageTaken.search (onePageTaken.fits (Heap.roundUp 5000)) 3 = some none := by
    decide +kernel
  exact Heap.kmallocRound_of_none hfind (Heap.heapGrow_of_none fun p _ => pageIsFree_onePageTaken p)

theorem kmalloc_onePageTaken : onePageTaken.kmalloc 3 5000 = some (0, onePageTaken) :=
  (Heap.kmalloc_eq onePageTaken (by decide)).trans (kmallocLoop_onePageTaken 2)

/-- A call that fails when the PMM has no page. -/
theorem kmalloc_null_no_page : onePageTaken.kmalloc 3 5000 = some (0, onePageTaken) ∧
    Heap.SameState onePageTaken onePageTaken := by
  have hholds : Heap.Holds onePageTaken [Heap.pageChunk 0x1000] := by
    have hnext : onePageTaken.next 0x1000 = 0 := by decide +kernel
    refine ⟨⟨rfl, hnext⟩, ?_, ?_⟩
    · decide +kernel
    · decide +kernel
  refine ⟨kmalloc_onePageTaken,
    (kmalloc_null_unchanged_iff hholds ?_ kmalloc_onePageTaken).mpr (.inr ?_)⟩
  · simp [Heap.pageChunk, hdrSize]
  · exact fun p _ => pageIsFree_onePageTaken p

/-- 5000 bytes from an empty heap when the PMM has one page: the page stays in the heap. -/
theorem kmalloc_null_takes_page : onePage.kmalloc 3 5000 = some (0, onePageTaken) ∧
    pageIsFree onePage.pmm 1 = true ∧ pageIsFree onePageTaken.pmm 1 = false ∧
    ¬Heap.SameState onePage.toHeap onePageTaken := by
  refine ⟨?_, by decide, pageIsFree_onePageTaken 1, fun hsame => ?_⟩
  · have hfind : onePage.search (onePage.fits (Heap.roundUp 5000)) 3 = some none := rfl
    have hgrow : onePage.heapGrow 3 = some (true, onePageTaken) := by
      unfold Heap.heapGrow
      rw [show onePage.pmm = (onePageAt 1).pmm from rfl, pmmAlloc_onePageAt (by decide)]
      rfl
    have hround : onePage.kmallocRound 3 (Heap.roundUp 5000)
        (Heap.kmallocLoop 3 (Heap.roundUp 5000) 2) =
        onePageTaken.kmallocLoop 3 (Heap.roundUp 5000) 2 :=
      (Heap.kmallocRound_of_none hfind hgrow).trans (if_pos rfl)
    exact (Heap.kmalloc_eq _ (by decide)).trans (hround.trans (kmallocLoop_onePageTaken 1))
  · have hused := pageIsFree_onePageTaken 1
    rw [hsame.1] at hused
    exact absurd hused (by decide)

/-! ## neighbours -/

/-- **The heap is coalesced** while its pages are in the identity map.  After any calls of
`heap_init`, `kmalloc` and `kfree`, no two neighbours of the list are both free with the second one
beginning where the first one ends. -/
theorem heap_coalesced {u₀ u : HeapUse} (hfresh : Fresh u₀) (hrun : Run LowPages u₀ u) :
    ∃ blocks : List Nat, Leads u.next u.head blocks 0 ∧ 0 ∉ blocks ∧
      blocks.IsChain fun a b => ¬(u.free a = true ∧ u.free b = true ∧
        a + hdrSize + u.size a = b) := by
  obtain ⟨cs, hi, hcs⟩ := hrun.inv hfresh
  refine ⟨cs.map Chunk.addr, hi.links, hi.zero_notMem, (List.isChain_map _).mpr ?_⟩
  refine hcs.imp_of_mem_imp fun c d hc hd hjoin => ?_
  rw [hi.free c hc, hi.free d hd, hi.size c hc]
  rw [Bool.eq_false_iff, ne_eq, Chunk.joins_iff] at hjoin
  exact hjoin

/-- 5 bytes are taken from a heap of one page and given back: one block again. -/
theorem heap_coalesced_freed : ∃ u, Run LowPages onePage u ∧ u.live = [] ∧ u.size 0x1000 = 4084 ∧
    ∃ blocks : List Nat, Leads u.next u.head blocks 0 ∧
      blocks.IsChain fun a b =>
        ¬(u.free a = true ∧ u.free b = true ∧ a + hdrSize + u.size a = b) := by
  obtain ⟨u1, -, hrun1, hlive1, u2, hfree, hpages2, hlive2, hsize⟩ := onePage_malloc
  have hrun := hrun1.step 3 (.free 0x100C) (.inr (by simp [hlive1])) hfree (low_of_pages hpages2)
  obtain ⟨blocks, hlinks, -, hchain⟩ := heap_coalesced ⟨rfl, rfl, rfl⟩ hrun
  exact ⟨u2, hrun, hlive2, hsize, blocks, hlinks, hchain⟩

/-- The process has two blocks of its own where the kernel keeps a header. -/
theorem heap_coalesced_stray : ∃ u, Run (fun _ => True) strayHeap u ∧
    Leads u.next u.head [0x8000000, 0x800000C] 0 ∧ u.free 0x8000000 = true ∧
    u.free 0x800000C = true ∧ 0x8000000 + hdrSize + u.size 0x8000000 = 0x800000C := by
  obtain ⟨u, hrun, hhead, -, hmem⟩ := strayHeap_space
    (store32 (store32 (store32 (fun _ => 0) 0x8000004 1) 0x8000008 0x800000C) 0x8000010 1)
  obtain ⟨hsize, hfree, hnext⟩ := hmem 0x8000000 (by decide)
  obtain ⟨-, hfree', hnext'⟩ := hmem 0x800000C (by decide)
  refine ⟨u, hrun, ⟨hhead, ?_, ?_⟩, ?_, ?_, ?_⟩
  · rw [hnext]
    decide +kernel
  · rw [Leads, hnext']
    decide +kernel
  · rw [hfree]
    decide +kernel
  · rw [hfree']
    decide +kernel
  · rw [hsize]
    decide +kernel

/-! ## the loops end -/

/-- **`kmalloc` and `kfree` return** while the pages of the heap are in the identity map.  In
every state that is reached the list of blocks is finite.  If no page beyond is free, `kmalloc`
returns NULL or a block of the size asked for that was not live, and needs no more iterations of
a loop than there are blocks and free pages, and one more; `kfree` of a live pointer needs one
more than there are blocks. -/
theorem heap_calls_return {u₀ u : HeapUse} (hfresh : Fresh u₀) (hrun : Run LowPages u₀ u) :
    ∃ blocks : List Nat, Leads u.next u.head blocks 0 ∧
      (u.NoHighFree → ∀ size : UInt32, ∃ ptr h',
        (∀ fuel, blocks.length + (freeSet u.pmm).card < fuel →
          u.kmalloc fuel size = some (ptr, h')) ∧
        (ptr = 0 ∨ ptr ∉ u.live ∧ h'.free (ptr - hdrSize) = false ∧
          Heap.roundUp size ≤ h'.size (ptr - hdrSize))) ∧
      ∀ ptr ∈ u.live, ∃ h', ∀ fuel, blocks.length < fuel → u.kfree fuel ptr = some h' := by
  obtain ⟨cs, hi, -⟩ := hrun.inv hfresh
  refine ⟨cs.map Chunk.addr, hi.links, fun hfree size => ?_, fun ptr hptr => ?_⟩
  · obtain ⟨ptr, h', cs', hsettles, hi', hres, -⟩ :=
      (hi.kmalloc size).resolve_right hfree.not_strays
    refine ⟨ptr, h', fun fuel hfuel => hsettles.total ?_, ?_⟩
    · rw [List.length_map] at hfuel
      exact hfuel
    · obtain ⟨hnull, -⟩ | ⟨e, hg, rfl⟩ := hres
      · exact .inl hnull
      · rw [Nat.add_sub_cancel, hi'.free e hg.mem, hi'.size e hg.mem]
        refine .inr ⟨fun hlive => ?_, hg.used, hg.size⟩
        obtain ⟨c, hc, hused, heq⟩ := (hi.live _).mp hlive
        exact hg.fresh c hc hused (Nat.add_right_cancel heq).symm
  · obtain ⟨c, hc, -, rfl, -⟩ := hi.chunk hptr
    obtain ⟨h', -, hsettles, -⟩ := hi.toInv.kfree hc
    refine ⟨h', fun fuel hfuel => hsettles.total ?_⟩
    rw [List.length_map] at hfuel
    exact hfuel

/-- With 5 bytes of one page allocated. -/
theorem heap_calls_return_five : ∃ u, Run LowPages onePage u ∧ u.live = [0x100C] ∧
    (∃ n r, ∀ fuel, n < fuel → u.kmalloc fuel 5000 = some r) ∧
    ∃ n h', ∀ fuel, n < fuel → u.kfree fuel 0x100C = some h' := by
  obtain ⟨u, hmalloc, hrun, hlive, -⟩ := onePage_malloc
  obtain ⟨blocks, -, hkmalloc, hkfree⟩ := heap_calls_return ⟨rfl, rfl, rfl⟩ hrun
  have hfree : u.NoHighFree := by
    intro p _ hp
    rw [HeapUse.step, Heap.kmalloc_eq _ (by decide)] at hmalloc
    obtain ⟨r, hcall, rfl⟩ := map_eq_some_iff.mp hmalloc
    obtain rfl : p = 1 := by
      by_contra hne
      have hused : pageIsFree onePage.pmm p = false :=
        Bool.eq_false_iff.mpr fun h => hne (pageIsFree_onePageAt h)
      rw [(Heap.kmallocLoop_keeps hcall).2 p hused] at hp
      cases hp
    decide
  obtain ⟨ptr, h', hcall, -⟩ := hkmalloc hfree 5000
  exact ⟨u, hrun, hlive, ⟨_, (ptr, h'), hcall⟩, _, hkfree 0x100C (by simp [hlive])⟩

/-- A page that is not mapped. -/
theorem heapGrow_onePageAt {n : Nat} (hn : n < pagesMax) (hhigh : identityEnd ≤ n * pageSize)
    (fuel : Nat) : (onePageAt n).heapGrow fuel = none := by
  have hpos : 0 < identityEnd := by decide
  have hmapped : ∀ h : Heap, h.mapped = (fun _ => false) → h.hdrMapped (n * pageSize) = false := by
    intro h hm
    simp [Heap.hdrMapped, Heap.byteMapped, hm, hhigh]
  unfold Heap.heapGrow
  rw [pmmAlloc_onePageAt hn]
  dsimp only
  rw [if_neg (by omega), if_pos (show (onePageAt n).head = 0 from rfl), hmapped _ rfl]
  rfl

/-- `kmalloc` does not return when the PMM has nothing but a page that is not mapped. -/
theorem kmalloc_halts : Fresh (onePageAt 0x8000) ∧
    ∀ fuel, (onePageAt 0x8000).kmalloc fuel 5 = none := by
  refine ⟨⟨rfl, rfl, rfl⟩, fun fuel => ?_⟩
  rw [Heap.kmalloc_eq _ (by decide)]
  cases fuel with
  | zero => rfl
  | succ fuel =>
    have hfind : (onePageAt 0x8000).search ((onePageAt 0x8000).fits (Heap.roundUp 5)) (fuel + 1) =
        some none := rfl
    rw [Heap.kmallocLoop, Heap.kmallocRound, hfind, bind_some,
      heapGrow_onePageAt (by decide) (by decide)]
    rfl

end AliOS
