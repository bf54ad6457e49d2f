import AliOS.Heap
import AliOS.Lib.Blocks
import AliOS.Pmm.Init

/-!
# AliOS.Heap.Blocks

The block list of the heap as a list of chunks.  `Holds h cs` says that the list in
memory is `cs`; `Tiling h cs` says that these chunks cover every byte of the pages of the
heap once, and nothing else.  Both are kept when some neighbours in the list are replaced
by other chunks that cover the same bytes.
-/

namespace AliOS

open Lib List

namespace Heap

/-! ## headers in memory -/

section

variable {h h' h'' : Heap} {a b n : Nat} {f : Bool}

/-- The header at `b` reads the same. -/
structure SameHdr (h h' : Heap) (b : Nat) : Prop where
  size : h'.size b = h.size b
  free : h'.free b = h.free b
  next : h'.next b = h.next b

theorem SameHdr.trans (h1 : SameHdr h h' b) (h2 : SameHdr h' h'' b) : SameHdr h h'' b :=
  ⟨h2.size.trans h1.size, h2.free.trans h1.free, h2.next.trans h1.next⟩

/-- A word stored outside a header does not change it. -/
theorem sameHdr_store (hab : a + 4 ≤ b ∨ b + hdrSize ≤ a) :
    SameHdr h { h with mem := store32 h.mem a n } b := by
  unfold hdrSize at hab
  refine ⟨load32_store32_of_disjoint (by omega), ?_, load32_store32_of_disjoint (by omega)⟩
  unfold free
  rw [load32_store32_of_disjoint (by omega)]

/-- Two headers that do not overlap. -/
def HdrApart (a b : Nat) : Prop := a + hdrSize ≤ b ∨ b + hdrSize ≤ a

section

variable (h : Heap)

theorem sameHdr_setSize (n : Nat) (hab : HdrApart a b) : SameHdr h (h.setSize a n) b :=
  sameHdr_store (by unfold HdrApart hdrSize at *; omega)

theorem sameHdr_setFree (f : Bool) (hab : HdrApart a b) : SameHdr h (h.setFree a f) b :=
  sameHdr_store (by unfold HdrApart hdrSize at *; omega)

theorem sameHdr_setNext (n : Nat) (hab : HdrApart a b) : SameHdr h (h.setNext a n) b :=
  sameHdr_store (by unfold HdrApart hdrSize at *; omega)

theorem size_setSize (a : Nat) (hn : n < 2 ^ 32) : (h.setSize a n).size a = n :=
  load32_store32_self hn

theorem next_setNext (a : Nat) (hn : n < 2 ^ 32) : (h.setNext a n).next a = n :=
  load32_store32_self hn

@[simp] theorem free_setFree (a : Nat) (f : Bool) : (h.setFree a f).free a = f := by
  unfold free setFree
  rw [load32_store32_self (by cases f <;> decide)]
  cases f <;> rfl

@[simp] theorem free_setSize (a n : Nat) : (h.setSize a n).free a = h.free a := by
  unfold free setSize
  rw [load32_store32_of_disjoint (by omega)]

@[simp] theorem next_setSize (a n : Nat) : (h.setSize a n).next a = h.next a :=
  load32_store32_of_disjoint (by omega)

@[simp] theorem size_setFree (a : Nat) (f : Bool) : (h.setFree a f).size a = h.size a :=
  load32_store32_of_disjoint (by omega)

@[simp] theorem next_setFree (a : Nat) (f : Bool) : (h.setFree a f).next a = h.next a :=
  load32_store32_of_disjoint (by omega)

@[simp] theorem size_setNext (a n : Nat) : (h.setNext a n).size a = h.size a :=
  load32_store32_of_disjoint (by omega)

@[simp] theorem free_setNext (a n : Nat) : (h.setNext a n).free a = h.free a := by
  unfold free setNext
  rw [load32_store32_of_disjoint (by omega)]

end

/-- What is not in memory. -/
structure SameRest (h h' : Heap) : Prop where
  head : h'.head = h.head
  pmm : h'.pmm = h.pmm
  pages : h'.pages = h.pages

theorem SameRest.trans (h1 : SameRest h h') (h2 : SameRest h' h'') : SameRest h h'' :=
  ⟨h2.head.trans h1.head, h2.pmm.trans h1.pmm, h2.pages.trans h1.pages⟩

theorem sameRest_setSize (h : Heap) (a n : Nat) : SameRest h (h.setSize a n) := ⟨rfl, rfl, rfl⟩

theorem sameRest_setFree (h : Heap) (a : Nat) (f : Bool) : SameRest h (h.setFree a f) :=
  ⟨rfl, rfl, rfl⟩

theorem sameRest_setNext (h : Heap) (a n : Nat) : SameRest h (h.setNext a n) := ⟨rfl, rfl, rfl⟩

theorem sameRest_newBlock (h : Heap) (a : Nat) : SameRest h (h.newBlock a) :=
  ((sameRest_setSize h a _).trans (sameRest_setFree _ a _)).trans (sameRest_setNext _ a _)

/-- What a fresh block has in its header. -/
theorem newBlock_hdr (h : Heap) (a : Nat) : (h.newBlock a).size a = pageSize - hdrSize ∧
    (h.newBlock a).free a ∧ (h.newBlock a).next a = 0 := by
  unfold newBlock
  refine ⟨?_, by simp, next_setNext _ _ (by decide)⟩
  rw [size_setNext, size_setFree, size_setSize _ _ (by decide)]

theorem sameHdr_newBlock (h : Heap) (hab : HdrApart a b) : SameHdr h (h.newBlock a) b :=
  ((sameHdr_setSize h _ hab).trans (sameHdr_setFree _ _ hab)).trans (sameHdr_setNext _ _ hab)

end

/-! ## the list in memory -/

/-- From `heap_head` the links lead through the chunks `cs`, whose headers say what
`cs` says. -/
structure Holds (h : Heap) (cs : List Chunk) : Prop where
  links : Leads h.next h.head (cs.map Chunk.addr) 0
  size : ∀ c ∈ cs, h.size c.addr = c.size
  free : ∀ c ∈ cs, h.free c.addr = c.free

/-- The chunks cover what the pages cover.  The pages belong to the heap: they are marked
used, and none of them is page 0.  They lie in the identity map. -/
structure Tiling (h : Heap) (cs : List Chunk) : Prop where
  tiles : ∀ x, cover (cs.map (Chunk.span hdrSize)) x = cover (h.pages.map fun p => (p, pageSize)) x
  aligned : ∀ c ∈ cs, c.addr % 4 = 0 ∧ c.size % 4 = 0
  pages : ∀ p ∈ h.pages, ∃ n, n ≠ 0 ∧ n * pageSize < identityEnd ∧ p = n * pageSize ∧
    pageIsFree h.pmm n = false
  nodup : h.pages.Nodup

section

variable {h h' : Heap} {cs cs₁ cs₂ es ds : List Chunk} {c d : Chunk}

/-- No header of a chunk changes. -/
theorem Holds.congr (hh : Holds h cs) (hrest : SameRest h h')
    (hsame : ∀ c ∈ cs, SameHdr h h' c.addr) :
    Holds h' cs := by
  refine ⟨?_, fun c hc => ?_, fun c hc => ?_⟩
  · rw [hrest.head]
    refine hh.links.congr fun a ha => ?_
    obtain ⟨c, hc, rfl⟩ := List.mem_map.mp ha
    exact (hsame c hc).next
  · rw [(hsame c hc).size, hh.size c hc]
  · rw [(hsame c hc).free, hh.free c hc]

/-- Some neighbours `es` are replaced by `ds`; no other header changes. -/
theorem Holds.replace (hh : Holds h (cs₁ ++ es ++ cs₂)) (hrest : SameRest h h')
    (hsame : ∀ c ∈ cs₁ ++ cs₂, SameHdr h h' c.addr)
    (hlinks : ∀ a x, Leads h.next a (es.map Chunk.addr) x → Leads h'.next a (ds.map Chunk.addr) x)
    (hds : ∀ d ∈ ds, h'.size d.addr = d.size ∧ h'.free d.addr = d.free) :
    Holds h' (cs₁ ++ ds ++ cs₂) := by
  have hleads := hh.links
  simp only [map_append, leads_append] at hleads
  obtain ⟨y, ⟨x, hpre, hmid⟩, hpost⟩ := hleads
  have hnext : ∀ {l : List Chunk}, (∀ c ∈ l, c ∈ cs₁ ++ cs₂) → ∀ a ∈ l.map Chunk.addr,
      h'.next a = h.next a := by
    intro l hl a ha
    obtain ⟨c, hc, rfl⟩ := List.mem_map.mp ha
    exact (hsame c (hl c hc)).next
  refine ⟨?_, fun c hc => ?_, fun c hc => ?_⟩
  · simp only [map_append, leads_append, hrest.head]
    exact ⟨y, ⟨x, hpre.congr (hnext fun c hc => mem_append_left _ hc), hlinks _ _ hmid⟩,
      hpost.congr (hnext fun c hc => mem_append_right _ hc)⟩
  · simp only [mem_append] at hc
    obtain (hc | hc) | hc := hc
    · rw [(hsame c (by simp [hc])).size, hh.size c (by simp [hc])]
    · exact (hds c hc).1
    · rw [(hsame c (by simp [hc])).size, hh.size c (by simp [hc])]
  · simp only [mem_append] at hc
    obtain (hc | hc) | hc := hc
    · rw [(hsame c (by simp [hc])).free, hh.free c (by simp [hc])]
    · exact (hds c hc).2
    · rw [(hsame c (by simp [hc])).free, hh.free c (by simp [hc])]

theorem Tiling.replace (ht : Tiling h (cs₁ ++ es ++ cs₂)) (hrest : SameRest h h')
    (hcover : ∀ x, cover (ds.map (Chunk.span hdrSize)) x = cover (es.map (Chunk.span hdrSize)) x)
    (hds : ∀ d ∈ ds, d.addr % 4 = 0 ∧ d.size % 4 = 0) : Tiling h' (cs₁ ++ ds ++ cs₂) := by
  refine ⟨fun x => ?_, fun c hc => ?_, ?_, ?_⟩
  · rw [hrest.pages, ← ht.tiles x]
    simp [hcover x]
  · simp only [mem_append] at hc
    obtain (hc | hc) | hc := hc
    · exact ht.aligned c (by simp [hc])
    · exact hds c hc
    · exact ht.aligned c (by simp [hc])
  · rw [hrest.pages, hrest.pmm]
    exact ht.pages
  · rw [hrest.pages]
    exact ht.nodup

/-- Different pages are apart. -/
theorem Tiling.pages_apart (ht : Tiling h cs) :
    (h.pages.map fun p => (p, pageSize)).Pairwise Apart := by
  rw [pairwise_map]
  refine ht.nodup.imp_of_mem fun {p q} hp hq hne => ?_
  obtain ⟨n, -, -, rfl, -⟩ := ht.pages p hp
  obtain ⟨m, -, -, rfl, -⟩ := ht.pages q hq
  have hnm : n ≠ m := fun heq => hne (by rw [heq])
  simp only [Apart, pageSize]
  omega

theorem Tiling.apart (ht : Tiling h cs) : (cs.map (Chunk.span hdrSize)).Pairwise Apart := by
  refine pairwise_apart (fun i hi => ?_) fun x => ?_
  · obtain ⟨c, -, rfl⟩ := List.mem_map.mp hi
    simp [Chunk.span, hdrSize]
  · rw [ht.tiles x]
    exact cover_le_one ht.pages_apart x

/-- A byte of a chunk lies in a page of the heap. -/
theorem Tiling.inPage (ht : Tiling h cs) (hc : c ∈ cs) {x : Nat}
    (hx : c.addr ≤ x ∧ x < c.addr + hdrSize + c.size) :
    ∃ p ∈ h.pages, p ≤ x ∧ x < p + pageSize := by
  have hpos : 0 < cover (cs.map (Chunk.span hdrSize)) x :=
    cover_pos.mpr ⟨c.span hdrSize, List.mem_map_of_mem hc, hx.1,
      by simpa [Chunk.span, Nat.add_assoc] using hx.2⟩
  rw [ht.tiles x] at hpos
  obtain ⟨i, hi, hx⟩ := cover_pos.mp hpos
  obtain ⟨p, hp, rfl⟩ := List.mem_map.mp hi
  exact ⟨p, hp, hx⟩

/-- A chunk lies above page 0 and below the end of the identity map. -/
theorem Tiling.bounds (ht : Tiling h cs) (hc : c ∈ cs) :
    pageSize ≤ c.addr ∧ c.addr + hdrSize + c.size ≤ 2 ^ 27 := by
  obtain ⟨p, hp, hlo⟩ := ht.inPage (x := c.addr) hc (by simp [hdrSize]; omega)
  obtain ⟨q, hq, hhi⟩ := ht.inPage (x := c.addr + hdrSize + c.size - 1) hc
    (by simp [hdrSize]; omega)
  obtain ⟨n, hn, -, rfl, -⟩ := ht.pages p hp
  obtain ⟨m, -, hm, rfl, -⟩ := ht.pages q hq
  unfold pageSize identityEnd identityTables hdrSize at *
  omega

theorem hdrMapped_of_le (h : Heap) {b : Nat} (hb : b + hdrSize ≤ 2 ^ 27) :
    h.hdrMapped b = true := by
  unfold hdrSize at hb
  have hlo : b < identityEnd := by unfold identityEnd identityTables; omega
  have hhi : b + 11 < identityEnd := by unfold identityEnd identityTables; omega
  simp [hdrMapped, byteMapped, hlo, hhi]

theorem Tiling.hdrMapped (ht : Tiling h cs) (hc : c ∈ cs) : h.hdrMapped c.addr = true :=
  h.hdrMapped_of_le (by have := (ht.bounds hc).2; omega)

theorem Tiling.addr_ne_zero (ht : Tiling h cs) (hc : c ∈ cs) : c.addr ≠ 0 := by
  intro hc0
  have hb := (ht.bounds hc).1
  simp [hc0, pageSize] at hb

theorem Tiling.zero_notMem (ht : Tiling h cs) : 0 ∉ cs.map Chunk.addr := by
  intro h0
  obtain ⟨c, hc, hc0⟩ := List.mem_map.mp h0
  exact ht.addr_ne_zero hc hc0

/-- The list in memory is `cs`, which tiles the pages. -/
structure Inv (h : Heap) (cs : List Chunk) : Prop extends Holds h cs, Tiling h cs

/-- The other chunks are apart from `c`. -/
theorem Tiling.apart_mid (ht : Tiling h (cs₁ ++ c :: cs₂)) (hd : d ∈ cs₁ ++ cs₂) :
    Apart (c.span hdrSize) (d.span hdrSize) := by
  have hap := ht.apart
  simp only [map_append, map_cons, pairwise_append, pairwise_cons] at hap
  obtain ⟨-, ⟨hpost, -⟩, hpre⟩ := hap
  rcases mem_append.mp hd with hd | hd
  · exact (hpre _ (List.mem_map_of_mem hd) _ mem_cons_self).symm
  · exact hpost _ (List.mem_map_of_mem hd)

theorem Tiling.apart_of_ne (ht : Tiling h cs) (hc : c ∈ cs) (hd : d ∈ cs) (hne : c.addr ≠ d.addr) :
    Apart (c.span hdrSize) (d.span hdrSize) :=
  ht.apart.forall (List.mem_map_of_mem hc) (List.mem_map_of_mem hd)
    fun heq => hne (congrArg Prod.fst heq)

/-- Their headers do not overlap with any piece of `c`. -/
theorem Tiling.hdrApart_mid (ht : Tiling h (cs₁ ++ c :: cs₂)) (hd : d ∈ cs₁ ++ cs₂) {a : Nat}
    (ha : c.addr ≤ a ∧ a + hdrSize ≤ c.addr + hdrSize + c.size) : HdrApart a d.addr := by
  have hap := ht.apart_mid hd
  simp only [Apart, Chunk.span, HdrApart, hdrSize] at *
  omega

/-! ## along the links -/

theorem Holds.next_mid (hh : Holds h (cs₁ ++ c :: d :: cs₂)) : h.next c.addr = d.addr := by
  have hleads := hh.links
  simp only [map_append, map_cons, leads_append, Leads] at hleads
  obtain ⟨x, -, -, hnext, -⟩ := hleads
  exact hnext

theorem Holds.next_last (hh : Holds h (cs₁ ++ [c])) : h.next c.addr = 0 := by
  have hleads := hh.links
  simp only [map_append, map_cons, map_nil, leads_append, Leads] at hleads
  obtain ⟨x, -, -, hnext⟩ := hleads
  exact hnext

theorem Holds.head_eq (hh : Holds h (c :: cs)) : h.head = c.addr := hh.links.1

/-- `heap_head` is NULL if there is no block. -/
theorem Inv.head_eq_zero (hi : Inv h cs) : h.head = 0 ↔ cs = [] := by
  cases cs with
  | nil => exact iff_of_true hi.links rfl
  | cons c cs =>
    rw [hi.toHolds.head_eq]
    simp [hi.addr_ne_zero]

/-- A search along the list. -/
theorem Inv.find (hi : Inv h cs) (p : Nat → Bool) :
    Settles cs.length (h.search p) ((findPrev p 0 (cs.map Chunk.addr)).map Prod.snd) := by
  have hs := ringFind_settles (p := fun b => !h.hdrMapped b || p b) hi.links hi.zero_notMem 0
  have hmapped : ∀ b ∈ cs.map Chunk.addr, h.hdrMapped b = true := by
    intro b hb
    obtain ⟨c, hc, rfl⟩ := List.mem_map.mp hb
    exact hi.hdrMapped hc
  rw [length_map, findPrev_congr (q := p) fun b hb => by simp [hmapped b hb]] at hs
  refine hs.bind ?_
  cases hf : findPrev p 0 (cs.map Chunk.addr) with
  | none => exact .pure _ _
  | some r =>
    obtain ⟨l₁, l₂, heq, -⟩ := findPrev_eq_some (q := r.1) (x := r.2) hf
    simp only [hmapped r.2 (by rw [heq]; simp), if_true]
    exact .pure _ _

/-- What a search finds is in the list. -/
theorem Holds.search_mem (hh : Holds h cs) {p : Nat → Bool} {fuel b : Nat}
    (hs : h.search p fuel = some (some b)) : ∃ c ∈ cs, c.addr = b := by
  obtain ⟨_ | ⟨q, cur⟩, hfind, hrest⟩ := Option.bind_eq_some_iff.mp hs
  · cases hrest
  · obtain ⟨-, hb⟩ := Option.ite_none_right_eq_some.mp hrest
    cases hb
    exact List.mem_map.mp (ringFind_mem hh.links hfind)

/-- The last block is the only one whose link is NULL. -/
theorem Inv.find_tail (hi : Inv h (cs ++ [c])) :
    ∃ q, findPrev (fun b => h.next b == 0) 0 ((cs ++ [c]).map Chunk.addr) = some (q, c.addr) := by
  rw [map_append]
  refine ⟨_, findPrev_append (by simpa using hi.next_last) fun a ha => ?_⟩
  obtain ⟨d, hd, rfl⟩ := List.mem_map.mp ha
  obtain ⟨l₁, l₂, rfl⟩ := append_of_mem hd
  have hne : ∀ e ∈ l₁ ++ d :: l₂ ++ [c], e.addr ≠ 0 := fun e he h0 =>
    hi.zero_notMem (h0 ▸ List.mem_map_of_mem he)
  cases l₂ with
  | nil =>
    have hh : Holds h (l₁ ++ d :: c :: []) := by simpa using hi.toHolds
    simp [hh.next_mid, hne c (by simp)]
  | cons e l₂ =>
    have hh : Holds h (l₁ ++ d :: e :: (l₂ ++ [c])) := by simpa using hi.toHolds
    simp [hh.next_mid, hne e (by simp)]

end

end Heap

end AliOS
