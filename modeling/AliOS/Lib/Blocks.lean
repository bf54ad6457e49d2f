import Mathlib.Data.List.Chain
import Mathlib.Data.List.Pairwise
import Mathlib.Tactic.Common

/-!
# AliOS.Lib.Blocks

Memory cut into blocks.  A span is an interval of addresses, given by its start and its
length; `cover l x` counts the spans of `l` that `x` lies in.  Two lists of spans tile
the same memory when they have the same cover, and a list tiles without overlap when its
cover is at most 1: cutting a span in two and joining two neighbours leave the cover
alone, so both keep a tiling.

A `Chunk` is a block of an allocator: a header of `hdr` bytes, `size` bytes of payload
behind it, and whether it is free.  `coalesce` is a pass over a list of chunks that
joins a free chunk with the next one in the list, as long as that is free and begins
where the first one ends; one pass leaves no neighbours that join.
-/

namespace AliOS.Lib

open List

/-! ## spans -/

/-- `x` lies among the `i.2` addresses from `i.1` on. -/
def inSpan (x : Nat) (i : Nat × Nat) : Bool := decide (i.1 ≤ x ∧ x < i.1 + i.2)

/-- The number of spans that `x` lies in. -/
def cover (l : List (Nat × Nat)) (x : Nat) : Nat := l.countP (inSpan x)

section

variable {l l₁ l₂ : List (Nat × Nat)} {i j : Nat × Nat} {x : Nat}

theorem inSpan_iff : inSpan x i ↔ i.1 ≤ x ∧ x < i.1 + i.2 := decide_eq_true_iff

@[simp] theorem cover_cons : cover (i :: l) x = (inSpan x i).toNat + cover l x := by
  rw [cover, countP_cons, Nat.add_comm]
  cases inSpan x i <;> rfl

@[simp] theorem cover_append : cover (l₁ ++ l₂) x = cover l₁ x + cover l₂ x := countP_append

theorem cover_pos : 0 < cover l x ↔ ∃ i ∈ l, i.1 ≤ x ∧ x < i.1 + i.2 := by
  simp [cover, countP_pos_iff, inSpan]

theorem toNat_inSpan (x : Nat) (i : Nat × Nat) :
    (inSpan x i).toNat = if i.1 ≤ x ∧ x < i.1 + i.2 then 1 else 0 := by
  split
  · next h => rw [inSpan_iff.mpr h, Bool.toNat_true]
  · next h => rw [Bool.eq_false_iff.mpr fun hin => h (inSpan_iff.mp hin), Bool.toNat_false]

/-- A span and the two pieces it is cut into. -/
theorem inSpan_cut (a n m x : Nat) :
    (inSpan x (a, n + m)).toNat = (inSpan x (a, n)).toNat + (inSpan x (a + n, m)).toNat := by
  simp only [toNat_inSpan]
  split <;> split <;> split <;> omega

/-- Two spans that share no address. -/
def Apart (i j : Nat × Nat) : Prop := i.1 + i.2 ≤ j.1 ∨ j.1 + j.2 ≤ i.1

theorem Apart.symm (h : Apart i j) : Apart j i := Or.symm h

instance : Std.Symm Apart := ⟨fun _ _ => Apart.symm⟩

/-- Spans that cover no address twice are apart. -/
theorem pairwise_apart (hpos : ∀ i ∈ l, 0 < i.2) (h : ∀ x, cover l x ≤ 1) : l.Pairwise Apart := by
  induction l with
  | nil => exact .nil
  | cons i l ih =>
    refine .cons (fun j hj => ?_) (ih (fun j hj => hpos j (mem_cons_of_mem _ hj)) fun x => ?_)
    · -- otherwise the later of the two starts lies in both
      by_contra hmeet
      have hi := hpos i mem_cons_self
      have hj' := hpos j (mem_cons_of_mem _ hj)
      simp only [Apart, not_or, Nat.not_le] at hmeet
      have hx := h (max i.1 j.1)
      have hin : inSpan (max i.1 j.1) i := inSpan_iff.mpr (by omega)
      have hrest : 0 < cover l (max i.1 j.1) := cover_pos.mpr ⟨j, hj, by omega⟩
      rw [cover_cons, hin, Bool.toNat_true] at hx
      omega
    · exact Nat.le_trans (by rw [cover_cons]; omega) (h x)

/-- Spans that are apart cover no address twice. -/
theorem cover_le_one (h : l.Pairwise Apart) (x : Nat) : cover l x ≤ 1 := by
  induction l with
  | nil => exact Nat.zero_le 1
  | cons i l ih =>
    rw [pairwise_cons] at h
    by_cases hx : inSpan x i = true
    · have hnone : cover l x = 0 := by
        by_contra hne
        obtain ⟨j, hj, hin⟩ := cover_pos.mp (Nat.pos_of_ne_zero hne)
        rw [inSpan_iff] at hx
        have hap := h.1 j hj
        simp only [Apart] at hap
        omega
      simp [hnone, hx]
    · simpa [hx] using ih h.2

end

/-! ## chunks -/

/-- A block of an allocator. -/
structure Chunk where
  addr : Nat
  size : Nat
  free : Bool

section

variable {hdr : Nat} {c d : Chunk} {cs : List Chunk}

/-- Header and payload. -/
def Chunk.span (hdr : Nat) (c : Chunk) : Nat × Nat := (c.addr, hdr + c.size)

/-- Both are free, and `d` begins where `c` ends. -/
def Chunk.joins (hdr : Nat) (c d : Chunk) : Bool :=
  c.free && d.free && c.addr + hdr + c.size == d.addr

/-- `c` takes in `d`. -/
def Chunk.join (hdr : Nat) (c d : Chunk) : Chunk := { c with size := c.size + hdr + d.size }

/-- A pass from the chunk `c` on. -/
def coalesce (hdr : Nat) (c : Chunk) : List Chunk → List Chunk
  | [] => [c]
  | d :: cs => if c.joins hdr d then coalesce hdr (c.join hdr d) cs else c :: coalesce hdr d cs

theorem Chunk.joins_iff : c.joins hdr d ↔ c.free ∧ d.free ∧ c.addr + hdr + c.size = d.addr := by
  simp [Chunk.joins, and_assoc]

/-- A pass keeps what is covered. -/
theorem cover_coalesce (hdr : Nat) (c : Chunk) (cs : List Chunk) (x : Nat) :
    cover ((coalesce hdr c cs).map (Chunk.span hdr)) x =
      cover ((c :: cs).map (Chunk.span hdr)) x := by
  induction cs generalizing c with
  | nil => rfl
  | cons d cs ih =>
    rw [coalesce]
    split
    · rename_i hjoin
      have hcut := inSpan_cut c.addr (hdr + c.size) (hdr + d.size) x
      rw [ih]
      have hspan : (c.join hdr d).span hdr = (c.addr, hdr + c.size + (hdr + d.size)) := by
        simp only [Chunk.span, Chunk.join, Prod.mk.injEq, true_and]
        omega
      have hd : d.span hdr = (c.addr + (hdr + c.size), hdr + d.size) := by
        rw [Chunk.span, ← (Chunk.joins_iff.mp hjoin).2.2, Nat.add_assoc]
      simp only [map_cons, cover_cons, hspan, hd, hcut]
      simp only [Chunk.span]
      omega
    · simp only [map_cons, cover_cons, ih]

/-- A pass that joins something makes the list shorter; otherwise it changes nothing. -/
theorem length_coalesce (hdr : Nat) (c : Chunk) (cs : List Chunk) :
    coalesce hdr c cs = c :: cs ∨ (coalesce hdr c cs).length ≤ cs.length := by
  induction cs generalizing c with
  | nil => exact .inl rfl
  | cons d cs ih =>
    rw [coalesce]
    split
    · refine .inr ?_
      rcases ih (c.join hdr d) with heq | hlt
      · simp [heq]
      · exact Nat.le_trans hlt (by simp)
    · rcases ih d with heq | hlt
      · exact .inl (by rw [heq])
      · exact .inr (by simpa using hlt)

/-- The chunks in use stay as they are. -/
theorem mem_coalesce_used (hd : d.free = false) : d ∈ coalesce hdr c cs ↔ d ∈ c :: cs := by
  induction cs generalizing c with
  | nil => rfl
  | cons e cs ih =>
    rw [coalesce]
    split
    · rename_i hjoin
      obtain ⟨hc, he, -⟩ := Chunk.joins_iff.mp hjoin
      have hne : ∀ e' : Chunk, e'.free = true → d ≠ e' := by
        rintro e' he' rfl
        simp [hd] at he'
      rw [ih]
      simp [hne c hc, hne e he, hne (c.join hdr e) hc]
    · simp [ih]

/-! ## neighbours -/

/-- No chunk joins the next one. -/
def Coalesced (hdr : Nat) (cs : List Chunk) : Prop := cs.IsChain fun c d => c.joins hdr d = false

theorem Chunk.joins_of_not_free (hd : c.free = false ∨ d.free = false) : c.joins hdr d = false := by
  rcases hd with hd | hd <;> simp [Chunk.joins, hd]

/-- A pass leaves the first chunk where it is. -/
theorem head_coalesce (hdr : Nat) (c : Chunk) (cs : List Chunk) :
    ∃ e l, coalesce hdr c cs = e :: l ∧ e.addr = c.addr ∧ e.free = c.free := by
  induction cs generalizing c with
  | nil => exact ⟨c, [], rfl, rfl, rfl⟩
  | cons d cs ih =>
    rw [coalesce]
    split
    · exact ih (c.join hdr d)
    · exact ⟨c, _, rfl, rfl, rfl⟩

/-- After a pass no neighbours join. -/
theorem coalesced_coalesce (hdr : Nat) (c : Chunk) (cs : List Chunk) :
    Coalesced hdr (coalesce hdr c cs) := by
  induction cs generalizing c with
  | nil => exact .singleton c
  | cons d cs ih =>
    rw [coalesce]
    split
    · exact ih (c.join hdr d)
    · rename_i hjoin
      obtain ⟨e, l, heq, haddr, hfree⟩ := head_coalesce hdr d cs
      have hrest := ih d
      rw [heq] at hrest ⊢
      refine isChain_cons_cons.mpr ⟨?_, hrest⟩
      simp only [Chunk.joins, haddr, hfree]
      exact Bool.eq_false_iff.mpr hjoin

/-- A chunk is replaced by some that join no more of its neighbours. -/
theorem Coalesced.replace {cs1 cs2 ds : List Chunk} (hcs : Coalesced hdr (cs1 ++ c :: cs2))
    (hne : ds ≠ []) (hds : Coalesced hdr ds)
    (hfirst : ∀ d ∈ ds.head?, ∀ p : Chunk, p.joins hdr c = false → p.joins hdr d = false)
    (hlast : ∀ d ∈ ds.getLast?, ∀ n : Chunk, c.joins hdr n = false → d.joins hdr n = false) :
    Coalesced hdr (cs1 ++ ds ++ cs2) := by
  obtain ⟨hpre, hpost, hseam⟩ := isChain_append.mp hcs
  obtain ⟨hnext, hcs2⟩ := isChain_cons.mp hpost
  rw [append_assoc]
  refine isChain_append.mpr ⟨hpre, isChain_append.mpr ⟨hds, hcs2, fun d hd n hn => ?_⟩,
    fun p hp d hd => ?_⟩
  · exact hlast d hd n (hnext n hn)
  · rw [List.head?_append_of_ne_nil _ hne] at hd
    exact hfirst d hd p (hseam p hp c rfl)

end

end AliOS.Lib
