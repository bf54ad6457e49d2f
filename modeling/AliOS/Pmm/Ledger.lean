import AliOS.Pmm.Invariant

/-!
# AliOS.Pmm.Ledger

The purpose of the reference counts: a page somebody still refers to is never
handed out again.  A run keeps a ghost ledger, the history of its calls, and
`outstanding` reads off it how many references to a page are still due.  The
8-bit `page_refs` equals the ledger as long as no page collects more than 255
references (`Run.tracks`); `pmm_addref` saturates after that, and the balance
is lost for good: from any run that reaches 255 references, one more
`pmm_addref` lets 255 calls of `pmm_free` release a page that still has an
owner (`saturated_release`).
-/

namespace AliOS

open List

/-! ## the ledger -/

/-- One call in the history of a run, `pmm_alloc` with the address it returned. -/
inductive PmmEvent where
  | alloc (addr : Nat)
  | addref (addr : Nat)
  | free (addr : Nat)
deriving DecidableEq

/-- `p` was returned by this `pmm_alloc` (the address 0 is its failure). -/
def PmmEvent.allocates (p : Nat) : PmmEvent → Bool
  | .alloc addr => addr ≠ 0 ∧ addr / pageSize = p
  | _ => false

def PmmEvent.addrefs (p : Nat) : PmmEvent → Bool
  | .addref addr => addr / pageSize = p
  | _ => false

def PmmEvent.frees (p : Nat) : PmmEvent → Bool
  | .free addr => addr / pageSize = p
  | _ => false

/-- References to page `p` still due after the history `h`. -/
def outstanding (h : List PmmEvent) (p : Nat) : Int :=
  (h.countP (PmmEvent.allocates p) : Int) + h.countP (PmmEvent.addrefs p) -
    h.countP (PmmEvent.frees p)

/-- Runs from boot, with their history (latest call first), in which
`pmm_addref` and `pmm_free` are only called on pages with a reference due. -/
inductive Run (k : KernelImage) (map : List E820Entry) : List PmmEvent → Pmm → Prop where
  | init : Run k map [] (pmmInit k map Pmm.bss)
  | alloc {h : List PmmEvent} {s : Pmm} : Run k map h s →
      Run k map (.alloc (pmmAlloc s).1 :: h) (pmmAlloc s).2
  | addref {h : List PmmEvent} {s : Pmm} (addr : Nat) : Run k map h s →
      0 < outstanding h (addr / pageSize) → Run k map (.addref addr :: h) (pmmAddref s addr)
  | free {h : List PmmEvent} {s : Pmm} (addr : Nat) : Run k map h s →
      0 < outstanding h (addr / pageSize) → Run k map (.free addr :: h) (pmmFree s addr)

/-- No `pmm_addref` of the history is made on a page that already has 255
references due. -/
def Unsaturated : List PmmEvent → Prop
  | [] => True
  | .addref addr :: h => outstanding h (addr / pageSize) < 255 ∧ Unsaturated h
  | .alloc _ :: h => Unsaturated h
  | .free _ :: h => Unsaturated h

theorem outstanding_alloc (addr : Nat) (h : List PmmEvent) (p : Nat) :
    outstanding (.alloc addr :: h) p =
      outstanding h p + if addr ≠ 0 ∧ addr / pageSize = p then 1 else 0 := by
  by_cases hc : addr ≠ 0 ∧ addr / pageSize = p
  · simp [outstanding, PmmEvent.allocates, PmmEvent.addrefs, PmmEvent.frees, hc]; omega
  · simp [outstanding, PmmEvent.allocates, PmmEvent.addrefs, PmmEvent.frees, hc]

theorem outstanding_addref (addr : Nat) (h : List PmmEvent) (p : Nat) :
    outstanding (.addref addr :: h) p =
      outstanding h p + if addr / pageSize = p then 1 else 0 := by
  by_cases hc : addr / pageSize = p
  · simp [outstanding, PmmEvent.allocates, PmmEvent.addrefs, PmmEvent.frees, hc]; omega
  · simp [outstanding, PmmEvent.allocates, PmmEvent.addrefs, PmmEvent.frees, hc]

theorem outstanding_free (addr : Nat) (h : List PmmEvent) (p : Nat) :
    outstanding (.free addr :: h) p =
      outstanding h p - if addr / pageSize = p then 1 else 0 := by
  by_cases hc : addr / pageSize = p
  · simp [outstanding, PmmEvent.allocates, PmmEvent.addrefs, PmmEvent.frees, hc]; omega
  · simp [outstanding, PmmEvent.allocates, PmmEvent.addrefs, PmmEvent.frees, hc]

/-! ## the counts track the ledger -/

variable {k : KernelImage} {map : List E820Entry} {h : List PmmEvent} {s : Pmm}

/-- The reference counts agree with the ledger. -/
structure Tracks (k : KernelImage) (h : List PmmEvent) (s : Pmm) : Prop where
  valid : s.Valid k
  refs : ∀ p < pagesMax, outstanding h p = s.pageRefs p
  above : ∀ p, pagesMax ≤ p → outstanding h p = 0

/-- A page with a reference due is tracked, used and counted. -/
theorem Tracks.held (ht : Tracks k h s) {p : Nat} (hdue : 0 < outstanding h p) :
    p < pagesMax ∧ pageIsFree s p = false ∧ 1 ≤ s.pageRefs p := by
  have hp : p < pagesMax := by
    by_contra hge
    rw [ht.above p (Nat.le_of_not_lt hge)] at hdue
    omega
  have hrefs := ht.refs p hp
  refine ⟨hp, ?_, by omega⟩
  by_contra hfree
  have h0 := ht.valid.refs p hp (by simpa using hfree)
  omega

theorem Tracks.alloc (ht : Tracks k h s) :
    Tracks k (.alloc (pmmAlloc s).1 :: h) (pmmAlloc s).2 := by
  obtain ⟨p, hp, hfree, -, heq⟩ | ⟨-, heq⟩ := pmmAlloc_cases s
  · have h0 := (ht.valid.reserved 0 (by decide) (.inl (by decide))).1
    have hp0 : p ≠ 0 := fun hz => by rw [hz, h0] at hfree; exact absurd hfree (by decide)
    have hpos : p * pageSize ≠ 0 := Nat.mul_ne_zero hp0 (by decide)
    rw [heq]
    refine ⟨ht.valid.grant hp hfree, fun q hq => ?_, fun q hq => ?_⟩
    · rw [outstanding_alloc, ht.refs q hq, mul_pageSize_div, pageRefs_grant]
      by_cases hqp : q = p
      · rw [hqp, ht.valid.refs p hp hfree]
        simp [hpos]
      · simp [hqp, Ne.symm hqp]
    · have hne : p ≠ q := by omega
      rw [outstanding_alloc, ht.above q hq, mul_pageSize_div]
      simp [hne]
  · rw [heq]
    refine ⟨ht.valid, fun q hq => ?_, fun q hq => ?_⟩
    · rw [outstanding_alloc, ht.refs q hq]; simp
    · rw [outstanding_alloc, ht.above q hq]; simp

theorem Tracks.addref (ht : Tracks k h s) {addr : Nat}
    (hdue : 0 < outstanding h (addr / pageSize))
    (hlimit : outstanding h (addr / pageSize) < 255) :
    Tracks k (.addref addr :: h) (pmmAddref s addr) := by
  obtain ⟨hp, -, hrefs⟩ := ht.held hdue
  have hcount := ht.refs _ hp
  obtain ⟨-, -, heq⟩ | ⟨hstop, -⟩ := pmmAddref_cases s addr
  · rw [heq]
    refine ⟨ht.valid.setRefs hrefs _, fun q hq => ?_, fun q hq => ?_⟩
    · rw [outstanding_addref, pageRefs_setRefs, ht.refs q hq]
      by_cases hqp : q = addr / pageSize
      · simp [hqp]
      · simp [hqp, Ne.symm hqp]
    · have hne : addr / pageSize ≠ q := by omega
      rw [outstanding_addref, ht.above q hq]
      simp [hne]
  · omega

theorem Tracks.free (ht : Tracks k h s) {addr : Nat}
    (hdue : 0 < outstanding h (addr / pageSize)) :
    Tracks k (.free addr :: h) (pmmFree s addr) := by
  obtain ⟨hp, hused, hrefs⟩ := ht.held hdue
  have habove : ∀ q, pagesMax ≤ q → outstanding (.free addr :: h) q = 0 := by
    intro q hq
    have hne : addr / pageSize ≠ q := by omega
    rw [outstanding_free, ht.above q hq]
    simp [hne]
  obtain ⟨hskip, -⟩ | ⟨-, -, ⟨hmany, heq⟩ | ⟨hlast, heq⟩⟩ := pmmFree_cases s addr
  · simp only [hused, Bool.false_eq_true, or_false] at hskip
    omega
  · rw [heq]
    refine ⟨ht.valid.setRefs hrefs _, fun q hq => ?_, habove⟩
    rw [outstanding_free, pageRefs_setRefs, ht.refs q hq]
    by_cases hqp : q = addr / pageSize
    · simp only [hqp, if_true]; omega
    · simp [hqp, Ne.symm hqp]
  · rw [heq]
    refine ⟨ht.valid.release hp hused hrefs, fun q hq => ?_, habove⟩
    rw [outstanding_free, pageRefs_release, ht.refs q hq]
    by_cases hqp : q = addr / pageSize
    · simp only [hqp, if_true]; omega
    · simp [hqp, Ne.symm hqp]

/-- While no page collects more than 255 references, the counts are the ledger. -/
theorem Run.tracks (hrun : Run k map h s) (hsat : Unsaturated h) : Tracks k h s := by
  induction hrun with
  | init =>
    refine ⟨valid_pmmInit k map, fun p _ => ?_, fun p _ => rfl⟩
    rw [pageRefs_pmmInit]
    rfl
  | alloc _ ih => exact (ih hsat).alloc
  | addref addr _ hdue ih => exact (ih hsat.2).addref hdue hsat.1
  | free addr _ hdue ih => exact (ih hsat).free hdue

/-- **Referenced pages are safe**: in every run in which no page collects more
than 255 references, a page with a reference due is marked used, and the next
`pmm_alloc` does not return it. -/
theorem outstanding_page_kept (hrun : Run k map h s) (hsat : Unsaturated h) (p : Nat)
    (hdue : 0 < outstanding h p) :
    pageIsFree s p = false ∧ ((pmmAlloc s).1 ≠ 0 → (pmmAlloc s).1 / pageSize ≠ p) := by
  obtain ⟨-, hused, -⟩ := (hrun.tracks hsat).held hdue
  refine ⟨hused, fun hne => ?_⟩
  obtain ⟨q, -, hfree, -, haddr, -⟩ :=
    pmmAlloc_ne_zero (Prod.mk.eta (p := pmmAlloc s)).symm hne
  rw [haddr, mul_pageSize_div]
  intro hqp
  rw [hqp, hused] at hfree
  exact absurd hfree (by decide)

/-! ## past the limit -/

theorem outstanding_addrefs (n p : Nat) (h : List PmmEvent) :
    outstanding (List.replicate n (.addref (p * pageSize)) ++ h) p = outstanding h p + n := by
  induction n with
  | zero => simp
  | succ n ih =>
    rw [replicate_succ, cons_append, outstanding_addref, ih, mul_pageSize_div]
    omega

theorem outstanding_frees (n p : Nat) (h : List PmmEvent) :
    outstanding (List.replicate n (.free (p * pageSize)) ++ h) p = outstanding h p - n := by
  induction n with
  | zero => simp
  | succ n ih =>
    rw [replicate_succ, cons_append, outstanding_free, ih, mul_pageSize_div]
    omega

/-- Any number of `pmm_addref` calls on a page with a reference due is a run;
the count follows up to 255 and stays there. -/
theorem Run.addrefs (hrun : Run k map h s) {p : Nat} (hp : p < pagesMax)
    (hdue : 0 < outstanding h p) (hused : pageIsFree s p = false) (hle : s.pageRefs p ≤ 255)
    (n : Nat) :
    ∃ s', Run k map (List.replicate n (.addref (p * pageSize)) ++ h) s' ∧
      pageIsFree s' p = false ∧ s'.pageRefs p = min 255 (s.pageRefs p + n) := by
  induction n with
  | zero => exact ⟨s, hrun, hused, by omega⟩
  | succ n ih =>
    obtain ⟨t, ht, htused, htrefs⟩ := ih
    refine ⟨pmmAddref t (p * pageSize), ?_, ?_, ?_⟩
    · apply ht.addref
      rw [mul_pageSize_div, outstanding_addrefs]
      omega
    · obtain ⟨-, -, heq⟩ | ⟨-, heq⟩ := pmmAddref_cases t (p * pageSize)
      · rw [heq, pageIsFree_setRefs]; exact htused
      · rw [heq]; exact htused
    · obtain ⟨-, hlt, heq⟩ | ⟨hstop, heq⟩ := pmmAddref_cases t (p * pageSize)
      · rw [mul_pageSize_div] at hlt heq
        rw [heq, pageRefs_setRefs, if_pos rfl]
        omega
      · rw [mul_pageSize_div] at hstop
        rw [heq]
        omega

/-- `pmm_free` calls covered by the ledger are a run; the count goes down with
each, and the call that finds it at 1 releases the page. -/
theorem Run.frees (hrun : Run k map h s) {p : Nat} (hp : p < pagesMax)
    (hused : pageIsFree s p = false) (n : Nat) (hn : n < s.pageRefs p)
    (hdue : (n : Int) ≤ outstanding h p) :
    ∃ s', Run k map (List.replicate n (.free (p * pageSize)) ++ h) s' ∧
      pageIsFree s' p = false ∧ s'.pageRefs p = s.pageRefs p - n := by
  induction n with
  | zero => exact ⟨s, hrun, hused, by omega⟩
  | succ n ih =>
    obtain ⟨t, ht, htused, htrefs⟩ := ih (by omega) (by omega)
    refine ⟨pmmFree t (p * pageSize), ?_, ?_⟩
    · apply ht.free
      rw [mul_pageSize_div, outstanding_frees]
      omega
    · have hcases := pmmFree_cases t (p * pageSize)
      rw [mul_pageSize_div] at hcases
      obtain ⟨hskip, -⟩ | ⟨-, -, ⟨hmany, heq⟩ | ⟨hlast, -⟩⟩ := hcases
      · simp only [htused, Bool.false_eq_true, or_false] at hskip
        omega
      · rw [heq, pageIsFree_setRefs, pageRefs_setRefs, if_pos rfl]
        exact ⟨htused, by omega⟩
      · omega

/-- **Saturation loses references**: from every run in which a page has 255
references due, one more `pmm_addref` and 255 calls of `pmm_free` are a run
that ends with the page free although one reference is still due. -/
theorem saturated_release (hrun : Run k map h s) (hsat : Unsaturated h) {p : Nat}
    (hfull : outstanding h p = 255) :
    ∃ h' s', Run k map h' s' ∧ outstanding h' p = 1 ∧ pageIsFree s' p := by
  have ht := hrun.tracks hsat
  obtain ⟨hp, hused, -⟩ := ht.held (p := p) (by omega)
  have hrefs : s.pageRefs p = 255 := by have := ht.refs p hp; omega
  obtain ⟨t, hrun1, hused1, hrefs1⟩ := hrun.addrefs hp (by omega) hused (by omega) 1
  have hdue1 : outstanding (List.replicate 1 (.addref (p * pageSize)) ++ h) p = 256 := by
    rw [outstanding_addrefs, hfull]; rfl
  obtain ⟨u, hrun2, hused2, hrefs2⟩ := hrun1.frees hp hused1 254 (by omega) (by rw [hdue1]; decide)
  have hdue2 := outstanding_frees 254 p (List.replicate 1 (.addref (p * pageSize)) ++ h)
  rw [hdue1] at hdue2
  refine ⟨_, _, hrun2.free (p * pageSize) ?_, ?_, ?_⟩
  · rw [mul_pageSize_div, hdue2]; decide
  · rw [outstanding_free, hdue2, mul_pageSize_div]; simp
  · have hcases := pmmFree_cases u (p * pageSize)
    rw [mul_pageSize_div] at hcases
    obtain ⟨hskip, -⟩ | ⟨-, -, ⟨hmany, -⟩ | ⟨-, heq⟩⟩ := hcases
    · simp only [hused2, Bool.false_eq_true, or_false] at hskip
      omega
    · omega
    · rw [heq]; simp

/-! ## a concrete run -/

/-- On the small machine the page behind the first megabyte is free after boot. -/
theorem smallMap_free : pageIsFree (pmmInit smallImage smallMap Pmm.bss) 256 := by
  rw [pageIsFree_pmmInit _ _ _ (by decide)]
  refine ⟨⟨⟨0x100000, 0x1F00000, 1⟩, by simp [smallMap], rfl, 256, ?_, ?_, rfl⟩, ?_⟩
  · decide
  · decide
  · rintro (h | ⟨-, h⟩)
    · omega
    · exact absurd h (by decide)

/-- It is the first one `pmm_alloc` hands out. -/
theorem pmmAlloc_smallMap : pmmAlloc (pmmInit smallImage smallMap Pmm.bss) =
    (0x100000, (pmmInit smallImage smallMap Pmm.bss).grant 256) := by
  have hfirst : firstFree (pmmInit smallImage smallMap Pmm.bss) = some 256 := by
    refine firstFree_eq_some.mpr ⟨by decide, smallMap_free, fun q hq => ?_⟩
    exact ((valid_pmmInit smallImage smallMap).reserved q (by unfold pagesMax; omega) (.inl hq)).1
  rw [pmmAlloc, hfirst]
  rfl

/-- A run whose only call allocates that page. -/
theorem run_small_alloc : Run smallImage smallMap [.alloc 0x100000]
    ((pmmInit smallImage smallMap Pmm.bss).grant 256) := by
  have hrun : Run smallImage smallMap _ _ := .alloc .init
  rwa [pmmAlloc_smallMap] at hrun

theorem unsaturated_addrefs {p : Nat} (n : Nat) (hn : outstanding h p + n ≤ 255)
    (hsat : Unsaturated h) :
    Unsaturated (List.replicate n (.addref (p * pageSize)) ++ h) := by
  induction n with
  | zero => exact hsat
  | succ n ih =>
    rw [replicate_succ, cons_append]
    refine ⟨?_, ih (by omega)⟩
    rw [mul_pageSize_div, outstanding_addrefs]
    omega

/-- With two references due the page behind the first megabyte is kept. -/
theorem outstanding_page_kept_small :
    Run smallImage smallMap [.addref 0x100000, .alloc 0x100000]
      (pmmAddref ((pmmInit smallImage smallMap Pmm.bss).grant 256) 0x100000) ∧
    pageIsFree (pmmAddref ((pmmInit smallImage smallMap Pmm.bss).grant 256) 0x100000) 256 =
      false := by
  have hrun := run_small_alloc.addref 0x100000 (by decide)
  exact ⟨hrun, (outstanding_page_kept hrun ⟨by decide, trivial⟩ 256 (by decide)).1⟩

/-- The limit is real: a page can be free with a reference still due. -/
theorem outstanding_page_not_kept :
    ¬∀ (k : KernelImage) (map : List E820Entry) (h : List PmmEvent) (s : Pmm), Run k map h s →
      ∀ p, 0 < outstanding h p →
        pageIsFree s p = false ∧ ((pmmAlloc s).1 ≠ 0 → (pmmAlloc s).1 / pageSize ≠ p) := by
  intro hall
  have hone : outstanding [.alloc 0x100000] 256 = 1 := by decide
  obtain ⟨t, hrun, -, -⟩ := run_small_alloc.addrefs (p := 256) (by decide) (by decide)
    (by simp) (by simp) 254
  have hsat := unsaturated_addrefs (p := 256) 254 (by rw [hone]; decide)
    (h := [.alloc 0x100000]) trivial
  obtain ⟨h', s', hrun', hdue, hfree⟩ := saturated_release hrun hsat (p := 256)
    (by rw [outstanding_addrefs, hone]; rfl)
  have hkept := (hall _ _ _ _ hrun' 256 (by omega)).1
  rw [hfree] at hkept
  exact absurd hkept (by decide)

end AliOS
