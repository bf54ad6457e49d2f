import Mathlib.Data.List.Nodup

/-!
# AliOS.Lib.Ring

Circular singly linked lists.  `next` gives the successor of every node;
`Ring next c l` says that following it from `c` visits the nodes of `l` once each
and comes back to `c`.  Nodes are inserted behind `c`, taken out anywhere, and the
node from which the ring is looked at may move.

`ringFind` and `ringFold` are the two loops over such a list, from a node on to
`stop`: a search, and a pass that runs a body on every node.  They have a bound on
the number of iterations, `none` when it is used up; around a ring its length is
enough.
-/

namespace AliOS.Lib

open List

variable {α σ : Type _}

/-- Following `next` from `t` visits the nodes of `l` and arrives at `m`. -/
def Leads (next : α → α) : α → List α → α → Prop
  | t, [], m => t = m
  | t, a :: l, m => t = a ∧ Leads next (next a) l m

/-- From `c`, the other nodes of the ring are `l`, in this order. -/
structure Ring (next : α → α) (c : α) (l : List α) : Prop where
  leads : Leads next (next c) l c
  nodup : (c :: l).Nodup

/-! ## paths -/

section

variable {next next' : α → α} {t m x : α} {l l₁ l₂ : List α}

theorem leads_append : Leads next t (l₁ ++ l₂) m ↔ ∃ x, Leads next t l₁ x ∧ Leads next x l₂ m := by
  induction l₁ generalizing t with
  | nil => simp [Leads]
  | cons a l₁ ih => simp [Leads, ih, and_assoc]

theorem Leads.congr (h : Leads next t l m) (heq : ∀ a ∈ l, next' a = next a) :
    Leads next' t l m := by
  induction l generalizing t with
  | nil => exact h
  | cons a l ih =>
    refine ⟨h.1, ?_⟩
    rw [heq a mem_cons_self]
    exact ih h.2 fun b hb => heq b (mem_cons_of_mem _ hb)

/-- Redirecting the last node of a path redirects its end. -/
theorem Leads.redirect [DecidableEq α] (h : Leads next (next t) l m) (hnodup : (t :: l).Nodup)
    (hlast : next' ((t :: l).getLast (by simp)) = x)
    (hother : ∀ a, a ≠ (t :: l).getLast (by simp) → next' a = next a) :
    Leads next' (next' t) l x := by
  induction l generalizing t with
  | nil => exact hlast
  | cons a l ih =>
    rw [nodup_cons] at hnodup
    have hne : t ≠ (a :: l).getLast (by simp) := fun heq => hnodup.1 (heq ▸ getLast_mem _)
    rw [hother t (by rwa [getLast_cons (by simp)])]
    refine ⟨h.1, ih h.2 hnodup.2 hlast fun b hb => hother b ?_⟩
    rwa [getLast_cons (by simp)]

end

/-! ## operations -/

section

variable {next next' : α → α} {c x : α} {l l₁ l₂ : List α}

theorem Ring.congr (h : Ring next c l) (heq : ∀ a ∈ c :: l, next' a = next a) : Ring next' c l where
  leads := by
    rw [heq c mem_cons_self]
    exact h.leads.congr fun a ha => heq a (mem_cons_of_mem _ ha)
  nodup := h.nodup

/-- A node inserted behind `c` comes first. -/
theorem Ring.insert (h : Ring next c l) (hx : x ∉ c :: l) (hc : next' c = x) (hn : next' x = next c)
    (hother : ∀ a ∈ l, next' a = next a) : Ring next' c (x :: l) where
  leads := by
    rw [hc]
    exact ⟨rfl, hn ▸ h.leads.congr hother⟩
  nodup := by
    have hnodup := h.nodup
    simp only [mem_cons, nodup_cons] at hx hnodup ⊢
    tauto

/-- A node is taken out by redirecting the one before it. -/
theorem Ring.remove [DecidableEq α] (h : Ring next c (l₁ ++ x :: l₂))
    (hlast : next' ((c :: l₁).getLast (by simp)) = next x)
    (hother : ∀ a, a ≠ (c :: l₁).getLast (by simp) → next' a = next a) :
    Ring next' c (l₁ ++ l₂) := by
  have hnodup := h.nodup
  rw [← cons_append] at hnodup
  obtain ⟨hnd1, hnd2, hdisj⟩ := nodup_append.mp hnodup
  obtain ⟨y, hleads1, -, hleads2⟩ := leads_append.mp h.leads
  refine ⟨leads_append.mpr ⟨next x, hleads1.redirect hnd1 hlast hother,
    hleads2.congr fun a ha => ?_⟩, ?_⟩
  · refine hother a fun heq => ?_
    exact hdisj _ (getLast_mem _) a (mem_cons_of_mem _ ha) heq.symm
  · exact nodup_append.mpr ⟨hnd1, (nodup_cons.mp hnd2).2,
      fun a ha b hb => hdisj a ha b (mem_cons_of_mem _ hb)⟩

/-- The ring seen from another of its nodes. -/
theorem Ring.rotate (h : Ring next c (l₁ ++ x :: l₂)) : Ring next x (l₂ ++ c :: l₁) where
  leads := by
    obtain ⟨_, hleads1, rfl, hleads2⟩ := leads_append.mp h.leads
    exact leads_append.mpr ⟨c, hleads2, rfl, hleads1⟩
  nodup := by
    have hperm : (x :: (l₂ ++ c :: l₁)).Perm (c :: (l₁ ++ x :: l₂)) := by
      rw [← cons_append, ← cons_append]
      exact perm_append_comm
    exact hperm.nodup_iff.mpr h.nodup

end

/-! ## loops -/

variable [DecidableEq α]

/-- `while (t != stop) { if (p(t)) break; prev = t; t = t->next; }`: where the search
ended, with the node before it, or nothing at `stop`. -/
def ringFind (next : α → α) (stop : α) (p : α → Bool) : Nat → α → α → Option (Option (α × α))
  | 0, _, t => if t = stop then some none else none
  | fuel + 1, prev, t =>
    if t = stop then some none
    else if p t then some (some (prev, t)) else ringFind next stop p fuel t (next t)

/-- `while (t != stop) { body; t = t->next; }`. -/
def ringFold (next : σ → α → α) (stop : α) (body : α → σ → Option σ) : Nat → α → σ → Option σ
  | 0, t, s => if t = stop then some s else none
  | fuel + 1, t, s =>
    if t = stop then some s
    else (body t s).bind fun s' => ringFold next stop body fuel (next s' t) s'

/-- The first node of a list that satisfies `p`, and the one before it. -/
def findPrev (p : α → Bool) : α → List α → Option (α × α)
  | _, [] => none
  | prev, a :: l => if p a then some (prev, a) else findPrev p a l

section

variable {p : α → Bool} {prev : α} {l : List α}

omit [DecidableEq α] in
theorem findPrev_eq_none : findPrev p prev l = none ↔ ∀ a ∈ l, p a = false := by
  induction l generalizing prev with
  | nil => simp [findPrev]
  | cons a l ih => cases hp : p a <;> simp [findPrev, hp, ih]

omit [DecidableEq α] in
theorem findPrev_congr {q : α → Bool} (h : ∀ a ∈ l, p a = q a) :
    findPrev p prev l = findPrev q prev l := by
  induction l generalizing prev with
  | nil => rfl
  | cons a l ih =>
    obtain ⟨ha, hl⟩ := forall_mem_cons.mp h
    rw [findPrev, findPrev, ha, ih hl]

omit [DecidableEq α] in
theorem findPrev_isSome : (findPrev p prev l).isSome = l.any p := by
  induction l generalizing prev with
  | nil => rfl
  | cons a l ih => cases hp : p a <;> simp [findPrev, hp, ih]

omit [DecidableEq α] in
theorem findPrev_eq_some {q x : α} (h : findPrev p prev l = some (q, x)) :
    ∃ l₁ l₂, l = l₁ ++ x :: l₂ ∧ p x ∧ (∀ a ∈ l₁, p a = false) ∧
      q = (prev :: l₁).getLast (by simp) := by
  induction l generalizing prev with
  | nil => simp [findPrev] at h
  | cons a l ih =>
    cases hp : p a with
    | true =>
      simp only [findPrev, hp, if_true, Option.some.injEq, Prod.mk.injEq] at h
      obtain ⟨rfl, rfl⟩ := h
      exact ⟨[], l, rfl, hp, by simp, rfl⟩
    | false =>
      simp only [findPrev, hp, Bool.false_eq_true, if_false] at h
      obtain ⟨l₁, l₂, rfl, hx, hl1, rfl⟩ := ih h
      refine ⟨a :: l₁, l₂, rfl, hx, ?_, (getLast_cons (cons_ne_nil a l₁)).symm⟩
      simpa [hp] using hl1

omit [DecidableEq α] in
theorem findPrev_append {x : α} {l₁ l₂ : List α} (hx : p x) (hl : ∀ a ∈ l₁, p a = false) :
    findPrev p prev (l₁ ++ x :: l₂) = some ((prev :: l₁).getLast (by simp), x) := by
  induction l₁ generalizing prev with
  | nil => simp [findPrev, hx]
  | cons a l₁ ih =>
    simp only [forall_mem_cons] at hl
    simp [findPrev, hl.1, ih hl.2]

end

/-! ## bounded computations -/

section

variable {β γ : Type _} {n : Nat}

/-- The computation gives `v`, unless its bound is below `n`. -/
def Settles (n : Nat) (f : Nat → Option β) (v : β) : Prop :=
  ∀ fuel, f fuel = some v ∨ f fuel = none ∧ fuel < n

theorem Settles.total {f : Nat → Option β} {v : β} (h : Settles n f v) {fuel : Nat}
    (hn : n ≤ fuel) :
    f fuel = some v := by
  have := h fuel
  grind

theorem Settles.eq_of_some {f : Nat → Option β} {v w : β} (h : Settles n f v) {fuel : Nat}
    (hw : f fuel = some w) : w = v := by
  have := h fuel
  grind

theorem Settles.pure (n : Nat) (v : β) : Settles n (fun _ => some v) v := fun _ => .inl rfl

theorem Settles.mono {f : Nat → Option β} {v : β} {k : Nat} (h : Settles n f v) (hn : n ≤ k) :
    Settles k f v := by
  intro fuel
  obtain hf | ⟨hf, hlt⟩ := h fuel
  · exact .inl hf
  · exact .inr ⟨hf, by omega⟩

/-- One more iteration. -/
theorem Settles.succ {f g : Nat → Option β} {v : β} (h : Settles n g v) (h0 : f 0 = none)
    (hf : ∀ fuel, f (fuel + 1) = g fuel) : Settles (n + 1) f v := by
  intro fuel
  cases fuel with
  | zero => exact .inr ⟨h0, by omega⟩
  | succ fuel =>
    rw [hf]
    obtain hg | ⟨hg, hlt⟩ := h fuel
    · exact .inl hg
    · exact .inr ⟨hg, by omega⟩

theorem Settles.map {f : Nat → Option β} {v : β} (h : Settles n f v) (g : β → γ) :
    Settles n (fun fuel => (f fuel).map g) (g v) := by
  intro fuel
  obtain hf | ⟨hf, hlt⟩ := h fuel
  · exact .inl (by simp [hf])
  · exact .inr ⟨by simp [hf], hlt⟩

theorem Settles.bind {f : Nat → Option β} {v : β} {g : Nat → β → Option γ} {w : γ}
    (h : Settles n f v) (hg : Settles n (fun fuel => g fuel v) w) :
    Settles n (fun fuel => (f fuel).bind (g fuel)) w := by
  intro fuel
  obtain hf | ⟨hf, hlt⟩ := h fuel
  · simpa [hf] using hg fuel
  · exact .inr ⟨by simp [hf], hlt⟩

end

section

variable {β γ : Type _} {n k m j : Nat}

/-- A loop whose body has loops in it: it gives `v`, unless the bound of the inner loops is
below `n` or its own bound below `m`. -/
def LoopSettles (n m : Nat) (f : Nat → Nat → Option β) (v : β) : Prop :=
  ∀ bound fuel, f bound fuel = some v ∨ f bound fuel = none ∧ (bound < n ∨ fuel < m)

theorem LoopSettles.pure (n m : Nat) (v : β) : LoopSettles n m (fun _ _ => some v) v :=
  fun _ _ => .inl rfl

theorem LoopSettles.mono {f : Nat → Nat → Option β} {v : β} (h : LoopSettles n m f v) (hn : n ≤ k)
    (hm : m ≤ j) :
    LoopSettles k j f v := by
  intro bound fuel
  obtain hf | ⟨hf, hlt⟩ := h bound fuel
  · exact .inl hf
  · exact .inr ⟨hf, by omega⟩

/-- The body computes something first. -/
theorem LoopSettles.bind {f : Nat → Option β} {v : β} {g : Nat → Nat → β → Option γ} {w : γ}
    (h : Settles n f v) (hg : LoopSettles n m (fun bound fuel => g bound fuel v) w) :
    LoopSettles n m (fun bound fuel => (f bound).bind (g bound fuel)) w := by
  intro bound fuel
  obtain hf | ⟨hf, hlt⟩ := h bound
  · simpa [hf] using hg bound fuel
  · exact .inr ⟨by simp [hf], .inl hlt⟩

/-- One more iteration. -/
theorem LoopSettles.succ {f g : Nat → Nat → Option β} {v : β} (h : LoopSettles n m g v)
    (h0 : ∀ bound, f bound 0 = none) (hf : ∀ bound fuel, f bound (fuel + 1) = g bound fuel) :
    LoopSettles n (m + 1) f v := by
  intro bound fuel
  cases fuel with
  | zero => exact .inr ⟨h0 bound, .inr (by omega)⟩
  | succ fuel =>
    rw [hf]
    obtain hg | ⟨hg, hlt⟩ := h bound fuel
    · exact .inl hg
    · exact .inr ⟨hg, by omega⟩

/-- Inner and outer loop have the same bound. -/
theorem LoopSettles.diag {f : Nat → Nat → Option β} {v : β} (h : LoopSettles n m f v) :
    Settles (max n m) (fun fuel => f fuel fuel) v := by
  intro fuel
  obtain hf | ⟨hf, hlt⟩ := h fuel fuel
  · exact .inl hf
  · exact .inr ⟨hf, by omega⟩

end

/-- A search does not find the node it stops at. -/
theorem ringFind_ne_stop {next : α → α} {stop prev t q a : α} {p : α → Bool} {fuel : Nat}
    (h : ringFind next stop p fuel prev t = some (some (q, a))) : a ≠ stop := by
  induction fuel generalizing prev t with
  | zero =>
    rw [ringFind] at h
    split at h
    · cases h
    · cases h
  | succ fuel ih =>
    rw [ringFind] at h
    by_cases hstop : t = stop
    · rw [if_pos hstop] at h
      cases h
    · rw [if_neg hstop] at h
      by_cases hp : p t = true
      · rw [if_pos hp] at h
        cases h
        exact hstop
      · rw [if_neg hp] at h
        exact ih h

/-- What a search finds lies on the path. -/
theorem ringFind_mem {next : α → α} {stop prev t q a : α} {p : α → Bool} {fuel : Nat} {l : List α}
    (hl : Leads next t l stop) (h : ringFind next stop p fuel prev t = some (some (q, a))) :
    a ∈ l := by
  induction l generalizing fuel prev t with
  | nil =>
    obtain rfl : t = stop := hl
    cases fuel <;> simp [ringFind] at h
  | cons b l ih =>
    obtain ⟨rfl, hrest⟩ := hl
    cases fuel with
    | zero =>
      rw [ringFind] at h
      split at h <;> cases h
    | succ fuel =>
      rw [ringFind] at h
      by_cases hstop : t = stop
      · rw [if_pos hstop] at h
        cases h
      · rw [if_neg hstop] at h
        by_cases hp : p t = true
        · rw [if_pos hp] at h
          cases h
          exact mem_cons_self
        · rw [if_neg hp] at h
          exact mem_cons_of_mem _ (ih hrest h)

/-- A search along a path looks at its nodes. -/
theorem ringFind_settles {next : α → α} {stop t : α} {p : α → Bool} {l : List α}
    (h : Leads next t l stop) (hstop : stop ∉ l) (prev : α) :
    Settles l.length (fun fuel => ringFind next stop p fuel prev t) (findPrev p prev l) := by
  intro fuel
  induction l generalizing t prev fuel with
  | nil =>
    obtain rfl : t = stop := h
    cases fuel <;> simp [ringFind, findPrev]
  | cons a l ih =>
    obtain ⟨rfl, hrest⟩ := h
    simp only [mem_cons, not_or] at hstop
    cases fuel with
    | zero => exact .inr ⟨by simp [ringFind, Ne.symm hstop.1], by simp⟩
    | succ fuel =>
      dsimp only
      rw [ringFind, if_neg (Ne.symm hstop.1), findPrev]
      cases hp : p t with
      | true => exact .inl rfl
      | false =>
        obtain hf | ⟨hf, hlt⟩ := ih hrest hstop.2 t fuel
        · exact .inl hf
        · exact .inr ⟨hf, by simpa using hlt⟩

/-- A pass along a path runs the body on its nodes, if the body leaves the links
alone.  `inv` is what the bodies rely on. -/
theorem ringFold_settles {next : σ → α → α} {stop t : α} {body : Nat → α → σ → Option σ}
    {g : α → σ → σ} (inv : σ → Prop) {l : List α} {n : Nat} (hn : l.length ≤ n)
    (hbody : ∀ a ∈ l, ∀ s, inv s → Settles n (fun fuel => body fuel a s) (g a s) ∧ inv (g a s) ∧
      next (g a s) = next s)
    {s : σ} (hinv : inv s) (h : Leads (next s) t l stop) (hstop : stop ∉ l) :
    Settles n (fun fuel => ringFold next stop (body fuel) fuel t s)
      (l.foldl (fun s a => g a s) s) := by
  -- the bound of the bodies stays while the bound of the loop counts down
  suffices hloop : ∀ bound fuel, ringFold next stop (body bound) fuel t s =
      some (l.foldl (fun s a => g a s) s) ∨
      ringFold next stop (body bound) fuel t s = none ∧ (bound < n ∨ fuel < l.length) by
    intro fuel
    obtain hf | ⟨hf, hlt⟩ := hloop fuel fuel
    · exact .inl hf
    · exact .inr ⟨hf, by omega⟩
  intro bound fuel
  clear hn
  induction l generalizing t s fuel with
  | nil =>
    obtain rfl : t = stop := h
    cases fuel <;> simp [ringFold]
  | cons a l ih =>
    obtain ⟨rfl, hrest⟩ := h
    simp only [mem_cons, not_or] at hstop
    obtain ⟨hsettles, hinv', hnext⟩ := hbody t mem_cons_self s hinv
    cases fuel with
    | zero => exact .inr ⟨by simp [ringFold, Ne.symm hstop.1], .inr (by simp)⟩
    | succ fuel =>
      rw [ringFold, if_neg (Ne.symm hstop.1)]
      obtain hb | ⟨hb, hlt⟩ := hsettles bound
      · dsimp only at hb
        rw [hb, Option.bind_some]
        obtain hf | ⟨hf, hlt⟩ := ih (fun b hb => hbody b (mem_cons_of_mem _ hb)) hinv'
          (hnext ▸ hrest) hstop.2 fuel
        · exact .inl hf
        · refine .inr ⟨hf, ?_⟩
          rw [length_cons]
          omega
      · dsimp only at hb
        exact .inr ⟨by rw [hb]; rfl, .inl hlt⟩

end AliOS.Lib
