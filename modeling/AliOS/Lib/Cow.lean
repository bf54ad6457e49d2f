import Mathlib.Data.Finset.Card
import Mathlib.Data.Finset.Basic
import Mathlib.Logic.Function.Basic

/-!
# AliOS.Lib.Cow

Copy-on-write sharing, in general.  A `Store` has address spaces `σ` over
addresses `α`; an entry names a frame `φ` and says how it may be written, a
frame has a content `γ` and a reference count.  `view` is what the spaces mean
to their owners: content and permission per address, with no frames in sight.

The four moves of a copy-on-write system are `Forked` (all entries into a second
space), `store` (into a frame held alone), `claim` (turn the last shared entry
back into a writable one) and `copy` (move an entry to a fresh frame).  Each
keeps `Store.Ok`, and its effect on `view` is that of copying eagerly: a fork
copies one space, `store` writes one space, the other two change nothing.
`eagerClone` and `eagerWrite` are that eager system, on views alone.
-/

namespace AliOS.Lib

open Function Option Finset

/-- How an entry may be written. -/
inductive Mode where
  /-- now -/
  | writable
  /-- after the frame has been copied or turned out to be held alone -/
  | cow
  /-- never -/
  | readOnly
deriving DecidableEq, Repr

/-- Sharing takes the right to write in place away. -/
def Mode.downgrade : Mode → Mode
  | .writable => .cow
  | .cow => .cow
  | .readOnly => .readOnly

/-- The owner may write, one way or the other. -/
def Mode.mayWrite : Mode → Bool
  | .readOnly => false
  | _ => true

@[simp] theorem Mode.mayWrite_downgrade (m : Mode) : m.downgrade.mayWrite = m.mayWrite := by
  cases m <;> rfl

@[simp] theorem Mode.mayWrite_writable : Mode.writable.mayWrite := rfl

@[simp] theorem Mode.downgrade_ne_writable (m : Mode) : m.downgrade ≠ .writable := by
  cases m <;> decide

structure Entry (φ : Type*) where
  frame : φ
  mode : Mode

/-- The entry both spaces have after sharing. -/
def Entry.downgrade {φ : Type*} (e : Entry φ) : Entry φ := ⟨e.frame, e.mode.downgrade⟩

@[simp] theorem Entry.frame_downgrade {φ : Type*} (e : Entry φ) : e.downgrade.frame = e.frame := rfl

@[simp] theorem Entry.mode_downgrade {φ : Type*} (e : Entry φ) :
    e.downgrade.mode = e.mode.downgrade := rfl

structure Store (σ α φ γ : Type*) where
  live : Finset σ
  entry : σ → α → Option (Entry φ)
  content : φ → γ
  refs : φ → Nat

namespace Store

variable {σ α φ γ : Type*} {S S' : Store σ α φ γ} {s t : σ} {a b : α} {e : Entry φ} {f : φ}

/-- Space `s` has frame `f` at address `a`. -/
def Maps (S : Store σ α φ γ) (s : σ) (a : α) (f : φ) : Prop :=
  ∃ e, S.entry s a = some e ∧ e.frame = f

theorem maps_of_entry (h : S.entry s a = some e) : S.Maps s a e.frame := ⟨e, h, rfl⟩

theorem not_maps_of_none (h : S.entry s a = none) : ¬S.Maps s a f := by
  rintro ⟨e, he, -⟩
  rw [h] at he
  cases he

/-- Permission and content, per space and address. -/
def view (S : Store σ α φ γ) (s : σ) (a : α) : Option (Bool × γ) :=
  (S.entry s a).map fun e => (e.mode.mayWrite, S.content e.frame)

variable [DecidableEq φ]

instance (S : Store σ α φ γ) (s : σ) (a : α) (f : φ) : Decidable (S.Maps s a f) :=
  match h : S.entry s a with
  | none => .isFalse (not_maps_of_none h)
  | some e =>
    if hf : e.frame = f then .isTrue ⟨e, h, hf⟩
    else .isFalse fun ⟨e', he, hf'⟩ => by
      rw [h] at he
      cases he
      exact hf hf'

/-- The live spaces that have frame `f` at address `a`. -/
def sharers (S : Store σ α φ γ) (a : α) (f : φ) : Finset σ := S.live.filter fun s => S.Maps s a f

theorem mem_sharers : s ∈ S.sharers a f ↔ s ∈ S.live ∧ S.Maps s a f := mem_filter

/-- The invariant: a frame is mapped at one address only, is counted once per
space that maps it, and is held alone by a space that may write it in place. -/
structure Ok (S : Store σ α φ γ) : Prop where
  home : ∀ s ∈ S.live, ∀ t ∈ S.live, ∀ a b e e', S.entry s a = some e → S.entry t b = some e' →
    e.frame = e'.frame → a = b
  refs : ∀ s ∈ S.live, ∀ a e, S.entry s a = some e → S.refs e.frame = (S.sharers a e.frame).card
  sole : ∀ s ∈ S.live, ∀ a e, S.entry s a = some e → e.mode = .writable →
    ∀ t ∈ S.live, S.Maps t a e.frame → t = s

/-- A frame with count 1 is mapped by one space only. -/
theorem Ok.eq_of_refs_eq_one (h : S.Ok) (hs : s ∈ S.live) (he : S.entry s a = some e)
    (hone : S.refs e.frame = 1) (ht : t ∈ S.live) (hm : S.Maps t a e.frame) : t = s := by
  have hcard := h.refs s hs a e he
  rw [hone] at hcard
  obtain ⟨x, hx⟩ := card_eq_one.mp hcard.symm
  have h1 := mem_sharers.mpr ⟨hs, maps_of_entry he⟩
  have h2 := mem_sharers.mpr ⟨ht, hm⟩
  rw [hx, mem_singleton] at h1 h2
  rw [h1, h2]

/-- `S'` differs from `S` only in what no live space maps. -/
structure Same (S S' : Store σ α φ γ) : Prop where
  live : S'.live = S.live
  entry : ∀ s ∈ S.live, ∀ a, S'.entry s a = S.entry s a
  content : ∀ s ∈ S.live, ∀ a e, S.entry s a = some e → S'.content e.frame = S.content e.frame
  refs : ∀ s ∈ S.live, ∀ a e, S.entry s a = some e → S'.refs e.frame = S.refs e.frame

omit [DecidableEq φ] in
theorem Same.view (h : Same S S') (hs : s ∈ S.live) (a : α) :
    S'.view s a = S.view s a := by
  unfold Store.view
  rw [h.entry s hs a]
  cases he : S.entry s a with
  | none => rfl
  | some e => rw [map_some, map_some, h.content s hs a e he]

theorem Ok.same (h : S.Ok) (hsame : Same S S') : S'.Ok := by
  have hmaps : ∀ {x b f}, x ∈ S.live → (S'.Maps x b f ↔ S.Maps x b f) := by
    intro x b f hx
    unfold Maps
    rw [hsame.entry x hx b]
  have hsharers : ∀ b f, S'.sharers b f = S.sharers b f := by
    intro b f
    ext x
    rw [mem_sharers, mem_sharers, hsame.live]
    exact and_congr_right hmaps
  refine ⟨fun x hx y hy b c e1 e2 h1 h2 hf => ?_, fun x hx b e1 h1 => ?_,
    fun x hx b e1 h1 hw y hy hm => ?_⟩
  · rw [hsame.live] at hx hy
    rw [hsame.entry x hx] at h1
    rw [hsame.entry y hy] at h2
    exact h.home x hx y hy b c e1 e2 h1 h2 hf
  · rw [hsame.live] at hx
    rw [hsame.entry x hx] at h1
    rw [hsame.refs x hx b e1 h1, hsharers]
    exact h.refs x hx b e1 h1
  · rw [hsame.live] at hx hy
    rw [hsame.entry x hx] at h1
    exact h.sole x hx b e1 h1 hw y hy ((hmaps hy).mp hm)

/-- Change the content of a frame. -/
def store (S : Store σ α φ γ) (f : φ) (g : γ → γ) : Store σ α φ γ :=
  { S with content := update S.content f (g (S.content f)) }

theorem Ok.store (h : S.Ok) (f : φ) (g : γ → γ) : (S.store f g).Ok := ⟨h.home, h.refs, h.sole⟩

variable [DecidableEq σ]

/-! ## a second space -/

/-- `S'` is `S` with a space `t` that has all entries of `s`; neither may write in place. -/
structure Forked (S S' : Store σ α φ γ) (s t : σ) : Prop where
  live : S'.live = insert t S.live
  entry : ∀ x ∈ insert t S.live, ∀ a, S'.entry x a =
    if x = s ∨ x = t then (S.entry s a).map Entry.downgrade else S.entry x a
  refs : ∀ x ∈ S.live, ∀ a e, S.entry x a = some e →
    S'.refs e.frame = S.refs e.frame + if S.Maps s a e.frame then 1 else 0

/-- What `t` maps is what `s` mapped. -/
theorem Forked.maps (h : Forked S S' s t) {x : σ} (hx : x ∈ insert t S.live) :
    S'.Maps x a f ↔ S.Maps (if x = t then s else x) a f := by
  unfold Maps
  rw [h.entry x hx a]
  by_cases hxt : x = t
  · simp [hxt]
  · by_cases hxs : x = s
    · simp [hxs]
    · simp [hxs, hxt]

theorem Forked.sharers (h : Forked S S' s t) (ht : t ∉ S.live) (a : α) (f : φ) :
    S'.sharers a f = if S.Maps s a f then insert t (S.sharers a f) else S.sharers a f := by
  ext x
  rw [mem_sharers, h.live, and_congr_right fun hx => h.maps hx]
  by_cases hm : S.Maps s a f
  · by_cases hxt : x = t
    · simp [hxt, hm]
    · simp [hxt, hm, mem_sharers]
  · by_cases hxt : x = t
    · simp [hxt, hm, ht, mem_sharers]
    · simp [hxt, hm, mem_sharers]

theorem Ok.forked (h : S.Ok) (hs : s ∈ S.live) (ht : t ∉ S.live) (hfork : Forked S S' s t) :
    S'.Ok := by
  -- an entry and the one it comes from
  have hold : ∀ {x b e1}, x ∈ S'.live → S'.entry x b = some e1 →
      (if x = t then s else x) ∈ S.live ∧ S.Maps (if x = t then s else x) b e1.frame := by
    intro x b e1 hx h1
    rw [hfork.live] at hx
    refine ⟨?_, (hfork.maps hx).mp (maps_of_entry h1)⟩
    split
    · exact hs
    · exact mem_of_mem_insert_of_ne hx (by assumption)
  refine ⟨fun x hx y hy b c e1 e2 h1 h2 hf => ?_, fun x hx b e1 h1 => ?_,
    fun x hx b e1 h1 hw y hy hm => ?_⟩
  · obtain ⟨hx, e1', h1', hf1⟩ := hold hx h1
    obtain ⟨hy, e2', h2', hf2⟩ := hold hy h2
    exact h.home _ hx _ hy b c e1' e2' h1' h2' (by rw [hf1, hf2, hf])
  · obtain ⟨hx, e1', h1', hf1⟩ := hold hx h1
    rw [← hf1, hfork.refs _ hx b e1' h1', hfork.sharers ht, h.refs _ hx b e1' h1']
    split
    · rw [card_insert_of_notMem fun hmem => ht (mem_sharers.mp hmem).1]
    · rfl
  · -- an entry that can be written in place is one of neither
    rw [hfork.live] at hx hy
    rw [hfork.entry x hx b] at h1
    split at h1
    · obtain ⟨e0, -, rfl⟩ := map_eq_some_iff.mp h1
      exact absurd hw (Mode.downgrade_ne_writable _)
    · rename_i hne
      obtain ⟨hxs, hxt⟩ := not_or.mp hne
      have hm' := (hfork.maps hy).mp hm
      have hxl := mem_of_mem_insert_of_ne hx hxt
      split at hm'
      · exact absurd (h.sole x hxl b e1 h1 hw s hs hm').symm hxs
      · exact h.sole x hxl b e1 h1 hw y (mem_of_mem_insert_of_ne hy (by assumption)) hm'

variable [DecidableEq α]

/-! ## writing -/

/-- Writing a frame held alone is seen by its holder only. -/
theorem view_store (h : S.Ok) (hs : s ∈ S.live) (he : S.entry s a = some e)
    (hw : e.mode = .writable) (g : γ → γ) {x : σ} (hx : x ∈ S.live) (b : α) :
    (S.store e.frame g).view x b =
      if x = s ∧ b = a then (S.view s a).map (Prod.map id g) else S.view x b := by
  unfold view
  show (S.entry x b).map (fun e' => (e'.mode.mayWrite,
    update S.content e.frame (g (S.content e.frame)) e'.frame)) = _
  by_cases hc : x = s ∧ b = a
  · obtain ⟨rfl, rfl⟩ := hc
    simp [he]
  · rw [if_neg hc]
    cases hx' : S.entry x b with
    | none => rfl
    | some e' =>
      have hne : e'.frame ≠ e.frame := by
        intro hf
        have hb : b = a := h.home x hx s hs b a e' e hx' he hf
        exact hc ⟨h.sole s hs a e he hw x hx ⟨e', hb ▸ hx', hf⟩, hb⟩
      simp [update_of_ne hne]

/-- The last holder of a shared frame takes it back. -/
def claim (S : Store σ α φ γ) (s : σ) (a : α) (e : Entry φ) : Store σ α φ γ :=
  { S with entry := fun x b => if x = s ∧ b = a then some ⟨e.frame, .writable⟩ else S.entry x b }

omit [DecidableEq φ] in
theorem entry_claim {x : σ} {e1 : Entry φ} (he : S.entry s a = some e)
    (h : (S.claim s a e).entry x b = some e1) :
    ∃ e2, S.entry x b = some e2 ∧ e1.frame = e2.frame ∧
      (x = s ∧ b = a ∨ ¬(x = s ∧ b = a) ∧ e1 = e2) := by
  dsimp only [claim] at h
  by_cases hc : x = s ∧ b = a
  · rw [if_pos hc] at h
    cases h
    obtain ⟨rfl, rfl⟩ := hc
    exact ⟨e, he, rfl, .inl ⟨rfl, rfl⟩⟩
  · rw [if_neg hc] at h
    exact ⟨e1, h, rfl, .inr ⟨hc, rfl⟩⟩

omit [DecidableEq φ] in
theorem maps_claim (he : S.entry s a = some e) {x : σ} :
    (S.claim s a e).Maps x b f ↔ S.Maps x b f := by
  unfold Maps claim
  by_cases hc : x = s ∧ b = a
  · obtain ⟨rfl, rfl⟩ := hc
    simp [he]
  · simp only [if_neg hc]

theorem sharers_claim (he : S.entry s a = some e) (b : α) (f : φ) :
    (S.claim s a e).sharers b f = S.sharers b f := by
  ext x
  rw [mem_sharers, mem_sharers, maps_claim he]
  exact Iff.rfl

theorem Ok.claim (h : S.Ok) (hs : s ∈ S.live) (he : S.entry s a = some e)
    (hone : S.refs e.frame = 1) : (S.claim s a e).Ok := by
  refine ⟨fun x hx y hy b c e1 e2 h1 h2 hf => ?_, fun x hx b e1 h1 => ?_,
    fun x hx b e1 h1 hw y hy hm => ?_⟩
  · obtain ⟨e1', h1', hf1, -⟩ := entry_claim he h1
    obtain ⟨e2', h2', hf2, -⟩ := entry_claim he h2
    exact h.home x hx y hy b c e1' e2' h1' h2' (hf1.symm.trans (hf.trans hf2))
  · obtain ⟨e1', h1', hf1, -⟩ := entry_claim he h1
    rw [sharers_claim he, hf1]
    exact h.refs x hx b e1' h1'
  · rw [maps_claim he] at hm
    obtain ⟨e1', h1', hf1, ⟨rfl, rfl⟩ | ⟨-, rfl⟩⟩ := entry_claim he h1
    · rw [he] at h1'
      cases h1'
      exact h.eq_of_refs_eq_one hs he hone hy (hf1 ▸ hm)
    · exact h.sole x hx b e1 h1' hw y hy hm

omit [DecidableEq φ] in
theorem view_claim (he : S.entry s a = some e) (hmay : e.mode.mayWrite) :
    (S.claim s a e).view = S.view := by
  funext x b
  unfold view claim
  by_cases hc : x = s ∧ b = a
  · obtain ⟨rfl, rfl⟩ := hc
    simp [he, hmay]
  · simp only [if_neg hc]

/-! ## copying to a fresh frame -/

/-- Move the entry `e` of `s` at `a` to the frame `f`, with its content. -/
def copy (S : Store σ α φ γ) (s : σ) (a : α) (e : Entry φ) (f : φ) : Store σ α φ γ :=
  { S with
    entry := fun x b => if x = s ∧ b = a then some ⟨f, .writable⟩ else S.entry x b
    content := update S.content f (S.content e.frame)
    refs := update (update S.refs e.frame (S.refs e.frame - 1)) f 1 }

/-- No live space has frame `f`. -/
def Fresh (S : Store σ α φ γ) (f : φ) : Prop := ∀ x ∈ S.live, ∀ b, ¬S.Maps x b f

theorem entry_copy {x : σ} {e1 : Entry φ} (h : (S.copy s a e f).entry x b = some e1) :
    (x = s ∧ b = a ∧ e1 = ⟨f, .writable⟩) ∨ (¬(x = s ∧ b = a) ∧ S.entry x b = some e1) := by
  dsimp only [copy] at h
  by_cases hc : x = s ∧ b = a
  · rw [if_pos hc] at h
    exact .inl ⟨hc.1, hc.2, (some.inj h).symm⟩
  · rw [if_neg hc] at h
    exact .inr ⟨hc, h⟩

theorem maps_copy {x : σ} {f' : φ} : (S.copy s a e f).Maps x b f' ↔
    (x = s ∧ b = a ∧ f' = f) ∨ (¬(x = s ∧ b = a) ∧ S.Maps x b f') := by
  unfold Maps copy
  by_cases hc : x = s ∧ b = a
  · obtain ⟨rfl, rfl⟩ := hc
    simp [eq_comm]
  · simp only [if_neg hc]
    constructor
    · exact fun h => .inr ⟨hc, h⟩
    · rintro (⟨hx, hb, -⟩ | ⟨-, h⟩)
      · exact absurd ⟨hx, hb⟩ hc
      · exact h

theorem Ok.copy (h : S.Ok) (hs : s ∈ S.live) (he : S.entry s a = some e) (hfresh : S.Fresh f) :
    (S.copy s a e f).Ok := by
  have hne : ∀ x ∈ S.live, ∀ b e1, S.entry x b = some e1 → e1.frame ≠ f :=
    fun x hx b e1 h1 hf => hfresh x hx b ⟨e1, h1, hf⟩
  -- the new frame is mapped by `s` alone
  have hnew : (S.copy s a e f).sharers a f = {s} := by
    ext x
    rw [mem_sharers, maps_copy, mem_singleton]
    constructor
    · rintro ⟨hx, ⟨rfl, -, -⟩ | ⟨-, hm⟩⟩
      · rfl
      · exact absurd hm (hfresh x hx a)
    · rintro rfl
      exact ⟨hs, .inl ⟨rfl, rfl, rfl⟩⟩
  -- the old frame loses `s`, the others lose nothing
  have hold : ∀ b f', f' ≠ f → (S.copy s a e f).sharers b f' =
      if b = a ∧ f' = e.frame then (S.sharers a e.frame).erase s else S.sharers b f' := by
    intro b f' hf'
    ext x
    rw [mem_sharers, maps_copy]
    by_cases hc : b = a ∧ f' = e.frame
    · obtain ⟨rfl, rfl⟩ := hc
      rw [if_pos ⟨rfl, rfl⟩, mem_erase, mem_sharers]
      constructor
      · rintro ⟨hx, ⟨-, -, hf⟩ | ⟨hxs, hm⟩⟩
        · exact absurd hf hf'
        · exact ⟨fun hx' => hxs ⟨hx', rfl⟩, hx, hm⟩
      · exact fun ⟨hxs, hx, hm⟩ => ⟨hx, .inr ⟨fun hc => hxs hc.1, hm⟩⟩
    · rw [if_neg hc, mem_sharers]
      constructor
      · rintro ⟨hx, ⟨-, -, hf⟩ | ⟨-, hm⟩⟩
        · exact absurd hf hf'
        · exact ⟨hx, hm⟩
      · rintro ⟨hx, hm⟩
        refine ⟨hx, .inr ⟨?_, hm⟩⟩
        rintro ⟨rfl, rfl⟩
        obtain ⟨e1, h1, hf1⟩ := hm
        rw [he] at h1
        cases h1
        exact hc ⟨rfl, hf1.symm⟩
  have hrefs := h.refs s hs a e he
  refine ⟨fun x hx y hy b c e1 e2 h1 h2 hf => ?_, fun x hx b e1 h1 => ?_,
    fun x hx b e1 h1 hw y hy hm => ?_⟩
  · obtain ⟨-, hb, rfl⟩ | ⟨-, old1⟩ := entry_copy h1 <;>
      obtain ⟨-, hc, rfl⟩ | ⟨-, old2⟩ := entry_copy h2
    · rw [hb, hc]
    · exact absurd hf.symm (hne y hy c e2 old2)
    · exact absurd hf (hne x hx b e1 old1)
    · exact h.home x hx y hy b c e1 e2 old1 old2 hf
  · obtain ⟨-, rfl, rfl⟩ | ⟨-, old⟩ := entry_copy h1
    · rw [hnew, card_singleton]
      simp [Store.copy]
    · have hf := hne x hx b e1 old
      rw [hold b e1.frame hf]
      dsimp only [Store.copy]
      rw [update_of_ne hf, update_apply]
      by_cases hfe : e1.frame = e.frame
      · have hb : b = a := h.home x hx s hs b a e1 e old he hfe
        rw [if_pos hfe, if_pos ⟨hb, hfe⟩,
          card_erase_of_mem (mem_sharers.mpr ⟨hs, maps_of_entry he⟩), hrefs]
      · rw [if_neg hfe, if_neg fun hc => hfe hc.2]
        exact h.refs x hx b e1 old
  · obtain ⟨rfl, rfl, rfl⟩ | ⟨-, old⟩ := entry_copy h1
    · obtain ⟨hy', -, -⟩ | ⟨-, hm⟩ := maps_copy.mp hm
      · exact hy'
      · exact absurd hm (hfresh y hy b)
    · obtain ⟨-, -, hf⟩ | ⟨-, hm⟩ := maps_copy.mp hm
      · exact absurd hf (hne x hx b e1 old)
      · exact h.sole x hx b e1 old hw y hy hm

theorem view_copy (he : S.entry s a = some e) (hmay : e.mode.mayWrite) (hfresh : S.Fresh f)
    {x : σ} (hx : x ∈ S.live) (b : α) : (S.copy s a e f).view x b = S.view x b := by
  unfold view copy
  by_cases hc : x = s ∧ b = a
  · obtain ⟨rfl, rfl⟩ := hc
    simp [he, hmay]
  · simp only [if_neg hc]
    cases hx' : S.entry x b with
    | none => rfl
    | some e' =>
      have hne : e'.frame ≠ f := fun hf => hfresh x hx b ⟨e', hx', hf⟩
      simp [update_of_ne hne]

end Store

/-! ## the eager system -/

section Eager

variable {σ α γ : Type*} [DecidableEq σ] [DecidableEq α]

/-- Space `t` becomes a copy of `s`, page by page. -/
def eagerClone (V : σ → α → Option (Bool × γ)) (s t : σ) : σ → α → Option (Bool × γ) :=
  fun x b => if x = t then V s b else V x b

/-- Space `s` changes its content at `a`, if it may. -/
def eagerWrite (V : σ → α → Option (Bool × γ)) (s : σ) (a : α) (g : γ → γ) :
    σ → α → Option (Bool × γ) :=
  fun x b => if x = s ∧ b = a then (V s a).map fun p => if p.1 then (true, g p.2) else p else V x b

theorem eagerWrite_congr {V V' : σ → α → Option (Bool × γ)} {s x : σ} (hs : ∀ b, V s b = V' s b)
    (hx : ∀ b, V x b = V' x b) (a : α) (g : γ → γ) (b : α) :
    eagerWrite V s a g x b = eagerWrite V' s a g x b := by
  unfold eagerWrite
  rw [hs a, hx b]

/-- Without the right to write nothing happens. -/
theorem eagerWrite_of_not_mayWrite {V : σ → α → Option (Bool × γ)} {s : σ} {a : α}
    (h : ∀ p, V s a = some p → p.1 = false) (g : γ → γ) : eagerWrite V s a g = V := by
  funext x b
  unfold eagerWrite
  by_cases hc : x = s ∧ b = a
  · rw [if_pos hc, hc.1, hc.2]
    cases hp : V s a with
    | none => rfl
    | some p =>
      rw [map_some, if_neg]
      rw [h p hp]
      decide
  · rw [if_neg hc]

/-- Writing a frame held alone is an eager write. -/
theorem Store.view_store_eq_eagerWrite {φ : Type*} [DecidableEq φ] {S : Store σ α φ γ}
    {s : σ} {a : α} {e : Entry φ} (h : S.Ok) (hs : s ∈ S.live) (he : S.entry s a = some e)
    (hw : e.mode = .writable) (g : γ → γ) {x : σ} (hx : x ∈ S.live) (b : α) :
    (S.store e.frame g).view x b = eagerWrite S.view s a g x b := by
  have hview : S.view s a = some (true, S.content e.frame) := by
    unfold Store.view
    rw [he, map_some, hw, Mode.mayWrite_writable]
  rw [Store.view_store h hs he hw g hx b]
  unfold eagerWrite
  rw [hview]
  rfl

end Eager

end AliOS.Lib
