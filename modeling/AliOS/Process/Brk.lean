import AliOS.Process.Fork
import AliOS.Process.Leak

/-!
# AliOS.Process.Brk

The heap of a process.  `sys_brk` takes a frame for each new page, clears it and maps it; when
`pmm_alloc` fails it returns -1 and leaves the pages it has mapped where they are, and it does not
look at the result of `uvm_map`, which needs a frame for a page table now and then.

`Growing` is the state of the loop as long as there are frames, `Starved` the state once they
have run out.
-/

namespace AliOS

open Lib Option Finset

/-! ## what is promised -/

/-- `(a + 0xFFF) & ~0xFFF`, as a page number. -/
def pageUp (a : UInt32) : Nat := (a.toNat + 0xFFF) / 4096

theorem pageUp_mul {a : UInt32} (h : a.toNat < 0xBFFF0000) :
    (a.toNat + 0xFFF) % 2 ^ 32 / 4096 * 4096 = pageUp a * 4096 := by
  rw [Nat.mod_eq_of_lt (by omega), pageUp]

/-- The pages from `lo` to `hi` are mapped with both rights to cleared frames, which were free
before and are all different. -/
structure FreshPages (m m' : Machine) (d lo hi : Nat) : Prop where
  mapped : ∀ v, lo ≤ v → v < hi → ∃ f,
    pteAt m'.mem d v = f * 4096 ||| (pageUser ||| pageWrite ||| pagePresent) ∧
    pageIsFree m.pmm f = true ∧ pageIsFree m'.pmm f = false ∧ ∀ i, page m'.mem f i = 0
  distinct : ∀ u v, lo ≤ u → u < hi → lo ≤ v → v < hi →
    pteAt m'.mem d u / 4096 = pteAt m'.mem d v / 4096 → u = v

/-- The break after a successful call. -/
def grownBrk (p : Processes) (newBrk : UInt32) : UInt32 :=
  if newBrk ≤ p.curUser.userBrk then p.curUser.userBrk else newBrk

/-- All or nothing: the break is moved and the heap reaches up to it, or the call fails and the
break, the page table entries and the number of free frames are as before. -/
def BrkAllOrNothing (d : Nat) (newBrk : UInt32) (p : Processes) (r : Int) (p' : Processes) : Prop :=
  (r = asInt (grownBrk p newBrk).toNat ∧ p'.curUser.userBrk = grownBrk p newBrk ∧
    FreshPages p.machine p'.machine d (pageUp p.curUser.userBrk) (pageUp (grownBrk p newBrk))) ∨
  (r = -1 ∧ p'.curUser.userBrk = p.curUser.userBrk ∧
    (∀ v, UserPage v → pteAt p'.machine.mem d v = pteAt p.machine.mem d v) ∧
    p'.machine.pmm.freeCount = p.machine.pmm.freeCount)

/-! ## frames are only taken -/

theorem brkPage_takes {pd va : Nat} {st st' : Bool × Machine} (h : brkPage pd va st = some st') :
    Takes st.2.pmm st'.2.pmm := by
  unfold brkPage at h
  dsimp only at h
  split_ifs at h
  · cases h
    exact .refl _
  · cases h
    exact takes_alloc _
  · obtain ⟨m₁, h1, h⟩ := bind_eq_some_iff.mp h
    obtain ⟨⟨r, m₂⟩, h2, rfl⟩ := map_eq_some_iff.mp h
    exact (zeroPage_pmm h1 ▸ takes_alloc st.2).trans (uvmMap_takes h2)

/-! ## the tables -/

/-- The page tables that the pages from `lo` to `hi` still need. -/
def missingTables (mem : Bytes) (d lo hi : Nat) : Finset Nat :=
  ((Finset.Ico lo hi).image (· / 1024)).filter fun i => hasFlag (word mem d i) pagePresent = false

theorem mem_missingTables {mem : Bytes} {d lo hi i : Nat} : i ∈ missingTables mem d lo hi ↔
    (∃ v, lo ≤ v ∧ v < hi ∧ v / 1024 = i) ∧ hasFlag (word mem d i) pagePresent = false := by
  unfold missingTables
  rw [mem_filter, mem_image]
  simp only [mem_Ico, and_assoc]

/-- One more page needs a table unless it is there or one of the pages before needs it, too. -/
theorem card_missingTables_succ (mem : Bytes) {d lo hi : Nat} (h : lo ≤ hi) {b : Bool}
    (hb : b ↔
      hasFlag (word mem d (hi / 1024)) pagePresent ∨ ∃ v, lo ≤ v ∧ v < hi ∧ v / 1024 = hi / 1024) :
    (missingTables mem d lo (hi + 1)).card = (missingTables mem d lo hi).card + if b
      then 0 else 1 := by
  by_cases hc : b = true
  · have hset : missingTables mem d lo (hi + 1) = missingTables mem d lo hi := by
      ext i
      rw [mem_missingTables, mem_missingTables]
      refine and_congr_left fun habs => ⟨?_, fun ⟨v, hlo, hhi, hv⟩ => ⟨v, hlo, by omega, hv⟩⟩
      rintro ⟨v, hlo, hhi, rfl⟩
      by_cases hv : v = hi
      · subst hv
        obtain hp | hex := hb.mp hc
        · rw [hp] at habs
          cases habs
        · exact hex
      · exact ⟨v, hlo, by omega, rfl⟩
    rw [if_pos hc, hset, Nat.add_zero]
  · rw [if_neg hc]
    obtain ⟨habs, hnone⟩ := not_or.mp (mt hb.mpr hc)
    have hset : missingTables mem d lo (hi + 1) = insert (hi / 1024)
        (missingTables mem d lo hi) := by
      ext i
      rw [mem_insert, mem_missingTables, mem_missingTables]
      constructor
      · rintro ⟨⟨v, hlo, hhi, rfl⟩, hv⟩
        by_cases hvh : v = hi
        · exact .inl (by rw [hvh])
        · exact .inr ⟨⟨v, hlo, by omega, rfl⟩, hv⟩
      · rintro (rfl | ⟨⟨v, hlo, hhi, hv⟩, hi'⟩)
        · exact ⟨⟨hi, h, by omega, rfl⟩, Bool.eq_false_iff.mpr habs⟩
        · exact ⟨⟨v, hlo, by omega, hv⟩, hi'⟩
    rw [hset, card_insert_of_notMem fun hmem => hnone (mem_missingTables.mp hmem).1]

theorem card_missingTables_mono (mem : Bytes) (d lo : Nat) {a b : Nat} (h : a ≤ b) :
    (missingTables mem d lo a).card ≤ (missingTables mem d lo b).card := by
  refine card_le_card fun i hi => ?_
  obtain ⟨⟨v, hlo, hhi, hv⟩, habs⟩ := mem_missingTables.mp hi
  exact mem_missingTables.mpr ⟨⟨v, hlo, by omega, hv⟩, habs⟩

/-! ## the loop -/

section

variable {m m' : Machine} {ds : Finset Nat} {kt : Nat → Nat} {k d lo n : Nat}

/-- `n` pages from `lo` on have been mapped. -/
structure Growing (m : Machine) (ds : Finset Nat) (kt : Nat → Nat) (k d lo n : Nat)
    (m' : Machine) : Prop where
  fresh : ∃ owner, Layout m' ds kt k owner ∧ ∀ v, lo ≤ v → v < lo + n → ∃ f,
    owner f = some (.data v) ∧
      pteAt m'.mem d v = f * 4096 ||| (pageUser ||| pageWrite ||| pagePresent) ∧
    pageIsFree m.pmm f = true ∧ ∀ i, page m'.mem f i = 0
  table : ∀ i, 32 ≤ i → i < 768 → (hasFlag (word m'.mem d i) pagePresent = true ↔
    hasFlag (word m.mem d i) pagePresent = true ∨ ∃ v, lo ≤ v ∧ v < lo + n ∧ v / 1024 = i)
  takes : Takes m.pmm m'.pmm
  room : freeBelow 32768 m'.pmm + n + (missingTables m.mem d lo (lo + n)).card =
    freeBelow 32768 m.pmm

theorem growing_start {owner : Nat → Option Role} (h : Layout m ds kt k owner) (d lo : Nat) :
    Growing m ds kt k d lo 0 m where
  fresh := ⟨owner, h, fun v hlo hhi => absurd hhi (by omega)⟩
  table := fun i _ _ => ⟨.inl, fun hc => hc.elim id fun ⟨v, _, hhi, _⟩ => absurd hhi (by omega)⟩
  takes := .refl _
  room := by simp [missingTables]

theorem Growing.freshPages (h : Growing m ds kt k d lo n m') : FreshPages m m' d lo (lo + n) := by
  obtain ⟨owner, hlay, hfresh⟩ := h.fresh
  have hflags : pageUser ||| pageWrite ||| pagePresent < 4096 := by decide
  refine ⟨fun v hlo hhi => ?_, fun u v hulo huhi hlo hhi heq => ?_⟩
  · obtain ⟨f, hrole, hpte, hfree, hzero⟩ := hfresh v hlo hhi
    exact ⟨f, hpte, hfree, (hlay.owned f _ hrole).2, hzero⟩
  · obtain ⟨f, hrole, hpte, -⟩ := hfresh u hulo huhi
    obtain ⟨g, hrole', hpte', -⟩ := hfresh v hlo hhi
    rw [hpte, hpte', mul_or_div hflags, mul_or_div hflags] at heq
    rw [heq, hrole'] at hrole
    exact (Role.data.inj (some.inj hrole)).symm

/-- One page, as long as there is a frame for it and for its table. -/
theorem Growing.next (h : Growing m ds kt k d lo n m') (hd : d ∈ ds) (hlo : 32768 ≤ lo)
    (hv : UserPage (lo + n))
    (hroom : (missingTables m.mem d lo (lo + (n + 1))).card + (n + 1) ≤ freeBelow 32768 m.pmm) :
    ∃ m'', brkPage (d * 4096) ((lo + n) * 4096) (false, m') = some (false, m'') ∧
      Growing m ds kt k d lo (n + 1) m'' := by
  obtain ⟨owner, hlay, hfresh⟩ := h.fresh
  obtain ⟨hilo, hihi⟩ := hv.table
  have hcard := card_missingTables_succ m.mem (Nat.le_add_right lo n) (h.table _ hilo hihi)
  have hcount := h.room
  rw [show lo + (n + 1) = lo + n + 1 from rfl] at hroom
  obtain ⟨f, hlow, hf0, hfree, halloc⟩ := Machine.alloc_below (by decide) hlay.zero
    (show 0 < freeBelow 32768 m'.pmm by omega)
  have hnone := hlay.unowned hfree
  obtain ⟨c, hid, hc⟩ := hlay.idMapped
  have hid' : IdMapped { m' with pmm := m'.pmm.grant f } kt c := ⟨hid.cr3, hid.dir, hid.tables⟩
  obtain ⟨mem1, hzero, honly, hbytes⟩ := hid'.zeroPage hlow (hlay.outside hc (by simp [hnone]))
  obtain ⟨m₂, owner2, hmap, hpres, hlay2, hgrow, ⟨hrole2, hpage⟩, hpte, hwords, hcount2⟩ :=
    hlay.mapFresh hd hv hlow hfree honly (show pageUser ||| pageWrite < 4096 by decide)
      (by decide) fun habs => by
      rw [if_neg habs] at hcard
      omega
  have hrun : brkPage (d * 4096) ((lo + n) * 4096) (false, m') = some (false, m₂) := by
    unfold brkPage
    rw [if_neg Bool.false_ne_true, halloc]
    rw [if_neg (by omega), hzero, bind_some, hmap]
    rfl
  refine ⟨m₂, hrun, ⟨owner2, hlay2, fun v hvlo hvhi => ?_⟩, fun i hilo' hihi' => ?_,
    h.takes.trans (brkPage_takes hrun), ?_⟩
  · by_cases hvn : v = lo + n
    · subst hvn
      refine ⟨f, hrole2, ?_, h.takes.free f hfree, fun i => ?_⟩
      · rw [hpte d hd _ hv, if_pos ⟨rfl, rfl⟩, Nat.or_assoc]
      · rw [hpage]
        exact hbytes i i.isLt
    · obtain ⟨g, hrole, hpte', hgfree, hgzero⟩ := hfresh v hvlo (by omega)
      have huser : UserPage v := by
        unfold UserPage at hv ⊢
        omega
      refine ⟨g, hgrow.role g _ hrole, ?_, hgfree, fun i => ?_⟩
      · rw [hpte d hd v huser, if_neg fun hc => hvn hc.2, hpte']
      · rw [hgrow.data g _ hrole, hgzero i]
  · by_cases hin : i = (lo + n) / 1024
    · subst hin
      exact iff_of_true hpres (.inr ⟨lo + n, Nat.le_add_right lo n, by omega, rfl⟩)
    · rw [hwords i (by omega) hin, h.table i hilo' hihi']
      refine or_congr_right
        ⟨fun ⟨v, hvlo, hvhi, hvi⟩ => ⟨v, hvlo, by omega, hvi⟩, fun ⟨v, hvlo, hvhi, hvi⟩ => ?_⟩
      refine ⟨v, hvlo, ?_, hvi⟩
      omega
  · rw [show lo + (n + 1) = lo + n + 1 from rfl]
    omega

/-- The frames have run out: the call has failed, or its last page has no table. -/
structure Starved (m : Machine) (d lo n : Nat) (st : Bool × Machine) : Prop where
  takes : Takes m.pmm st.2.pmm
  none : freeBelow pagesMax st.2.pmm = 0
  lost : st.1 = true ∨ 0 < n ∧ pteAt st.2.mem d (lo + n - 1) = 0

/-- One page without enough frames. -/
theorem Growing.starve (h : Growing m ds kt k d lo n m') (hd : d ∈ ds) (hv : UserPage (lo + n))
    (hlow : ∀ f < pagesMax, pageIsFree m.pmm f → Low f)
    (hroom : freeBelow 32768 m.pmm < (missingTables m.mem d lo (lo + (n + 1))).card + (n + 1)) :
    ∃ st, brkPage (d * 4096) ((lo + n) * 4096) (false, m') = some st ∧
      Starved m d lo (n + 1) st := by
  obtain ⟨owner, hlay, -⟩ := h.fresh
  obtain ⟨hilo, hihi⟩ := hv.table
  have hcard := card_missingTables_succ m.mem (Nat.le_add_right lo n) (h.table _ hilo hihi)
  have hcount := h.room
  rw [show lo + (n + 1) = lo + n + 1 from rfl] at hroom
  have hall : freeBelow pagesMax m'.pmm = freeBelow 32768 m'.pmm :=
    freeBelow_pagesMax fun f hf hfree => hlow f hf (h.takes.free f hfree)
  by_cases h0 : freeBelow 32768 m'.pmm = 0
  · refine ⟨(true, m'), ?_, h.takes, hall.trans h0, .inl rfl⟩
    unfold brkPage
    rw [if_neg Bool.false_ne_true, Machine.alloc_none (hall.trans h0)]
    rfl
  · have habs : ¬hasFlag (word m'.mem d ((lo + n) / 1024)) pagePresent := fun hp => by
      rw [if_pos hp] at hcard
      omega
    rw [if_neg habs] at hcard
    obtain ⟨f, hflow, hf0, hfree, halloc⟩ := Machine.alloc_below (by decide) hlay.zero
      (show 0 < freeBelow 32768 m'.pmm by omega)
    have hnone := hlay.unowned hfree
    obtain ⟨c, hid, hc⟩ := hlay.idMapped
    have hid' : IdMapped { m' with pmm := m'.pmm.grant f } kt c := ⟨hid.cr3, hid.dir, hid.tables⟩
    have hout := hlay.outside (f := f) hc (by simp [hnone])
    obtain ⟨mem1, hzero, honly, -⟩ := hid'.zeroPage hflow hout
    have hword1 : word mem1 d ((lo + n) / 1024) = word m'.mem d ((lo + n) / 1024) :=
      word_congr (by omega) (honly d (by
        rintro rfl
        rw [(hlay.dirs d hd).1] at hnone
        cases hnone))
    have htaken := freeBelow_grant (n := pagesMax) (Nat.lt_of_lt_of_le hflow (by decide)) hfree
    have hmap := @IdMapped.uvmMap_none _ kt c d ((lo + n) * 4096) (hid'.onlyFrame hout honly)
      (hlay.dir_low hd)
      (by omega) (by
        rw [show (lo + n) * 4096 / 2 ^ 22 = (lo + n) / 1024 by omega]
        rwa [hword1]) (show freeBelow pagesMax (m'.pmm.grant f) = 0 by omega) (f * 4096)
          (pageUser ||| pageWrite)
    have hrun : brkPage (d * 4096) ((lo + n) * 4096) (false, m') =
        some (false, { m' with mem := mem1, pmm := m'.pmm.grant f }) := by
      unfold brkPage
      rw [if_neg Bool.false_ne_true, halloc]
      rw [if_neg (by omega), hzero, bind_some, hmap]
      rfl
    refine ⟨_, hrun, h.takes.trans (brkPage_takes hrun), by dsimp only; omega,
      .inr ⟨Nat.succ_pos n, ?_⟩⟩
    unfold pteAt
    rw [show lo + (n + 1) - 1 = lo + n from rfl, hword1, if_neg habs]

theorem Starved.next {st : Bool × Machine} (h : Starved m d lo n st) (va : Nat) :
    ∃ st', brkPage (d * 4096) va st = some st' ∧ Starved m d lo (n + 1) st' := by
  obtain ⟨b, m'⟩ := st
  cases b with
  | true => exact ⟨(true, m'), rfl, h.takes, h.none, .inl rfl⟩
  | false =>
    refine ⟨(true, m'), ?_, h.takes, h.none, .inl rfl⟩
    unfold brkPage
    rw [if_neg Bool.false_ne_true, Machine.alloc_none h.none]
    rfl

variable {owner : Nat → Option Role}

/-- **The loop** with enough frames. -/
theorem Layout.brkLoop (h : Layout m ds kt k owner) (hd : d ∈ ds) (hlo : 32768 ≤ lo)
    (hhi : lo + n ≤ 786432)
    (hroom : (missingTables m.mem d lo (lo + n)).card + n ≤ freeBelow 32768 m.pmm) :
    ∃ m', forRangeM (fun n => brkPage (d * 4096) (lo * 4096 + 4096 * n)) 0 n (false, m) =
      some (false, m') ∧
      Growing m ds kt k d lo n m' := by
  obtain ⟨st, hrun, m', rfl, hgrow⟩ := forRangeM_total
    (fun i st => ∃ m', st = (false, m') ∧ Growing m ds kt k d lo i m')
    (f := fun n => brkPage (d * 4096) (lo * 4096 + 4096 * n)) (a := 0) (n := n)
    ⟨m, rfl, growing_start h d lo⟩ fun i st _ hi ⟨m', hst, hgrow⟩ => by
      subst hst
      have hmono := card_missingTables_mono m.mem d lo (show lo + (i + 1) ≤ lo + n by omega)
      obtain ⟨m'', hstep, hnext⟩ := hgrow.next hd hlo ⟨by omega, by omega⟩ (by omega)
      rw [show (lo + i) * 4096 = lo * 4096 + 4096 * i by omega] at hstep
      exact ⟨_, hstep, m'', rfl, hnext⟩
  rw [Nat.zero_add] at hgrow
  exact ⟨m', hrun, hgrow⟩

/-- The loop without. -/
theorem Layout.brkLoop_starved (h : Layout m ds kt k owner) (hd : d ∈ ds) (hlo : 32768 ≤ lo)
    (hhi : lo + n ≤ 786432) (hlow : ∀ f < pagesMax, pageIsFree m.pmm f → Low f)
    (hroom : freeBelow 32768 m.pmm < (missingTables m.mem d lo (lo + n)).card + n) :
    ∃ st, forRangeM (fun n => brkPage (d * 4096) (lo * 4096 + 4096 * n)) 0 n (false, m) = some st ∧
      Starved m d lo n st := by
  obtain ⟨st, hrun, ⟨m', rfl, hgrow⟩ | hstarved⟩ := forRangeM_total
    (fun i st => (∃ m', st = (false, m') ∧ Growing m ds kt k d lo i m') ∨ Starved m d lo i st)
    (f := fun n => brkPage (d * 4096) (lo * 4096 + 4096 * n)) (a := 0) (n := n)
    (.inl ⟨m, rfl, growing_start h d lo⟩) fun i st _ hi hst => by
      obtain ⟨m', rfl, hgrow⟩ | hstarved := hst
      · have hv : UserPage (lo + i) := ⟨by omega, by omega⟩
        rw [show lo * 4096 + 4096 * i = (lo + i) * 4096 by omega]
        by_cases henough : (missingTables m.mem d lo (lo + (i + 1))).card + (i + 1) ≤
          freeBelow 32768 m.pmm
        · obtain ⟨m'', hstep, hnext⟩ := hgrow.next hd hlo hv henough
          exact ⟨_, hstep, .inl ⟨m'', rfl, hnext⟩⟩
        · obtain ⟨st', hstep, hnext⟩ := hgrow.starve hd hv hlow (by omega)
          exact ⟨st', hstep, .inr hnext⟩
      · obtain ⟨st', hstep, hnext⟩ := hstarved.next (lo * 4096 + 4096 * i)
        exact ⟨st', hstep, .inr hnext⟩
  · have hcount := hgrow.room
    rw [Nat.zero_add] at hcount
    omega
  · rw [Nat.zero_add] at hstarved
    exact ⟨st, hrun, hstarved⟩

end

/-! ## sys_brk -/

/-- The frames that a call needs: one for each page, and one for each table that is missing. -/
def brkFrames (d : Nat) (p : Processes) (newBrk : UInt32) : Nat :=
  if p.curUser.userBrk < newBrk ∧ newBrk < 0xBFFF0000 then
    (missingTables p.machine.mem d (pageUp p.curUser.userBrk) (pageUp newBrk)).card +
      (pageUp newBrk - pageUp p.curUser.userBrk)
  else 0

section

variable {p : Processes} {newBrk : UInt32} {ds : Finset Nat} {kt : Nat → Nat} {k d : Nat}
  {owner : Nat → Option Role}

/-- A call that does not try to grow the heap. -/
theorem Processes.sysBrk_stays (d : Nat) (h : ¬(p.curUser.userBrk < newBrk ∧ newBrk < 0xBFFF0000)) :
    ∃ r p', p.sysBrk newBrk = some (r, p') ∧ BrkAllOrNothing d newBrk p r p' := by
  have hgrown : newBrk ≤ p.curUser.userBrk → grownBrk p newBrk = p.curUser.userBrk :=
    fun hle => if_pos hle
  have hkeep : newBrk ≤ p.curUser.userBrk →
      BrkAllOrNothing d newBrk p (asInt p.curUser.userBrk.toNat) p := fun hle => by
    refine .inl ⟨by rw [hgrown hle], (hgrown hle).symm, ?_⟩
    rw [hgrown hle]
    exact ⟨fun _ hlo hhi => absurd hhi (by omega), fun _ _ hlo hhi => absurd hhi (by omega)⟩
  unfold Processes.sysBrk
  by_cases h0 : newBrk = 0
  · rw [if_pos h0]
    exact ⟨_, _, rfl, hkeep (h0 ▸ UInt32.le_iff_toNat_le.mpr (Nat.zero_le _))⟩
  rw [if_neg h0]
  by_cases hle : newBrk ≤ p.curUser.userBrk
  · rw [if_pos hle]
    exact ⟨_, _, rfl, hkeep hle⟩
  · rw [if_neg hle, if_pos (UInt32.not_lt.mp fun hlt => h ⟨UInt32.not_le.mp hle, hlt⟩)]
    exact ⟨_, _, rfl, .inr ⟨rfl, rfl, fun _ _ => rfl, rfl⟩⟩

/-- A call that does is the loop. -/
theorem Processes.sysBrk_grows (hpd : p.curUser.pageDir = d * 4096)
    (h : p.curUser.userBrk < newBrk ∧ newBrk < 0xBFFF0000) {st : Bool × Machine}
    (hrun : forRangeM (fun n => brkPage (d * 4096) (pageUp p.curUser.userBrk * 4096 + 4096 * n)) 0
      (pageUp newBrk - pageUp p.curUser.userBrk) (false, p.machine) = some st) :
    ∃ r p', p.sysBrk newBrk = some (r, p') ∧ p'.machine = st.2 ∧
      (st.1 ∧ r = -1 ∧ p'.curUser.userBrk = p.curUser.userBrk ∨
        st.1 = false ∧ r = asInt newBrk.toNat ∧ p'.curUser.userBrk = newBrk) := by
  have hlt : p.curUser.userBrk.toNat < newBrk.toNat := UInt32.lt_iff_toNat_lt.mp h.1
  have hmax : newBrk.toNat < 0xBFFF0000 := UInt32.lt_iff_toNat_lt.mp h.2
  have hne : newBrk ≠ 0 := by
    rintro rfl
    exact absurd hlt (Nat.not_lt_zero _)
  unfold Processes.sysBrk
  dsimp only
  rw [if_neg hne, if_neg (UInt32.not_le.mpr h.1), if_neg (UInt32.not_le.mpr h.2),
    pageUp_mul (Nat.lt_trans hlt hmax), pageUp_mul hmax, hpd, ← Nat.sub_mul,
    Nat.mul_div_cancel _ (by decide), hrun, map_some]
  obtain ⟨b, m⟩ := st
  cases b with
  | true => exact ⟨_, _, rfl, rfl, .inl ⟨rfl, rfl, rfl⟩⟩
  | false =>
    refine ⟨_, _, rfl, rfl, .inr ⟨rfl, rfl, ?_⟩⟩
    show (Function.update p.user p.current _ p.current).userBrk = newBrk
    rw [Function.update_self]

theorem pageUp_range {brk : UInt32} (hbrk : 0x08000000 ≤ brk)
    (h : brk < newBrk ∧ newBrk < 0xBFFF0000) :
    32768 ≤ pageUp brk ∧ pageUp brk + (pageUp newBrk - pageUp brk) = pageUp newBrk ∧
      pageUp newBrk ≤ 786432 := by
  have hlo : 0x08000000 ≤ brk.toNat := UInt32.le_iff_toNat_le.mp hbrk
  have hlt : brk.toNat < newBrk.toNat := UInt32.lt_iff_toNat_lt.mp h.1
  have hmax : newBrk.toNat < 0xBFFF0000 := UInt32.lt_iff_toNat_lt.mp h.2
  unfold pageUp
  omega

theorem asInt_ne_neg_one {a : UInt32} (h : a < 0xBFFF0000) : asInt a.toNat ≠ -1 := by
  have hmax : a.toNat < 0xBFFF0000 := UInt32.lt_iff_toNat_lt.mp h
  unfold asInt
  split <;> omega

/-- Enough frames below 128 MB, or none at all. -/
theorem Processes.sysBrk_enough (h : Layout p.machine ds kt k owner) (hd : d ∈ ds)
    (hpd : p.curUser.pageDir = d * 4096) (hbrk : 0x08000000 ≤ p.curUser.userBrk)
    (hroom : brkFrames d p newBrk ≤ freeBelow 32768 p.machine.pmm ∨
      freeBelow pagesMax p.machine.pmm = 0) :
    ∃ r p', p.sysBrk newBrk = some (r, p') ∧ BrkAllOrNothing d newBrk p r p' := by
  by_cases hc : p.curUser.userBrk < newBrk ∧ newBrk < 0xBFFF0000
  · have hgrown : grownBrk p newBrk = newBrk := if_neg (UInt32.not_le.mpr hc.1)
    obtain ⟨hlo, hsum, hhi⟩ := pageUp_range hbrk hc
    unfold brkFrames at hroom
    rw [if_pos hc] at hroom
    by_cases henough : (missingTables p.machine.mem d (pageUp p.curUser.userBrk)
      (pageUp newBrk)).card +
        (pageUp newBrk - pageUp p.curUser.userBrk) ≤ freeBelow 32768 p.machine.pmm
    · obtain ⟨m', hrun, hgrow⟩ :=
        h.brkLoop hd hlo (by rw [hsum]; exact hhi) (by rw [hsum]; exact henough)
      obtain ⟨r, p', hres, rfl, ⟨hf, -⟩ | ⟨-, hr, hbrk'⟩⟩ := Processes.sysBrk_grows hpd hc hrun
      · cases hf
      · refine ⟨r, p', hres, .inl ⟨hr.trans (by rw [hgrown]), hbrk'.trans hgrown.symm, ?_⟩⟩
        rw [hgrown, ← hsum]
        exact hgrow.freshPages
    · -- no frame at all: the first page fails and nothing has happened
      have hnone := hroom.resolve_left henough
      have hpages : 0 < pageUp newBrk - pageUp p.curUser.userBrk := Nat.pos_of_ne_zero fun hz => by
        have heq : pageUp newBrk = pageUp p.curUser.userBrk := by omega
        rw [hz, heq] at henough
        simp [missingTables] at henough
      have hfirst : brkPage (d * 4096) (pageUp p.curUser.userBrk * 4096 + 4096 * 0)
          (false, p.machine) =
          some (true, p.machine) := by
        unfold brkPage
        rw [if_neg Bool.false_ne_true, Machine.alloc_none hnone]
        rfl
      have hrun :
          forRangeM (fun n => brkPage (d * 4096) (pageUp p.curUser.userBrk * 4096 + 4096 * n)) 0
          (pageUp newBrk - pageUp p.curUser.userBrk) (false, p.machine) =
            some (true, p.machine) := by
        obtain ⟨n, hn⟩ := Nat.exists_eq_succ_of_ne_zero (Nat.pos_iff_ne_zero.mp hpages)
        rw [hn, forRangeM_succ, hfirst, bind_some]
        exact forRangeM_fixed fun _ _ _ => rfl
      obtain ⟨r, p', hres, hm, ⟨-, hr, hbrk'⟩ | ⟨hf, -⟩⟩ := Processes.sysBrk_grows hpd hc hrun
      · refine ⟨r, p', hres, .inr ⟨hr, hbrk', fun v _ => by rw [hm], by rw [hm]⟩⟩
      · cases hf
  · exact Processes.sysBrk_stays d hc

/-- Some frames, but not enough. -/
theorem Processes.sysBrk_starved (h : Layout p.machine ds kt k owner)
    (hcount : Counted p.machine.pmm)
    (hd : d ∈ ds) (hpd : p.curUser.pageDir = d * 4096) (hbrk : 0x08000000 ≤ p.curUser.userBrk)
    (hlow : ∀ f < pagesMax, pageIsFree p.machine.pmm f → Low f)
    (hroom : freeBelow 32768 p.machine.pmm < brkFrames d p newBrk)
    (hsome : freeBelow pagesMax p.machine.pmm ≠ 0) :
    ∃ r p', p.sysBrk newBrk = some (r, p') ∧ ¬BrkAllOrNothing d newBrk p r p' := by
  unfold brkFrames at hroom
  by_cases hc : p.curUser.userBrk < newBrk ∧ newBrk < 0xBFFF0000
  · have hgrown : grownBrk p newBrk = newBrk := if_neg (UInt32.not_le.mpr hc.1)
    obtain ⟨hlo, hsum, hhi⟩ := pageUp_range hbrk hc
    rw [if_pos hc] at hroom
    obtain ⟨st, hrun, hstarved⟩ :=
      h.brkLoop_starved hd hlo (by rw [hsum]; exact hhi) hlow (by rw [hsum]; exact hroom)
    obtain ⟨r, p', hres, hm, hcase⟩ := Processes.sysBrk_grows hpd hc hrun
    refine ⟨r, p', hres, ?_⟩
    rintro (⟨hr, -, hfresh⟩ | ⟨-, -, -, hfree⟩)
    · rw [hgrown] at hr hfresh
      rw [hm] at hfresh
      obtain ⟨-, hr', -⟩ | ⟨hst, -, -⟩ := hcase
      · exact asInt_ne_neg_one hc.2 (hr.symm.trans hr')
      · -- the last page is not mapped
        obtain hst' | ⟨hn, hpte⟩ := hstarved.lost
        · rw [hst] at hst'
          cases hst'
        · obtain ⟨f, hpte', -⟩ := hfresh.mapped (pageUp newBrk - 1) (by omega) (by omega)
          rw [hsum, hpte'] at hpte
          have hflag : hasFlag (f * 4096 ||| (pageUser ||| pageWrite ||| pagePresent))
              pagePresent := by
            rw [hasFlag_mul_or f _ (by decide)]
            decide
          rw [hpte] at hflag
          cases hflag
    · have hcount' := hstarved.takes.counted hcount
      rw [hm, hcount', hcount, card_freeSet, card_freeSet, hstarved.none] at hfree
      exact hsome hfree.symm
  · rw [if_neg hc] at hroom
    exact absurd hroom (Nat.not_lt_zero _)

/-- **`sys_brk` is all or nothing** when the frames it needs are free below 128 MB, or when no
frame is free at all; on a machine without free frames beyond 128 MB, only then. -/
theorem sysBrk_allOrNothing (h : Layout p.machine ds kt k owner) (hcount : Counted p.machine.pmm)
    (hd : d ∈ ds) (hpd : p.curUser.pageDir = d * 4096) (hbrk : 0x08000000 ≤ p.curUser.userBrk)
    (newBrk : UInt32) :
    (brkFrames d p newBrk ≤ freeBelow 32768 p.machine.pmm ∨ freeBelow pagesMax p.machine.pmm = 0 →
      ∃ r p', p.sysBrk newBrk = some (r, p') ∧ BrkAllOrNothing d newBrk p r p') ∧
    ((∀ f < pagesMax, pageIsFree p.machine.pmm f = true → Low f) →
      ((∃ r p', p.sysBrk newBrk = some (r, p') ∧ BrkAllOrNothing d newBrk p r p') ↔
        brkFrames d p newBrk ≤ freeBelow 32768 p.machine.pmm ∨
          freeBelow pagesMax p.machine.pmm = 0)) := by
  refine ⟨Processes.sysBrk_enough h hd hpd hbrk,
    fun hlow => ⟨?_, Processes.sysBrk_enough h hd hpd hbrk⟩⟩
  rintro ⟨r, p', hres, hall⟩
  by_contra hno
  obtain ⟨hroom, hsome⟩ := not_or.mp hno
  obtain ⟨r', p'', hres', hnot⟩ :=
    Processes.sysBrk_starved h hcount hd hpd hbrk hlow (Nat.not_le.mp hroom) hsome
  rw [hres] at hres'
  cases hres'
  exact hnot hall

end

/-! ## a process with three free frames -/

theorem counted_pairMachine : Counted (pairMachine 402).pmm := by
  have h : Counted ((Pmm.bss.allUsed.setRefs 322 1).setRefs 323 1) := counted_allUsed Pmm.bss
  have h400 := h.release (show 400 < pagesMax by decide) (by simp [pageIsFree_allUsed])
  have h401 := h400.release (show 401 < pagesMax by decide) (by simp [pageIsFree_allUsed])
  exact h401.release (show 402 < pagesMax by decide) (by simp [pageIsFree_allUsed])

theorem missingTables_pairMachine {hi : Nat} (hlo : 65536 < hi) (hhi : hi ≤ 66560) :
    missingTables (pairMachine 402).mem 320 65536 hi = {64} := by
  ext i
  rw [mem_missingTables, mem_singleton]
  constructor
  · omega
  · rintro rfl
    refine ⟨⟨65536, le_rfl, hlo, by decide⟩, ?_⟩
    decide

/-- The heap of the process starts at `0x10000000`; its first 4 MB need one table. -/
theorem brkFrames_pairProcesses {newBrk : UInt32} (hlo : 0x10000000 < newBrk)
    (hhi : newBrk ≤ 0x10400000) :
    brkFrames 320 pairProcesses newBrk = 1 + (pageUp newBrk - 65536) := by
  have hbrk : pairProcesses.curUser.userBrk = 0x10000000 := rfl
  have hlo' : 0x10000000 < newBrk.toNat := UInt32.lt_iff_toNat_lt.mp hlo
  have hhi' : newBrk.toNat ≤ 0x10400000 := UInt32.le_iff_toNat_le.mp hhi
  have htop : newBrk < 0xBFFF0000 :=
    UInt32.lt_iff_toNat_lt.mpr (Nat.lt_of_le_of_lt hhi' (by decide))
  have hup : 65536 < pageUp newBrk ∧ pageUp newBrk ≤ 66560 := by
    unfold pageUp
    omega
  have htab : (missingTables pairProcesses.machine.mem 320 65536 (pageUp newBrk)).card = 1 :=
    congrArg Finset.card (missingTables_pairMachine hup.1 hup.2)
  unfold brkFrames
  rw [hbrk, if_pos ⟨hlo, htop⟩, show pageUp 0x10000000 = 65536 from rfl, htab]

/-- One page, for which a frame and a table are needed. -/
theorem sysBrk_allOrNothing_page : ∃ r p', pairProcesses.sysBrk 0x10000001 = some (r, p') ∧
    BrkAllOrNothing 320 0x10000001 pairProcesses r p' := by
  obtain ⟨owner, h⟩ := (privateSpace_pairMachine (show 401 < 402 by decide)).layout
  have hthree : 3 ≤ freeBelow 32768 pairProcesses.machine.pmm := three_le_freeBelow_pairMachine
  have hframes : brkFrames 320 pairProcesses 0x10000001 = 2 :=
    brkFrames_pairProcesses (by decide) (by decide)
  exact (@sysBrk_allOrNothing pairProcesses _ _ _ 320 owner h counted_pairMachine
    (mem_singleton_self 320) rfl (show (0x08000000 : UInt32) ≤ 0x10000000 by decide) 0x10000001).1
    (.inl (by rw [hframes]; exact Nat.le_of_succ_le hthree))

/-- Four pages need five frames, and three are free: the call fails with some of them mapped. -/
theorem sysBrk_leaves_pages : ∃ r p', pairProcesses.sysBrk 0x10004000 = some (r, p') ∧
    ¬BrkAllOrNothing 320 0x10004000 pairProcesses r p' := by
  obtain ⟨owner, h⟩ := (privateSpace_pairMachine (show 401 < 402 by decide)).layout
  have hlow : ∀ f < pagesMax, pageIsFree pairProcesses.machine.pmm f = true → Low f :=
    fun f _ hf => by
    rw [show pairProcesses.machine = pairMachine 402 from rfl, pageIsFree_pairMachine,
      decide_eq_true_eq] at hf
    unfold Low
    omega
  have hcount : freeBelow pagesMax pairProcesses.machine.pmm = 3 := by
    exact (counted_pairMachine).symm
  have hframes : brkFrames 320 pairProcesses 0x10004000 = 5 :=
    brkFrames_pairProcesses (by decide) (by decide)
  exact Processes.sysBrk_starved h counted_pairMachine (mem_singleton_self 320) rfl
    (show (0x08000000 : UInt32) ≤ 0x10000000 by decide) hlow
    (by rw [hframes, ← freeBelow_pagesMax hlow, hcount]; decide) (by rw [hcount]; decide)

end AliOS
