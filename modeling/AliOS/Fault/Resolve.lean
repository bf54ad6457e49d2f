import AliOS.Fault
import AliOS.Uvm.Clone

/-!
# AliOS.Fault.Resolve

User-mode writes as steps of the copy-on-write store.  A write to a writable
page is a `Store.store`; a write to a copy-on-write page first resolves the
fault, by `Store.claim` if the count of the frame is 1 and by `Store.copy` into
a fresh frame otherwise; every other write is refused.  For the spaces this is
`eagerWrite`.
-/

namespace AliOS

open Lib Option Function

variable {f d v a : Nat}

section Resolve

variable {m : Machine} {ds : Finset Nat} {kt : Nat → Nat} {k : Nat} {owner : Nat → Option Role}

/-! ## the pieces of the handler -/

/-- The copy loop of `page_fault`, for addresses that lead to the frames `f` and
`g`. -/
theorem copyPage_spec {g dst src : Nat} (hgf : g ≠ f)
    (hload : ∀ mem', OnlyFrame f m.mem mem' → ∀ i < 4096, kload8 { m with mem := mem' } (src + i) =
      some (mem' (g * 4096 + i)))
    (hstore : ∀ mem', OnlyFrame f m.mem mem' → ∀ i < 4096, ∀ b, kstore8 { m with mem := mem' }
      (dst + i) b = some { m with mem := Function.update mem' (f * 4096 + i) b }) :
    ∃ mem', copyPage m dst src = some { m with mem := mem' } ∧ OnlyFrame f m.mem mem' ∧
      page mem' f = page m.mem g := by
  obtain ⟨t, hrun, mem', rfl, honly, hbytes⟩ := forRangeM_total
    (fun n t => ∃ mem', t = { m with mem := mem' } ∧ OnlyFrame f m.mem mem' ∧
      ∀ i : Fin 4096, i.val < n → page mem' f i = page m.mem g i)
    (f := fun i t => (kload8 t (src + i)).bind fun b => kstore8 t (dst + i) b)
    (a := 0) (n := 4096) (s := m)
    ⟨m.mem, rfl, .refl f _, fun i hi => absurd hi (by omega)⟩
    (fun n t _ hn ⟨mem', ht, honly, hbytes⟩ => by
      subst ht
      have hn' : n < 4096 := by omega
      -- the byte read is still the one of the old page
      have hsrc : mem' (g * 4096 + n) = page m.mem g ⟨n, hn'⟩ := congrFun (honly g hgf) ⟨n, hn'⟩
      refine ⟨_, ?_, Function.update mem' (f * 4096 + n) (mem' (g * 4096 + n)), rfl,
        honly.trans (onlyFrame_update mem' f hn' _), fun i hi => ?_⟩
      · rw [hload mem' honly n hn', bind_some, hstore mem' honly n hn']
      · have hpage := page_update mem' f f ⟨n, hn'⟩ (mem' (g * 4096 + n))
        rw [if_pos rfl] at hpage
        rw [hpage, update_apply]
        by_cases hin : i = ⟨n, hn'⟩
        · rw [if_pos hin, hsrc, hin]
        · rw [if_neg hin]
          exact hbytes i (by
            have : i.val ≠ n := fun heq => hin (Fin.ext heq)
            omega))
  exact ⟨mem', hrun, honly, funext fun i => hbytes i (by omega)⟩

theorem cowFlags_lt (pte : Nat) : pte &&& 0xDFF ||| pageWrite < 4096 :=
  Nat.or_lt_two_pow (n := 12) (Nat.lt_of_le_of_lt Nat.and_le_right (by decide)) (by decide)

/-- The entry `page_fault` stores: the old flags without the mark, writable. -/
theorem entryOf_resolved {pte : Nat} (hp : hasFlag pte pagePresent) :
    entryOf (f * 4096 ||| (pte &&& 0xDFF ||| pageWrite)) = some ⟨f, .writable⟩ := by
  have hlt := cowFlags_lt pte
  rw [entryOf_mul_or hlt (by rw [hasFlag_or, hasFlag_and _ (by decide), hp]; rfl)]
  unfold modeOf
  rw [hasFlag_or]
  simp [hasFlag, pageWrite]

/-- Such an entry keeps the invariant, for a frame of the right role. -/
theorem Layout.setResolved (h : Layout m ds kt k owner) {pte w : Nat} (hd : d ∈ ds)
    (hv : UserPage v)
    (hdir : hasFlag (word m.mem d (v / 1024)) pagePresent) (hf : owner f = some (.data v))
    (huser : hasFlag pte pageUser) (hw : w = f * 4096 ||| (pte &&& 0xDFF ||| pageWrite)) :
    Layout { m with mem := setWord m.mem (word m.mem d (v / 1024) / 4096) (v % 1024) w }
      ds kt k owner ∧
      (∀ x ∈ ds, ∀ u, UserPage u →
        pteAt (setWord m.mem (word m.mem d (v / 1024) / 4096) (v % 1024) w) x u =
          if x = d ∧ u = v then w else pteAt m.mem x u) ∧
      ∀ g u, owner g = some (.data u) →
        page (setWord m.mem (word m.mem d (v / 1024) / 4096) (v % 1024) w) g = page m.mem g := by
  obtain ⟨hlo, hhi⟩ := hv.table
  have hlow := (h.owned f _ hf).1
  have hlt := cowFlags_lt pte
  obtain ⟨hlay, hpte⟩ := h.setPte hd hv hdir (w := w)
    (by rw [hw]; exact mul_or_lt (by unfold Low at hlow; omega) hlt) (fun _ => by
      rw [hw, mul_or_div hlt, hasFlag_mul_or _ _ (by decide), hasFlag_or, hasFlag_and _ (by decide),
        huser]
      exact ⟨hf, rfl⟩)
  exact ⟨hlay, hpte, fun g u hg => page_setWord (by omega)
    (ne_of_role hg (h.tables d hd _ hlo hhi hdir).1 (by simp))⟩

/-! ## resolving the fault -/

/-- A frame held alone is made writable again. -/
theorem Layout.resolveCow_claim (h : Layout m ds kt k owner) (hd : d ∈ ds) (hv : UserPage v)
    (hdir : hasFlag (word m.mem d (v / 1024)) pagePresent)
    (hp : hasFlag (pteAt m.mem d v) pagePresent)
    (hone : m.pmm.pageRefs (pteAt m.mem d v / 4096) = 1) :
    ∃ mem', resolveCow m (word m.mem d (v / 1024) / 4096 * 4096 + 4 * (v % 1024))
      (pteAt m.mem d v) =
        some { m with mem := mem' } ∧
      Layout { m with mem := mem' } ds kt k owner ∧
      Store.Same ((toStore m ds).claim d v ⟨pteAt m.mem d v / 4096, modeOf (pteAt m.mem d v)⟩)
        (toStore { m with mem := mem' } ds) := by
  obtain ⟨hlo, hhi⟩ := hv.table
  obtain ⟨hrole, huser⟩ := h.pages d hd v hv hp
  obtain ⟨c, hid, -⟩ := h.idMapped
  have hlow := (h.owned _ _ hrole).1
  obtain ⟨hlay, hpte, hdata⟩ := h.setResolved hd hv hdir hrole huser rfl
  have hget : pmmGetref m.pmm (frameAddr (pteAt m.mem d v)) = 1 :=
    (pmmGetref_frameAddr _ hlow).trans hone
  refine ⟨_, ?_, hlay, ⟨rfl, fun x hx u => ?_, fun x hx u e he => ?_, fun _ _ _ _ _ => rfl⟩⟩
  · unfold resolveCow
    rw [if_pos hget, hid.kstore32 (h.table_low hd hlo hhi hdir) (by omega)]
    rfl
  · refine entry_toStore_ite (fun hc => hc.2 ▸ hv) fun hu => ?_
    rw [hpte x hx u hu]
    by_cases hc : x = d ∧ u = v
    · rw [if_pos hc, if_pos hc, entryOf_resolved hp]
    · rw [if_neg hc, if_neg hc]
  · obtain ⟨e', he', hf, -⟩ := Store.entry_claim (entry_toStore.mpr ⟨hv, hp, rfl⟩) he
    exact hdata _ u (by rw [hf]; exact h.role_of_entry hx he')

/-- A shared frame is copied to a fresh one below 128 MB. -/
theorem Layout.resolveCow_copy (h : Layout m ds kt k owner) (hd : d ∈ ds) (hv : UserPage v)
    (hdir : hasFlag (word m.mem d (v / 1024)) pagePresent)
    (hp : hasFlag (pteAt m.mem d v) pagePresent)
    (hmany : 1 < m.pmm.pageRefs (pteAt m.mem d v / 4096)) (hroom : 0 < freeBelow 32768 m.pmm) :
    ∃ g m' owner',
      resolveCow m (word m.mem d (v / 1024) / 4096 * 4096 + 4 * (v % 1024)) (pteAt m.mem d v) =
        some m' ∧
      Layout m' ds kt k owner' ∧ SameRegs m m' ∧ (toStore m ds).Fresh g ∧
      Store.Same ((toStore m ds).copy d v ⟨pteAt m.mem d v / 4096, modeOf (pteAt m.mem d v)⟩ g)
        (toStore m' ds) := by
  obtain ⟨hlo, hhi⟩ := hv.table
  obtain ⟨hrole, huser⟩ := h.pages d hd v hv hp
  obtain ⟨c, hid, hc⟩ := h.idMapped
  obtain ⟨hlow, hused⟩ := h.owned _ _ hrole
  obtain ⟨g, hglow, hg0, hfree, halloc⟩ := Machine.alloc_below (by decide) h.zero hroom
  have hnone := h.unowned hfree
  have hne : ∀ {x r}, owner x = some r → x ≠ g := by
    rintro x r hx rfl
    rw [hnone] at hx
    cases hx
  have hfg := hne hrole
  have hid1 : IdMapped { m with pmm := m.pmm.grant g } kt c := ⟨hid.cr3, hid.dir, hid.tables⟩
  have hout := h.outside hc (f := g) (by simp [hnone])
  obtain ⟨mem1, hcopy, honly, hpage⟩ := copyPage_spec hfg
    (fun _ honly _ hi => (hid1.onlyFrame hout honly).kload8 hlow hi)
    fun _ honly _ hi b => (hid1.onlyFrame hout honly).kstore8 hglow hi b
  obtain ⟨⟨hlay1, hpte1⟩, hgrow⟩ := h.grant hglow hfree honly (.data v) d
  have hlay2 := hlay1.withPmm fun _ hg => (pageIsFree_setRefs _ (pteAt m.mem d v / 4096)
    (m.pmm.pageRefs (pteAt m.mem d v / 4096) - 1) _).trans hg
  have hword : word mem1 d (v / 1024) = word m.mem d (v / 1024) :=
    word_congr (by omega) (honly d (hne (h.dirs d hd).1))
  obtain ⟨hlay, hpte, hdata⟩ := hlay2.setResolved (f := g) hd hv (by dsimp only; rwa [hword])
    (by simp) huser rfl
  rw [hword] at hlay hpte hdata
  obtain ⟨c₂, hid2, -⟩ := hlay2.idMapped
  have hget := pmmGetref_frameAddr m.pmm hlow
  have hrefs : (m.pmm.grant g).pageRefs (pteAt m.mem d v / 4096) =
      m.pmm.pageRefs (pteAt m.mem d v / 4096) := by simp [hfg]
  have hpmmFree := pmmFree_frameAddr (s := m.pmm.grant g) hlow (by simp [hused]) (by rwa [hrefs])
  rw [hrefs] at hpmmFree
  have hstored : ∀ x u e, (toStore m ds).entry x u = some e → x ∈ ds → e.frame ≠ g :=
    fun x u e he hx => hne (h.role_of_entry hx he)
  refine ⟨g, _, _, ?_, hlay, ⟨rfl, rfl⟩, fun x hx b hmaps => ?_,
    ⟨rfl, fun x hx u => ?_, fun x hx u e he => ?_, fun x _ u e _ => ?_⟩⟩
  · unfold resolveCow
    dsimp only
    rw [hget, if_neg (by omega), halloc]
    rw [if_neg (by omega), frameAddr_eq, hcopy, bind_some]
    unfold Machine.free
    rw [← frameAddr_eq, hpmmFree, hid2.kstore32 (h.table_low hd hlo hhi hdir) (by omega)]
  · obtain ⟨e, he, hf⟩ := hmaps
    exact hstored x b e he hx hf
  · refine entry_toStore_ite (fun hxv => hxv.2 ▸ hv) fun hu => ?_
    rw [hpte x hx u hu]
    by_cases hxv : x = d ∧ u = v
    · rw [if_pos hxv, if_pos hxv, entryOf_resolved hp]
    · rw [if_neg hxv, if_neg hxv, hpte1 x hx u hu]
  · dsimp only [toStore, Store.copy]
    obtain ⟨-, -, rfl⟩ | ⟨-, old⟩ := Store.entry_copy he
    · rw [update_self, hdata g v (by simp), hpage]
    · have hold := h.role_of_entry hx old
      rw [update_of_ne (hne hold), hdata _ u (hgrow.role _ _ hold), honly _ (hne hold)]
  · dsimp only [toStore, Store.copy]
    rw [pageRefs_setRefs, pageRefs_grant, update_apply, update_apply]
    by_cases hxg : e.frame = g
    · rw [if_pos hxg, if_pos hxg, if_neg]
      rw [hxg]
      exact Ne.symm hfg
    · rw [if_neg hxg, if_neg hxg]

/-! ## user-mode writes -/

/-- The offset of an address in its page. -/
def pageOffset (a : Nat) : Fin 4096 := ⟨a % 4096, Nat.mod_lt a (by decide)⟩

/-- The byte of a page that an address names changes. -/
def writeByte (a : Nat) (b : UInt8) (p : Fin 4096 → UInt8) : Fin 4096 → UInt8 :=
  Function.update p (pageOffset a) b

/-- The processor's store succeeds on a writable page and faults on any other. -/
theorem Layout.userStore_eq (h : Layout m ds kt k owner) (hd : d ∈ ds) (hcr3 : m.cr3 = d * 4096)
    (ha : UserPage (a / 4096)) (b : UInt8) :
    userStore m a b =
      if hasFlag (pteAt m.mem d (a / 4096)) pagePresent &&
          hasFlag (pteAt m.mem d (a / 4096)) pageWrite then
        some { m with
          mem := Function.update m.mem (pteAt m.mem d (a / 4096) / 4096 * 4096 + a % 4096) b }
      else none := by
  unfold userStore
  rw [hcr3, walk_eq_pteAt]
  by_cases hp : hasFlag (pteAt m.mem d (a / 4096)) pagePresent = true
  · obtain ⟨hlo, hhi⟩ := ha.table
    obtain ⟨-, hw, hu⟩ := h.tables d hd _ hlo hhi (present_dir_of_present hp)
    have hu' := (h.pages d hd _ ha hp).2
    rw [show a / 4096 / 1024 = a / 2 ^ 22 by omega] at hw hu
    rw [if_pos hp, bind_some, hw, hu, hu', hp]
    rfl
  · rw [if_neg hp, Bool.not_eq_true _ |>.mp hp]
    rfl

/-- A store to a writable page is an eager write. -/
theorem Layout.userStore (h : Layout m ds kt k owner) (hok : (toStore m ds).Ok) (hd : d ∈ ds)
    (hcr3 : m.cr3 = d * 4096) {e : Entry Nat} (he : (toStore m ds).entry d (a / 4096) = some e)
    (hmode : e.mode = .writable) (b : UInt8) :
    ∃ m', AliOS.userStore m a b = some m' ∧ Layout m' ds kt k owner ∧ SameRegs m m' ∧
      (toStore m' ds).Ok ∧ ∀ x ∈ ds, ∀ u, (toStore m' ds).view x u =
        eagerWrite (toStore m ds).view d (a / 4096) (writeByte a b) x u := by
  have hrole := h.role_of_entry hd he
  obtain ⟨ha, hp, rfl⟩ := entry_toStore.mp he
  have hpw : hasFlag (pteAt m.mem d (a / 4096)) pageWrite := by
    by_contra hno
    unfold modeOf at hmode
    rw [if_neg hno] at hmode
    split at hmode <;> cases hmode
  have hlt : a % 4096 < 4096 := Nat.mod_lt _ (by decide)
  generalize hf : pteAt m.mem d (a / 4096) / 4096 = f at *
  have hpage := page_update m.mem f
  have hext := h.update hrole hlt b
  have hsame : Store.Same ((toStore m ds).store f (writeByte a b))
      (toStore { m with mem := Function.update m.mem (f * 4096 + a % 4096) b } ds) := by
    refine ⟨rfl, fun x hx u => ?_, fun x _ u e' _ => ?_, fun _ _ _ _ _ => rfl⟩
    · dsimp only [toStore, Store.store]
      by_cases hu : UserPage u
      · rw [if_pos hu, if_pos hu, hext.2 x hx u hu]
      · rw [if_neg hu, if_neg hu]
    · dsimp only [toStore, Store.store]
      rw [update_apply]
      exact hpage e'.frame ⟨a % 4096, hlt⟩ b
  refine ⟨_, ?_, hext.1, ⟨rfl, rfl⟩, (hok.store f _).same hsame, fun x hx u => ?_⟩
  · rw [h.userStore_eq hd hcr3 ha, hp, hpw, hf]
    rfl
  · rw [hsame.view hx u]
    exact Store.view_store_eq_eagerWrite hok hd he hmode (writeByte a b) hx u

/-- What a user-mode read returns. -/
theorem Layout.userRead_eq (h : Layout m ds kt k owner) (hd : d ∈ ds) (ha : UserPage (a / 4096)) :
    userRead m.mem (d * 4096) a =
      if hasFlag (pteAt m.mem d (a / 4096)) pagePresent then
        some (m.mem (pteAt m.mem d (a / 4096) / 4096 * 4096 + a % 4096))
      else none := by
  unfold userRead
  rw [walk_eq_pteAt]
  by_cases hp : hasFlag (pteAt m.mem d (a / 4096)) pagePresent = true
  · obtain ⟨hlo, hhi⟩ := ha.table
    have hu := (h.tables d hd _ hlo hhi (present_dir_of_present hp)).2.2
    rw [show a / 4096 / 1024 = a / 2 ^ 22 by omega] at hu
    rw [if_pos hp, if_pos hp, bind_some, hu, (h.pages d hd _ ha hp).2]
    rfl
  · rw [if_neg hp, if_neg hp]
    rfl

/-- The handler sees a write fault on a present page as a copy-on-write fault. -/
theorem pageFault_write (ha : UserPage (a / 4096))
    (hp : hasFlag (pteAt m.mem d (a / 4096)) pagePresent) (hcr3 : m.cr3 = d * 4096) :
    pageFault m (some m.cr3) (writeError m a) a = cowFault m (d * 4096) a := by
  have herr : writeError m a = 7 := by
    unfold writeError
    rw [hcr3, walk_eq_pteAt, if_pos hp, isSome_some, if_pos rfl]
    rfl
  have hlt : a < kernelVirtBase := by
    unfold UserPage at ha
    unfold kernelVirtBase
    omega
  rw [herr, hcr3]
  unfold pageFault
  simp [hasFlag, pfPresent, pfWrite, pfUser, hlt]

/-- On a page that is not there it gives up. -/
theorem pageFault_absent (hp : ¬hasFlag (pteAt m.mem d (a / 4096)) pagePresent)
    (hcr3 : m.cr3 = d * 4096) : pageFault m (some m.cr3) (writeError m a) a = none := by
  have herr : writeError m a = 6 := by
    unfold writeError
    rw [hcr3, walk_eq_pteAt, if_neg hp]
    rfl
  rw [herr]
  unfold pageFault
  simp [hasFlag, pfPresent, pfUser]

/-- The copy-on-write section finds the entry the processor used. -/
theorem Layout.cowFault_eq (h : Layout m ds kt k owner) (hd : d ∈ ds) (ha : UserPage (a / 4096))
    (hp : hasFlag (pteAt m.mem d (a / 4096)) pagePresent) :
    cowFault m (d * 4096) a =
      if hasFlag (pteAt m.mem d (a / 4096)) pageCow then
        resolveCow m (word m.mem d (a / 4096 / 1024) / 4096 * 4096 + 4 * (a / 4096 % 1024))
          (pteAt m.mem d (a / 4096))
      else none := by
  obtain ⟨hlo, hhi⟩ := ha.table
  obtain ⟨c, hid, -⟩ := h.idMapped
  have hdir := present_dir_of_present hp
  have hpte : word m.mem (word m.mem d (a / 4096 / 1024) / 4096) (a / 4096 % 1024) =
      pteAt m.mem d (a / 4096) := by
    unfold pteAt
    rw [if_pos hdir]
  unfold cowFault
  rw [show a / 2 ^ 22 = a / 4096 / 1024 by omega, show a / 2 ^ 12 = a / 4096 from rfl,
    hid.kload32 (h.dir_low hd) (by omega), bind_some, if_pos hdir, frameAddr_eq]
  dsimp only
  rw [hid.kload32 (h.table_low hd hlo hhi hdir) (by omega), bind_some, hpte, hp,
    Bool.true_and]

/-- A write to this page makes `page_fault` copy it. -/
def needsCopy (m : Machine) (d v : Nat) : Bool :=
  hasFlag (pteAt m.mem d v) pagePresent && !hasFlag (pteAt m.mem d v) pageWrite &&
    hasFlag (pteAt m.mem d v) pageCow && m.pmm.pageRefs (pteAt m.mem d v / 4096) != 1

theorem needsCopy_of_entry (he : (toStore m ds).entry d v = some ⟨f, .cow⟩)
    (hrefs : m.pmm.pageRefs f ≠ 1) :
    needsCopy m d v := by
  obtain ⟨-, hp, heq⟩ := entry_toStore.mp he
  obtain ⟨rfl, hmode⟩ := Entry.mk.inj heq
  unfold needsCopy
  rw [hp]
  unfold modeOf at hmode
  split_ifs at hmode with hw hcow
  simp [hw, hcow, hrefs]

/-- The handler leaves a page it may resolve writable, and nobody notices. -/
theorem Layout.cowFault (h : Layout m ds kt k owner) (hok : (toStore m ds).Ok) (hd : d ∈ ds)
    (ha : UserPage (a / 4096)) (hp : hasFlag (pteAt m.mem d (a / 4096)) pagePresent)
    (hw : ¬hasFlag (pteAt m.mem d (a / 4096)) pageWrite)
    (hcow : hasFlag (pteAt m.mem d (a / 4096)) pageCow)
    (hroom : needsCopy m d (a / 4096) → 0 < freeBelow 32768 m.pmm) :
    ∃ m' owner' e, AliOS.cowFault m (d * 4096) a = some m' ∧ Layout m' ds kt k owner' ∧
      SameRegs m m' ∧ (toStore m' ds).Ok ∧
      (toStore m' ds).entry d (a / 4096) = some e ∧ e.mode = .writable ∧
      ∀ x ∈ ds, ∀ u, (toStore m' ds).view x u = (toStore m ds).view x u := by
  have hdir := present_dir_of_present hp
  have hmode : modeOf (pteAt m.mem d (a / 4096)) = .cow := by
    unfold modeOf
    rw [if_neg hw, if_pos hcow]
  have he : (toStore m ds).entry d (a / 4096) =
      some ⟨pteAt m.mem d (a / 4096) / 4096, modeOf (pteAt m.mem d (a / 4096))⟩ :=
    entry_toStore.mpr ⟨ha, hp, rfl⟩
  rw [h.cowFault_eq hd ha hp, if_pos hcow]
  by_cases hone : m.pmm.pageRefs (pteAt m.mem d (a / 4096) / 4096) = 1
  · obtain ⟨mem', hrun, hlay, hsame⟩ := h.resolveCow_claim hd ha hdir hp hone
    refine ⟨_, owner, ⟨pteAt m.mem d (a / 4096) / 4096, .writable⟩, hrun, hlay, ⟨rfl, rfl⟩,
      (hok.claim hd he hone).same hsame, ?_, rfl, fun x hx u => ?_⟩
    · rw [hsame.entry d hd]
      exact if_pos ⟨rfl, rfl⟩
    · rw [hsame.view hx u, Store.view_claim he (by rw [hmode]; rfl)]
  · -- the count is the number of spaces that map the frame, this one among them
    have hmany : 1 < m.pmm.pageRefs (pteAt m.mem d (a / 4096) / 4096) := by
      have hcard := hok.refs d hd _ _ he
      have hpos : 0 < ((toStore m ds).sharers (a / 4096) (pteAt m.mem d (a / 4096) / 4096)).card :=
        Finset.card_pos.mpr ⟨d, Store.mem_sharers.mpr ⟨hd, Store.maps_of_entry he⟩⟩
      have hrefs : m.pmm.pageRefs (pteAt m.mem d (a / 4096) / 4096) =
        ((toStore m ds).sharers (a / 4096) (pteAt m.mem d (a / 4096) / 4096)).card := hcard
      omega
    have hneed : needsCopy m d (a / 4096) := by
      unfold needsCopy
      rw [hp, hcow, Bool.not_eq_true _ |>.mp hw]
      simpa using hone
    obtain ⟨g, m', owner', hrun, hlay, hregs, hfresh, hsame⟩ :=
      h.resolveCow_copy hd ha hdir hp hmany (hroom hneed)
    refine ⟨m', owner', ⟨g, .writable⟩, hrun, hlay, hregs, (hok.copy hd he hfresh).same hsame, ?_,
      rfl, fun x hx u => ?_⟩
    · rw [hsame.entry d hd]
      exact if_pos ⟨rfl, rfl⟩
    · rw [hsame.view hx u, Store.view_copy he (by rw [hmode]; rfl) hfresh hx]

/-- A write to a page that is present and not writable is left to the handler. -/
theorem Layout.userWrite_faults (h : Layout m ds kt k owner) (hd : d ∈ ds) (hcr3 : m.cr3 = d * 4096)
    (ha : UserPage (a / 4096)) (hp : hasFlag (pteAt m.mem d (a / 4096)) pagePresent)
    (hw : ¬hasFlag (pteAt m.mem d (a / 4096)) pageWrite) (b : UInt8) :
    userWrite m a b = (AliOS.cowFault m (d * 4096) a).bind fun m' => AliOS.userStore m' a b := by
  have hfault : AliOS.userStore m a b = none := by
    rw [h.userStore_eq hd hcr3 ha, Bool.not_eq_true _ |>.mp hw, Bool.and_false]
    rfl
  unfold userWrite
  rw [hfault]
  rw [pageFault_write ha hp hcr3]

/-- A page may be written only if it is present and writable or copy-on-write. -/
theorem not_mayWrite_toStore {p : Bool × (Fin 4096 → UInt8)}
    (hview : (toStore m ds).view d v = some p)
    (hno : ¬(hasFlag (pteAt m.mem d v) pagePresent ∧
      (hasFlag (pteAt m.mem d v) pageWrite ∨ hasFlag (pteAt m.mem d v) pageCow))) :
    p.1 = false := by
  obtain ⟨e, he, rfl⟩ := map_eq_some_iff.mp hview
  obtain ⟨-, hp, rfl⟩ := entry_toStore.mp he
  obtain ⟨hw, hcow⟩ := not_or.mp (not_and.mp hno hp)
  unfold modeOf
  rw [if_neg hw, if_neg hcow]
  rfl

/-- A write to any other page is refused. -/
theorem Layout.userWrite_refused (h : Layout m ds kt k owner) (hd : d ∈ ds)
    (hcr3 : m.cr3 = d * 4096) (ha : UserPage (a / 4096))
    (hno : ¬(hasFlag (pteAt m.mem d (a / 4096)) pagePresent ∧
      (hasFlag (pteAt m.mem d (a / 4096)) pageWrite ∨ hasFlag (pteAt m.mem d (a / 4096)) pageCow)))
    (b : UInt8) : userWrite m a b = none := by
  by_cases hp : hasFlag (pteAt m.mem d (a / 4096)) pagePresent = true
  · obtain ⟨hw, hcow⟩ := not_or.mp (not_and.mp hno hp)
    rw [h.userWrite_faults hd hcr3 ha hp hw, h.cowFault_eq hd ha hp, if_neg hcow]
    rfl
  · unfold userWrite
    rw [h.userStore_eq hd hcr3 ha, Bool.not_eq_true _ |>.mp hp]
    rw [pageFault_absent hp hcr3]
    rfl

/-- **A user-mode write** is an eager write: it succeeds, possibly after a copy,
when the page may be written, and is refused otherwise. -/
theorem Layout.userWrite (h : Layout m ds kt k owner) (hok : (toStore m ds).Ok) (hd : d ∈ ds)
    (hcr3 : m.cr3 = d * 4096) (ha : UserPage (a / 4096))
    (hroom : needsCopy m d (a / 4096) → 0 < freeBelow 32768 m.pmm) (b : UInt8) :
    ∃ owner', Layout ((AliOS.userWrite m a b).getD m) ds kt k owner' ∧
      SameRegs m ((AliOS.userWrite m a b).getD m) ∧
      (toStore ((AliOS.userWrite m a b).getD m) ds).Ok ∧
      ∀ x ∈ ds, ∀ u, (toStore ((AliOS.userWrite m a b).getD m) ds).view x u =
        eagerWrite (toStore m ds).view d (a / 4096) (writeByte a b) x u := by
  by_cases hmay : hasFlag (pteAt m.mem d (a / 4096)) pagePresent = true ∧
      (hasFlag (pteAt m.mem d (a / 4096)) pageWrite = true ∨
        hasFlag (pteAt m.mem d (a / 4096)) pageCow = true)
  · obtain ⟨hp, hmay⟩ := hmay
    by_cases hw : hasFlag (pteAt m.mem d (a / 4096)) pageWrite = true
    · have he : (toStore m ds).entry d (a / 4096) =
          some ⟨pteAt m.mem d (a / 4096) / 4096, modeOf (pteAt m.mem d (a / 4096))⟩ :=
        entry_toStore.mpr ⟨ha, hp, rfl⟩
      have hmode : modeOf (pteAt m.mem d (a / 4096)) = .writable := by
        unfold modeOf
        rw [if_pos hw]
      obtain ⟨m', hrun, hlay, hregs, hok', hview⟩ := h.userStore hok hd hcr3 he hmode b
      have hwrite : AliOS.userWrite m a b = some m' := by
        unfold AliOS.userWrite
        rw [hrun]
      rw [hwrite]
      exact ⟨owner, hlay, hregs, hok', hview⟩
    · obtain ⟨m₁, owner1, e, hrun, hlay1, hregs1, hok1, he1, hmode1, hview1⟩ :=
        h.cowFault hok hd ha hp hw (hmay.resolve_left hw) hroom
      obtain ⟨m', hstore, hlay, hregs, hok', hview⟩ :=
        hlay1.userStore hok1 hd (hregs1.cr3.trans hcr3) he1 hmode1 b
      rw [h.userWrite_faults hd hcr3 ha hp hw, hrun, bind_some, hstore]
      refine ⟨owner1, hlay, hregs1.trans hregs, hok', fun x hx u => ?_⟩
      exact (hview x hx u).trans (eagerWrite_congr (hview1 d hd) (hview1 x hx) _ _ u)
  · rw [h.userWrite_refused hd hcr3 ha hmay,
      eagerWrite_of_not_mayWrite fun p hview => not_mayWrite_toStore hview hmay]
    exact ⟨owner, h, .refl m, hok, fun _ _ _ => rfl⟩

end Resolve

end AliOS
