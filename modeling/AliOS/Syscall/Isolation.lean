import AliOS.Syscall.Deliver
import AliOS.Cow

/-!
# AliOS.Syscall.Isolation

Who sees the stores of a system call.  They happen in ring 0, where only CR0.WP makes
the processor respect read-only pages; without it a store to a copy-on-write page goes
to the shared frame, and every space that maps the frame sees it.  The fault handler
is no help: it resolves faults of user mode only.
-/

namespace AliOS

open Lib Option Finset

/-! ## stores into user pages -/

section Store

variable {m m' : Machine} {ds : Finset Nat} {kt : Nat → Nat} {k d : Nat} {owner : Nat → Option Role}

/-- Space `x` maps the frame that page `v` has in space `d`. -/
def SharesFrame (m : Machine) (x d v : Nat) : Prop :=
  hasFlag (pteAt m.mem x v) pagePresent = true ∧ pteAt m.mem x v / 4096 = pteAt m.mem d v / 4096

instance (m : Machine) (x d v : Nat) : Decidable (SharesFrame m x d v) :=
  inferInstanceAs (Decidable (_ ∧ _))

/-- The address is in user space, on a page that `d` has. -/
def Mapped (m : Machine) (d a : Nat) : Prop :=
  UserPage (a / 4096) ∧ hasFlag (pteAt m.mem d (a / 4096)) pagePresent = true

section

variable (h : Layout m ds kt k owner)

include h

/-- A ring-0 store to a user page goes to its frame; only CR0.WP makes the kernel
respect the write flag. -/
theorem Layout.kstore8_eq (hd : d ∈ ds) (hcr3 : m.cr3 = d * 4096) {a : Nat}
    (ha : Mapped m d a) (b : UInt8) : kstore8 m (a % 2 ^ 32) b =
      if m.writeProtect && !hasFlag (pteAt m.mem d (a / 4096)) pageWrite then none
      else some { m with
        mem := Function.update m.mem (pteAt m.mem d (a / 4096) / 4096 * 4096 + a % 4096) b } := by
  obtain ⟨ha, hp⟩ := ha
  obtain ⟨hlo, hhi⟩ := ha.table
  have hw := (h.tables d hd _ hlo hhi (present_dir_of_present hp)).2.1
  rw [show a / 4096 / 1024 = a / 2 ^ 22 by omega] at hw
  have hlt : a % 2 ^ 32 = a := Nat.mod_eq_of_lt (by unfold UserPage at ha; omega)
  unfold kstore8
  rw [hlt, kwrite_eq_pteAt hcr3, if_pos hp, hw, Bool.true_and]
  split <;> rfl

/-- Such a store is seen by every space with the same frame, at the same address. -/
theorem Layout.userRead_update (hd : d ∈ ds) {a : Nat} (ha : Mapped m d a)
    (b : UInt8) {x : Nat} (hx : x ∈ ds) {a' : Nat} (ha' : UserPage (a' / 4096)) :
    AliOS.userRead (Function.update m.mem (pteAt m.mem d (a / 4096) / 4096 * 4096 + a % 4096) b)
      (x * 4096) a' =
      if a' = a ∧ SharesFrame m x d (a / 4096) then some b
        else AliOS.userRead m.mem (x * 4096) a' := by
  have hrole := (h.pages d hd _ ha.1 ha.2).1
  obtain ⟨hlay, hpte⟩ := h.update hrole (show a % 4096 < 4096 from Nat.mod_lt _ (by decide)) b
  have hread := hlay.userRead_eq hx ha'
  dsimp only at hread
  rw [hread, hpte x hx _ ha', h.userRead_eq hx ha', Function.update_apply]
  by_cases hp : hasFlag (pteAt m.mem x (a' / 4096)) pagePresent = true
  · rw [if_pos hp, if_pos hp]
    by_cases hsame : a' = a ∧ SharesFrame m x d (a / 4096)
    · obtain ⟨rfl, hshare⟩ := hsame
      rw [if_pos (by rw [hshare.2]), if_pos ⟨rfl, hshare⟩]
    · rw [if_neg hsame, if_neg]
      intro heq
      -- equal addresses lie in one frame, which holds one page only
      have hframe : pteAt m.mem x (a' / 4096) / 4096 = pteAt m.mem d (a / 4096) / 4096 := by omega
      have hpage : a' / 4096 = a / 4096 := by
        have hrole' := (h.pages x hx _ ha' hp).1
        rw [hframe, hrole, some.injEq, Role.data.injEq] at hrole'
        exact hrole'.symm
      refine hsame ⟨by omega, ?_, ?_⟩
      · rwa [← hpage]
      · rwa [← hpage] at hframe ⊢
  · rw [if_neg hp, if_neg hp, if_neg]
    rintro ⟨rfl, hshare⟩
    exact hp hshare.1

/-- The first byte of a series of stores leaves the rest mapped. -/
theorem Layout.mapped_succ (hd : d ∈ ds) {p n : Nat}
    (hmap : ∀ i < n + 1, Mapped m d (p + i)) (b : UInt8) : ∀ i < n, Mapped { m with
      mem := Function.update m.mem (pteAt m.mem d (p / 4096) / 4096 * 4096 + p % 4096) b } d
        (p + 1 + i) := by
  intro i hi
  have hfirst : Mapped m d p := hmap 0 (by omega)
  obtain ⟨-, hpte⟩ := h.update (h.pages d hd _ hfirst.1 hfirst.2).1
    (show p % 4096 < 4096 from Nat.mod_lt _ (by decide)) b
  have hi' := hmap (i + 1) (by omega)
  rw [show p + (i + 1) = p + 1 + i by omega] at hi'
  refine ⟨hi'.1, ?_⟩
  rw [hpte d hd _ hi'.1]
  exact hi'.2

/-- **Stores of the kernel** through a user pointer: with CR0.WP they succeed on
writable pages only, and afterwards every space that has the frame of a page
reads the new bytes there. -/
theorem Layout.storeBytes (hd : d ∈ ds) (hcr3 : m.cr3 = d * 4096)
    {p : Nat} {bs : List UInt8} (hmap : ∀ i < bs.length, Mapped m d (p + i))
    (hrun : storeBytes m p bs = some m') :
    (m.writeProtect →
      ∀ i < bs.length, hasFlag (pteAt m.mem d ((p + i) / 4096)) pageWrite) ∧
    ∀ x ∈ ds, ∀ a, UserPage (a / 4096) → AliOS.userRead m'.mem (x * 4096) a =
      if p ≤ a ∧ a < p + bs.length ∧ SharesFrame m x d (a / 4096) then bs[a - p]?
      else AliOS.userRead m.mem (x * 4096) a := by
  induction bs generalizing m p with
  | nil =>
    cases hrun
    refine ⟨fun _ i hi => absurd hi (by simp), fun x _ a _ => (if_neg ?_).symm⟩
    rintro ⟨hle, hlt, -⟩
    rw [List.length_nil] at hlt
    omega
  | cons b bs ih =>
    have hfirst : Mapped m d p := hmap 0 (by simp)
    rw [AliOS.storeBytes, h.kstore8_eq hd hcr3 hfirst] at hrun
    by_cases hstop : (m.writeProtect && !hasFlag (pteAt m.mem d (p / 4096)) pageWrite) = true
    · rw [if_pos hstop] at hrun
      cases hrun
    rw [if_neg hstop, bind_some] at hrun
    obtain ⟨hlay, hpte⟩ := h.update (h.pages d hd _ hfirst.1 hfirst.2).1
      (show p % 4096 < 4096 from Nat.mod_lt _ (by decide)) b
    obtain ⟨hwrite, hread⟩ := ih hlay hcr3 (h.mapped_succ hd hmap b) hrun
    refine ⟨fun hwp i hi => ?_, fun x hx a ha => ?_⟩
    · cases i with
      | zero => simpa [hwp] using hstop
      | succ i =>
        rw [List.length_cons] at hi
        have hrest := hwrite hwp i (by omega)
        have hnext : p + 1 + i = p + (i + 1) := by omega
        have hmapped := (hmap (i + 1) (by simpa using hi)).1
        rwa [hpte d hd _ (by rwa [hnext]), hnext] at hrest
    · rw [hread x hx a ha, h.userRead_update hd hfirst b hx ha]
      have hshare : SharesFrame { m with
          mem := Function.update m.mem (pteAt m.mem d (p / 4096) / 4096 * 4096 + p % 4096) b }
            x d (a / 4096) ↔
          SharesFrame m x d (a / 4096) := by
        unfold SharesFrame
        rw [hpte x hx _ ha, hpte d hd _ ha]
      rw [List.length_cons]
      by_cases hsh : SharesFrame m x d (a / 4096)
      · by_cases hap : a = p
        · subst hap
          rw [if_neg (by omega), if_pos ⟨rfl, hsh⟩, if_pos ⟨by omega, by omega, hsh⟩, Nat.sub_self]
          rfl
        · rw [if_neg (c := a = p ∧ _) fun hc => hap hc.1]
          by_cases hin : p + 1 ≤ a ∧ a < p + 1 + bs.length
          · rw [if_pos ⟨hin.1, hin.2, hshare.mpr hsh⟩, if_pos ⟨by omega, by omega, hsh⟩,
              show a - p = a - (p + 1) + 1 by omega, List.getElem?_cons_succ]
          · rw [if_neg fun hc => hin ⟨hc.1, hc.2.1⟩, if_neg fun hc => hin (by omega)]
      · have hfirst' : ¬(a = p ∧ SharesFrame m x d (p / 4096)) := by
          rintro ⟨rfl, hc⟩
          exact hsh hc
        rw [if_neg fun hc => hsh (hshare.mp hc.2.2), if_neg hfirst', if_neg fun hc => hsh hc.2.2]

/-- Without CR0.WP nothing stops them. -/
theorem Layout.storeBytes_total (hd : d ∈ ds) (hcr3 : m.cr3 = d * 4096)
    (hwp : m.writeProtect = false) {p : Nat} {bs : List UInt8}
    (hmap : ∀ i < bs.length, Mapped m d (p + i)) : ∃ m', AliOS.storeBytes m p bs = some m' := by
  induction bs generalizing m p with
  | nil => exact ⟨m, rfl⟩
  | cons b bs ih =>
    have hfirst : Mapped m d p := hmap 0 (by simp)
    rw [AliOS.storeBytes, h.kstore8_eq hd hcr3 hfirst, hwp, Bool.false_and, if_neg (by decide),
      bind_some]
    exact ih (h.update (h.pages d hd _ hfirst.1 hfirst.2).1 (by omega) b).1 hcr3 hwp
      (h.mapped_succ hd hmap b)

end

theorem sharesFrame_iff_maps {x v : Nat} (hv : UserPage v) :
    SharesFrame m x d v ↔ (toStore m ds).Maps x v (pteAt m.mem d v / 4096) := by
  constructor
  · rintro ⟨hp, hf⟩
    exact ⟨_, entry_toStore.mpr ⟨hv, hp, rfl⟩, hf⟩
  · rintro ⟨e, he, hf⟩
    obtain ⟨-, hp, rfl⟩ := entry_toStore.mp he
    exact ⟨hp, hf⟩

/-- The reference count tells whether another space has the frame. -/
theorem Layout.getref_eq_one_iff (h : Layout m ds kt k owner) (hok : (toStore m ds).Ok)
    (hd : d ∈ ds) {v : Nat} (hv : UserPage v) (hp : hasFlag (pteAt m.mem d v) pagePresent) :
    pmmGetref m.pmm (frameAddr (pteAt m.mem d v)) = 1 ↔ ∀ x ∈ ds, x ≠ d → ¬SharesFrame m x d v := by
  have hlow := (h.owned _ _ (h.pages d hd v hv hp).1).1
  have he : (toStore m ds).entry d v = some ⟨pteAt m.mem d v / 4096, modeOf (pteAt m.mem d v)⟩ :=
    entry_toStore.mpr ⟨hv, hp, rfl⟩
  have hrefs : m.pmm.pageRefs (pteAt m.mem d v / 4096) =
      ((toStore m ds).sharers v (pteAt m.mem d v / 4096)).card := hok.refs d hd v _ he
  rw [pmmGetref_frameAddr _ hlow]
  constructor
  · intro hone x hx hne hshare
    exact hne (hok.eq_of_refs_eq_one hd he hone hx ((sharesFrame_iff_maps hv).mp hshare))
  · intro hall
    have hself : d ∈ (toStore m ds).sharers v (pteAt m.mem d v / 4096) :=
      Store.mem_sharers.mpr ⟨hd, Store.maps_of_entry he⟩
    rw [hrefs, card_eq_one]
    refine ⟨d, eq_singleton_iff_unique_mem.mpr ⟨hself, fun x hxs => ?_⟩⟩
    obtain ⟨hx, hmaps⟩ := Store.mem_sharers.mp hxs
    by_contra hne
    exact hall x hx hne ((sharesFrame_iff_maps hv).mpr hmaps)

end Store

/-! ## isolation -/

/-- The bytes the other spaces read are unchanged. -/
def OthersUnchanged (ds : Finset Nat) (m m' : Machine) : Prop :=
  ∀ x ∈ ds, x * 4096 ≠ m.cr3 → ∀ a, UserPage (a / 4096) →
    userRead m'.mem (x * 4096) a = userRead m.mem (x * 4096) a

/-- The stores of the kernel leave the other spaces alone exactly if CR0.WP is set,
or every byte goes to a frame with reference count 1 or is already there. -/
theorem Layout.storeBytes_othersUnchanged_iff {m : Machine} {ds : Finset Nat} {kt : Nat → Nat}
    {k d : Nat}
    {owner : Nat → Option Role} (h : Layout m ds kt k owner) (hok : (toStore m ds).Ok) (hd : d ∈ ds)
    (hcr3 : m.cr3 = d * 4096) {p : Nat} {bs : List UInt8}
    (hmap : ∀ i < bs.length, Mapped m d (p + i)) :
    (∀ m', AliOS.storeBytes m p bs = some m' → OthersUnchanged ds m m') ↔
      m.writeProtect ∨ ∀ i b, bs[i]? = some b →
        pmmGetref m.pmm (frameAddr (pteAt m.mem d ((p + i) / 4096))) = 1 ∨
        AliOS.userRead m.mem m.cr3 (p + i) = some b := by
  -- a space with the frame of a page reads there what the caller reads
  have hsee : ∀ x ∈ ds, ∀ i < bs.length, SharesFrame m x d ((p + i) / 4096) →
      AliOS.userRead m.mem (x * 4096) (p + i) = AliOS.userRead m.mem m.cr3 (p + i) := by
    intro x hx i hi hshare
    rw [hcr3, h.userRead_eq hx (hmap i hi).1, h.userRead_eq hd (hmap i hi).1, if_pos hshare.1,
      if_pos (hmap i hi).2, hshare.2]
  constructor
  · intro hall
    by_cases hwp : m.writeProtect = true
    · exact .inl hwp
    refine .inr fun i b hb => ?_
    have hi : i < bs.length := (List.getElem?_eq_some_iff.mp hb).1
    obtain ⟨m', hrun⟩ := h.storeBytes_total hd hcr3 (Bool.not_eq_true _ |>.mp hwp) hmap
    rw [h.getref_eq_one_iff hok hd (hmap i hi).1 (hmap i hi).2]
    by_contra hno
    rw [not_or] at hno
    obtain ⟨hshared, hold⟩ := hno
    simp only [not_forall, not_not] at hshared
    obtain ⟨x, hx, hne, hshare⟩ := hshared
    have hread := (h.storeBytes hd hcr3 hmap hrun).2 x hx (p + i) (hmap i hi).1
    rw [if_pos ⟨by omega, by omega, hshare⟩, Nat.add_sub_cancel_left, hb,
      hall m' hrun x hx (by omega) _ (hmap i hi).1, hsee x hx i hi hshare] at hread
    exact hold hread
  · intro hc m' hrun x hx hxne a ha
    obtain ⟨hwrite, hread⟩ := h.storeBytes hd hcr3 hmap hrun
    rw [hread x hx a ha]
    by_cases hin : p ≤ a ∧ a < p + bs.length ∧ SharesFrame m x d (a / 4096)
    · obtain ⟨hle, hlt, hshare⟩ := hin
      obtain ⟨i, rfl⟩ := Nat.exists_eq_add_of_le hle
      have hi : i < bs.length := by omega
      have hne : x ≠ d := by rintro rfl; exact hxne hcr3.symm
      rw [if_pos ⟨hle, hlt, hshare⟩, Nat.add_sub_cancel_left, hsee x hx i hi hshare]
      obtain hwp | hsafe := hc
      · -- a page that may be written belongs to one space
        have hmode : modeOf (pteAt m.mem d ((p + i) / 4096)) = .writable := if_pos (hwrite hwp i hi)
        have he : (toStore m ds).entry d ((p + i) / 4096) = some ⟨_, _⟩ :=
          entry_toStore.mpr ⟨ha, (hmap i hi).2, rfl⟩
        exact absurd (hok.sole d hd _ _ he hmode x hx ((sharesFrame_iff_maps ha).mp hshare)) hne
      · obtain hone | hsame := hsafe i _ (List.getElem?_eq_getElem hi)
        · exact absurd hshare ((h.getref_eq_one_iff hok hd ha (hmap i hi).2).mp hone x hx hne)
        · rw [hsame, List.getElem?_eq_getElem hi]
    · rw [if_neg hin]

theorem testBit_bootCr0 (firmware : Nat) : (bootCr0 firmware).testBit 16 = firmware.testBit 16 := by
  unfold bootCr0
  rw [Nat.testBit_or, Nat.testBit_or]
  have h1 : Nat.testBit 1 16 = false := by decide
  have h2 : Nat.testBit 0x80000000 16 = false := by decide
  rw [h1, h2, Bool.or_false, Bool.or_false]

/-- **System calls that store through a user pointer** into mapped user pages leave
the other address spaces alone exactly if the firmware has set CR0.WP (nothing in
the kernel does), or every byte goes to a frame with reference count 1 or is
already there. -/
theorem userCall_othersUnchanged_iff {m₀ : Machine} {d₀ firmware kd : Nat} {kt : Nat → Nat}
    (h₀ : PrivateSpace m₀ d₀ kt kd) (hcr0 : m₀.cr0 = bootCr0 firmware) {k : Kernel}
    {ds : Finset Nat} {V : Views} (hrun : CowRun LowFrames m₀ d₀ k.machine ds V) (c : UserCall)
    (hmap : ∀ i < (c.deliver k).2.length,
      Mapped k.machine (k.machine.cr3 / 4096) ((c.deliver k).1 + i)) :
    (∀ r k', c.run k = some (r, k') → OthersUnchanged ds k.machine k'.machine) ↔
      firmware.testBit 16 = true ∨ ∀ i b, (c.deliver k).2[i]? = some b →
        pmmGetref k.machine.pmm (frameAddr
          (pteAt k.machine.mem (k.machine.cr3 / 4096) (((c.deliver k).1 + i) / 4096))) = 1 ∨
        userRead k.machine.mem k.machine.cr3 ((c.deliver k).1 + i) = some b := by
  obtain ⟨hsame, href⟩ := hrun.refines h₀
  obtain ⟨owner, hlay⟩ := href.layout
  obtain ⟨d, hd, hcr3⟩ := href.current
  obtain ⟨finish, hfin, hcall⟩ := c.run_eq k
  have hwp : k.machine.writeProtect = firmware.testBit 16 := by
    unfold Machine.writeProtect
    rw [hsame, hcr0, testBit_bootCr0]
  rw [show k.machine.cr3 / 4096 = d by omega] at hmap ⊢
  rw [← hwp, ← hlay.storeBytes_othersUnchanged_iff href.ok hd hcr3 hmap, hcall]
  constructor
  · intro hall m' hrun'
    have hcallee := hall (finish m').1 (finish m').2 (by rw [hrun', map_some])
    rwa [hfin] at hcallee
  · intro hall r k' hrun'
    obtain ⟨m', hrun', heq⟩ := map_eq_some_iff.mp hrun'
    have hmachine : k'.machine = m' := by rw [← hfin m', heq]
    rw [hmachine]
    exact hall m' hrun'

/-- A task whose descriptor 3 reads from a pipe with the one byte `b`. -/
def pairKernel (m : Machine) (b : UInt8) : Kernel where
  machine := m
  fs := ⟨false, fun _ => 0, fun _ => 0, ⟨fun _ => 0, []⟩⟩
  pipes := fun _ => ⟨fun _ => b, 1, 0, 1, 1⟩
  current :=
    { pid := 1, state := .running, parentPid := 0, exitCode := 0, waiting := false,
      fdTable := fun fd => ⟨fd == 3, .pipe, 0, 0, 0, false⟩ }
  queue := []

theorem deliver_pairKernel (m : Machine) (b : UInt8) (buf : Nat) :
    (UserCall.read 3 buf 1).deliver (pairKernel m b) = (buf, [b]) := by
  have havail : ((pairKernel m b).pipes 0).avail = 1 := by
    show ((1 : UInt32) - 0).toNat = 1
    decide
  have hnext : ((pairKernel m b).pipes 0).next (min ((pairKernel m b).pipes 0).avail 1) = [b] := by
    rw [havail]
    rfl
  rw [← hnext]
  rfl

/-- After the fork parent and child read the same byte in the first page, and the
page is mapped. -/
theorem Cloned.pair_read {m : Machine} {t : Nat} {owner : Nat → Option Role}
    (h : Cloned (pairMachine 402) m {320} 320 t)
    (hlay : Layout m (insert t {320}) (256 + ·) 16 owner) {x : Nat} (hx : x = 320 ∨ x = t) :
    Mapped m x 0x08000000 ∧ pteAt m.mem x 32768 / 4096 = 322 ∧
      userRead m.mem (x * 4096) 0x08000000 = some 0x41 := by
  obtain ⟨hentry, -, hpage⟩ := h.pair (by decide) (.inl ⟨rfl, rfl⟩)
  obtain ⟨hv, hp, he⟩ := entry_toStore.mp (hentry x hx)
  have hf : pteAt m.mem x 32768 / 4096 = 322 := (Entry.mk.inj he).1.symm
  refine ⟨⟨hv, hp⟩, hf, ?_⟩
  have hread := hlay.userRead_eq (d := x) (a := 0x08000000)
    (by rw [mem_insert, mem_singleton]; exact hx.symm) hv
  rw [show (0x08000000 : Nat) / 4096 = 32768 from rfl, if_pos hp, hf] at hread
  refine hread.trans (congrArg some ((congrFun hpage 0).trans ?_))
  decide

/-- The parent reads one byte from a pipe into the page it shares with its child:
nothing happens to the child if that byte is there already, but it notices any
other. -/
theorem userCall_othersUnchanged_pair :
    ∃ m t V, CowRun LowFrames (pairMachine 402) 320 m {t, 320} V ∧
    (∀ r k', (UserCall.read 3 0x08000000 1).run (pairKernel m 0x41) = some (r, k') →
      OthersUnchanged {t, 320} m k'.machine) ∧
    ¬∀ r k', (UserCall.read 3 0x08000000 1).run (pairKernel m 0x43) = some (r, k') →
      OthersUnchanged {t, 320} m k'.machine := by
  obtain ⟨t, m, owner, hclone, ht0, -, hlay, hcloned⟩ :=
    uvmClone_pairMachine (show 401 < 402 by decide)
  have hrun := cowRun_pairMachine ht0 hclone
  obtain ⟨hmapped, hf, hread⟩ := hcloned.pair_read hlay (.inl rfl)
  have hcr3 : m.cr3 = 320 * 4096 := hcloned.regs.cr3
  have hpriv := privateSpace_pairMachine (show 401 < 402 by decide)
  have hmap : ∀ b, ∀ i < ((UserCall.read 3 0x08000000 1).deliver (pairKernel m b)).2.length,
      Mapped m (m.cr3 / 4096)
        (((UserCall.read 3 0x08000000 1).deliver (pairKernel m b)).1 + i) := by
    intro b i hi
    rw [deliver_pairKernel] at hi ⊢
    obtain rfl : i = 0 := by simpa using hi
    rw [hcr3]
    exact hmapped
  have hcr0 : (pairMachine 402).cr0 = bootCr0 0x10 := rfl
  refine ⟨m, t, _, hrun, ?_, fun hall => ?_⟩
  · refine (userCall_othersUnchanged_iff (k := pairKernel m 0x41) hpriv hcr0 hrun _ (hmap 0x41)).mpr
      (.inr fun i b hb => .inr ?_)
    rw [deliver_pairKernel] at hb ⊢
    obtain ⟨hi, rfl⟩ := List.getElem?_eq_some_iff.mp hb
    obtain rfl : i = 0 := by simpa using hi
    rw [show (pairKernel m 0x41).machine.cr3 = 320 * 4096 from hcr3]
    exact hread
  · obtain hwp | hsafe := (userCall_othersUnchanged_iff (k := pairKernel m 0x43) hpriv hcr0 hrun _
      (hmap 0x43)).mp hall
    · exact absurd hwp (by decide)
    · have hbyte := hsafe 0 0x43 (by rw [deliver_pairKernel]; rfl)
      rw [deliver_pairKernel, show (pairKernel m 0x43).machine.cr3 = 320 * 4096 from hcr3] at hbyte
      obtain hone | hsame := hbyte
      · have hrefs := (hcloned.pair (by decide) (.inl ⟨rfl, rfl⟩)).2.1
        have hframe : frameAddr (pteAt m.mem 320 32768) / pageSize = 322 := by
          rw [show frameAddr (pteAt m.mem 320 32768) / pageSize = pteAt m.mem 320 32768 / 4096 from
            mul_pageSize_div _, hf]
        have hget : pmmGetref m.pmm (frameAddr (pteAt m.mem 320 32768)) = 2 := by
          unfold pmmGetref
          rw [hframe, if_pos (by decide), hrefs]
        exact absurd (hget.symm.trans hone) (by decide)
      · exact absurd (hread.symm.trans hsame) (by decide)

/-- `sys_read` into a page shared copy-on-write: the child sees the byte its parent
read from a pipe. -/
theorem sysRead_visible_in_child : ∃ t m r k',
    uvmClone (pairMachine 402) (320 * 4096) = some (t * 4096, m) ∧ t ≠ 320 ∧ m.cr3 = 320 * 4096 ∧
    modeOf (pteAt m.mem 320 (0x08000000 / 4096)) = .cow ∧
    sysRead (pairKernel m 0x43) 3 0x08000000 1 = some (r, k') ∧
    userRead m.mem (t * 4096) 0x08000000 = some 0x41 ∧
    userRead k'.machine.mem (t * 4096) 0x08000000 = some 0x43 := by
  obtain ⟨t, m, owner, hclone, -, ht, hlay, hcloned⟩ :=
    uvmClone_pairMachine (show 401 < 402 by decide)
  obtain ⟨hmapped, hf, -⟩ := hcloned.pair_read hlay (.inl rfl)
  obtain ⟨⟨hv, hpt⟩, hft, hreadt⟩ := hcloned.pair_read hlay (.inr rfl)
  have hcr3 : m.cr3 = 320 * 4096 := hcloned.regs.cr3
  have hwp : m.writeProtect = false := by
    unfold Machine.writeProtect
    rw [hcloned.regs.cr0]
    rfl
  have hmap : ∀ i < [(0x43 : UInt8)].length, Mapped m 320 (0x08000000 + i) := by
    intro i hi
    obtain rfl : i = 0 := by simpa using hi
    exact hmapped
  have h320 : 320 ∈ insert t ({320} : Finset Nat) := mem_insert_of_mem (mem_singleton_self 320)
  obtain ⟨m', hstore⟩ := hlay.storeBytes_total h320 hcr3 hwp hmap
  have hread' := (hlay.storeBytes h320 hcr3 hmap hstore).2 t (mem_insert_self t _) 0x08000000 hv
  obtain ⟨finish, hfin, hrun⟩ := (UserCall.read 3 0x08000000 1).run_eq (pairKernel m 0x43)
  rw [deliver_pairKernel] at hrun
  have hrun' : sysRead (pairKernel m 0x43) 3 0x08000000 1 = some ((finish m').1, (finish m').2) :=
    hrun.trans (by rw [show (pairKernel m 0x43).machine = m from rfl, hstore]; rfl)
  refine ⟨t, m, _, _, hclone, ht, hcr3, ?_, hrun', hreadt, ?_⟩
  · have he := (hcloned.pair (by decide) (.inl ⟨rfl, rfl⟩)).1 320 (.inl rfl)
    exact (Entry.mk.inj (entry_toStore.mp he).2.2).2.symm
  · rw [hfin, hread', if_pos ⟨le_rfl, by decide, hpt, hft.trans hf.symm⟩]
    rfl

end AliOS
