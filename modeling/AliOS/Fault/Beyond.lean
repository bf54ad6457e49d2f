import AliOS.Fault.Resolve

/-!
# AliOS.Fault.Beyond

The copy of `page_fault` when the new frame lies beyond 128 MB.  The handler uses
the physical address of the frame as a pointer, but from `0x08000000` on such an
address belongs to user space: if the writer has a page there, and CR0.WP is
clear, the copy destroys that page and the new frame stays as it was.
-/

namespace AliOS

open Lib Option

section Beyond

variable {m : Machine} {ds : Finset Nat} {kt : Nat → Nat} {k : Nat} {owner : Nat → Option Role}

/-- A copy into a frame beyond the identity map whose address is a mapped user
page of the writer: the copy lands in that page, and not in the new frame. -/
theorem Layout.copyPage_beyond (h : Layout m ds kt k owner) {d v g : Nat} (hd : d ∈ ds)
    (hcr3 : m.cr3 = d * 4096) (hwp : m.writeProtect = false) (hv : UserPage v)
    (hp : hasFlag (pteAt m.mem d v) pagePresent) (hg : UserPage g) (hne : v ≠ g)
    (hgp : hasFlag (pteAt m.mem d g) pagePresent) :
    ∃ mem', copyPage m (g * 4096) (pteAt m.mem d v / 4096 * 4096) = some { m with mem := mem' } ∧
      OnlyFrame (pteAt m.mem d g / 4096) m.mem mem' ∧
      page mem' (pteAt m.mem d g / 4096) = page m.mem (pteAt m.mem d v / 4096) := by
  have hf := (h.pages d hd v hv hp).1
  have hf' := (h.pages d hd g hg hgp).1
  obtain ⟨c, hid, hc⟩ := h.idMapped
  have hout := h.outside hc (f := pteAt m.mem d g / 4096) (by simp [hf'])
  refine copyPage_spec (ne_of_role hf hf' (by simpa using hne))
    (fun mem' honly i hi => (hid.onlyFrame hout honly).kload8 (h.owned _ _ hf).1 hi)
    fun mem' honly i hi b => ?_
  have hdiv : (g * 4096 + i) / 4096 = g := by omega
  have hpte : pteAt mem' d g = pteAt m.mem d g := by
    obtain ⟨hlo, hhi⟩ := hg.table
    refine pteAt_congr (word_congr (by omega) (honly d (ne_of_role (h.dirs d hd).1 hf' (by simp))))
      fun hdir => honly _ (ne_of_role (h.tables d hd _ hlo hhi hdir).1 hf' (by simp))
  unfold kstore8
  rw [kwrite_eq_pteAt (show ({ m with mem := mem' } : Machine).cr3 = d * 4096 from hcr3), hdiv]
  rw [hpte, if_pos hgp, show ({ m with mem := mem' } : Machine).writeProtect = false from hwp,
    Bool.false_and, if_neg (by decide), show (g * 4096 + i) % 4096 = i by omega]
  rfl

/-- The handler goes on as if the copy had reached the new frame, and leaves the
copy in the page at that address. -/
theorem Layout.resolveCow_beyond (h : Layout m ds kt k owner) {d v g : Nat} (hd : d ∈ ds)
    (hcr3 : m.cr3 = d * 4096) (hwp : m.writeProtect = false) (hv : UserPage v)
    (hp : hasFlag (pteAt m.mem d v) pagePresent)
    (hrefs : m.pmm.pageRefs (pteAt m.mem d v / 4096) ≠ 1)
    (halloc : m.alloc = (g * 4096, { m with pmm := m.pmm.grant g })) (hg : UserPage g)
    (hmax : g < pagesMax) (hne : v ≠ g) (hgp : hasFlag (pteAt m.mem d g) pagePresent) :
    ∃ mem' pmm, resolveCow m (word m.mem d (v / 1024) / 4096 * 4096 + 4 * (v % 1024))
      (pteAt m.mem d v) =
        some { m with mem := mem', pmm := pmm } ∧
      (∀ i < 1024, word mem' d i = word m.mem d i) ∧
      (∀ u, UserPage u → pteAt mem' d u =
        if u = v then g * 4096 ||| (pteAt m.mem d v &&& 0xDFF ||| pageWrite) else pteAt m.mem d u) ∧
      page mem' (pteAt m.mem d g / 4096) = page m.mem (pteAt m.mem d v / 4096) := by
  obtain ⟨hlo, hhi⟩ := hv.table
  have hdir := present_dir_of_present hp
  have hlow := (h.owned _ _ (h.pages d hd v hv hp).1).1
  have hf' := (h.pages d hd g hg hgp).1
  have htab := (h.tables d hd _ hlo hhi hdir).1
  obtain ⟨c, hid, hc⟩ := h.idMapped
  have hlay : Layout { m with pmm := m.pmm.grant g } ds kt k owner ∧
      ∀ x ∈ ds, ∀ u, UserPage u → pteAt m.mem x u = pteAt m.mem x u :=
    h.extend rfl rfl (by simp [h.zero]) (fun _ _ hr => hr)
      (fun f r hr => ⟨(h.owned f r hr).1, by simp [(h.owned f r hr).2]⟩) fun _ _ _ _ => rfl
  obtain ⟨mem', hcopy, honly, hpage⟩ := hlay.1.copyPage_beyond hd hcr3 hwp hv hp hg hne hgp
  -- the copy changes no directory and no table
  have hext : Layout { m with mem := mem' } ds kt k owner ∧
      ∀ x ∈ ds, ∀ u, UserPage u → pteAt mem' x u = pteAt m.mem x u :=
    h.extend rfl rfl h.zero (fun _ _ hr => hr) h.owned fun x r hx hr =>
      honly _ (ne_of_role hx hf' (hr _))
  have hword : ∀ i < 1024, word mem' d i = word m.mem d i := fun i hi =>
    word_congr hi (honly d (ne_of_role (h.dirs d hd).1 hf' (by simp)))
  have hgetref : pmmGetref m.pmm (frameAddr (pteAt m.mem d v)) ≠ 1 := by
    rwa [pmmGetref_frameAddr _ hlow]
  have hid' := hid.onlyFrame (h.outside hc (by simp [hf'])) honly
  have hid2 : IdMapped { m with
      mem := mem', pmm := pmmFree (m.pmm.grant g) (frameAddr (pteAt m.mem d v)) } kt c :=
    ⟨hid'.cr3, hid'.dir, hid'.tables⟩
  have hlt := cowFlags_lt (pteAt m.mem d v)
  have hpte := fun u hu => hext.1.pteAt_setWord hd hv
    (by dsimp only; rwa [hword _ (by omega)])
    (mul_or_lt (f := g) (by unfold pagesMax at hmax; omega) hlt) (x := d) hd (u := u) hu
  rw [hword _ (by omega)] at hpte
  refine ⟨setWord mem' (word m.mem d (v / 1024) / 4096) (v % 1024)
    (g * 4096 ||| (pteAt m.mem d v &&& 0xDFF ||| pageWrite)),
    pmmFree (m.pmm.grant g) (frameAddr (pteAt m.mem d v)), ?_, fun i hi => ?_, fun u hu => ?_, ?_⟩
  · unfold resolveCow
    rw [if_neg hgetref, halloc]
    rw [if_neg (by unfold UserPage at hg; omega), frameAddr_eq, hcopy, bind_some]
    unfold Machine.free
    rw [← frameAddr_eq, hid2.kstore32 (h.owned _ _ htab).1 (by omega)]
  · rw [← hword i hi]
    exact word_congr hi (page_setWord (by omega)
      (ne_of_role (h.dirs d hd).1 htab (by simp)))
  · rw [hpte u hu]
    by_cases huv : u = v
    · rw [if_pos ⟨rfl, huv⟩, if_pos huv]
    · rw [if_neg fun hc => huv hc.2, if_neg huv, hext.2 d hd u hu]
  · rw [page_setWord (by omega) (ne_of_role hf' htab (by simp)), hpage]

/-- A write that makes `page_fault` copy into such a frame destroys the page at
that address: the writer reads there what it has in the page it wrote to. -/
theorem Layout.userWrite_beyond (h : Layout m ds kt k owner) {d a g : Nat} (hd : d ∈ ds)
    (hcr3 : m.cr3 = d * 4096) (hwp : m.writeProtect = false) (ha : UserPage (a / 4096))
    (hneed : needsCopy m d (a / 4096))
    (halloc : m.alloc = (g * 4096, { m with pmm := m.pmm.grant g })) (hhigh : ¬Low g)
    (hmax : g < pagesMax) (hne : a / 4096 ≠ g)
    (hgp : hasFlag (pteAt m.mem d g) pagePresent) (b : UInt8) :
    ∃ m', AliOS.userWrite m a b = some m' ∧
      ∀ i < 4096, AliOS.userRead m'.mem (d * 4096) (g * 4096 + i) =
        some (m.mem (pteAt m.mem d (a / 4096) / 4096 * 4096 + i)) := by
  unfold needsCopy at hneed
  simp only [Bool.and_eq_true, Bool.not_eq_true', bne_iff_ne] at hneed
  obtain ⟨⟨⟨hp, hw⟩, hcow⟩, hrefs⟩ := hneed
  have hg : UserPage g := by
    unfold Low at hhigh
    unfold pagesMax at hmax
    unfold UserPage
    omega
  obtain ⟨hlo, hhi⟩ := ha.table
  obtain ⟨hlo', hhi'⟩ := hg.table
  obtain ⟨-, huser⟩ := h.pages d hd _ ha hp
  obtain ⟨hf', huser'⟩ := h.pages d hd g hg hgp
  obtain ⟨-, htw, htu⟩ := h.tables d hd _ hlo hhi (present_dir_of_present hp)
  obtain ⟨htab', -, htu'⟩ := h.tables d hd _ hlo' hhi' (present_dir_of_present hgp)
  have hown : ∀ {x r}, owner x = some r → x ≠ g := by
    rintro x r hx rfl
    exact hhigh (h.owned _ _ hx).1
  obtain ⟨mem1, pmm, hresolve, hword, hpte, hpage⟩ :=
    h.resolveCow_beyond hd hcr3 hwp ha hp hrefs halloc hg hmax hne hgp
  have hlt := cowFlags_lt (pteAt m.mem d (a / 4096))
  -- the second try of the store reaches the new frame
  have hstore : AliOS.userStore { m with mem := mem1, pmm := pmm } a b =
      some { m with mem := Function.update mem1 (g * 4096 + a % 4096) b, pmm := pmm } := by
    unfold AliOS.userStore
    rw [hcr3, walk_eq_pteAt, hpte _ ha, if_pos rfl, if_pos, bind_some]
    · rw [hword _ (by omega), show a / 2 ^ 22 = a / 4096 / 1024 by omega, htw, htu,
        hasFlag_mul_or _ _ (by decide), hasFlag_mul_or _ _ (by decide), hasFlag_or, hasFlag_or,
        hasFlag_and _ (by decide), huser, physOf, frameAddr, mul_or_div hlt]
      simp [hasFlag, pageWrite]
    · rw [hasFlag_mul_or _ _ (by decide), hasFlag_or, hasFlag_and _ (by decide), hp]
      rfl
  have hwrite : AliOS.userWrite m a b =
      some { m with mem := Function.update mem1 (g * 4096 + a % 4096) b, pmm := pmm } := by
    rw [h.userWrite_faults hd hcr3 ha hp (by simp [hw]), h.cowFault_eq hd ha hp,
      if_pos hcow, hresolve, bind_some, hstore]
  refine ⟨_, hwrite, fun i hi => ?_⟩
  have honly := onlyFrame_update mem1 g (show a % 4096 < 4096 from Nat.mod_lt _ (by decide)) b
  generalize Function.update mem1 (g * 4096 + a % 4096) b = mem2 at honly
  have hword2 : ∀ i < 1024, word mem2 d i = word m.mem d i := fun i hi =>
    (word_congr hi (honly d (hown (h.dirs d hd).1))).trans (hword i hi)
  have hpte2 : pteAt mem2 d g = pteAt m.mem d g := by
    have hold := hpte g hg
    rw [if_neg (Ne.symm hne)] at hold
    rw [← hold]
    refine pteAt_congr (word_congr (by omega) (honly d (hown (h.dirs d hd).1))) fun _ => honly _ ?_
    rw [hword _ (by omega)]
    exact hown htab'
  have hbyte : page mem2 (pteAt m.mem d g / 4096) =
      page m.mem (pteAt m.mem d (a / 4096) / 4096) := by
    rw [honly _ (hown hf'), hpage]
  unfold AliOS.userRead
  rw [walk_eq_pteAt, show (g * 4096 + i) / 4096 = g by omega, hpte2, if_pos hgp, bind_some]
  rw [hword2 _ (by omega), show (g * 4096 + i) / 2 ^ 22 = g / 1024 by omega, htu', huser', physOf,
    frameAddr, show (g * 4096 + i) % 4096 = i by omega]
  exact congrArg some (congrFun hbyte ⟨i, hi⟩)

end Beyond

end AliOS
