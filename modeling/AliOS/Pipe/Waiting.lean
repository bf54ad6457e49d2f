import Mathlib.Logic.Relation
import AliOS.System.EndCount

/-!
# AliOS.Pipe.Waiting

When `pipe_read` waits.  Its header promises what `read` does elsewhere: it waits until
there is something to read, and returns what there is.  The loop goes on until it has all
`len` bytes, though.  After a short read it finds the pipe empty and, as long as somebody
has a write end, waits again.

A call is followed turn by turn.  Between two turns the other parties may do anything that
the ends they hold allow: an end is opened by duplicating one, and only who has a write
end writes.
-/

namespace AliOS

open Lib Function List Option

/-! ## calls -/

/-- What a party can do that has an end of the kind it takes. -/
def PipeOp.Possible (p : Pipe) : PipeOp → Prop
  | .read .. | .openRead | .closeRead => 0 < p.nreaders
  | .write .. | .openWrite | .closeWrite => 0 < p.nwriters

/-- A step of another party.  Pipe `pi` is not allocated again: the reader has an end. -/
inductive OtherStep (pi : Nat) (ps : Pipes) : Pipes → Prop where
  | op {ps' : Pipes} {r : List UInt8 × List UInt8} (j : Nat) (o : PipeOp) :
      o.Possible (ps j) → o.step ps j = some (r, ps') → OtherStep pi ps ps'
  | alloc {ps' : Pipes} (j : Nat) : j ≠ pi → pipeAlloc ps = (some j, ps') → OtherStep pi ps ps'

/-- Any steps of the other parties. -/
abbrev Others (pi : Nat) : Pipes → Pipes → Prop := Relation.ReflTransGen (OtherStep pi)

/-- A call of `pipe_read` that finds the pipes `ps₀`: the pipes before its next turn, the
bytes it has got, and how many it had each time it yielded. -/
inductive PipeReadRun (pi buf len : Nat) (ps₀ : Pipes) : Pipes → Nat → List Nat → Prop where
  | start : PipeReadRun pi buf len ps₀ ps₀ 0 []
  | moved {ps ps' : Pipes} {n : Nat} {yields : List Nat} {bytes : List UInt8} {p : Pipe}
      {m m' : Machine} :
      PipeReadRun pi buf len ps₀ ps n yields → n < len →
      pipeReadTurn buf len n (ps pi) m = some (.moved bytes, p, m') →
      Others pi (update ps pi p) ps' → PipeReadRun pi buf len ps₀ ps' (n + bytes.length) yields
  | yielded {ps ps' : Pipes} {n : Nat} {yields : List Nat} {p : Pipe} {m m' : Machine} :
      PipeReadRun pi buf len ps₀ ps n yields → n < len →
      pipeReadTurn buf len n (ps pi) m = some (.yielded, p, m') →
      Others pi (update ps pi p) ps' → PipeReadRun pi buf len ps₀ ps' n (n :: yields)

/-- The call returns: it has all bytes, or finds the end of the data. -/
def PipeReadReturns (buf len n : Nat) (p : Pipe) (m : Machine) : Prop :=
  n = len ∨ n < len ∧ ∃ r, pipeReadTurn buf len n p m = some (.stopped, r)

/-- Read-up-to: the call yields only as long as it has nothing, takes what there is, and
returns nothing only at the end of the data. -/
structure ReadsUpTo (pi buf len : Nat) (ps₀ : Pipes) : Prop where
  waits : ∀ ps n yields, PipeReadRun pi buf len ps₀ ps n yields → ∀ k ∈ yields, k = 0
  takes : ∀ ps n yields, PipeReadRun pi buf len ps₀ ps n yields → n < len → (ps pi).avail ≠ 0 →
    ∀ m r, pipeReadTurn buf len n (ps pi) m = some r →
      ∃ bytes, r.1 = .moved bytes ∧ 1 ≤ bytes.length ∧ n + bytes.length ≤ len
  returns : ∀ ps n yields m, PipeReadRun pi buf len ps₀ ps n yields →
    PipeReadReturns buf len n (ps pi) m →
    n ≤ len ∧ (n = 0 → 0 < len → (ps pi).avail = 0 ∧ (ps pi).nwriters = 0)

section

variable {pi buf len n : Nat} {ps ps' ps₀ : Pipes} {p p' : Pipe} {m m' : Machine} {t : Turn}
  {yields : List Nat}

/-! ## turns -/

/-- What a turn of `pipe_read` does. -/
theorem pipeReadTurn_cases (h : pipeReadTurn buf len n p m = some (t, p', m')) :
    (p.avail = 0 ∧ p' = p ∧ (p.nwriters = 0 ∧ t = .stopped ∨ p.nwriters ≠ 0 ∧ t = .yielded)) ∨
    p.avail ≠ 0 ∧ ∃ bytes, t = .moved bytes ∧ bytes.length = min p.avail (len - n) ∧
      p'.avail + bytes.length = p.avail ∧ p'.nreaders = p.nreaders ∧ p'.nwriters = p.nwriters := by
  have hspec := pipeReadTurn_spec h
  have hreaders : p'.nreaders = p.nreaders := pipeReadTurn_count h false
  have hwriters : p'.nwriters = p.nwriters := pipeReadTurn_count h true
  unfold pipeReadTurn at h
  split at h
  · rename_i h0
    obtain ⟨ht, hp⟩ := Prod.mk.inj (some.inj h)
    refine .inl ⟨h0, (Prod.mk.inj hp).1.symm, ?_⟩
    by_cases hw : p.nwriters = 0
    · exact .inl ⟨hw, by rw [← ht, if_pos hw]⟩
    · exact .inr ⟨hw, by rw [← ht, if_neg hw]⟩
  · rename_i h0
    have htake : (if p.avail < len - n then p.avail else len - n) = min p.avail (len - n) := by
      split <;> omega
    obtain ⟨log, hlen, heq⟩ :=
      drainLog_eq buf n 0 (if p.avail < len - n then p.avail else len - n) (p, m) []
    dsimp only at h
    rw [heq, Option.map_map] at h
    obtain ⟨st, -, hst⟩ := map_eq_some_iff.mp h
    obtain ⟨rfl, -⟩ := Prod.mk.inj hst
    refine .inr ⟨h0, log, by simp, by rw [hlen, htake], ?_, hreaders, hwriters⟩
    have hlens := congrArg List.length hspec.1
    simp only [nil_append, Turn.bytes, length_append, Pipe.length_pending] at hlens
    omega

/-! ## the other parties -/

/-- Without writers nothing is written, and nobody becomes a writer. -/
theorem PipeOp.step_no_writers {o : PipeOp} {r : List UInt8 × List UInt8}
    (hposs : o.Possible (ps pi))
    (h0 : (ps pi).nwriters = 0) (hstep : o.step ps pi = some (r, ps')) : (ps' pi).nwriters = 0 := by
  cases o with
  | read m buf len n =>
    simp only [PipeOp.step, ite_none_right_eq_some, map_eq_some_iff] at hstep
    obtain ⟨-, ⟨t, p', m'⟩, hturn, hr⟩ := hstep
    obtain ⟨-, rfl⟩ := Prod.mk.inj hr
    have hcount : p'.nwriters = (ps pi).nwriters := pipeReadTurn_count hturn true
    rw [update_self, hcount, h0]
  | write m buf len n => exact absurd hposs (by simp [Possible, h0])
  | openRead =>
    obtain rfl := (Prod.mk.inj (some.inj hstep)).2
    unfold pipeOpenRead
    split <;> simp [h0]
  | openWrite => exact absurd hposs (by simp [Possible, h0])
  | closeRead =>
    obtain rfl := (Prod.mk.inj (some.inj hstep)).2
    unfold pipeCloseRead
    split <;> simp [h0]
  | closeWrite => exact absurd hposs (by simp [Possible, h0])

/-- Without readers an empty pipe stays empty, and nobody becomes a reader. -/
theorem PipeOp.step_no_readers {o : PipeOp} {r : List UInt8 × List UInt8}
    (hposs : o.Possible (ps pi))
    (h0 : (ps pi).nreaders = 0) (hempty : (ps pi).avail = 0)
    (hstep : o.step ps pi = some (r, ps')) :
    (ps' pi).nreaders = 0 ∧ (ps' pi).avail = 0 := by
  cases o with
  | read m buf len n => exact absurd hposs (by simp [Possible, h0])
  | write m buf len n =>
    simp only [PipeOp.step, pipeWriteTurn, if_pos h0, ite_none_right_eq_some, map_some,
      some.injEq, Prod.mk.injEq] at hstep
    obtain ⟨-, -, rfl⟩ := hstep
    rw [update_self]
    exact ⟨h0, hempty⟩
  | openRead => exact absurd hposs (by simp [Possible, h0])
  | openWrite =>
    obtain rfl := (Prod.mk.inj (some.inj hstep)).2
    unfold pipeOpenWrite
    split
    · rw [update_self]
      exact ⟨h0, hempty⟩
    · exact ⟨h0, hempty⟩
  | closeRead => exact absurd hposs (by simp [Possible, h0])
  | closeWrite =>
    obtain rfl := (Prod.mk.inj (some.inj hstep)).2
    unfold pipeCloseWrite
    split
    · rw [update_self]
      exact ⟨h0, hempty⟩
    · exact ⟨h0, hempty⟩

/-- What the operations on pipe `pi` keep, the other parties keep. -/
theorem Others.keep {I : Pipe → Prop} (h : Others pi ps ps') (hI : I (ps pi))
    (hop : ∀ {qs qs' : Pipes} {o : PipeOp} {r : List UInt8 × List UInt8}, o.Possible (qs pi) →
      I (qs pi) →
      o.step qs pi = some (r, qs') → I (qs' pi)) : I (ps' pi) := by
  induction h with
  | refl => exact hI
  | tail _ hstep ih =>
    cases hstep with
    | op j o hposs hstep =>
      by_cases hj : j = pi
      · subst hj
        exact hop hposs ih hstep
      · rwa [PipeOp.step_other hj hstep]
    | alloc j hj halloc =>
      obtain ⟨-, -, -, rfl⟩ := pipeAlloc_some halloc
      rwa [update_of_ne (Ne.symm hj)]

/-! ## calls that wait no more than they should -/

/-- Asked for one byte, the call has nothing when it yields. -/
theorem PipeReadRun.waits_one (hlen : len ≤ 1) (hrun : PipeReadRun pi buf len ps₀ ps n yields) :
    ∀ k ∈ yields, k = 0 := by
  induction hrun with
  | start => simp
  | moved _ _ _ _ ih => exact ih
  | yielded _ hn _ _ ih => exact forall_mem_cons.mpr ⟨by omega, ih⟩

/-- With enough data the first turn is the last. -/
theorem PipeReadRun.waits_filled (hlen : len ≤ (ps₀ pi).avail)
    (hrun : PipeReadRun pi buf len ps₀ ps n yields) :
    yields = [] ∧ (n = len ∨ n = 0 ∧ ps = ps₀) := by
  induction hrun with
  | start => exact ⟨rfl, .inr ⟨rfl, rfl⟩⟩
  | moved _ hn hturn _ ih =>
    obtain ⟨rfl, rfl | ⟨rfl, rfl⟩⟩ := ih
    · omega
    · obtain ⟨h0, -, -⟩ | ⟨-, bytes, ht, hcount, -⟩ := pipeReadTurn_cases hturn
      · omega
      · obtain rfl := Turn.moved.inj ht
        exact ⟨rfl, .inl (by omega)⟩
  | yielded _ hn hturn _ ih =>
    obtain ⟨rfl, rfl | ⟨rfl, rfl⟩⟩ := ih
    · omega
    · obtain ⟨h0, -, -⟩ | ⟨-, bytes, ht, -⟩ := pipeReadTurn_cases hturn
      · omega
      · exact nomatch ht

/-- Without writers it never waits. -/
theorem PipeReadRun.waits_closed (h0 : (ps₀ pi).nwriters = 0)
    (hrun : PipeReadRun pi buf len ps₀ ps n yields) :
    yields = [] ∧ (ps pi).nwriters = 0 := by
  induction hrun with
  | start => exact ⟨rfl, h0⟩
  | moved _ _ hturn hothers ih =>
    obtain ⟨rfl, hw⟩ := ih
    refine ⟨rfl, Others.keep (I := fun p => p.nwriters = 0) hothers ?_ PipeOp.step_no_writers⟩
    rw [update_self]
    exact (pipeReadTurn_count hturn true).trans hw
  | yielded _ _ hturn _ ih =>
    obtain ⟨-, -, ⟨-, ht⟩ | ⟨hw, -⟩⟩ | ⟨-, bytes, ht, -⟩ := pipeReadTurn_cases hturn
    · exact nomatch ht
    · exact absurd ih.2 hw
    · exact nomatch ht

/-- In an empty pipe that nobody can write to, it waits for ever. -/
theorem PipeReadRun.waits_deserted (hr : (ps₀ pi).nreaders = 0) (hempty : (ps₀ pi).avail = 0)
    (hrun : PipeReadRun pi buf len ps₀ ps n yields) :
    (∀ k ∈ yields, k = 0) ∧ n = 0 ∧ (ps pi).nreaders = 0 ∧ (ps pi).avail = 0 := by
  induction hrun with
  | start => exact ⟨by simp, rfl, hr, hempty⟩
  | moved _ _ hturn _ ih =>
    obtain ⟨-, -, -, h0⟩ := ih
    obtain ⟨-, -, ⟨-, ht⟩ | ⟨-, ht⟩⟩ | ⟨hne, -⟩ := pipeReadTurn_cases hturn
    · exact nomatch ht
    · exact nomatch ht
    · exact absurd h0 hne
  | yielded _ _ hturn hothers ih =>
    obtain ⟨hyields, rfl, hr', h0⟩ := ih
    refine ⟨forall_mem_cons.mpr ⟨rfl, hyields⟩, rfl,
      Others.keep (I := fun p => p.nreaders = 0 ∧ p.avail = 0) hothers ?_ fun hposs hI hstep =>
        PipeOp.step_no_readers hposs hI.1 hI.2 hstep⟩
    obtain ⟨-, rfl, -⟩ | ⟨hne, -⟩ := pipeReadTurn_cases hturn
    · rw [update_self]
      exact ⟨hr', h0⟩
    · exact absurd h0 hne

/-! ## calls that wait with data -/

/-- A machine on which the kernel can store everywhere: the directory at 0 maps all pages
through the table at 0x1000 to the frame at 0x2000. -/
def openMem (a : Nat) : UInt8 :=
  if a % 4 = 0 then 7 else if a % 4 = 1 then (if a < 4096 then 0x10 else 0x20) else 0

/-- The tables of `openMem` are in memory. -/
def Machine.Open (m : Machine) : Prop := m.cr3 = 0 ∧ ∀ a < 8192, m.mem a = openMem a

def openMachine : Machine := ⟨openMem, Pmm.bss, 0, 0, 0⟩

theorem load32_open (hm : m.Open) {i : Nat} (hi : i < 1024) :
    load32 m.mem (4 * i) = 0x1007 ∧ load32 m.mem (0x1000 + 4 * i) = 0x2007 := by
  have hbyte : ∀ k < 4, m.mem (4 * i + k) = openMem k := by
    intro k hk
    rw [hm.2 _ (by omega)]
    unfold openMem
    rw [show (4 * i + k) % 4 = k % 4 by omega, if_pos (show 4 * i + k < 4096 by omega),
      if_pos (show k < 4096 by omega)]
  have hbyte' : ∀ k < 4, m.mem (0x1000 + 4 * i + k) = openMem (0x1000 + k) := by
    intro k hk
    rw [hm.2 _ (by omega)]
    unfold openMem
    rw [show (0x1000 + 4 * i + k) % 4 = (0x1000 + k) % 4 by omega,
      if_neg (show ¬0x1000 + 4 * i + k < 4096 by omega), if_neg (show ¬0x1000 + k < 4096 by omega)]
  constructor
  · have h0 := hbyte 0 (by omega)
    rw [Nat.add_zero] at h0
    rw [load32, h0, hbyte 1 (by omega), hbyte 2 (by omega), hbyte 3 (by omega)]
    rfl
  · have h0 := hbyte' 0 (by omega)
    rw [Nat.add_zero] at h0
    rw [load32, h0, hbyte' 1 (by omega), hbyte' 2 (by omega), hbyte' 3 (by omega)]
    rfl

theorem kstore8_open (hm : m.Open) {v : Nat} (hv : v < 2 ^ 32) (b : UInt8) :
    ∃ m', kstore8 m v b = some m' ∧ m'.Open := by
  have hwalk : walk m.mem m.cr3 v = some (0x1007, 0x2007) := by
    have hpde := (load32_open hm (show v / 2 ^ 22 < 1024 by omega)).1
    have hpte := (load32_open hm (Nat.mod_lt (v / 2 ^ 12) (show 1024 > 0 by decide))).2
    have hframe : frameAddr 0x1007 = 0x1000 := by decide
    rw [walk, hm.1, Nat.zero_add, hpde]
    rw [if_pos (by decide), hframe, hpte, if_pos (by decide)]
  have hwrite : m.kwrite v = some (0x2000 + v % 4096) := by
    have hflags : (hasFlag 0x1007 pageWrite && hasFlag 0x2007 pageWrite) := by decide
    have hframe : frameAddr 0x2007 = 0x2000 := by decide
    rw [Machine.kwrite, hwalk, bind_some]
    rw [hflags, physOf, hframe]
    simp
  refine ⟨{ m with mem := update m.mem (0x2000 + v % 4096) b }, by rw [kstore8, hwrite]; rfl, hm.1,
    fun a ha => ?_⟩
  exact (update_of_ne (by omega) _ _).trans (hm.2 a ha)

/-- There all bytes can be delivered. -/
theorem drain_open (buf n lo k : Nat) (hm : m.Open) (log : List UInt8) :
    ∃ st, forRangeM (drainLogStep buf n) lo k ((p, m), log) = some st := by
  induction k generalizing lo p m log with
  | zero => exact ⟨_, rfl⟩
  | succ k ih =>
    obtain ⟨m', hstore, hm'⟩ :=
      kstore8_open hm (Nat.mod_lt (buf + n + lo) (show 2 ^ 32 > 0 by decide)) (p.at p.tail)
    rw [forRangeM_succ, drainLogStep, drainStep, hstore]
    exact ih (lo + 1) hm' _

/-- A turn of a reader with room for more than there is. -/
theorem exists_moved (buf : Nat) (hne : p.avail ≠ 0) (hlt : p.avail < len - n) :
    ∃ bytes p' m', pipeReadTurn buf len n p openMachine = some (.moved bytes, p', m') ∧
      bytes.length = p.avail ∧
      p'.avail = 0 ∧ p'.nwriters = p.nwriters := by
  have hopen : openMachine.Open := ⟨rfl, fun _ _ => rfl⟩
  obtain ⟨st, hst⟩ := drain_open (p := p) buf n 0 p.avail hopen []
  have hturn : pipeReadTurn buf len n p openMachine = some (.moved st.2, st.1) := by
    unfold pipeReadTurn
    rw [if_neg hne]
    dsimp only
    rw [if_pos hlt, hst]
    rfl
  obtain ⟨h0, -⟩ | ⟨-, bytes, ht, hlen, havail, -, hw⟩ := pipeReadTurn_cases hturn
  · exact absurd h0 hne
  · obtain rfl := Turn.moved.inj ht
    exact ⟨_, _, _, hturn, by omega, by omega, hw⟩

theorem pipeReadTurn_yields (h0 : p.avail = 0) (hw : p.nwriters ≠ 0) :
    pipeReadTurn buf len n p m = some (.yielded, p, m) := by
  rw [pipeReadTurn, if_pos h0, if_neg hw]

/-- Another party writes a byte into an empty pipe. -/
theorem exists_write (h0 : (ps pi).avail = 0) (hr : (ps pi).nreaders ≠ 0)
    (hw : (ps pi).nwriters ≠ 0) :
    ∃ ps', Others pi ps ps' ∧ (ps' pi).avail = 1 ∧ (ps' pi).nwriters = (ps pi).nwriters := by
  have hspace : (ps pi).space = pipeBuf := by
    have hzero : (ps pi).head - (ps pi).tail = 0 := UInt32.toNat_inj.mp h0
    rw [Pipe.space, hzero]
    rfl
  have hturn : pipeWriteTurn 0 1 0 (ps pi) onesMachine = some (.moved [1], (ps pi).put 1) := by
    have hfill : forRangeM (fillStep onesMachine 0 0) 0 1 (ps pi, []) =
        some ((ps pi).put 1, [1]) := by
      rfl
    unfold pipeWriteTurn
    rw [if_neg hr, hspace, if_neg (by decide)]
    simp [hfill, pipeBuf]
  have hstep : (PipeOp.write onesMachine 0 1 0).step ps pi =
      some (([1], []), update ps pi ((ps pi).put 1)) := by
    rw [PipeOp.step, if_pos (by decide), hturn]
    rfl
  refine ⟨_, .single (.op pi (.write onesMachine 0 1 0) (Nat.pos_of_ne_zero hw) hstep), ?_, ?_⟩
  · rw [update_self, ((ps pi).pending_put (by rw [h0]; decide) 1).2, h0]
  · rw [update_self]
    rfl

/-- The call that gets less than it asked for waits for more while there are writers. -/
theorem exists_wait (buf : Nat) (hlen : 1 < len) (hlt : (ps₀ pi).avail < len)
    (hw : (ps₀ pi).nwriters ≠ 0) (hdata : (ps₀ pi).nreaders ≠ 0 ∨ (ps₀ pi).avail ≠ 0) :
    ∃ ps n, ∃ k > 0, ∃ yields, PipeReadRun pi buf len ps₀ ps n (k :: yields) := by
  -- a turn that empties the pipe, and the next one
  have hwait : ∀ {ps n yields}, PipeReadRun pi buf len ps₀ ps n yields → n < len →
      (ps pi).avail ≠ 0 →
      (ps pi).avail < len - n → (ps pi).nwriters ≠ 0 →
      ∃ ps n, ∃ k > 0, ∃ yields, PipeReadRun pi buf len ps₀ ps n (k :: yields) := by
    intro ps n yields hrun hn hne hlt' hw'
    obtain ⟨bytes, p', m', hturn, hbytes, h0, hcount⟩ := exists_moved buf hne hlt'
    have hmoved := hrun.moved hn hturn .refl
    have hyields : pipeReadTurn buf len (n + bytes.length) (update ps pi p' pi) m' =
        some (.yielded, p', m') := by
      rw [update_self]
      exact pipeReadTurn_yields h0 (hcount ▸ hw')
    exact ⟨_, _, n + bytes.length, by omega, _, hmoved.yielded (by omega) hyields .refl⟩
  by_cases h0 : (ps₀ pi).avail = 0
  · obtain ⟨ps, hothers, hone, hcount⟩ := exists_write h0 (hdata.resolve_right fun hne => hne h0) hw
    have hself : update ps₀ pi (ps₀ pi) = ps₀ := update_eq_self pi ps₀
    have hyield : PipeReadRun pi buf len ps₀ ps 0 [0] :=
      PipeReadRun.start.yielded (m := openMachine) (by omega) (pipeReadTurn_yields h0 hw)
        (by rw [hself]; exact hothers)
    exact hwait hyield (by omega) (by omega) (by omega) (by rw [hcount]; exact hw)
  · exact hwait .start (by omega) h0 (by omega) hw

end

/-- **When `pipe_read` reads up to `len` bytes.**  In every interleaving the call yields only
while it has nothing, takes what there is and returns nothing only at the end of the data,
iff at most one byte is asked for, the pipe holds all of them when the call begins, no
write end is open then, or nothing can ever be written. -/
theorem pipeRead_upTo_iff (pi buf len : Nat) (ps₀ : Pipes) : ReadsUpTo pi buf len ps₀ ↔
    len ≤ 1 ∨ len ≤ (ps₀ pi).avail ∨ (ps₀ pi).nwriters = 0 ∨ (ps₀ pi).nreaders = 0 ∧
      (ps₀ pi).avail = 0 := by
  constructor
  · intro h
    by_contra hcond
    simp only [not_or, not_and] at hcond
    obtain ⟨hone, hfilled, hw, hdeserted⟩ := hcond
    have hdata : (ps₀ pi).nreaders ≠ 0 ∨ (ps₀ pi).avail ≠ 0 := by
      by_cases hr : (ps₀ pi).nreaders = 0
      · exact .inr (hdeserted hr)
      · exact .inl hr
    obtain ⟨ps, n, k, hk, yields, hrun⟩ :=
      exists_wait buf (show 1 < len by omega) (by omega) hw hdata
    exact absurd (h.waits ps n _ hrun k mem_cons_self) (by omega)
  · intro hcond
    refine ⟨fun ps n yields hrun => ?_, fun ps n yields _ hn hne m r hturn => ?_,
      fun ps n yields m _ hret => ?_⟩
    · rcases hcond with hone | hfilled | hw | ⟨hr, h0⟩
      · exact hrun.waits_one hone
      · simp [(hrun.waits_filled hfilled).1]
      · simp [(hrun.waits_closed hw).1]
      · exact (hrun.waits_deserted hr h0).1
    · obtain ⟨h0, -⟩ | ⟨-, bytes, ht, hlen, -⟩ := pipeReadTurn_cases hturn
      · exact absurd h0 hne
      · exact ⟨bytes, ht, by omega, by omega⟩
    · rcases hret with rfl | ⟨hn, r, hturn⟩
      · exact ⟨le_rfl, fun h0 hpos => by omega⟩
      · obtain ⟨h0, -, ⟨hw, -⟩ | ⟨-, ht⟩⟩ | ⟨-, bytes, ht, -⟩ := pipeReadTurn_cases hturn
        · exact ⟨by omega, fun _ _ => ⟨h0, hw⟩⟩
        · exact nomatch ht
        · exact nomatch ht

/-- Pipes with one byte in each, a reader and a writer. -/
def oneBytePipes : Pipes := fun _ => ⟨fun _ => 1, 1, 0, 1, 1⟩

/-- Asked for two bytes, the call takes the one that is there and waits. -/
theorem pipeRead_waits_with_data :
    (∃ ps n, ∃ k > 0, ∃ yields, PipeReadRun 0 0 2 oneBytePipes ps n (k :: yields)) ∧
      ¬ReadsUpTo 0 0 2 oneBytePipes := by
  have hwait : ∃ ps n, ∃ k > 0, ∃ yields, PipeReadRun 0 0 2 oneBytePipes ps n (k :: yields) :=
    exists_wait 0 (by decide) (by decide) (by decide) (.inl (by decide))
  refine ⟨hwait, fun h => ?_⟩
  obtain ⟨ps, n, k, hk, yields, hrun⟩ := hwait
  exact absurd (h.waits ps n _ hrun k mem_cons_self) (by omega)

end AliOS
