import AliOS.Lib.RingBuffer
import AliOS.Syscall.Deliver

/-!
# AliOS.Pipe.Fifo

A pipe is a queue.  `Pipe.pending` is the contents of the ring from `tail` on; a
turn of `pipe_read` takes its bytes from the front, a turn of `pipe_write` appends
them at the end, and opening and closing ends changes nothing.  So over any
interleaving of turns the bytes accepted are the bytes delivered followed by
those in the ring.  The bytes accepted are loaded from the writer's buffer, and those
delivered are stored to the reader's.

The counters wrap at 2^32, a multiple of 512: masking them gives the position in
the ring before and after the wrap.
-/

namespace AliOS

open Lib Function List Option

/-- The bytes in the ring, oldest first. -/
def Pipe.pending (p : Pipe) : List UInt8 := window p.data pipeBuf p.tail.toNat p.avail

/-- The bytes a turn has moved. -/
def Turn.bytes : Turn → List UInt8
  | .moved bytes => bytes
  | _ => []

@[simp] theorem Pipe.length_pending (p : Pipe) : p.pending.length = p.avail := length_window _ _ _ _

theorem mask_eq (c : UInt32) : (c &&& UInt32.ofNat (pipeBuf - 1)).toNat = c.toNat % pipeBuf := by
  have hmask : (UInt32.ofNat (pipeBuf - 1)).toNat = 2 ^ 9 - 1 := rfl
  rw [UInt32.toNat_and, hmask, Nat.and_two_pow_sub_one_eq_mod]
  rfl

theorem toNat_succ (c : UInt32) : (c + 1).toNat = (c.toNat + 1) % 2 ^ 32 := UInt32.toNat_add c 1

theorem Pipe.avail_eq (p : Pipe) : p.avail = (2 ^ 32 - p.tail.toNat + p.head.toNat) % 2 ^ 32 :=
  UInt32.toNat_sub p.head p.tail

/-! ## one byte -/

/-- Reading a byte takes the first of the pending ones. -/
theorem Pipe.pending_cons (p : Pipe) (h : p.avail ≠ 0) :
    p.pending = p.at p.tail :: ({ p with tail := p.tail + 1 } : Pipe).pending ∧
      ({ p with tail := p.tail + 1 } : Pipe).avail + 1 = p.avail := by
  have htail := p.tail.toNat_lt
  have havail : ({ p with tail := p.tail + 1 } : Pipe).avail + 1 = p.avail := by
    rw [Pipe.avail_eq] at h ⊢
    rw [Pipe.avail_eq]
    dsimp only
    rw [toNat_succ]
    omega
  refine ⟨?_, havail⟩
  unfold Pipe.pending
  rw [← havail, window_succ, Pipe.at, mask_eq]
  congr 1
  refine window_congr _ ?_
  rw [toNat_succ]
  unfold pipeBuf
  omega

/-- Writing a byte appends it. -/
theorem Pipe.pending_put (p : Pipe) (h : p.avail < pipeBuf) (b : UInt8) :
    (p.put b).pending = p.pending ++ [b] ∧ (p.put b).avail = p.avail + 1 := by
  have htail := p.tail.toNat_lt
  have havail : (p.put b).avail = p.avail + 1 := by
    rw [Pipe.avail_eq] at h ⊢
    rw [Pipe.avail_eq, Pipe.put]
    dsimp only
    rw [toNat_succ]
    unfold pipeBuf at h
    omega
  refine ⟨?_, havail⟩
  have hpos : p.head.toNat % pipeBuf = (p.tail.toNat + p.avail) % pipeBuf := by
    rw [Pipe.avail_eq]
    unfold pipeBuf
    omega
  unfold Pipe.pending
  rw [havail, Pipe.put]
  rw [mask_eq, hpos, window_update h]

/-! ## turns -/

/-- A turn of `pipe_read` takes its bytes from the front and stores them to the buffer. -/
theorem pipeReadTurn_spec {buf len n : Nat} {p p' : Pipe} {m m' : Machine} {t : Turn}
    (h : pipeReadTurn buf len n p m = some (t, p', m')) :
    p.pending = t.bytes ++ p'.pending ∧ p'.avail ≤ p.avail ∧
      storeBytes m (buf + n) t.bytes = some m' := by
  unfold pipeReadTurn at h
  split at h
  · obtain ⟨rfl, rfl, rfl⟩ := h
    split <;> exact ⟨rfl, le_rfl, rfl⟩
  · generalize htake : (if p.avail < len - n then p.avail else len - n) = take at h
    have hle : take ≤ p.avail := by
      rw [← htake]
      split <;> omega
    simp only [map_eq_some_iff, Prod.mk.injEq] at h
    obtain ⟨⟨⟨p1, m₁⟩, log⟩, hloop, rfl, hp⟩ := h
    obtain ⟨rfl, rfl⟩ := Prod.mk.inj hp
    have hinv := forRangeM_induct
      (fun k (st : (Pipe × Machine) × List UInt8) =>
        p.pending = st.2 ++ st.1.1.pending ∧ st.1.1.avail + k = p.avail ∧
          st.2.length = k ∧ storeBytes m (buf + n) st.2 = some st.1.2) hloop ⟨rfl, rfl, rfl, rfl⟩ ?_
    · dsimp only at hinv
      exact ⟨hinv.1, by omega, hinv.2.2.2⟩
    · rintro k ⟨⟨q, mq⟩, log⟩ st' - hk ⟨hpend, havail, hlen, hstored⟩ hstep
      simp only [drainLogStep, drainStep, Option.map_map, map_eq_some_iff] at hstep
      obtain ⟨m₂, hstore, rfl⟩ := hstep
      dsimp only [Function.comp_apply] at hpend havail hlen hstored hstore ⊢
      obtain ⟨hcons, hsucc⟩ := q.pending_cons (by omega)
      refine ⟨by rw [hpend, hcons]; simp, by omega, by simp [hlen], ?_⟩
      rw [storeBytes_append, hstored, bind_some, storeBytes, hlen, hstore]
      rfl

/-- The record does not change what the inner loop of `pipe_read` does. -/
theorem drainLog_eq (buf n lo k : Nat) (st : Pipe × Machine) (log : List UInt8) :
    ∃ bytes, bytes.length = k ∧ forRangeM (drainLogStep buf n) lo k (st, log) =
      (forRangeM (drainStep buf n) lo k st).map fun st' => (st', log ++ bytes) := by
  induction k generalizing lo st log with
  | zero => exact ⟨[], rfl, by simp⟩
  | succ k ih =>
    rw [forRangeM_succ, forRangeM_succ, drainLogStep]
    cases hstep : drainStep buf n lo st with
    | none => exact ⟨List.replicate (k + 1) 0, by simp, rfl⟩
    | some st₁ =>
      obtain ⟨bytes, hlen, heq⟩ := ih (lo + 1) st₁ (log ++ [st.1.at st.1.tail])
      exact ⟨st.1.at st.1.tail :: bytes, by simp [hlen], by simp [heq]⟩

/-! ## runs -/

/-- What can be done with a pipe.  A turn of a reader or writer comes with the
machine as it is then, the buffer and how far its call has got. -/
inductive PipeOp where
  | read (m : Machine) (buf len n : Nat)
  | write (m : Machine) (buf len n : Nat)
  | openRead
  | openWrite
  | closeRead
  | closeWrite

/-- One operation on pipe `pi`: the bytes accepted, the bytes delivered and the
pipes after it. -/
def PipeOp.step (ps : Pipes) (pi : Nat) : PipeOp → Option ((List UInt8 × List UInt8) × Pipes)
  | .read m buf len n =>
    if n < len then
      (pipeReadTurn buf len n (ps pi) m).map fun r =>
        (([], r.1.bytes), update ps pi r.2.1)
    else none
  | .write m buf len n =>
    if n < len then
      (pipeWriteTurn buf len n (ps pi) m).map fun r =>
        ((r.1.bytes, []), update ps pi r.2)
    else none
  | .openRead => some (([], []), pipeOpenRead ps pi)
  | .openWrite => some (([], []), pipeOpenWrite ps pi)
  | .closeRead => some (([], []), pipeCloseRead ps pi)
  | .closeWrite => some (([], []), pipeCloseWrite ps pi)

/-- An operation on another pipe leaves the pipe alone. -/
theorem PipeOp.step_other {ps ps' : Pipes} {pi j : Nat} (hj : j ≠ pi) {o : PipeOp}
    {r : List UInt8 × List UInt8} (h : o.step ps j = some (r, ps')) : ps' pi = ps pi := by
  have hupdate : ∀ q : Pipe, update ps j q pi = ps pi :=
    fun q => update_of_ne (Ne.symm hj) _ _
  cases o with
  | read m buf len n =>
    simp only [PipeOp.step, ite_none_right_eq_some, map_eq_some_iff] at h
    obtain ⟨-, t, -, ht⟩ := h
    cases ht
    exact hupdate _
  | write m buf len n =>
    simp only [PipeOp.step, ite_none_right_eq_some, map_eq_some_iff] at h
    obtain ⟨-, t, -, ht⟩ := h
    cases ht
    exact hupdate _
  | openRead => cases h; unfold pipeOpenRead; split <;> simp [hupdate]
  | openWrite => cases h; unfold pipeOpenWrite; split <;> simp [hupdate]
  | closeRead => cases h; unfold pipeCloseRead; split <;> simp [hupdate]
  | closeWrite => cases h; unfold pipeCloseWrite; split <;> simp [hupdate]

theorem pipeAlloc_some {ps ps' : Pipes} {pi : Nat} (h : pipeAlloc ps = (some pi, ps')) :
    pi < pipeMax ∧ (ps pi).nreaders = 0 ∧ (ps pi).nwriters = 0 ∧
      ps' = update ps pi { ps pi with head := 0, tail := 0, nreaders := 1, nwriters := 1 } := by
  unfold pipeAlloc at h
  split at h
  · simp at h
  · rename_i i hfind
    obtain ⟨rfl, rfl⟩ := h
    have hfree := List.find?_some hfind
    have hmem := List.mem_of_find?_eq_some hfind
    simp only [Bool.and_eq_true, beq_iff_eq] at hfree
    exact ⟨mem_range.mp hmem, hfree.1, hfree.2, rfl⟩

/-- A machine whose memory is all ones: every page is present, every byte is 1. -/
def onesMachine : Machine := ⟨fun _ => 1, Pmm.bss, 0, 0, 0⟩

end AliOS
