import AliOS.Paging

/-!
# AliOS.Pipe

Kernel pipes (`kernel/pipe.c`): a static pool of ring buffers.  `head` and
`tail` are 32-bit counters that only grow and are masked on use, so their
difference, modulo 2^32, is the number of bytes in the buffer.

`pipe_read` stores into the caller's buffer through the page tables, like every
access of the kernel; `none` is a page fault it does not survive.  It is
followed until it returns or gives up the processor, from where it goes on with
the bytes it has delivered so far.
-/

namespace AliOS

open Lib Function

def pipeMax : Nat := 8
def pipeBuf : Nat := 512

/-- `pipe_t`. -/
structure Pipe where
  data : Bytes
  head : UInt32
  tail : UInt32
  nreaders : Nat
  nwriters : Nat

/-- `pipes[]`. -/
abbrev Pipes := Nat → Pipe

/-- `head - tail`: the bytes in the buffer. -/
def Pipe.avail (p : Pipe) : Nat := (p.head - p.tail).toNat

/-- `data[c & (PIPE_BUF - 1)]`. -/
def Pipe.at (p : Pipe) (c : UInt32) : UInt8 := p.data (c &&& UInt32.ofNat (pipeBuf - 1)).toNat

/-! ## reference counts -/

/-- `pipe_alloc`; `none` is the return value -1. -/
def pipeAlloc (ps : Pipes) : Option Nat × Pipes :=
  match (List.range pipeMax).find? fun i => (ps i).nreaders == 0 && (ps i).nwriters == 0 with
  | none => (none, ps)
  | some i => (some i, update ps i { ps i with head := 0, tail := 0, nreaders := 1, nwriters := 1 })

def pipeCloseRead (ps : Pipes) (pi : Nat) : Pipes :=
  if pi < pipeMax ∧ (ps pi).nreaders > 0 then
    update ps pi { ps pi with nreaders := (ps pi).nreaders - 1 }
  else ps

def pipeCloseWrite (ps : Pipes) (pi : Nat) : Pipes :=
  if pi < pipeMax ∧ (ps pi).nwriters > 0 then
    update ps pi { ps pi with nwriters := (ps pi).nwriters - 1 }
  else ps

def pipeOpenRead (ps : Pipes) (pi : Nat) : Pipes :=
  if pi < pipeMax then update ps pi { ps pi with nreaders := (ps pi).nreaders + 1 } else ps

def pipeOpenWrite (ps : Pipes) (pi : Nat) : Pipes :=
  if pi < pipeMax then update ps pi { ps pi with nwriters := (ps pi).nwriters + 1 } else ps

/-! ## reading -/

/-- The inner loop of `pipe_read` after `n` bytes: the byte at `tail` goes to
`buf[n + k]`. -/
def drainStep (buf n k : Nat) (st : Pipe × Machine) : Option (Pipe × Machine) :=
  (kstore8 st.2 ((buf + n + k) % 2 ^ 32) (st.1.at st.1.tail)).map fun m =>
    ({ st.1 with tail := st.1.tail + 1 }, m)

/-- `pipe_read` with `n` bytes delivered.  The result is the number of bytes
delivered and whether the call has returned; otherwise it has yielded. -/
def pipeRead (buf len n : Nat) (p : Pipe) (m : Machine) : Option ((Nat × Bool) × Pipe × Machine) :=
  if _h : n < len then
    if _h' : p.avail = 0 then
      -- without writers this is the end of the data, otherwise they get a turn
      some ((n, p.nwriters == 0), p, m)
    else
      let take := if p.avail < len - n then p.avail else len - n
      (forRangeM (drainStep buf n) 0 take (p, m)).bind fun st =>
        pipeRead buf len (n + take) st.1 st.2
  else some ((n, true), p, m)
termination_by len - n
decreasing_by
  split <;> omega

/-! ## turns

The loops of `pipe_read` and `pipe_write` run with interrupts disabled from one
end of an iteration to the other: a turn is such an iteration.  Between two turns
anything may happen to the pipe. -/

/-- How a turn ends: with these bytes moved, in this order, without data or space,
or without anyone at the other end. -/
inductive Turn where
  | moved (bytes : List UInt8)
  | yielded
  | stopped

/-- The inner loop of `pipe_read` with a record of the bytes it stores. -/
def drainLogStep (buf n k : Nat) (st : (Pipe × Machine) × List UInt8) :
    Option ((Pipe × Machine) × List UInt8) :=
  (drainStep buf n k st.1).map fun pm => (pm, st.2 ++ [st.1.1.at st.1.1.tail])

/-- A turn of `pipe_read` with `n` of `len` bytes delivered. -/
def pipeReadTurn (buf len n : Nat) (p : Pipe) (m : Machine) : Option (Turn × Pipe × Machine) :=
  if p.avail = 0 then some (if p.nwriters = 0 then .stopped else .yielded, p, m)
  else
    let take := if p.avail < len - n then p.avail else len - n
    (forRangeM (drainLogStep buf n) 0 take ((p, m), [])).map fun st => (.moved st.2, st.1)

/-- `data[head & (PIPE_BUF - 1)] = b; head++`. -/
def Pipe.put (p : Pipe) (b : UInt8) : Pipe :=
  { p with data := update p.data (p.head &&& UInt32.ofNat (pipeBuf - 1)).toNat b,
           head := p.head + 1 }

/-- `PIPE_BUF - avail`. -/
def Pipe.space (p : Pipe) : Nat := (UInt32.ofNat pipeBuf - (p.head - p.tail)).toNat

/-- The inner loop of `pipe_write` after `n` bytes: `buf[n + k]` goes into the
buffer.  The list records the bytes taken. -/
def fillStep (m : Machine) (buf n k : Nat) (st : Pipe × List UInt8) : Option (Pipe × List UInt8) :=
  (kload8 m ((buf + n + k) % 2 ^ 32)).map fun b => (st.1.put b, st.2 ++ [b])

/-- A turn of `pipe_write` with `n` of `len` bytes accepted. -/
def pipeWriteTurn (buf len n : Nat) (p : Pipe) (m : Machine) : Option (Turn × Pipe) :=
  if p.nreaders = 0 then some (.stopped, p)
  else if p.space = 0 then some (.yielded, p)
  else
    let put := if p.space < len - n then p.space else len - n
    (forRangeM (fillStep m buf n) 0 put (p, [])).map fun st => (.moved st.2, st.1)

end AliOS
