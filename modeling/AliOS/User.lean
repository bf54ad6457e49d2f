import AliOS.Lib.Lines
import AliOS.Shell.Script

/-!
# AliOS.User

What the programs in `user/` have in common (`user/user.h`): the input, read in pieces of any
size, and what is written to the standard output.  Programs either collect their input in
`ibuf`, up to 4095 bytes, or go through it in chunks of 256; how `read` cuts it makes no
difference.
-/

namespace AliOS

open Lib List

/-! ## read -/

/-- The bytes to come, and the number of bytes that each of the next calls of `read` delivers:
at least one, and as many as there is room for when no more numbers are given. -/
structure Input where
  bytes : List UInt8
  sizes : List Nat

/-- `read(fd, buf, len)`. -/
def Input.read (inp : Input) (len : Nat) : List UInt8 × Input :=
  let n := min len (max 1 (inp.sizes.headD len))
  (inp.bytes.take n, ⟨inp.bytes.drop n, inp.sizes.tail⟩)

theorem Input.read_append (inp : Input) (len : Nat) :
    (inp.read len).1 ++ (inp.read len).2.bytes = inp.bytes :=
  take_append_drop _ _

theorem Input.length_read_le (inp : Input) (len : Nat) : (inp.read len).1.length ≤ len := by
  simp [Input.read]

theorem Input.read_eq_nil {inp : Input} {len : Nat} (hlen : 0 < len) (h : (inp.read len).1 = []) :
    inp.bytes = [] := by
  rcases take_eq_nil_iff.mp h with hzero | hnil
  · omega
  · exact hnil

/-- `while (total < cap && (n = read(fd, ibuf + total, cap - total)) > 0) total += n;` -/
def readAll (cap : Nat) (ibuf : List UInt8) (inp : Input) : List UInt8 :=
  if _h : ibuf.length < cap ∧ (inp.read (cap - ibuf.length)).1 ≠ [] then
    readAll cap (ibuf ++ (inp.read (cap - ibuf.length)).1) (inp.read (cap - ibuf.length)).2
  else ibuf
termination_by cap - ibuf.length
decreasing_by
  have := length_pos_iff.mpr _h.2
  simp
  omega

theorem readAll_eq {cap : Nat} {ibuf : List UInt8} (inp : Input) (h : ibuf.length ≤ cap) :
    readAll cap ibuf inp = (ibuf ++ inp.bytes).take cap := by
  fun_induction readAll cap ibuf inp with
  | case1 ibuf inp hgo ih =>
    have hle := inp.length_read_le (cap - ibuf.length)
    rw [ih (by simp; omega), append_assoc, inp.read_append]
  | case2 ibuf inp hstop =>
    by_cases hfull : ibuf.length < cap
    · have hnil := Input.read_eq_nil (by omega) (not_not.mp fun hne => hstop ⟨hfull, hne⟩)
      rw [hnil, append_nil, List.take_of_length_le h]
    · rw [take_left' (by omega)]

theorem readAll_of_le {cap : Nat} {inp : Input} (h : inp.bytes.length ≤ cap) :
    readAll cap [] inp = inp.bytes := by
  rw [readAll_eq inp (Nat.zero_le _), nil_append, List.take_of_length_le h]

/-- The loop that refills `rbuf` and takes one character after the other. -/
def eachByte {σ : Type} (f : σ → UInt8 → σ) (st : σ) (inp : Input) : σ :=
  if _h : (inp.read 256).1 ≠ [] then eachByte f ((inp.read 256).1.foldl f st) (inp.read 256).2
    else st
termination_by inp.bytes.length
decreasing_by
  have happ := congrArg List.length (inp.read_append 256)
  have := length_pos_iff.mpr _h
  simp at happ
  omega

theorem eachByte_eq {σ : Type} (f : σ → UInt8 → σ) (st : σ) (inp : Input) :
    eachByte f st inp = inp.bytes.foldl f st := by
  fun_induction eachByte f st inp with
  | case1 st inp _ ih => rw [ih, ← foldl_append, inp.read_append]
  | case2 st inp hstop =>
    rw [Input.read_eq_nil (by decide) (not_not.mp hstop)]
    rfl

/-! ## arguments and output -/

/-- What a program has written to the standard output, and its exit code. -/
structure Ran where
  out : List UInt8
  code : Nat
deriving DecidableEq

def text (s : String) : List UInt8 := (CStr.ascii s).chars

/-- The complaint about a file. -/
def cannotOpen (prog : String) (name : Option CStr) : List UInt8 :=
  text (prog ++ ": cannot open '") ++ name.elim [] CStr.chars ++ text "'\n"

/-- The bytes that `puts` writes for the string in a buffer. -/
def putsBuf (buf : List UInt8) : List UInt8 := (CStr.ofBytes buf).chars

/-- The file that is opened, or the standard input if none is named. -/
def inputOf (files : CStr → Option Input) (stdin : Input) (name : Option CStr) : Option Input :=
  match name with
  | none => some stdin
  | some name => files name

def isDigit (c : UInt8) : Bool := 48 ≤ c && c ≤ 57

/-- The number that a string begins with. -/
def numeral (p : CStr) : Nat :=
  (p.chars.takeWhile isDigit).foldl (fun n c => n * 10 + (c.toNat - 48)) 0

/-- `while (*p >= '0' && *p <= '9') n = n * 10 + (*p++ - '0');`, with an `int`.  Overflow is
undefined in C: `ub` is what the program goes on with then. -/
def parseInt (ub : CStr → Int) (p : CStr) : Int := if numeral p < 2 ^ 31 then numeral p else ub p

abbrev textLines (s : List UInt8) : List (List UInt8) := lines (· == newline) s

end AliOS
