import AliOS.System

/-!
# AliOS.Shell.Redirect

Redirections in the shell (`kernel/shell.c`).  `strip_redirects` overwrites the operators
and file names of a command with spaces and copies the names into two static buffers, which
it clears first; through its pointers it says which of the buffers holds a name.
`redir_setup_write` and `redir_setup_read` put a file in the place of a descriptor of a
task.
-/

namespace AliOS

open Lib List

/-! ## strip_redirects -/

/-- The character ' '. -/
def space : UInt8 := 32

/-- The character '<'. -/
def less : UInt8 := 60

/-- The character '>'. -/
def greater : UInt8 := 62

/-- The operators, as in `op`: 1, 2 and 3. -/
inductive RedirOp where
  | input
  | output
  | append
deriving DecidableEq

/-- The operator at the start of a string. -/
def redirOp : List UInt8 → Option RedirOp
  | [] => none
  | c :: s =>
    if c = greater then if s.head? = some greater then some .append else some .output
    else if c = less then some .input
    else none

def RedirOp.width : RedirOp → Nat
  | .append => 2
  | .input | .output => 1

/-- `*in_f` and `*out_f`, as far as they are not NULL, `*out_append`, and the buffers
`redir_in_buf` and `redir_out_buf`. -/
structure Redirects where
  inFile : Bool
  outFile : Bool
  outAppend : Bool
  inBuf : CStr
  outBuf : CStr

/-- The file name of an operator, cut to 63 characters. -/
def RedirOp.note (op : RedirOp) (name : List UInt8) (r : Redirects) : Redirects :=
  match op with
  | .input => { r with inFile := true, inBuf := CStr.ofBytes (name.take 63) }
  | .output => { r with outFile := true, outAppend := false, outBuf := CStr.ofBytes (name.take 63) }
  | .append => { r with outFile := true, outAppend := true, outBuf := CStr.ofBytes (name.take 63) }

/-- The loop of `strip_redirects`: what is left of the string.  Of a name that is cut the
rest stays where it is. -/
def stripLoop (r : Redirects) (s : List UInt8) : List UInt8 × Redirects :=
  match s with
  | [] => ([], r)
  | c :: s =>
    match redirOp (c :: s) with
    | none =>
      let res := stripLoop r s
      (c :: res.1, res.2)
    | some op =>
      let body := (c :: s).drop op.width
      let file := body.dropWhile (· == space)
      let name := file.takeWhile (· != space)
      let res := stripLoop (if name = [] then r else op.note name r) (file.dropWhile (· != space))
      (List.replicate op.width space ++ body.takeWhile (· == space) ++
        List.replicate (min name.length 63) space ++ name.drop 63 ++ res.1, res.2)
termination_by s.length
decreasing_by
  · simp
  · have hbody : ((c :: s).drop op.width).length < (c :: s).length := by
      rw [length_drop, length_cons]
      cases op <;> dsimp only [RedirOp.width] <;> omega
    have hfile := (dropWhile_suffix (l := (c :: s).drop op.width) (· == space)).length_le
    have hrest := (dropWhile_suffix (l := ((c :: s).drop op.width).dropWhile (· == space))
      (· != space)).length_le
    omega

def emptyStr : CStr := ⟨[], by simp⟩

def stripRedirects (s : List UInt8) : List UInt8 × Redirects :=
  stripLoop ⟨false, false, false, emptyStr, emptyStr⟩ s

/-- `tokenise`: at most `max_tokens` words. -/
def tokenise : Nat → List UInt8 → List (List UInt8)
  | 0, _ => []
  | n + 1, s =>
    match s.dropWhile (· == space) with
    | [] => []
    | c :: s => (c :: s).takeWhile (· != space) :: tokenise n
        (((c :: s).dropWhile (· != space)).drop 1)

/-! ## files in the place of descriptors -/

/-- `t->fd_table[fd] = f`, for the task at `a`. -/
def System.setFd (s : System) (a fd : Nat) (f : TaskFd) : System :=
  { s with toSched := s.modify a fun t => { t with fdTable := Function.update t.fdTable fd f } }

/-- The descriptor `fd` of the task at `a` stands for the file in slot `idx`. -/
def System.redirect (s : System) (a fd : Nat) (idx : Int) (offset : Nat) : System :=
  s.setFd a fd
    { (s.tasks a).fdTable fd with used := true, type := .file, alfsIdx := idx, offset := offset }

/-- `redir_setup_write`, in the directory `cwd`. -/
def redirSetupWrite (s : System) (cwd : CStr) (a fd : Nat) (path : CStr) (append : Bool) :
    Int × System :=
  let resolved := pathResolve cwd path
  let res := prepareWrite s.fs resolved append
  let s := { s with fs := res.2 }
  match res.1 with
  | none => (-1, s)
  | some startOff =>
    let idx := alfsFind s.fs (some resolved)
    if idx < 0 then (-1, s) else (0, s.redirect a fd idx startOff)

/-- `redir_setup_read`, in the directory `cwd`. -/
def redirSetupRead (s : System) (cwd : CStr) (a fd : Nat) (path : CStr) : Int × System :=
  let idx := alfsFind s.fs (some (pathResolve cwd path))
  if idx < 0 ∨ alfsIsDir s.fs idx then (-1, s) else (0, s.redirect a fd idx 0)

end AliOS
