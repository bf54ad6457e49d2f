import AliOS.Alfs
import AliOS.Path

/-!
# AliOS.Shell.Files

The commands of the shell that work on files (`kernel/shell.c`): `mkdir`, `rmdir`, `touch`,
`rm`, `cp` and `mv`, in the directory `cwd`.  A command prints a message when it gives up;
it has no other result.  What the heap has left decides whether `cp` and `mv` get a buffer,
so here it is a parameter.
-/

namespace AliOS

open Lib

/-- The messages, without their texts. -/
inductive CmdError where
  | usage
  | alreadyExists
  | notFound
  | notADirectory
  | isADirectory
  | notEmpty
  | outOfMemory
  | readError
  | writeError
  | failed
deriving DecidableEq

def cmdMkdir (fs : Fs) (cwd arg : CStr) : Option CmdError × Fs :=
  if arg.chars = [] then (some .usage, fs)
  else
    let path := pathResolve cwd arg
    if alfsFind fs (some path) ≥ 0 then (some .alreadyExists, fs)
    else
      let res := alfsMkdir fs (some path)
      (if res.1 < 0 then some .failed else none, res.2)

/-- The loop of `cmd_rmdir`: no entry has `path` as its parent. -/
def noChildren (fs : Fs) (path : CStr) : Bool :=
  (List.range' 0 alfsMaxFiles).all fun i =>
    match alfsStat fs i with
    | none => true
    | some (name, _) => decide (pathParent (CStr.ofBytes name) ≠ path)

def cmdRmdir (fs : Fs) (cwd arg : CStr) : Option CmdError × Fs :=
  if arg.chars = [] then (some .usage, fs)
  else
    let path := pathResolve cwd arg
    let idx := alfsFind fs (some path)
    if idx < 0 ∨ !alfsIsDir fs idx then (some .notADirectory, fs)
    else if !noChildren fs path then (some .notEmpty, fs)
    else
      let res := alfsDelete fs (some path)
      (if res.1 < 0 then some .failed else none, res.2)

def cmdTouch (fs : Fs) (cwd name : CStr) : Option CmdError × Fs :=
  if name.chars = [] then (some .usage, fs)
  else
    let path := pathResolve cwd name
    if alfsFind fs (some path) ≥ 0 then (none, fs)
    else
      let res := alfsWrite fs (some path) (some fun _ => 0) 0
      (if res.1 < 0 then some .writeError else none, res.2)

def cmdRm (fs : Fs) (cwd name : CStr) : Option CmdError × Fs :=
  if name.chars = [] then (some .usage, fs)
  else
    let path := pathResolve cwd name
    let idx := alfsFind fs (some path)
    if idx < 0 then (some .notFound, fs)
    else if alfsIsDir fs idx then (some .isADirectory, fs)
    else
      let res := alfsDelete fs (some path)
      (if res.1 < 0 then some .failed else none, res.2)

/-- What `cmd_cp` and `cmd_mv` have in common: the file in slot `idx` is read into a buffer,
if `kmalloc` gives them one, and written under the path `dst`. -/
def copyFile (fs : Fs) (idx : Int) (dst : CStr) (mem : Bool) : Option CmdError × Fs :=
  if !mem then (some .outOfMemory, fs)
  else
    match alfsRead fs idx (alfsSize fs idx) with
    | (none, fs) => (some .readError, fs)
    | (some buf, fs) =>
      if asInt buf.length < 0 then (some .readError, fs)
      else
        let res := alfsWrite fs (some dst) (some fun k => buf.getD k 0) (buf.length % 2 ^ 32)
        (if res.1 < 0 then some .writeError else none, res.2)

def cmdCp (fs : Fs) (cwd src dst : CStr) (mem : Bool) : Option CmdError × Fs :=
  if src.chars = [] ∨ dst.chars = [] then (some .usage, fs)
  else
    let idx := alfsFind fs (some (pathResolve cwd src))
    if idx < 0 then (some .notFound, fs) else copyFile fs idx (pathResolve cwd dst) mem

def cmdMv (fs : Fs) (cwd src dst : CStr) (mem : Bool) : Option CmdError × Fs :=
  if src.chars = [] ∨ dst.chars = [] then (some .usage, fs)
  else
    let srcp := pathResolve cwd src
    let idx := alfsFind fs (some srcp)
    if idx < 0 then (some .notFound, fs)
    else if alfsIsDir fs idx then (some .isADirectory, fs)
    else
      match copyFile fs idx (pathResolve cwd dst) mem with
      | (some err, fs) => (some err, fs)
      | (none, fs) => (none, (alfsDelete fs (some srcp)).2)

/-- The commands with their arguments. -/
inductive FileCmd where
  | mkdir (arg : CStr)
  | rmdir (arg : CStr)
  | touch (name : CStr)
  | rm (name : CStr)
  | cp (src dst : CStr) (mem : Bool)
  | mv (src dst : CStr) (mem : Bool)

def FileCmd.run (fs : Fs) (cwd : CStr) : FileCmd → Option CmdError × Fs
  | .mkdir arg => cmdMkdir fs cwd arg
  | .rmdir arg => cmdRmdir fs cwd arg
  | .touch name => cmdTouch fs cwd name
  | .rm name => cmdRm fs cwd name
  | .cp src dst mem => cmdCp fs cwd src dst mem
  | .mv src dst mem => cmdMv fs cwd src dst mem

end AliOS
