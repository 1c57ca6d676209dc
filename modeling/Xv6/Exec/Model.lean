import Xv6.Fs.Dir
import Xv6.Lib.Mem
import Xv6.Vm.Proc

/-!
# `exec` with its file (`kernel/exec.c`)

`exec` on the bytes of a file, for scripts and for programs, with all that it changes: memory, the
registers in the trapframe, the name, the lock and the references of the inode, and the transaction.
`buf` is on the stack and holds anything before it is read into.  A nested call takes one unit of
fuel.
-/

namespace Exec
open Vm

abbrev Bytes := List UInt8

def maxpath : Nat := 128

def byte (c : Char) : UInt8 := c.toNat.toUInt8

def elfMagic : Nat := 0x464C457F

/-- why a call does not return -/
inductive Stop where
  | panic
  /-- out of fuel -/
  | running
  deriving DecidableEq

/-! ## files -/

/-- the directories, and what the inodes hold -/
structure Volume where
  image : Fs.Image
  content : Nat → Bytes
  ninodes : Nat
  root_lt : Fs.rootIno < ninodes
  inum_lt : ∀ d es e, image d = some es → e ∈ es → e.inum < ninodes

def Volume.namei (V : Volume) (cwd : Nat) (path : Bytes) : Option Nat :=
  Fs.namei V.image cwd (path.map (fun b => Char.ofNat b.toNat))

/-- `readi` to kernel memory -/
def readi (content : Bytes) (off n : Nat) : Bytes :=
  if content.length < off ∨ (off + n) % 2 ^ 32 < off then [] else (content.drop off).take n

def overlay (buf bytes : Bytes) : Bytes := bytes ++ buf.drop bytes.length

/-! ## scripts -/

/-- `buf` behind both calls of `readi`, for a file that starts with `"#!"` -/
def readScript (content stack : Bytes) : Option Bytes :=
  let head := readi content 0 2
  if head.length = 2 then
    let buf := overlay stack head
    if buf[0]? = some (byte '#') ∧ buf[1]? = some (byte '!') then
      some (overlay buf (readi content 2 maxpath))
    else none
  else none

/-- `interpreter` and `j`, with the indices that were stored to -/
structure Copy where
  interpreter : Bytes
  j : Nat
  stores : List Nat

def Copy.start : Copy := ⟨List.replicate maxpath 0, 0, []⟩

/-- `interpreter[j] = c` -/
def Copy.set (s : Copy) (c : UInt8) : Copy :=
  { s with interpreter := s.interpreter.set s.j c, stores := s.stores ++ [s.j] }

/-- the loop over `buf` -/
def copyLoop : Bytes → Copy → Copy
  | [], s => s
  | c :: rest, s =>
    if c = byte '\n' then s
    else copyLoop rest (if c ≠ byte ' ' then { s.set c with j := s.j + 1 } else s)

def copyInterpreter (buf : Bytes) : Copy := (copyLoop buf .start).set 0

def cpath (s : Bytes) : Bytes := s.takeWhile (· ≠ 0)

/-- the path that the nested call gets -/
def script (content stack : Bytes) : Option Bytes :=
  (readScript content stack).map (fun buf => cpath (copyInterpreter buf).interpreter)

/-! ## programs -/

/-- the `k` bytes at `off`, little-endian -/
def field (b : Bytes) (off k : Nat) : Nat := Lib.load (fun i => b.getD i 0) off k

structure Elfhdr where
  entry : Nat
  phoff : Nat
  phnum : Nat

def elfhdr (content : Bytes) : Option Elfhdr :=
  let b := readi content 0 64
  if b.length = 64 ∧ field b 0 4 = elfMagic then some ⟨field b 24 8, field b 32 8, field b 56 2⟩
  else none

/-- the program header that `off` leads to -/
def proghdr (content : Bytes) (off : Nat) : Option Proghdr :=
  let b := readi content off 56
  if b.length = 56 then
    some ⟨(field b 0 4).toUInt32, (field b 4 4).toUInt32, (field b 8 8).toUInt64,
      (field b 16 8).toUInt64, (field b 32 8).toUInt64, (field b 40 8).toUInt64⟩
  else none

/-- the file as the loader sees it; `off` is an `int` and becomes a `uint` for `readi` -/
def imageOf (content : Bytes) : Image where
  found := true
  phnum := (elfhdr content).map Elfhdr.phnum
  ph i := (elfhdr content).bind (fun h => proghdr content ((h.phoff + 56 * i) % 2 ^ 32))
  read off n := (readi content (off % 2 ^ 32) n).length = n

/-! ## the machine -/

/-- what `exec` sets in the trapframe, and the rest of it -/
structure Frame where
  epc : Nat
  sp : Nat
  a1 : Nat
  regs : Nat → Nat

structure Machine where
  sys : Sys
  frame : Fin nproc → Frame
  name : Fin nproc → Bytes
  ofile : Fin nproc → Nat → Option Nat
  locked : Nat → Bool
  ref : Nat → Nat
  outstanding : Nat

def Machine.beginOp (m : Machine) : Machine := { m with outstanding := m.outstanding + 1 }

def Machine.endOp (m : Machine) : Machine := { m with outstanding := m.outstanding - 1 }

/-- `namei` has taken a reference, and `ilock` the lock -/
def Machine.hold (m : Machine) (ip : Nat) : Machine :=
  { m with ref := Function.update m.ref ip (m.ref ip + 1), locked := Function.update m.locked ip true }

def Machine.iunlockput (m : Machine) (ip : Nat) : Machine :=
  { m with
    ref := Function.update m.ref ip (m.ref ip - 1), locked := Function.update m.locked ip false }

/-- the label `bad`: `pagetable` with `sz`, and `ip`, where they are not 0 -/
def bad (kend : Nat) (m : Machine) (pagetable : Option (Mem × Nat)) (ip : Option Nat) :
    Except Stop (Machine × Int) :=
  let free :=
    match pagetable with
    | none => some m.sys.free
    | some (u, sz) => procFreepagetable kend u sz
  match free with
  | none => .error .panic
  | some free =>
    let m := { m with sys := { m.sys with free := free } }
    match ip with
    | none => .ok (m, -1)
    | some ip => .ok ((m.iunlockput ip).endOp, -1)

/-- `sp` behind the strings and the array of pointers; `none` is `bad` -/
def stackPointer (pt : PageTable) (sz : Nat) (argv : List (Fin pgsize)) : Option Nat :=
  match pushArgs pt (sz - pgsize) argv 0 sz with
  | none => none
  | some sp =>
    let sp := sp - (argv.length + 1) * 8
    let sp := sp - sp % 16
    if sp < sz - pgsize then none
    else if copyout pt sp ((argv.length + 1) * 8) then some sp else none

/-- `p->name`, from the last element of the path -/
def programName (path : Bytes) : Bytes := ((path.reverse.takeWhile (· ≠ byte '/')).reverse).take 15

/-- the arguments and the commit, behind `uvmclear` -/
def install (kend : Nat) (m : Machine) (p : Fin nproc) (path : Bytes) (entry : Nat)
    (oldpagetable : PageTable) (cleared : Option Mem) (sz : Nat) (argv : List (Fin pgsize)) :
    Except Stop (Machine × Int) :=
  match cleared with
  | none => .error .panic
  | some u =>
    match stackPointer u.pt sz argv with
    | none => bad kend m (some (u, sz)) none
    | some sp =>
      match procFreepagetable kend ⟨u.free, oldpagetable⟩ (m.sys.proc p).sz with
      | none => .error .panic
      | some free => .ok ({ m with
          sys := { m.sys.setProc p { m.sys.proc p with sz := sz, pagetable := some u.pt } with
            free := free }
          frame := Function.update m.frame p { m.frame p with epc := entry, sp := sp, a1 := sp }
          name := Function.update m.name p (programName path) }, argv.length)

/-- the lines behind the loop over the program headers -/
def commit (kend : Nat) (m : Machine) (p : Fin nproc) (path : Bytes) (entry : Nat) (u : Mem)
    (sz : Nat) (argv : List (Fin pgsize)) : Except Stop (Machine × Int) :=
  match (m.sys.proc p).pagetable with
  | none => .error .panic
  | some oldpagetable =>
    let sz := pgroundup sz
    match uvmalloc kend u sz (sz + 2 * pgsize) true false with
    | none => .error .panic
    | some (u, sz1) =>
      if sz1 = 0 then bad kend m (some (u, sz)) none
      else
        install kend m p path entry oldpagetable (uvmclear u (sz1 - 2 * pgsize)) sz1 argv

/-- from `Check ELF header` on -/
def execElf (kend trampoline : Nat) (m : Machine) (p : Fin nproc) (path content : Bytes) (ip : Nat)
    (argv : List (Fin pgsize)) : Except Stop (Machine × Int) :=
  match elfhdr content, (m.sys.proc p).trapframe with
  | none, _ => bad kend m none (some ip)
  | some _, none => .error .panic
  | some h, some tf =>
    match procPagetable kend trampoline m.sys.free tf with
    | none => .error .panic
    | some (free, none) => bad kend { m with sys := { m.sys with free := free } } none (some ip)
    | some (free, some pt) =>
      match loadLoop kend (imageOf content) (List.range h.phnum) ⟨free, pt⟩ 0 with
      | none => .error .panic
      | some (u, sz, false) => bad kend m (some (u, sz)) (some ip)
      | some (u, sz, true) => commit kend (m.iunlockput ip).endOp p path h.entry u sz argv

/-- the arguments of the nested call -/
def scriptArgv (interpreter : Bytes) (argv : List (Fin pgsize)) : List (Fin pgsize) :=
  ⟨interpreter.length % pgsize, Nat.mod_lt _ (by decide)⟩ :: argv.take 1

/-- `stack k` is what `buf` holds at first in the `k`-th nested call -/
def exec (kend trampoline : Nat) (V : Volume) (cwd : Nat) : Nat → (Nat → Bytes) → Machine →
    Fin nproc → Bytes → List (Fin pgsize) → Except Stop (Machine × Int)
  | 0, _, _, _, _, _ => .error .running
  | fuel + 1, stack, m, p, path, argv =>
    let m := m.beginOp
    match V.namei cwd path with
    | none => .ok (m.endOp, -1)
    | some ip =>
      let m := m.hold ip
      match script (V.content ip) (stack 0) with
      | some interpreter =>
        exec kend trampoline V cwd fuel (fun k => stack (k + 1)) (m.iunlockput ip).endOp p
          interpreter (scriptArgv interpreter argv)
      | none => execElf kend trampoline m p path (V.content ip) ip argv

end Exec
