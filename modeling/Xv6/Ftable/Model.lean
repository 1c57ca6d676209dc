import Mathlib.Algebra.GroupWithZero.Nat
import Xv6.Lib.Refs
import Xv6.Lib.Run
import Xv6.Lib.Slots

/-!
# The file table (`kernel/file.c`, `pipealloc` and `pipeclose`, and the calls on descriptors)

`ftable`, the descriptors of every process, and the pages that are pipes.  A call is made by a
process that runs, and is over before the next one.  What lies outside is given with the call: the
inode that the path of `open` leads to, whether `kalloc` has a page and which one, whether `fork`
finds memory for the child, and whether `copyout` can reach the user's addresses.

A result `none` is a panic, or an access to a page that is not a pipe.  What `iput`, `itrunc` and
`idup` do to inodes is not part of this model.
-/

namespace Ftable
open Lib

abbrev nproc : Nat := 64

theorem nproc_ne_zero : nproc ≠ 0 := by decide

instance : NeZero nproc := ⟨nproc_ne_zero⟩
abbrev nofile : Nat := 16
abbrev nfile : Nat := 100

inductive FileType where
  /-- `FD_NONE` -/
  | none
  | pipe
  | inode
  | device
  deriving DecidableEq

/-- `struct file`; `pipe` is the address of a page, `ip` an inode -/
structure File where
  type : FileType
  ref : Nat
  readable : Bool
  writable : Bool
  pipe : Nat
  ip : Nat
  off : Nat
  major : Int

/-- the two flags of `struct pipe` -/
structure Ends where
  readopen : Bool
  writeopen : Bool

inductive ProcState where
  | unused
  | running
  | zombie
  deriving DecidableEq

/-- `pipes` are the pages that are in use as pipes; `allocs` and `frees` record each page that
`pipealloc` took and `pipeclose` gave back -/
structure World where
  ftable : Fin nfile → File
  ofile : Fin nproc → Slots nofile (Fin nfile)
  state : Fin nproc → ProcState
  pid : Fin nproc → Nat
  nextpid : Nat
  pipes : Nat → Option Ends
  allocs : List Nat
  frees : List Nat

def initproc : Fin nproc := 0

def start : World where
  ftable := fun _ => ⟨.none, 0, false, false, 0, 0, 0, 0⟩
  ofile := fun _ _ => none
  state := fun p => if p = initproc then .running else .unused
  pid := fun p => if p = initproc then 1 else 0
  nextpid := 2
  pipes := fun _ => none
  allocs := []
  frees := []

/-! ## files -/

def World.setFile (w : World) (f : Fin nfile) (x : File) : World :=
  { w with ftable := Function.update w.ftable f x }

def World.setFd (w : World) (p : Fin nproc) (fd : Fin nofile) (v : Option (Fin nfile)) : World :=
  { w with ofile := Function.update w.ofile p (Function.update (w.ofile p) fd v) }

/-- the first entry without references -/
def filealloc (w : World) : Option (World × Fin nfile) :=
  (Fin.find? (fun f => (w.ftable f).ref = 0)).map
    (fun f => (w.setFile f { w.ftable f with ref := 1 }, f))

def filedup (w : World) (f : Fin nfile) : Option World :=
  if (w.ftable f).ref < 1 then none
  else some (w.setFile f { w.ftable f with ref := (w.ftable f).ref + 1 })

def Ends.close (e : Ends) (writable : Bool) : Ends :=
  if writable then { e with writeopen := false } else { e with readopen := false }

def pipeclose (w : World) (pi : Nat) (writable : Bool) : Option World :=
  match w.pipes pi with
  | none => none
  | some e =>
    let e := e.close writable
    if e.readopen = false ∧ e.writeopen = false then
      some { w with pipes := Function.update w.pipes pi none, frees := pi :: w.frees }
    else some { w with pipes := Function.update w.pipes pi (some e) }

def fileclose (w : World) (f : Fin nfile) : Option World :=
  let ff := w.ftable f
  if ff.ref < 1 then none
  else if ff.ref - 1 > 0 then some (w.setFile f { ff with ref := ff.ref - 1 })
  else
    let w := w.setFile f { ff with ref := 0, type := .none }
    if ff.type = .pipe then pipeclose w ff.pipe ff.writable else some w

/-- `page` is what `kalloc` returns; the second component is `none` for `-1` -/
def pipealloc (w : World) (page : Option Nat) : Option (World × Option (Fin nfile × Fin nfile)) :=
  match filealloc w with
  | none => some (w, none)
  | some (w, f0) =>
    match filealloc w with
    | none => (fileclose w f0).map (fun w => (w, none))
    | some (w, f1) =>
      match page with
      | none => ((fileclose w f0).bind (fun w => fileclose w f1)).map (fun w => (w, none))
      | some pi =>
        let w := { w with
          pipes := Function.update w.pipes pi (some ⟨true, true⟩), allocs := pi :: w.allocs }
        let w := w.setFile f0
          { w.ftable f0 with type := .pipe, readable := true, writable := false, pipe := pi }
        let w := w.setFile f1
          { w.ftable f1 with type := .pipe, readable := false, writable := true, pipe := pi }
        some (w, some (f0, f1))

/-! ## descriptors -/

def argfd (w : World) (p : Fin nproc) (fd : Int) : Option (Fin nofile × Fin nfile) :=
  if h : 0 ≤ fd ∧ fd.toNat < nofile then
    (w.ofile p ⟨fd.toNat, h.2⟩).map (fun f => (⟨fd.toNat, h.2⟩, f))
  else none

def fdalloc (w : World) (p : Fin nproc) (f : Fin nfile) : Option (World × Fin nofile) :=
  ((w.ofile p).alloc f).map (fun t => ({ w with ofile := Function.update w.ofile p t.1 }, t.2))

/-! ## the calls -/

def sysDup (w : World) (p : Fin nproc) (fd : Int) : Option (World × Int) :=
  match argfd w p fd with
  | none => some (w, -1)
  | some (_, f) =>
    match fdalloc w p f with
    | none => some (w, -1)
    | some (w, fd) => (filedup w f).map (fun w => (w, fd))

def sysClose (w : World) (p : Fin nproc) (fd : Int) : Option (World × Int) :=
  match argfd w p fd with
  | none => some (w, -1)
  | some (fd, f) => (fileclose (w.setFd p fd none) f).map (fun w => (w, 0))

/-- what `open` reads of an inode -/
structure Node where
  inum : Nat
  type : Nat
  major : Int
  size : Nat

/-- `T_DIR`, `T_DEVICE` and `NDEV` -/
def tDir : Nat := 1
def tDevice : Nat := 3
def ndev : Int := 10

def oRdonly : Nat := 0x000
def oWronly : Nat := 0x001
def oRdwr : Nat := 0x002
def oCreate : Nat := 0x200
def oAppend : Nat := 0x008

def has (omode flag : Nat) : Bool := omode &&& flag ≠ 0

/-- `node` is the inode that `create` or `namei` returns -/
def sysOpen (w : World) (p : Fin nproc) (omode : Nat) (node : Option Node) : Option (World × Int) :=
  match node with
  | none => some (w, -1)
  | some ip =>
    if has omode oCreate = false ∧ ip.type = tDir ∧ omode ≠ oRdonly then some (w, -1)
    else if ip.type = tDevice ∧ (ip.major < 0 ∨ ip.major ≥ ndev) then some (w, -1)
    else
      match filealloc w with
      | none => some (w, -1)
      | some (w, f) =>
        match fdalloc w p f with
        | none => (fileclose w f).map (fun w => (w, -1))
        | some (w, fd) =>
          let ff := w.ftable f
          let ff := if ip.type = tDevice then { ff with type := .device, major := ip.major }
            else { ff with type := .inode, off := if has omode oAppend then ip.size else 0 }
          some (w.setFile f { ff with
            ip := ip.inum
            readable := ! has omode oWronly
            writable := has omode oWronly || has omode oRdwr }, fd)

/-- `out0` and `out1` say whether the two numbers can be copied out -/
def sysPipe (w : World) (p : Fin nproc) (page : Option Nat) (out0 out1 : Bool) :
    Option (World × Int) :=
  match pipealloc w page with
  | none => none
  | some (w, none) => some (w, -1)
  | some (w, some (rf, wf)) =>
    match fdalloc w p rf with
    | none => ((fileclose w rf).bind (fun w => fileclose w wf)).map (fun w => (w, -1))
    | some (w, fd0) =>
      match fdalloc w p wf with
      | none =>
        ((fileclose (w.setFd p fd0 none) rf).bind (fun w => fileclose w wf)).map (fun w => (w, -1))
      | some (w, fd1) =>
        if out0 = false ∨ out1 = false then
          ((fileclose ((w.setFd p fd0 none).setFd p fd1 none) rf).bind
            (fun w => fileclose w wf)).map (fun w => (w, -1))
        else some (w, 0)

/-- the loop of `fork` over the descriptors of `p` -/
def copyFds (p np : Fin nproc) : World → List (Fin nofile) → Option World
  | w, [] => some w
  | w, i :: l =>
    match w.ofile p i with
    | none => copyFds p np w l
    | some f => (filedup w f).bind (fun w => copyFds p np (w.setFd np i (some f)) l)

/-- `memory` says whether `allocproc` and `uvmcopy` find the pages for the child -/
def sysFork (w : World) (p : Fin nproc) (memory : Bool) : Option (World × Int) :=
  match Fin.find? (fun q => w.state q = .unused) with
  | none => some (w, -1)
  | some np =>
    let pid := w.nextpid
    let w := { w with nextpid := pid + 1, pid := Function.update w.pid np pid }
    if memory = false then some ({ w with pid := Function.update w.pid np 0 }, -1)
    else (copyFds p np w (List.finRange nofile)).map
      (fun w => ({ w with state := Function.update w.state np .running }, pid))

/-- the loop of `exit` over the descriptors of `p` -/
def closeFds (p : Fin nproc) : World → List (Fin nofile) → Option World
  | w, [] => some w
  | w, fd :: l =>
    match w.ofile p fd with
    | none => closeFds p w l
    | some f => (fileclose w f).bind (fun w => closeFds p (w.setFd p fd none) l)

/-- it does not return; its parent will find a zombie -/
def sysExit (w : World) (p : Fin nproc) : Option World :=
  if p = initproc then none
  else (closeFds p w (List.finRange nofile)).map
    (fun w => { w with state := Function.update w.state p .zombie })

/-- `freeproc` of a zombie `q`, in `wait` -/
def reap (w : World) (q : Fin nproc) : World :=
  { w with state := Function.update w.state q .unused, pid := Function.update w.pid q 0 }

inductive Call where
  | dup (fd : Int)
  | close (fd : Int)
  | open (omode : Nat) (node : Option Node)
  | pipe (page : Option Nat) (out0 out1 : Bool)
  | fork (memory : Bool)
  | exit
  | wait (q : Fin nproc)

def call (w : World) (p : Fin nproc) : Call → Option World
  | .dup fd => (sysDup w p fd).map Prod.fst
  | .close fd => (sysClose w p fd).map Prod.fst
  | .open omode node => (sysOpen w p omode node).map Prod.fst
  | .pipe page out0 out1 => (sysPipe w p page out0 out1).map Prod.fst
  | .fork memory => (sysFork w p memory).map Prod.fst
  | .exit => sysExit w p
  | .wait q => some (reap w q)

/-- a process that runs makes the call; `kalloc` hands out no page that is in use, `initproc` does
not exit, and `wait` frees a zombie -/
def Legal (w : World) (e : Fin nproc × Call) : Prop :=
  w.state e.1 = .running ∧
    match e.2 with
    | .pipe page _ _ => (page.bind w.pipes).isNone = true
    | .exit => e.1 ≠ initproc
    | .wait q => w.state q = .zombie
    | _ => True

instance (w : World) (e : Fin nproc × Call) : Decidable (Legal w e) :=
  match e with
  | (_, .dup _) => inferInstanceAs (Decidable (_ ∧ True))
  | (_, .close _) => inferInstanceAs (Decidable (_ ∧ True))
  | (_, .open _ _) => inferInstanceAs (Decidable (_ ∧ True))
  | (_, .pipe _ _ _) => inferInstanceAs (Decidable (_ ∧ _ = true))
  | (_, .fork _) => inferInstanceAs (Decidable (_ ∧ True))
  | (_, .exit) => inferInstanceAs (Decidable (_ ∧ _ ≠ _))
  | (_, .wait _) => inferInstanceAs (Decidable (_ ∧ _ = _))

def Step (w : World) (e : Fin nproc × Call) (w' : World) : Prop :=
  Legal w e ∧ call w e.1 e.2 = some w'

def next (w : World) (e : Fin nproc × Call) : Option World :=
  if Legal w e then call w e.1 e.2 else none

end Ftable
