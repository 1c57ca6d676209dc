import Mathlib.Algebra.GroupWithZero.Nat
import Mathlib.Data.Fin.Tuple.Basic
import Xv6.Lib.Run
import Xv6.Vm.Model

/-!
# The memory of processes (`kernel/proc.c`, `kernel/exec.c`)

What `fork`, `exec`, `sbrk`, `wait` and `exit` do to pages, each as one step.  What they read from
the file system and from user memory is an argument of the call.  `none` is a panic, or a call that
does not return.
-/

namespace Vm
open Lib

abbrev nproc : Nat := 64

theorem nproc_ne_zero : nproc ≠ 0 := by decide

instance : NeZero nproc := ⟨nproc_ne_zero⟩
def maxarg : Nat := 32

inductive ProcState where
  | unused
  | used
  /-- `SLEEPING`, `RUNNABLE` or `RUNNING` -/
  | live
  | zombie
  deriving DecidableEq

structure Proc where
  state : ProcState
  parent : Option (Fin nproc)
  sz : Nat
  pagetable : Option PageTable
  trapframe : Option Nat

structure Sys where
  free : List Nat
  proc : Fin nproc → Proc

def initproc : Fin nproc := 0

def Sys.setProc (s : Sys) (p : Fin nproc) (x : Proc) : Sys :=
  { s with proc := Function.update s.proc p x }

structure Proghdr where
  type : UInt32
  flags : UInt32
  off : UInt64
  vaddr : UInt64
  filesz : UInt64
  memsz : UInt64

/-- the file that `exec` is given: whether it is there, the number of its program headers if its
ELF header is good, the headers that can be read, and whether `n` bytes at `off` can be read -/
structure Image where
  found : Bool
  phnum : Option Nat
  ph : Nat → Option Proghdr
  read (off n : Nat) : Bool

/-- an entry of `argv` in user memory: it cannot be read, it is null, or it is a string of this
length, if that one can be read -/
inductive Arg where
  | bad
  | null
  | str (len : Option (Fin pgsize))

section
variable (kend trampoline : Nat)

/-! ## `proc.c` -/

/-- `proc_pagetable`; `none` in the result is 0 -/
def procPagetable (free : List Nat) (trapframe : Nat) : Option (List Nat × Option PageTable) :=
  match uvmcreate free with
  | none => some (free, none)
  | some m =>
    match mappages m trampolineVa pgsize trampoline ⟨true, false, true, false⟩ with
    | none => none
    | some (m, false) => (uvmfree kend m 0).map (fun free => (free, none))
    | some (m, true) =>
      match mappages m trapframeVa pgsize trapframe ⟨true, true, false, false⟩ with
      | none => none
      | some (m, false) =>
        ((uvmunmap kend m trampolineVa 1 false).bind (fun m => uvmfree kend m 0)).map
          (fun free => (free, none))
      | some (m, true) => some (m.free, some m.pt)

/-- `proc_freepagetable` -/
def procFreepagetable (m : Mem) (sz : Nat) : Option (List Nat) :=
  (uvmunmap kend m trampolineVa 1 false).bind (fun m =>
    (uvmunmap kend m trapframeVa 1 false).bind (fun m => uvmfree kend m sz))

def freeproc (s : Sys) (p : Fin nproc) : Option Sys :=
  let free :=
    match (s.proc p).trapframe with
    | none => some s.free
    | some tf => kfree kend tf s.free
  let free := free.bind (fun free =>
    match (s.proc p).pagetable with
    | none => some free
    | some pt => procFreepagetable kend ⟨free, pt⟩ (s.proc p).sz)
  free.map (fun free => { s.setProc p ⟨.unused, none, 0, none, none⟩ with free := free })

/-- `allocproc`; `none` in the result is 0 -/
def allocproc (s : Sys) : Option (Sys × Option (Fin nproc)) :=
  match Fin.find? (fun q => (s.proc q).state = .unused) with
  | none => some (s, none)
  | some p =>
    let s := s.setProc p { s.proc p with state := .used }
    match kalloc s.free with
    | none => (freeproc kend s p).map (fun s => (s, none))
    | some (tf, free) =>
      let s := { s.setProc p { s.proc p with trapframe := some tf } with free := free }
      match procPagetable kend trampoline s.free tf with
      | none => none
      | some (free, none) => (freeproc kend { s with free := free } p).map (fun s => (s, none))
      | some (free, some pt) =>
        some ({ s.setProc p { s.proc p with pagetable := some pt } with free := free }, some p)

/-- `growproc` of process `p`; `false` is -1 -/
def growproc (s : Sys) (p : Fin nproc) (n : Int) : Option (Sys × Bool) :=
  match (s.proc p).pagetable with
  | none => none
  | some pt =>
    let sz := (s.proc p).sz
    let newsz := (((sz : Int) + n) % 2 ^ 64).toNat
    if 0 < n then
      match uvmalloc kend ⟨s.free, pt⟩ sz newsz true false with
      | none => none
      | some (m, 0) =>
        some ({ s.setProc p { s.proc p with pagetable := some m.pt } with free := m.free }, false)
      | some (m, sz) =>
        some ({ s.setProc p { s.proc p with sz := sz, pagetable := some m.pt } with
          free := m.free }, true)
    else if n < 0 then
      match uvmdealloc kend ⟨s.free, pt⟩ sz newsz with
      | none => none
      | some (m, sz) =>
        some ({ s.setProc p { s.proc p with sz := sz, pagetable := some m.pt } with
          free := m.free }, true)
    else some (s, true)

/-- `fork` of process `p`; `false` is -1 -/
def fork (s : Sys) (p : Fin nproc) : Option (Sys × Bool) :=
  match allocproc kend trampoline s with
  | none => none
  | some (s, none) => some (s, false)
  | some (s, some np) =>
    match (s.proc p).pagetable, (s.proc np).pagetable with
    | some old, some new =>
      match uvmcopy kend old ⟨s.free, new⟩ (s.proc p).sz with
      | none => none
      | some (m, ok) =>
        let s := { s.setProc np { s.proc np with pagetable := some m.pt } with free := m.free }
        if ok then
          some (s.setProc np { s.proc np with sz := (s.proc p).sz, parent := some p, state := .live },
            true)
        else (freeproc kend s np).map (fun s => (s, false))
    | _, _ => none

def reparent (s : Sys) (p : Fin nproc) : Sys :=
  { s with proc := fun q =>
    if (s.proc q).parent = some p then { s.proc q with parent := some initproc } else s.proc q }

/-- `exit`; `initproc` panics -/
def exit (s : Sys) (p : Fin nproc) : Option Sys :=
  if p = initproc then none
  else
    let s := reparent s p
    some (s.setProc p { s.proc p with state := .zombie })

/-- `wait2`; `copy` says whether the pointers are good.  A process that sleeps does not return -/
def wait (s : Sys) (p : Fin nproc) (copy : Bool) : Option (Sys × Bool) :=
  match Fin.find? (fun q => (s.proc q).parent = some p ∧ (s.proc q).state = .zombie) with
  | some q => if copy then (freeproc kend s q).map (fun s => (s, true)) else some (s, false)
  | none => if ∃ q, (s.proc q).parent = some p then none else some (s, false)

/-! ## `exec.c` -/

/-- `flags2perm`: `PTE_W` and `PTE_X` -/
def flags2perm (flags : UInt32) : Bool × Bool := (flags &&& 2 ≠ 0, flags &&& 1 ≠ 0)

/-- the loop of `loadseg`, for this many pages; `false` is -1 -/
def loadsegLoop (pt : PageTable) (va : Nat) (img : Image) (offset sz : Nat) :
    Nat → Nat → Option Bool
  | 0, _ => some true
  | k + 1, i =>
    match walkaddr pt (va + i) with
    | none => none
    | some _ =>
      let n := if sz - i < pgsize then sz - i else pgsize
      if img.read (offset + i) n then loadsegLoop pt va img offset sz k (i + pgsize)
      else some false

/-- `offset` and `sz` are `uint`s -/
def loadseg (pt : PageTable) (va : Nat) (img : Image) (offset sz : Nat) : Option Bool :=
  let sz := sz % 2 ^ 32
  loadsegLoop pt va img (offset % 2 ^ 32) sz ((sz + (pgsize - 1)) / pgsize) 0

/-- the loop of `exec` over the program headers: `sz`, and `false` for `bad` -/
def loadLoop (img : Image) : List Nat → Mem → Nat → Option (Mem × Nat × Bool)
  | [], m, sz => some (m, sz, true)
  | i :: l, m, sz =>
    match img.ph i with
    | none => some (m, sz, false)
    | some ph =>
      if ph.type ≠ 1 then loadLoop img l m sz
      else if ph.memsz < ph.filesz then some (m, sz, false)
      else if ph.vaddr + ph.memsz < ph.vaddr then some (m, sz, false)
      else if ph.vaddr.toNat % pgsize ≠ 0 then some (m, sz, false)
      else
        match uvmalloc kend m sz (ph.vaddr + ph.memsz).toNat (flags2perm ph.flags).1
          (flags2perm ph.flags).2 with
        | none => none
        | some (m, 0) => some (m, sz, false)
        | some (m, sz1) =>
          match loadseg m.pt ph.vaddr.toNat img ph.off.toNat ph.filesz.toNat with
          | none => none
          | some false => some (m, sz1, false)
          | some true => loadLoop img l m sz1

/-- the argument strings on the stack; `none` is `bad` -/
def pushArgs (pt : PageTable) (stackbase : Nat) : List (Fin pgsize) → Nat → Nat → Option Nat
  | [], _, sp => some sp
  | len :: argv, argc, sp =>
    if maxarg ≤ argc then none
    else
      let sp := sp - (len + 1)
      let sp := sp - sp % 16
      if sp < stackbase then none
      else if copyout pt sp (len + 1) then pushArgs pt stackbase argv (argc + 1) sp
      else none

/-- the strings and the array of pointers to them -/
def pushStack (pt : PageTable) (sz : Nat) (argv : List (Fin pgsize)) : Bool :=
  let stackbase := sz - pgsize
  match pushArgs pt stackbase argv 0 sz with
  | none => false
  | some sp =>
    let sp := sp - (argv.length + 1) * 8
    let sp := sp - sp % 16
    if sp < stackbase then false else copyout pt sp ((argv.length + 1) * 8)

/-- `exec` of a file that is no script; `false` is -1 -/
def exec (s : Sys) (p : Fin nproc) (img : Image) (argv : List (Fin pgsize)) :
    Option (Sys × Bool) :=
  let bad (m : Mem) (sz : Nat) : Option (Sys × Bool) :=
    (procFreepagetable kend m sz).map (fun free => ({ s with free := free }, false))
  match img.found, img.phnum, (s.proc p).trapframe, (s.proc p).pagetable with
  | true, some phnum, some tf, some oldpagetable =>
    match procPagetable kend trampoline s.free tf with
    | none => none
    | some (free, none) => some ({ s with free := free }, false)
    | some (free, some pt) =>
      match loadLoop kend img (List.range phnum) ⟨free, pt⟩ 0 with
      | none => none
      | some (m, sz, false) => bad m sz
      | some (m, sz, true) =>
        let sz := pgroundup sz
        match uvmalloc kend m sz (sz + 2 * pgsize) true false with
        | none => none
        | some (m, 0) => bad m sz
        | some (m, sz) =>
          match uvmclear m (sz - 2 * pgsize) with
          | none => none
          | some m =>
            if pushStack m.pt sz argv then
              (procFreepagetable kend ⟨m.free, oldpagetable⟩ (s.proc p).sz).map (fun free =>
                ({ s.setProc p { s.proc p with sz := sz, pagetable := some m.pt } with
                  free := free }, true))
            else bad m sz
  | _, _, none, _ => none
  | _, _, _, none => none
  | _, _, _, _ => some (s, false)

def fetchArgs (arg : Nat → Arg) : Nat → Nat → List Nat → List Nat → List (Fin pgsize) →
    List Nat × List Nat × Option (List (Fin pgsize))
  | 0, _, free, pages, _ => (free, pages, none)
  | n + 1, i, free, pages, argv =>
    match arg i with
    | .bad => (free, pages, none)
    | .null => (free, pages, some argv)
    | .str len =>
      match kalloc free with
      | none => (free, pages, none)
      | some (pa, free) =>
        match len with
        | none => (free, pages ++ [pa], none)
        | some len => fetchArgs arg n (i + 1) free (pages ++ [pa]) (argv ++ [len])

/-- the second loop of `sys_exec` -/
def freeArgs (s : Sys) (pages : List Nat) : Option Sys :=
  (pages.foldlM (fun free pa => kfree kend pa free) s.free).map (fun free => { s with free := free })

def sysExec (s : Sys) (p : Fin nproc) (img : Image) (arg : Nat → Arg) : Option (Sys × Bool) :=
  match fetchArgs arg maxarg 0 s.free [] [] with
  | (free, pages, none) => (freeArgs kend { s with free := free } pages).map (fun s => (s, false))
  | (free, pages, some argv) =>
    (exec kend trampoline { s with free := free } p img argv).bind (fun r =>
      (freeArgs kend r.1 pages).map (fun s => (s, r.2)))

/-! ## the machine -/

inductive Call where
  | fork
  | exec (img : Image) (arg : Nat → Arg)
  | sbrk (n : Int)
  | wait (copy : Bool)
  | exit

/-- process `p` makes a call, and it returns -/
def step (s : Sys) (p : Fin nproc) (c : Call) : Option Sys :=
  if (s.proc p).state ≠ .live then none
  else
    match c with
    | .fork => (fork kend trampoline s p).map Prod.fst
    | .exec img arg => (sysExec kend trampoline s p img arg).map Prod.fst
    | .sbrk n => (growproc kend s p n).map Prod.fst
    | .wait copy => (wait kend s p copy).map Prod.fst
    | .exit => exit s p

def Step (s : Sys) (e : Fin nproc × Call) (t : Sys) : Prop :=
  step kend trampoline s e.1 e.2 = some t

/-- `userinit`, with these pages free; `uvmfirst` does not look whether it got a page -/
def userinit (free : List Nat) : Option Sys :=
  match allocproc kend trampoline ⟨free, fun _ => ⟨.unused, none, 0, none, none⟩⟩ with
  | some (s, some p) =>
    match (s.proc p).pagetable, kalloc s.free with
    | some pt, some (mem, free) =>
      match mappages ⟨free, pt⟩ 0 pgsize mem ⟨true, true, true, true⟩ with
      | some (m, true) =>
        some { s.setProc p { s.proc p with sz := pgsize, pagetable := some m.pt, state := .live } with
          free := m.free }
      | _ => none
    | _, _ => none
  | _ => none

end

end Vm
