import Xv6.Ftable.Model
import Xv6.Vm.Proc

/-!
# Calls that take pages (`kernel/sysfile.c`)

The memory of the processes and the file table, with one free list.  `fork`, `exec`, `pipe` and
`getcwd` take pages and may return -1; the other calls are those that change either part.  What
they read from the file system is an argument of the call.  `none` is a panic, a fault in the
kernel, or a call that does not return.
-/

namespace Kmem

structure State where
  vm : Vm.Sys
  files : Ftable.World

/-- the file at a path: one that `exec` loads, or a script, with the length of its interpreter's
name and the file at that path -/
inductive File where
  | image (img : Vm.Image)
  | script (interpreter : Fin Vm.pgsize) (next : File)

/-- the current directory: the root, or another one; `ends` says whether the walk along `..` ends,
and finds a directory at each step -/
inductive Cwd where
  | root
  | below (ends : Bool)

section
variable (kend trampoline : Nat)

/-- the free list after the pages that `pipealloc` has taken and `pipeclose` has given back -/
def settle (w w' : Ftable.World) (free : List Nat) : Option (List Nat) :=
  (w'.frees.take (w'.frees.length - w.frees.length)).reverse.foldlM
    (fun free pa => Vm.kfree kend pa free) (free.drop (w'.allocs.length - w.allocs.length))

def State.setFiles (k : State) (w : Ftable.World) : Option State :=
  (settle kend k.files w k.vm.free).map (fun free => ⟨{ k.vm with free := free }, w⟩)

/-! ## `fork`, `exec` -/

/-- `fork` of process `p`; `false` is -1 -/
def fork (k : State) (p : Fin Vm.nproc) : Option (State × Bool) :=
  match Vm.fork kend trampoline k.vm p with
  | none => none
  | some (vm, ok) => (Ftable.sysFork k.files p ok).map (fun r => (⟨vm, r.1⟩, ok))

/-- a script is run by its interpreter, with the script's name as the only argument -/
def exec (s : Vm.Sys) (p : Fin Vm.nproc) : File → List (Fin Vm.pgsize) → Option (Vm.Sys × Bool)
  | .image img, argv => Vm.exec kend trampoline s p img argv
  | .script interpreter next, argv => exec s p next (interpreter :: argv.take 1)

/-- `path` is `none` if the string cannot be read -/
def sysExec (s : Vm.Sys) (p : Fin Vm.nproc) (path : Option File) (arg : Nat → Vm.Arg) :
    Option (Vm.Sys × Bool) :=
  match path with
  | none => some (s, false)
  | some file =>
    match Vm.fetchArgs arg Vm.maxarg 0 s.free [] [] with
    | (free, pages, none) =>
      (Vm.freeArgs kend { s with free := free } pages).map (fun s => (s, false))
    | (free, pages, some argv) =>
      (exec kend trampoline { s with free := free } p file argv).bind (fun r =>
        (Vm.freeArgs kend r.1 pages).map (fun s => (s, r.2)))

/-! ## `pipe` -/

def sysPipe (k : State) (p : Fin Vm.nproc) (fdarray : UInt64) : Option (State × Bool) :=
  match (k.vm.proc p).pagetable with
  | none => none
  | some pt =>
    (Ftable.sysPipe k.files p k.vm.free.head? (Vm.copyout pt fdarray.toNat 4)
      (Vm.copyout pt (fdarray + 4).toNat 4)).bind
        (fun r => (k.setFiles kend r.1).map (fun k => (k, decide (r.2 ≠ -1))))

/-! ## `getcwd` -/

def length (sz : Int32) : Nat := (sz.toInt % 2 ^ 64).toNat

/-- whether `getcwd` returns; with a negative `sz` it writes behind the memory -/
def returns (cwd : Cwd) (sz : Int32) : Bool :=
  match cwd with
  | .root => true
  | .below ends => decide (sz.toInt = 0 ∨ sz.toInt = 1) || decide (0 ≤ sz.toInt) && ends

/-- how many of these pages, from page `v` on, are mapped before the first one that is not -/
def mapped (pt : Vm.PageTable) : Nat → Nat → Nat
  | 0, _ => 0
  | n + 1, v =>
    if (Vm.walkaddr pt (v * Vm.pgsize)).isSome then mapped pt n (v + 1) + 1 else 0

/-- the bytes that `copyout` copies before it returns -/
def copied (pt : Vm.PageTable) (dstva len : Nat) : Nat :=
  min len (mapped pt ((dstva + len - 1) / Vm.pgsize + 1 - dstva / Vm.pgsize) (dstva / Vm.pgsize) *
    Vm.pgsize - dstva % Vm.pgsize)

def sysGetcwd (k : State) (p : Fin Vm.nproc) (ubuf : UInt64) (sz : Int32) (cwd : Cwd) :
    Option (State × Bool) :=
  if Vm.pgsize < sz.toInt then some (k, false)
  else
    match (k.vm.proc p).pagetable, Vm.kalloc k.vm.free with
    | none, _ => none
    | some pt, none =>
      -- no byte can be read from address 0, and `kfree` panics there
      if length sz ≠ 0 ∧ (Vm.walkaddr pt (Vm.pgrounddown ubuf.toNat)).isNone then some (k, false)
      else none
    | some pt, some (buf, free) =>
      if returns cwd sz = false then none
      -- there is nothing to read behind the memory
      else if Vm.phystop < buf + copied pt ubuf.toNat (length sz) then none
      else if Vm.copyout pt ubuf.toNat (length sz) then
        (Vm.kfree kend buf free).map (fun free => (⟨{ k.vm with free := free }, k.files⟩, true))
      else some (⟨{ k.vm with free := free }, k.files⟩, false)

/-! ## the other calls -/

/-- `exit` closes the files first -/
def exit (k : State) (p : Fin Vm.nproc) : Option State :=
  (Ftable.sysExit k.files p).bind (fun w => (k.setFiles kend w).bind (fun k =>
    (Vm.exit k.vm p).map (fun vm => ⟨vm, k.files⟩)))

/-- the child that `wait` finds is freed in both parts -/
def wait (k : State) (p : Fin Vm.nproc) (copy : Bool) : Option State :=
  (Vm.wait kend k.vm p copy).map (fun r =>
    ⟨r.1, match r.2, Fin.find? (fun q => (k.vm.proc q).parent = some p ∧
        (k.vm.proc q).state = .zombie) with
      | true, some q => Ftable.reap k.files q
      | _, _ => k.files⟩)

/-! ## the machine -/

inductive Call where
  | fork
  | exec (path : Option File) (arg : Nat → Vm.Arg)
  | pipe (fdarray : UInt64)
  | getcwd (ubuf : UInt64) (sz : Int32) (cwd : Cwd)

/-- process `p` makes a call, and it returns; `false` is -1 -/
def call (k : State) (p : Fin Vm.nproc) : Call → Option (State × Bool)
  | .fork => fork kend trampoline k p
  | .exec path arg =>
    (sysExec kend trampoline k.vm p path arg).map (fun r => (⟨r.1, k.files⟩, r.2))
  | .pipe fdarray => sysPipe kend k p fdarray
  | .getcwd ubuf sz cwd => sysGetcwd kend k p ubuf sz cwd

inductive Event where
  | call (c : Call)
  | sbrk (n : Int)
  | wait (copy : Bool)
  | exit
  | dup (fd : Int)
  | close (fd : Int)
  | open (omode : Nat) (node : Option Ftable.Node)

def step (k : State) (p : Fin Vm.nproc) (e : Event) : Option State :=
  if (k.vm.proc p).state ≠ .live then none
  else
    match e with
    | .call c => (call kend trampoline k p c).map Prod.fst
    | .sbrk n => (Vm.growproc kend k.vm p n).map (fun r => ⟨r.1, k.files⟩)
    | .wait copy => wait kend k p copy
    | .exit => exit kend k p
    | .dup fd => (Ftable.sysDup k.files p fd).bind (fun r => k.setFiles kend r.1)
    | .close fd => (Ftable.sysClose k.files p fd).bind (fun r => k.setFiles kend r.1)
    | .open omode node => (Ftable.sysOpen k.files p omode node).bind (fun r => k.setFiles kend r.1)

def Step (k : State) (e : Fin Vm.nproc × Event) (k' : State) : Prop :=
  step kend trampoline k e.1 e.2 = some k'

def start (free : List Nat) : Option State :=
  (Vm.userinit kend trampoline free).map (fun vm => ⟨vm, Ftable.start⟩)

end

end Kmem
