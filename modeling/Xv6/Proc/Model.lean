import Mathlib.Algebra.Group.Nat.Defs
import Mathlib.Algebra.GroupWithZero.Nat
import Mathlib.Algebra.Group.Int.Defs
import Mathlib.Data.Fin.Tuple.Basic
import Mathlib.Data.Fintype.Basic
import Mathlib.Logic.Function.Basic
import Xv6.Lib.Run

/-!
# Processes (`kernel/proc.c`, `syscall` and the calls of the labs)

The process table, with what `allocproc`, `fork`, `exit`, `wait2`, `freeproc` and `kill` do to it.  A
step is a critical section under `wait_lock` or `p->lock`; between them any process may run.
`SLEEPING`, `RUNNABLE` and `RUNNING` are one state here: a process that sleeps in `wait2` is at
`Pc.asleep`, all others may always go on.  The scan of `allocproc`, which locks one slot after the
other, is one step, and takes the first slot that is unused then.

`slot` is what the kernel has.  `Hist` is a record of what happened, which the machine does not
read: it is kept for each slot from one `allocproc` to the next.
-/

namespace Proc
open Lib

abbrev nproc : Nat := 64

theorem nproc_ne_zero : nproc ≠ 0 := by decide

instance : NeZero nproc := ⟨nproc_ne_zero⟩

inductive ProcState where
  | unused
  | used
  /-- `SLEEPING`, `RUNNABLE` or `RUNNING` -/
  | live
  | zombie
  deriving DecidableEq

/-- `struct proc`, without what belongs to memory, files and the scheduler -/
structure Slot where
  state : ProcState
  killed : Bool
  xstate : Int
  pid : Nat
  parent : Option (Fin nproc)
  strace : Bool
  counter : Int

/-- where a process is; `addr` and `res` are the pointers of `wait2`: null, or whether `copyout` can
reach them -/
inductive Pc where
  /-- in user mode; `a0` is the result of the last call -/
  | user (a0 : Int)
  /-- in `fork`, with a child that has no parent yet -/
  | fork (np : Fin nproc)
  /-- in `fork`, with a child that does not run yet -/
  | forked (np : Fin nproc)
  /-- in `exit`, behind the closing of the files -/
  | exit (status : Int)
  /-- in `wait2`, at the head of the loop -/
  | wait (addr res : Option Bool)
  /-- in `wait2`, in `sleep` -/
  | asleep (addr res : Option Bool)
  /-- the function of the system call has returned -/
  | ret (v : Int)
  deriving DecidableEq

/-- what a process did, for its count and its flag -/
inductive Mark where
  /-- a system call is complete -/
  | done
  /-- `benchmark_reset` took effect -/
  | reset
  | strace
  deriving DecidableEq

/-- a `wait2` that returned a child: who waited, whom it returned, who had forked it, what it
delivered, and how many calls the child had completed -/
structure Reap where
  waiter : Nat
  child : Nat
  forker : Nat
  status : Int
  count : Int
  calls : Nat
  deriving DecidableEq

/-- `forker` is the pid of the process that forked the one in the slot, `log` what that one did,
last first -/
structure Hist where
  forker : Fin nproc → Nat
  log : Fin nproc → List Mark
  exited : List (Nat × Int)
  reaped : List Reap

structure State where
  slot : Fin nproc → Slot
  nextpid : Nat
  pc : Fin nproc → Pc
  hist : Hist

def initproc : Fin nproc := 0

/-- the pid of `initproc` -/
def initpid : Nat := 1

def start : State where
  slot := fun p =>
    if p = initproc then ⟨.live, false, 0, initpid, none, false, 0⟩
    else ⟨.unused, false, 0, 0, none, false, 0⟩
  nextpid := initpid + 1
  pc := fun _ => .user 0
  hist := ⟨fun _ => 0, fun _ => [], [], []⟩

/-- the calls that were completed since the last `benchmark_reset`, whose own return is none of
them -/
def since : List Mark → Nat
  | [] => 0
  | .reset :: _ => 0
  | .done :: .reset :: _ => 0
  | .done :: l => since l + 1
  | .strace :: l => since l

/-! ## the model -/

def State.setSlot (s : State) (q : Fin nproc) (x : Slot) : State :=
  { s with slot := Function.update s.slot q x }

def State.goto (s : State) (p : Fin nproc) (pc : Pc) : State :=
  { s with pc := Function.update s.pc p pc }

def State.mark (s : State) (p : Fin nproc) (m : Mark) : State :=
  { s with hist := { s.hist with log := Function.update s.hist.log p (m :: s.hist.log p) } }

/-- `counter++`, an `int` -/
def incr (c : Int) : Int := Int.bmod (c + 1) (2 ^ 32)

/-- `freeproc`; the fields `strace` and `counter` stay -/
def freeproc (x : Slot) : Slot :=
  { x with pid := 0, parent := none, killed := false, xstate := 0, state := .unused }

/-- the slot that `allocproc` takes -/
def State.firstUnused (s : State) : Option (Fin nproc) :=
  Fin.find? (fun q => (s.slot q).state = .unused)

/-- `allocproc` of slot `np` for process `p`; all other fields stay -/
def State.allocproc (s : State) (p np : Fin nproc) : State :=
  { s with
    slot := Function.update s.slot np { s.slot np with pid := s.nextpid, state := .used }
    nextpid := s.nextpid + 1
    hist := { s.hist with
      forker := Function.update s.hist.forker np (s.slot p).pid
      log := Function.update s.hist.log np [] } }

/-- `fork` up to the release of `np->lock`; `memory` says whether there are pages for the child -/
def fork (s : State) (p : Fin nproc) (memory : Bool) : State :=
  match s.firstUnused with
  | none => s.goto p (.ret (-1))
  | some np =>
    let s := s.allocproc p np
    if memory then s.goto p (.fork np)
    else (s.setSlot np (freeproc (s.slot np))).goto p (.ret (-1))

/-- `wakeup(q)`: a process sleeps on its own address in `wait2` -/
def State.wakeup (s : State) (q : Fin nproc) : State :=
  match s.pc q with
  | .asleep addr res => s.goto q (.wait addr res)
  | _ => s

/-- `reparent(p)`: the children of `p` go to `initproc` -/
def State.reparent (s : State) (p : Fin nproc) : State :=
  let s' := { s with slot := fun q =>
    if (s.slot q).parent = some p then { s.slot q with parent := some initproc } else s.slot q }
  if ∃ q, (s.slot q).parent = some p then s'.wakeup initproc else s'

/-- the critical section of `exit` -/
def exit (s : State) (p : Fin nproc) (status : Int) : State :=
  let s := s.reparent p
  let s :=
    match (s.slot p).parent with
    | some r => s.wakeup r
    | none => s
  { s.setSlot p { s.slot p with xstate := status, state := .zombie } with
    hist := { s.hist with exited := ((s.slot p).pid, status) :: s.hist.exited } }

/-- the zombie that the scan of `wait2` finds -/
def State.findZombie (s : State) (p : Fin nproc) : Option (Fin nproc) :=
  Fin.find? (fun q => (s.slot q).parent = some p ∧ (s.slot q).state = .zombie)

/-- the scan of `wait2` -/
def wait2 (s : State) (p : Fin nproc) (addr res : Option Bool) : State :=
  match s.findZombie p with
  | some q =>
    if addr = some false ∨ res = some false then s.goto p (.ret (-1))
    else
      let pp := s.slot q
      { (s.setSlot q (freeproc pp)).goto p (.ret pp.pid) with
        hist := { s.hist with
          reaped := ⟨(s.slot p).pid, pp.pid, s.hist.forker q, pp.xstate, pp.counter,
            since (s.hist.log q)⟩ :: s.hist.reaped } }
  | none =>
    if (¬ ∃ q, (s.slot q).parent = some p) ∨ (s.slot p).killed = true then s.goto p (.ret (-1))
    else s.goto p (.asleep addr res)

/-- `kill(pid)` -/
def kill (s : State) (pid : Int) : State × Int :=
  match Fin.find? (fun q => (s.slot q).pid = pid) with
  | none => (s, -1)
  | some q => ((s.setSlot q { s.slot q with killed := true }).wakeup q, 0)

/-- process `p` goes on; `none` where it cannot -/
def advance (s : State) (p : Fin nproc) : Option State :=
  match s.pc p with
  | .user _ => none
  | .fork np => some ((s.setSlot np { s.slot np with parent := some p }).goto p (.forked np))
  | .forked np =>
    some (((s.setSlot np { s.slot np with state := .live }).goto np (.user 0)).goto p
      (.ret (s.slot np).pid))
  | .exit status => some (exit s p status)
  | .wait addr res => some (wait2 s p addr res)
  | .asleep _ _ => none
  | .ret v =>
    -- `syscall` counts the call
    some (((s.setSlot p { s.slot p with counter := incr (s.slot p).counter }).mark p .done).goto p
      (.user v))

/-- `other` is any system call that none of the rest is, `exec` among them -/
inductive Act where
  | fork (memory : Bool)
  | exit (status : Int)
  | wait2 (addr res : Option Bool)
  | kill (pid : Int)
  | strace
  | benchmarkReset
  | other (v : Int)
  | advance

/-- process `p` does `a`: it makes a call in user mode, or goes on in one -/
def step (s : State) (p : Fin nproc) (a : Act) : Option State :=
  if (s.slot p).state ≠ .live then none
  else
    match a with
    | .advance => advance s p
    | a =>
      match s.pc p with
      | .user _ =>
        match a with
        | .fork memory => some (fork s p memory)
        | .exit status =>
          -- `initproc` panics
          if p = initproc then none else some (s.goto p (.exit status))
        | .wait2 addr res => some (s.goto p (.wait addr res))
        | .kill pid => some ((kill s pid).1.goto p (.ret (kill s pid).2))
        | .strace =>
          some (((s.setSlot p { s.slot p with strace := true }).mark p .strace).goto p (.ret 0))
        | .benchmarkReset =>
          some (((s.setSlot p { s.slot p with counter := 0 }).mark p .reset).goto p (.ret 0))
        | .other v => some (s.goto p (.ret v))
        | .advance => none
      | _ => none

def Step (s : State) (e : Fin nproc × Act) (t : State) : Prop := step s e.1 e.2 = some t

end Proc
