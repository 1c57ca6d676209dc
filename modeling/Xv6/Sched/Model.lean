import Xv6.Lib.Locks
import Xv6.Lib.Run
import Xv6.Proc.Model

/-!
# Spinlocks and the switch between processes (`spinlock.c`, `sched`, `scheduler`, `sleep`, `wakeup`)

A step is what one CPU does between two accesses to a lock.  The CPU runs the scheduler on its own
stack, or a process on the kernel stack of that process; `Pc` is where it is.  What the kernel code
of a process does between the calls of this file is any sequence of the actions `Act`.  `locked` and
`lk->cpu` of a spinlock are one field here: only the CPU that holds the lock tells them apart.
-/

namespace Sched
open Lib
open Proc (nproc)

inductive ProcState where
  | unused
  | used
  | sleeping
  | runnable
  | running
  | zombie
  deriving DecidableEq

/-- `p->lock`, or one of the other spinlocks of the kernel -/
inductive Lock (ι : Type) where
  | proc (p : Fin nproc)
  | other (l : ι)
  deriving DecidableEq

/-- the kernel code of a process: a system call, or `kerneltrap`; `lk` is the lock that `sleep` was
about to take again when the interrupt came -/
inductive Kernel (ι : Type) where
  | call
  | trap (lk : Option ι)
  deriving DecidableEq

/-- where a process goes on when it is switched to; `intena` is the local variable of `sched` -/
inductive Context (ι : Type) where
  | forkret
  | yield (k : Kernel ι) (intena : Bool)
  | sleep (lk : ι) (intena : Bool)
  /-- in `exit` -/
  | dead
  deriving DecidableEq

inductive Pc (ι κ : Type) where
  /-- in the kernel code of a process -/
  | code (k : Kernel ι)
  /-- in `acquire(lk)`, behind `push_off`; `next` is what follows -/
  | spin (lk : Lock ι) (next : Pc ι κ)
  /-- in `yield`, with `p->lock` -/
  | yield (k : Kernel ι)
  /-- in `sleep`, with `p->lock` and `lk` -/
  | sleep (chan : κ) (lk : ι)
  /-- in `sleep`, behind `release(lk)` -/
  | doze (chan : κ) (lk : ι)
  /-- in `sleep`, behind `release(&p->lock)` -/
  | again (lk : ι)
  /-- in `exit`, with `p->lock` and `wait_lock` -/
  | exit
  /-- in `exit`, behind `release(&wait_lock)` -/
  | dying
  /-- a process that was switched to, behind `swtch` or at the start of `forkret` -/
  | resume
  /-- in `wakeup`, at the head of the loop -/
  | wake (chan : κ) (i : Nat) (next : Pc ι κ)
  /-- in `wakeup`, with the lock of process `i` -/
  | waking (chan : κ) (i : Fin nproc) (next : Pc ι κ)
  /-- in `scheduler`, before process `i` -/
  | idle (i : Nat)
  /-- in `scheduler`, with the lock of process `i` -/
  | look (i : Fin nproc)
  /-- in `scheduler`, behind `swtch` -/
  | back (i : Fin nproc)
  /-- in an interrupt that came while the scheduler was before process `i` -/
  | handler (i : Nat)
  deriving DecidableEq

/-- `struct cpu`; `intr` is the bit `SIE` of `sstatus` -/
structure Cpu (ι κ : Type) where
  proc : Option (Fin nproc)
  noff : Nat
  intena : Bool
  intr : Bool
  pc : Pc ι κ

/-- `struct proc`, as far as the scheduler goes -/
structure Slot (ι κ : Type) where
  state : ProcState
  chan : Option κ
  context : Context ι

structure State (C ι κ : Type) where
  cpu : C → Cpu ι κ
  slot : Fin nproc → Slot ι κ
  holder : Lock ι → Option C

inductive Stop where
  /-- `panic("acquire")` -/
  | acquire
  /-- `panic("release")` -/
  | release
  /-- `panic("pop_off - interruptible")` -/
  | popOffInterruptible
  /-- `panic("pop_off")` -/
  | popOff
  /-- `panic("sched p->lock")` -/
  | schedLock
  /-- `panic("sched locks")` -/
  | schedLocks
  /-- `panic("sched running")` -/
  | schedRunning
  /-- `panic("sched interruptible")` -/
  | schedInterruptible
  /-- `panic("zombie exit")` -/
  | zombieExit
  /-- the CPU cannot do this here, or waits for a lock -/
  | undefined
  deriving DecidableEq

/-- what is done to a process under its lock: `kill`, `allocproc`, the end of `fork`, `freeproc` -/
inductive Change where
  | rouse
  | alloc
  | ready
  | free
  deriving DecidableEq

inductive Act (ι κ : Type) where
  /-- the next step of the code of this file -/
  | go
  | acquire (lk : Lock ι)
  | release (lk : Lock ι)
  | yield
  | sleep (chan : κ) (lk : ι)
  | wakeup (chan : κ)
  | exit
  | change (p : Fin nproc) (a : Change)
  /-- an interrupt comes -/
  | interrupt
  /-- the end of an interrupt, `sret` -/
  | iret
  | intrOn
  | intrOff
  deriving DecidableEq

section
variable {C ι κ : Type} [DecidableEq C] [DecidableEq ι] [DecidableEq κ]

def State.setCpu (s : State C ι κ) (c : C) (x : Cpu ι κ) : State C ι κ :=
  { s with cpu := Function.update s.cpu c x }

def State.goto (s : State C ι κ) (c : C) (pc : Pc ι κ) : State C ι κ :=
  s.setCpu c { s.cpu c with pc := pc }

def State.setSlot (s : State C ι κ) (p : Fin nproc) (x : Slot ι κ) : State C ι κ :=
  { s with slot := Function.update s.slot p x }

def State.setState (s : State C ι κ) (p : Fin nproc) (st : ProcState) : State C ι κ :=
  s.setSlot p { s.slot p with state := st }

/-! ## `spinlock.c` -/

def pushOff (x : Cpu ι κ) : Cpu ι κ :=
  { x with intr := false, intena := if x.noff = 0 then x.intr else x.intena, noff := x.noff + 1 }

def popOff (x : Cpu ι κ) : Except Stop (Cpu ι κ) :=
  if x.intr then .error .popOffInterruptible
  else if x.noff < 1 then .error .popOff
  else .ok { x with noff := x.noff - 1, intr := x.noff - 1 = 0 && x.intena }

/-- `acquire` up to its loop -/
def acquire (s : State C ι κ) (c : C) (lk : Lock ι) (next : Pc ι κ) : Except Stop (State C ι κ) :=
  if s.holder lk = some c then .error .acquire
  else .ok (s.setCpu c { pushOff (s.cpu c) with pc := .spin lk next })

/-- a round of the loop of `acquire` that finds the lock free -/
def take (s : State C ι κ) (c : C) (lk : Lock ι) (next : Pc ι κ) : Except Stop (State C ι κ) :=
  if s.holder lk = none then
    .ok { s.goto c next with holder := Function.update s.holder lk (some c) }
  else .error .undefined

def release (s : State C ι κ) (c : C) (lk : Lock ι) (next : Pc ι κ) : Except Stop (State C ι κ) :=
  if s.holder lk = some c then
    (popOff (s.cpu c)).map (fun x =>
      { s.setCpu c { x with pc := next } with holder := Function.update s.holder lk none })
  else .error .release

/-! ## `proc.c` -/

/-- `sched`, with `swtch` to the scheduler of the CPU -/
def sched (s : State C ι κ) (c : C) (p : Fin nproc) (context : Bool → Context ι) :
    Except Stop (State C ι κ) :=
  let x := s.cpu c
  if s.holder (.proc p) ≠ some c then .error .schedLock
  else if x.noff ≠ 1 then .error .schedLocks
  else if (s.slot p).state = .running then .error .schedRunning
  else if x.intr then .error .schedInterruptible
  else .ok ((s.setSlot p { s.slot p with context := context x.intena }).goto c (.back p))

/-- what a process does first that was switched to; `sched` restores `intena`, `sleep` tidies up -/
def resume (s : State C ι κ) (c : C) (p : Fin nproc) : Except Stop (State C ι κ) :=
  match (s.slot p).context with
  | .forkret => release s c (.proc p) (.code .call)
  | .yield k a => release (s.setCpu c { s.cpu c with intena := a }) c (.proc p) (.code k)
  | .sleep lk a =>
    release ((s.setSlot p { s.slot p with chan := none }).setCpu c { s.cpu c with intena := a }) c
      (.proc p) (.again lk)
  | .dead => .error .zombieExit

/-- a step of the code of this file; `wl` is `wait_lock` -/
def go (wl : ι) (s : State C ι κ) (c : C) : Except Stop (State C ι κ) :=
  match (s.cpu c).pc, (s.cpu c).proc with
  | .spin lk next, _ => take s c lk next
  | .yield k, some p => sched (s.setState p .runnable) c p (.yield k)
  | .sleep ch lk, some _ => release s c (.other lk) (.doze ch lk)
  | .doze ch lk, some p =>
    sched (s.setSlot p { s.slot p with chan := some ch, state := .sleeping }) c p (.sleep lk)
  | .again lk, some _ => acquire s c (.other lk) (.code .call)
  | .exit, some p => release (s.setState p .zombie) c (.other wl) .dying
  | .dying, some p => sched s c p (fun _ => .dead)
  | .resume, some p => resume s c p
  | .wake ch i next, me =>
    if h : i < nproc then
      if me = some ⟨i, h⟩ then .ok (s.goto c (.wake ch (i + 1) next))
      else acquire s c (.proc ⟨i, h⟩) (.waking ch ⟨i, h⟩ next)
    else .ok (s.goto c next)
  | .waking ch i next, _ =>
    let s := if (s.slot i).state = .sleeping ∧ (s.slot i).chan = some ch then
      s.setState i .runnable else s
    release s c (.proc i) (.wake ch (i + 1) next)
  | .idle i, none =>
    if h : i < nproc then acquire s c (.proc ⟨i, h⟩) (.look ⟨i, h⟩)
    else .ok (s.setCpu c { s.cpu c with intr := true, pc := .idle 0 })
  | .look i, none =>
    if (s.slot i).state = .runnable then
      .ok ((s.setState i .running).setCpu c { s.cpu c with proc := some i, pc := .resume })
    else release s c (.proc i) (.idle (i + 1))
  | .back i, some _ =>
    release (s.setCpu c { s.cpu c with proc := none }) c (.proc i) (.idle (i + 1))
  | _, _ => .error .undefined

def Change.apply (a : Change) (x : Slot ι κ) : Option (Slot ι κ) :=
  match a, x.state with
  | .rouse, .sleeping => some { x with state := .runnable }
  | .alloc, .unused => some { x with state := .used, context := .forkret }
  | .ready, .used => some { x with state := .runnable }
  | .free, .zombie => some { x with state := .unused, chan := none }
  | .free, .used => some { x with state := .unused, chan := none }
  | _, _ => none

/-- where an interrupt came -/
def Pc.interrupted : Option ι → Pc ι κ
  | none => .code .call
  | some lk => .again lk

def step (wl : ι) (s : State C ι κ) (c : C) (a : Act ι κ) : Except Stop (State C ι κ) :=
  match a, (s.cpu c).pc, (s.cpu c).proc with
  | .go, _, _ => go wl s c
  | .acquire lk, .code k, _ => acquire s c lk (.code k)
  | .acquire lk, .handler i, _ => acquire s c lk (.handler i)
  | .release lk, .code k, _ => release s c lk (.code k)
  | .release lk, .handler i, _ => release s c lk (.handler i)
  | .wakeup ch, .code k, _ => .ok (s.goto c (.wake ch 0 (.code k)))
  | .wakeup ch, .handler i, _ => .ok (s.goto c (.wake ch 0 (.handler i)))
  | .yield, .code k, some p => acquire s c (.proc p) (.yield k)
  | .sleep ch lk, .code .call, some p => acquire s c (.proc p) (.sleep ch lk)
  | .exit, .code .call, some p => acquire s c (.proc p) .exit
  | .change p a, .code _, _ =>
    match a.apply (s.slot p) with
    | none => .error .undefined
    | some x => .ok (s.setSlot p x)
  | .interrupt, .code .call, _ =>
    if (s.cpu c).intr then
      .ok (s.setCpu c { s.cpu c with intr := false, pc := .code (.trap none) })
    else .error .undefined
  | .interrupt, .again lk, _ =>
    if (s.cpu c).intr then
      .ok (s.setCpu c { s.cpu c with intr := false, pc := .code (.trap (some lk)) })
    else .error .undefined
  | .interrupt, .idle i, _ =>
    if (s.cpu c).intr then .ok (s.setCpu c { s.cpu c with intr := false, pc := .handler i })
    else .error .undefined
  | .iret, .code (.trap lk), _ =>
    .ok (s.setCpu c { s.cpu c with intr := true, pc := Pc.interrupted lk })
  | .iret, .handler i, _ => .ok (s.setCpu c { s.cpu c with intr := true, pc := .idle i })
  | .intrOn, .code .call, _ => .ok (s.setCpu c { s.cpu c with intr := true })
  | .intrOff, .code .call, _ => .ok (s.setCpu c { s.cpu c with intr := false })
  | _, _, _ => .error .undefined

def Step (wl : ι) (s : State C ι κ) (e : C × Act ι κ) (t : State C ι κ) : Prop :=
  step wl s e.1 e.2 = .ok t

def start : State C ι κ where
  cpu := fun _ => ⟨none, 0, false, false, .idle nproc⟩
  slot := fun p =>
    if p = Proc.initproc then ⟨.runnable, none, .forkret⟩ else ⟨.unused, none, .forkret⟩
  holder := fun _ => none

/-- what the callers promise: locks are taken once and given back by who has them, `wakeup` is
called with a lock that is no `p->lock`, `sleep` and `exit` with one lock, interrupts come on and
off and lead to `yield` with none, and `p->state` of a process is changed under its lock -/
def Promised (wl : ι) (s : State C ι κ) (e : C × Act ι κ) : Prop :=
  match e.2 with
  | .acquire lk => s.holder lk ≠ some e.1
  | .release lk => s.holder lk = some e.1
  | .wakeup _ => (s.cpu e.1).noff ≠ 0 ∧ ∀ p, s.holder (.proc p) ≠ some e.1
  | .yield => (s.cpu e.1).noff = 0
  | .sleep _ lk => s.holder (.other lk) = some e.1 ∧ (s.cpu e.1).noff = 1
  | .exit => s.holder (.other wl) = some e.1 ∧ (s.cpu e.1).noff = 1
  | .change p _ => s.holder (.proc p) = some e.1
  | .iret => (s.cpu e.1).noff = 0
  | .intrOn => (s.cpu e.1).noff = 0
  | .intrOff => (s.cpu e.1).noff = 0
  | _ => True

end

end Sched
