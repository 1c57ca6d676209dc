import Xv6.Boogsh.Pipeline
import Xv6.Lib.Run

/-!
# A foreground pipeline whose last command cannot be run

The process that `run_program` waits for goes through `execute_pipeline`: it makes a pipe and
forks a child at each level, fails to `exec` the last command, and on the way back calls `wait(0)`
once for each level.  The children run their programs: they write to their pipes, read from them
and exit, in any order and with any other calls between.  Of a program the model keeps how much it
writes at most, and whether it reads its input to the end before it exits.

The processes share the pipes only, so the calls between two of them that touch nothing but the
caller's own descriptors are one step.  `readopen` and `writeopen` of a pipe are whether a process
still has a descriptor for that end.
-/

namespace Foreground
open Lib Kernel Boogsh

def pipeSize : Nat := 512

structure Pipeline where
  n : Nat
  /-- a bound on what stage `i` writes -/
  out : Nat → Nat
  /-- stage `i` reads its input to the end before it exits -/
  drains : Nat → Bool
  last : Command
  openOk : OpenOk

/-- where a child is: before its `exec`, in its program, in `pipewrite` with `k` bytes to go, in
`piperead` for `k` bytes, or dead -/
inductive Phase where
  | unborn
  | forked (fd0 fd1 : Fin nofile)
  | running
  | writing (k : Nat)
  | reading (k : Nat)
  | zombie
  | reaped
  deriving DecidableEq

structure Stage where
  phase : Phase
  fds : Fds
  /-- the output that is not in a pipe yet -/
  left : Nat
  /-- a read has returned 0 -/
  eof : Bool

/-- where the process in `execute_pipeline` is: at the command with pipe `k`, after the `fork` of
that level, on its way back with `m` calls of `wait` to go, or gone; `undefined` is after a failed
`pipe`, whose descriptors are used all the same -/
inductive Main where
  | level (k : Nat)
  | parent (k : Nat) (fd0 fd1 : Fin nofile)
  | waiting (m : Nat)
  | done
  | undefined

structure State where
  main : Main
  fds : Fds
  stage : Nat → Stage
  /-- `nwrite - nread` of pipe `i` -/
  count : Nat → Nat

inductive Actor where
  | main
  | stage (i : Nat)

def closed : Fds := fun _ => none

def State.ReadOpen (s : State) (i : Nat) : Prop :=
  Holds s.fds (.readEnd i) ∨ ∃ j, Holds (s.stage j).fds (.readEnd i)

def State.WriteOpen (s : State) (i : Nat) : Prop :=
  Holds s.fds (.writeEnd i) ∨ ∃ j, Holds (s.stage j).fds (.writeEnd i)

def State.setStage (s : State) (i : Nat) (st : Stage) : State :=
  { s with stage := Function.update s.stage i st }

/-- `setStage`, with `c` bytes in pipe `p` -/
def State.setPipe (s : State) (i : Nat) (st : Stage) (p c : Nat) : State :=
  { s with stage := Function.update s.stage i st, count := Function.update s.count p c }

section
variable {s : State} {i j p c : Nat} {st : Stage}

@[simp] theorem State.setStage_self : (s.setStage i st).stage i = st :=
  Function.update_self ..

theorem State.setStage_of_ne (h : j ≠ i) : (s.setStage i st).stage j = s.stage j :=
  Function.update_of_ne h ..

@[simp] theorem State.setPipe_self : (s.setPipe i st p c).stage i = st :=
  Function.update_self ..

theorem State.setPipe_of_ne (h : j ≠ i) : (s.setPipe i st p c).stage j = s.stage j :=
  Function.update_of_ne h ..

@[simp] theorem State.setPipe_count : (s.setPipe i st p c).count p = c :=
  Function.update_self ..

end

/-- `exit` of the process in `execute_pipeline` -/
def State.exitMain (s : State) : State := { s with main := .done, fds := closed }

def Stage.exit (st : Stage) : Stage := { st with phase := .zombie, fds := closed }

def initial (P : Pipeline) (t0 : Fds) : State :=
  ⟨.level 0, t0, fun i => ⟨.unborn, closed, P.out i, false⟩, fun _ => 0⟩

/-- the steps of `execute_pipeline` -/
inductive MainStep (P : Pipeline) (s : State) : State → Prop
  | fork {k : Nat} {t : Fds} {fd0 fd1 : Fin nofile} (hm : s.main = .level k) (hk : k + 1 < P.n)
      (hp : pipe s.fds k = some (t, fd0, fd1)) :
      MainStep P s { s.setPipe k ⟨.forked fd0 fd1, t, P.out k, false⟩ k 0 with
        main := .parent k fd0 fd1, fds := t }
  | pipeFails {k : Nat} (hm : s.main = .level k) (hk : k + 1 < P.n) (hp : pipe s.fds k = none) :
      MainStep P s { s with main := .undefined }
  | parent {k : Nat} {t : Fds} {fd0 fd1 : Fin nofile} (hm : s.main = .parent k fd0 fd1)
      (h : parentSetup s.fds fd0 fd1 = some t) :
      MainStep P s { s with main := .level (k + 1), fds := t }
  | parentPanics {k : Nat} {fd0 fd1 : Fin nofile} (hm : s.main = .parent k fd0 fd1)
      (h : parentSetup s.fds fd0 fd1 = none) : MainStep P s s.exitMain
  | execFails {k : Nat} {t : Fds} (hm : s.main = .level k) (hk : k + 1 = P.n)
      (h : redirect P.openOk P.last s.fds = some t) :
      MainStep P s { s with main := .waiting k, fds := t }
  | redirectPanics {k : Nat} (hm : s.main = .level k) (hk : k + 1 = P.n)
      (h : redirect P.openOk P.last s.fds = none) : MainStep P s s.exitMain
  | reap {m i : Nat} (hm : s.main = .waiting (m + 1)) (hz : (s.stage i).phase = .zombie) :
      MainStep P s { s.setStage i { s.stage i with phase := .reaped } with main := .waiting m }
  -- `wait` returns -1 when no child is left
  | waitFails {m : Nat} (hm : s.main = .waiting (m + 1))
      (h : ∀ i, (s.stage i).phase = .unborn ∨ (s.stage i).phase = .reaped) :
      MainStep P s { s with main := .waiting m }
  | exit (hm : s.main = .waiting 0) : MainStep P s s.exitMain

/-- the steps of child `i` -/
inductive StageStep (P : Pipeline) (i : Nat) (s : State) : State → Prop
  | exec {t : Fds} {fd0 fd1 : Fin nofile} (hph : (s.stage i).phase = .forked fd0 fd1)
      (h : childSetup (s.stage i).fds fd0 fd1 = some t) :
      StageStep P i s (s.setStage i { s.stage i with phase := .running, fds := t })
  | childPanics {fd0 fd1 : Fin nofile} (hph : (s.stage i).phase = .forked fd0 fd1)
      (h : childSetup (s.stage i).fds fd0 fd1 = none) :
      StageStep P i s (s.setStage i (s.stage i).exit)
  | write {k : Nat} (hph : (s.stage i).phase = .running) (hk : k ≤ (s.stage i).left) :
      StageStep P i s (s.setStage i { s.stage i with phase := .writing k })
  | put {k p : Nat} (hph : (s.stage i).phase = .writing (k + 1))
      (hfd : (s.stage i).fds 1 = some (.writeEnd p)) (hopen : s.ReadOpen p)
      (hroom : s.count p < pipeSize) :
      StageStep P i s (s.setPipe i
        { s.stage i with phase := .writing k, left := (s.stage i).left - 1 } p (s.count p + 1))
  | writeFails {k p : Nat} (hph : (s.stage i).phase = .writing (k + 1))
      (hfd : (s.stage i).fds 1 = some (.writeEnd p)) (hclosed : ¬ s.ReadOpen p) :
      StageStep P i s (s.setStage i { s.stage i with phase := .running })
  | wrote (hph : (s.stage i).phase = .writing 0) :
      StageStep P i s (s.setStage i { s.stage i with phase := .running })
  | read {k : Nat} (hph : (s.stage i).phase = .running) (hk : 0 < k) :
      StageStep P i s (s.setStage i { s.stage i with phase := .reading k })
  | get {k p : Nat} (hph : (s.stage i).phase = .reading k)
      (hfd : (s.stage i).fds 0 = some (.readEnd p)) (hcount : s.count p ≠ 0) :
      StageStep P i s (s.setPipe i { s.stage i with phase := .running } p
        (s.count p - min k (s.count p)))
  | getEnd {k p : Nat} (hph : (s.stage i).phase = .reading k)
      (hfd : (s.stage i).fds 0 = some (.readEnd p)) (hcount : s.count p = 0)
      (hclosed : ¬ s.WriteOpen p) :
      StageStep P i s (s.setStage i { s.stage i with phase := .running, eof := true })
  -- the input of the first stage is not a pipe, and a read of it returns
  | getFile {k : Nat} {b : Bool} (hph : (s.stage i).phase = .reading k)
      (hfd : ∀ p, (s.stage i).fds 0 ≠ some (.readEnd p)) :
      StageStep P i s (s.setStage i
        { s.stage i with phase := .running, eof := (s.stage i).eof || b })
  | exit (hph : (s.stage i).phase = .running)
      (hd : P.drains i = true → (s.stage i).eof = true) :
      StageStep P i s (s.setStage i (s.stage i).exit)

/-- the processes take turns in any order -/
inductive Step (P : Pipeline) (s : State) : Actor → State → Prop
  | main {s' : State} (h : MainStep P s s') : Step P s .main s'
  | stage {i : Nat} {s' : State} (h : StageStep P i s s') : Step P s (.stage i) s'

def WriteBlocked (s : State) (i : Nat) : Prop :=
  ∃ k p, (s.stage i).phase = .writing (k + 1) ∧ (s.stage i).fds 1 = some (.writeEnd p) ∧
    s.ReadOpen p ∧ pipeSize ≤ s.count p

def ReadBlocked (s : State) (i : Nat) : Prop :=
  ∃ k p, (s.stage i).phase = .reading k ∧ (s.stage i).fds 0 = some (.readEnd p) ∧
    s.count p = 0 ∧ s.WriteOpen p

/-- the parent sleeps in `wait(0)`, a child sleeps on a full pipe, and no other one can move -/
def Stuck (s : State) : Prop :=
  (∃ m, s.main = .waiting (m + 1)) ∧ (∃ i, WriteBlocked s i) ∧
    ∀ i, (s.stage i).phase = .unborn ∨ (s.stage i).phase = .reaped ∨ WriteBlocked s i ∨
      ReadBlocked s i

end Foreground
