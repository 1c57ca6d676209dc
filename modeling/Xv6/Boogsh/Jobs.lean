import Xv6.Proc.Family

/-!
# The jobs of the shell (`run_program` in `user/boogsh.c`)

The shell is process `p` of the kernel's table, all other processes do what they like.  Its loop
around `wait(&status)` also gets the children that earlier commands left in the background, in the
order in which they exit.  `Ok` is what holds in every state of the shell: in the loop, its own child is
still there to be reaped.
-/

namespace Boogsh.Jobs
open Lib Proc

/-! ## the model -/

inductive Place where
  /-- outside of it, or at its end -/
  | ready
  | pork (background : Bool)
  /-- in the loop for the child `pid`, at the call of `wait` -/
  | call (pid : Int)
  /-- in the loop, up to the comparison with `pid` -/
  | wait (pid : Int)
  | panic
  /-- the shell has called `exit` -/
  | gone
  deriving DecidableEq

/-- `status` is the variable of `run_program`, `exitStatus` the global one; `jobs` are the pids that
were printed for background jobs -/
structure Sys where
  kernel : State
  place : Place
  status : Int
  exitStatus : Int
  jobs : List Int

inductive Move where
  /-- a system call that is none of the following -/
  | call (a : Act)
  | run (background memory : Bool)
  /-- `pork` has returned -/
  | forked
  | wait
  /-- the comparison of the result of `wait` with `pid` -/
  | test
  | exit (status : Int)
  /-- the kernel goes on in a call of the shell -/
  | advance

inductive Event where
  | shell (m : Move)
  | other (q : Fin nproc) (a : Act)

def copied (s : State) (p : Fin nproc) : Option Int :=
  match s.pc p with
  | .wait (some true) _ => (s.findZombie p).map (fun q => (s.slot q).xstate)
  | _ => none

/-- the shell makes a system call -/
def Sys.enter (s : Sys) (p : Fin nproc) (a : Act) (place : Place) : Option Sys :=
  (step s.kernel p a).map (fun k => { s with kernel := k, place := place })

/-- the system calls outside of `pork`, of the loop and of `exit`; `panic` prints -/
def Place.calls : Place → Act → Bool
  | .ready, .kill _ => true
  | .ready, .strace => true
  | .ready, .benchmarkReset => true
  | .ready, .other _ => true
  | .panic, .other _ => true
  | _, _ => false

/-- `exit` is a command and the end of `main`, `panic` exits with 1, and a process that was killed exits
with -1 on its way out of the kernel -/
def Sys.mayExit (s : Sys) (p : Fin nproc) (status : Int) : Bool :=
  s.place = .ready || (s.place = .panic && status = 1) ||
    (s.place ≠ .gone && (s.kernel.slot p).killed && status = -1)

def shellStep (p : Fin nproc) (s : Sys) : Move → Option Sys
  | .call a => if s.place.calls a then s.enter p a s.place else none
  | .run background memory =>
    if s.place = .ready then s.enter p (.fork memory) (.pork background) else none
  | .forked =>
    match s.place, s.kernel.pc p with
    | .pork background, .user pid =>
      if pid = -1 then some { s with place := .panic }
      else if 0 < pid then
        if background then some { s with place := .ready, jobs := pid :: s.jobs }
        else some { s with place := .call pid }
      else none
    | _, _ => none
  | .wait =>
    match s.place with
    | .call pid => s.enter p (.wait2 (some true) none) (.wait pid)
    | _ => none
  | .test =>
    match s.place, s.kernel.pc p with
    | .wait pid, .user a0 =>
      if a0 = pid then some { s with place := .ready, exitStatus := s.status }
      else some { s with place := .call pid }
    | _, _ => none
  | .exit status => if s.mayExit p status then s.enter p (.exit status) .gone else none
  | .advance =>
    if s.place = .gone then none
    else
      (step s.kernel p .advance).map (fun k =>
        { s with kernel := k, status := (copied s.kernel p).getD s.status })

def sysStep (p : Fin nproc) (s : Sys) : Event → Option Sys
  | .shell m => shellStep p s m
  | .other q a =>
    if q = p ∧ s.place ≠ .gone then none
    else (step s.kernel q a).map (fun k => { s with kernel := k })

def SysStep (p : Fin nproc) (s : Sys) (e : Event) (t : Sys) : Prop := sysStep p s e = some t

def Sys.start (k : State) : Sys := ⟨k, .ready, 0, 0, []⟩

/-! ## the loop -/

/-- the shell is in the loop for `pid` -/
def Sys.Loops (s : Sys) (pid : Int) : Prop := s.place = .call pid ∨ s.place = .wait pid

/-- the child `pid` has exited -/
def Sys.Exited (s : Sys) (pid : Int) : Prop :=
  ∃ (k : Nat) (v : Int), k = pid ∧ (k, v) ∈ s.kernel.hist.exited

/-- `v` is the exit status of the child `pid`, which the shell forked for its foreground and which its
`wait` has returned -/
structure Received (s : Sys) (p : Fin nproc) (pid v : Int) : Prop where
  reap : ∃ x ∈ s.kernel.hist.reaped, x.child = pid ∧ x.status = v ∧
    x.waiter = (s.kernel.slot p).pid ∧ x.forker = (s.kernel.slot p).pid ∧
    (x.child, x.status) ∈ s.kernel.hist.exited
  own : ∀ (k : Nat) (w : Int), k = pid → (k, w) ∈ s.kernel.hist.exited → w = v
  foreground : pid ∉ s.jobs

def Sys.Ended (s : Sys) (p : Fin nproc) (pid : Int) : Prop :=
  s.place = .ready ∧ Received s p pid s.exitStatus

/-- the shell goes on, all other processes stand still -/
def ByShell (_ : Sys) (e : Event) : Prop := ∃ m, e = .shell m

/-! ## the invariant -/

/-- the process in slot `q` is a child of the shell, not a background job, and there to be reaped -/
structure Awaited (s : Sys) (p q : Fin nproc) (pid : Int) : Prop where
  other : q ≠ initproc
  there : s.kernel.There q
  forker : s.kernel.hist.forker q = (s.kernel.slot p).pid
  same : (s.kernel.slot q).pid = pid
  foreground : pid ∉ s.jobs

/-- the child that `fork` is making, or has made -/
def Making (s : Sys) (p : Fin nproc) : Pc → Prop
  | .fork _ => True
  | .forked _ => True
  | .ret v => v = -1 ∨ ∃ q, Awaited s p q v
  | .user v => v = -1 ∨ ∃ q, Awaited s p q v
  | _ => False

def Waiting (s : Sys) (p : Fin nproc) (pid : Int) : Pc → Prop
  | .wait addr res => addr = some true ∧ res = none ∧ ∃ q, Awaited s p q pid
  | .asleep addr res => addr = some true ∧ res = none ∧ ∃ q, Awaited s p q pid
  | .ret v => v = pid ∧ Received s p pid s.status ∨ v ≠ pid ∧ ∃ q, Awaited s p q pid
  | .user v => v = pid ∧ Received s p pid s.status ∨ v ≠ pid ∧ ∃ q, Awaited s p q pid
  | _ => False

def At (s : Sys) (p : Fin nproc) : Place → Pc → Prop
  | .pork _, pc => Making s p pc
  | .call pid, pc => (∃ a0, pc = .user a0) ∧ ∃ q, Awaited s p q pid
  | .wait pid, pc => Waiting s p pid pc
  | _, _ => True

def Known (s : State) (k : Nat) : Prop :=
  (∃ q, s.There q ∧ (s.slot q).pid = k) ∨ ∃ x ∈ s.hist.reaped, x.child = k

structure Runs (s : Sys) (p : Fin nproc) : Prop where
  live : (s.kernel.slot p).state = .live
  stays : ∀ status, s.kernel.pc p ≠ .exit status
  place : At s p s.place (s.kernel.pc p)

structure Ok (p : Fin nproc) (s : Sys) : Prop where
  inv : Inv s.kernel
  missed : ∀ q, NoneMissed s.kernel q
  jobs : ∀ b ∈ s.jobs, ∃ k : Nat, (k : Int) = b ∧ Known s.kernel k
  runs : s.place ≠ .gone → Runs s p

section
variable {s t : Sys} {k k' : State} {p q r : Fin nproc} {a : Act} {pid v : Int} {place : Place}
  {pc pc' : Pc}

/-! ## what a step of the kernel keeps -/

theorem Known.step {n : Nat} (h : Inv k) (hs : Step k (r, a) k') (hn : Known k n) : Known k' n := by
  rcases hn with ⟨q, hq, rfl⟩ | ⟨x, hx, rfl⟩
  · rcases stays_step h hs hq with ⟨-, x, hd⟩ | hst
    · refine Or.inr ⟨x, ?_, hd.child⟩
      rw [hd.reaped]
      exact List.mem_cons_self
    · exact Or.inl ⟨q, hst.there hq, hst.pid⟩
  · exact Or.inr ⟨x, (grows_step hs).2.2.subset hx, rfl⟩

theorem Awaited.step (h : Inv s.kernel) (hs : Step s.kernel (r, a) t.kernel)
    (hp : (s.kernel.slot p).state = .live) (hpid : (t.kernel.slot p).pid = (s.kernel.slot p).pid)
    (hj : t.jobs = s.jobs) (hq : Awaited s p q pid) :
    (r = p ∧ s.kernel.findZombie p = some q ∧ t.kernel.hist.reaped ≠ s.kernel.hist.reaped) ∨
      Awaited t p q pid := by
  rcases stays_step h hs hq.there with ⟨hz, x, hd⟩ | hst
  · left
    have hpar := parent_of_child h hp ⟨hq.other, hq.there, Or.inl hq.forker.symm⟩
    obtain rfl : r = p := Option.some.inj ((findZombie_spec hz).1.symm.trans hpar)
    refine ⟨rfl, hz, ?_⟩
    rw [hd.reaped]
    exact List.cons_ne_self x _
  · right
    refine ⟨hq.other, hst.there hq.there, ?_, ?_, ?_⟩
    · rw [hst.forker, hpid]
      exact hq.forker
    · rw [hst.pid]
      exact hq.same
    · rw [hj]
      exact hq.foreground

theorem Received.step (ht : Inv t.kernel) (hs : Step s.kernel (r, a) t.kernel)
    (hpid : (t.kernel.slot p).pid = (s.kernel.slot p).pid) (hj : t.jobs = s.jobs)
    (hr : Received s p pid v) : Received t p pid v := by
  obtain ⟨-, hexit, hreap⟩ := grows_step hs
  obtain ⟨x, hx, hchild, hstatus, hwaiter, hforker, hex⟩ := hr.reap
  refine ⟨⟨x, hreap.subset hx, hchild, hstatus, hwaiter.trans hpid.symm, hforker.trans hpid.symm,
    hexit.subset hex⟩, fun k w hk hw => ?_, ?_⟩
  · obtain rfl : k = x.child := Int.ofNat.inj (hk.trans hchild.symm)
    exact (exited_unique ht hw (hexit.subset hex)).trans hstatus
  · rw [hj]
    exact hr.foreground

theorem At.mono (haw : ∀ q v, Awaited s p q v → Awaited t p q v)
    (hrec : ∀ v, Received s p v s.status → Received t p v t.status) (hr : pc.Rouses pc')
    (h : At s p place pc) : At t p place pc' := by
  have haw' : ∀ {v : Int}, (∃ q, Awaited s p q v) → ∃ q, Awaited t p q v :=
    fun ⟨q, hq⟩ => ⟨q, haw q _ hq⟩
  cases place with
  | ready | panic | gone => trivial
  | pork background =>
    rcases hr with rfl | ⟨addr, res, rfl, -⟩
    · cases pc' with
      | fork | forked => trivial
      | ret v | user v => exact Or.imp id haw' h
      | exit | wait | asleep => exact h
    · exact h.elim
  | call pid =>
    obtain ⟨⟨a0, rfl⟩, hq⟩ := h
    rcases hr with rfl | ⟨_, _, he, -⟩
    · exact ⟨⟨a0, rfl⟩, haw' hq⟩
    · exact absurd he nofun
  | wait pid =>
    rcases hr with rfl | ⟨addr, res, rfl, rfl⟩
    · cases pc' with
      | fork | forked | exit => exact h
      | wait | asleep => exact ⟨h.1, h.2.1, haw' h.2.2⟩
      | ret v | user v => exact Or.imp (And.imp_right (hrec pid)) (And.imp_right haw') h
    · exact ⟨h.1, h.2.1, haw' h.2.2⟩

/-! ## every step keeps the invariant -/

theorem Ok.of_step (h : Ok p s) (hs : Step s.kernel (r, a) t.kernel) (hj : t.jobs = s.jobs)
    (hruns : t.place ≠ .gone → Runs t p) : Ok p t := by
  refine ⟨h.inv.step hs, noneMissed_step h.inv h.missed hs, fun b hb => ?_, hruns⟩
  rw [hj] at hb
  obtain ⟨n, hn, hk⟩ := h.jobs b hb
  exact ⟨n, hn, hk.step h.inv hs⟩

theorem Ok.other (h : Ok p s) (hs : Step s.kernel (r, a) k) (hr : r = p → s.place = .gone) :
    Ok p { s with kernel := k } := by
  refine h.of_step hs rfl fun hg => ?_
  have hne : p ≠ r := fun e => hg (hr e.symm)
  obtain ⟨hlive, hstays, hplace⟩ := h.runs hg
  obtain ⟨hl, hpid⟩ := live_step h.inv hs hlive fun e => absurd e hne
  have hrouses := (rouses_step h.inv hs hne).resolve_right fun e => e.1 hlive
  refine ⟨hl, fun status e => ?_, hplace.mono (fun q v hq => ?_) (fun v hv => ?_) hrouses⟩
  · rcases hrouses with e' | ⟨_, _, -, e'⟩
    · exact hstays status (e'.symm.trans e)
    · exact absurd (e'.symm.trans e) nofun
  · exact (hq.step h.inv (t := { s with kernel := k }) hs hlive hpid rfl).resolve_left
      fun e => hne e.1.symm
  · exact hv.step (t := { s with kernel := k }) (h.inv.step hs) hs hpid rfl

/-- the child that `fork` starts is none of the jobs -/
theorem awaited_of_child {np : Fin nproc} (h : Ok p s) (hlive : (s.kernel.slot p).state = .live)
    (hpc : s.kernel.pc p = .forked np) (hs : Step s.kernel (p, .advance) t.kernel)
    (hj : t.jobs = s.jobs) : t.kernel.pc p = .ret (s.kernel.slot np).pid ∧
      Awaited t p np (s.kernel.slot np).pid := by
  obtain ⟨hused, -, hforker⟩ := h.inv.child p np true hlive (by rw [hpc]; rfl)
  obtain ⟨-, hpid⟩ := live_step h.inv hs hlive fun _ status e => absurd (hpc.symm.trans e) nofun
  have ht : t.kernel = ((s.kernel.setSlot np { s.kernel.slot np with state := .live }).goto np
      (.user 0)).goto p (.ret (s.kernel.slot np).pid) := by
    unfold Step step at hs
    rw [if_neg (not_not.mpr hlive)] at hs
    dsimp only at hs
    unfold advance at hs
    rw [hpc] at hs
    exact (Option.some.inj hs).symm
  have hself : t.kernel.slot np = { s.kernel.slot np with state := .live } := by
    rw [ht]
    exact State.setSlot_self
  refine ⟨by rw [ht, State.goto_self], ?_, Or.inl (by rw [hself]), ?_, by rw [hself], ?_⟩
  · rintro rfl
    exact absurd (h.inv.init.1.symm.trans hused) nofun
  · rw [hpid, ← hforker, ht]
    rfl
  · rw [hj]
    intro hb
    obtain ⟨n, hn, hknown⟩ := h.jobs _ hb
    obtain rfl := Int.ofNat.inj hn
    have hnp : (s.kernel.slot np).state ≠ .unused := by
      rw [hused]
      exact nofun
    rcases hknown with ⟨q, hq, hqpid⟩ | ⟨x, hx, hxpid⟩
    · have hq' : (s.kernel.slot q).state ≠ .unused := by
        rcases hq with e | e <;> rw [e] <;> exact nofun
      obtain rfl := h.inv.pidInj q np hq' hnp hqpid
      rcases hq with e | e <;> exact absurd (e.symm.trans hused) nofun
    · exact (h.inv.reaped x hx).2 np hnp hxpid.symm

/-- the scan of a `wait` in the loop: it returns the child with its status, or another one, or none -/
theorem waiting_scan (h : Ok p s) (hrun : Runs s p) (hpc : s.kernel.pc p = .wait (some true) none)
    (hq : Awaited s p q pid) (hs : Step s.kernel (p, .advance) t.kernel)
    (ht : t.kernel = wait2 s.kernel p (some true) none) (hj : t.jobs = s.jobs)
    (hst : t.status = (copied s.kernel p).getD s.status) :
    Waiting t p pid (t.kernel.pc p) := by
  obtain ⟨-, hpid⟩ := live_step h.inv hs hrun.live fun _ => hrun.stays
  have ht' : Inv t.kernel := h.inv.step hs
  have hkeep := hq.step h.inv hs hrun.live hpid hj
  cases hz : s.kernel.findZombie p with
  | none =>
    have hq' : Awaited t p q pid := hkeep.resolve_left fun e => absurd (hz.symm.trans e.2.1) nofun
    have he : t.kernel.pc p = .ret (-1) ∨ t.kernel.pc p = .asleep (some true) none := by
      rw [ht]
      unfold wait2
      rw [hz]
      dsimp only
      split
      · exact Or.inl State.goto_self
      · exact Or.inr State.goto_self
    rcases he with e | e
    · rw [e]
      refine Or.inr ⟨fun h1 => ?_, q, hq'⟩
      have hneg := h1.trans hq.same.symm
      omega
    · rw [e]
      exact ⟨rfl, rfl, q, hq'⟩
  | some z =>
    have haddr : (some true : Option Bool) ≠ some false := nofun
    have hres : (none : Option Bool) ≠ some false := nofun
    obtain ⟨x, hd⟩ := delivers_of_zombie h.inv hz haddr hres
    rw [← ht] at hd
    have hzst := (findZombie_spec hz).2
    have hcopied : t.status = (s.kernel.slot z).xstate := by
      rw [hst]
      unfold copied
      rw [hpc]
      dsimp only
      rw [hz]
      rfl
    have hown : (x.child, (s.kernel.slot z).xstate) ∈ s.kernel.hist.exited := by
      rw [hd.child]
      exact h.inv.zombie z hzst
    have hstatus : x.status = t.status := by
      rw [hcopied]
      exact exited_unique h.inv hd.exited hown
    obtain ⟨-, hexit, -⟩ := grows_step hs
    rw [hd.ret]
    by_cases e : (x.child : Int) = pid
    · left
      have hchild : (s.kernel.slot z).pid = (s.kernel.slot q).pid := by
        rw [← hd.child]
        exact Int.ofNat.inj (e.trans hq.same.symm)
      have hzq : z = q := by
        refine h.inv.pidInj z q (by rw [hzst]; exact nofun) ?_ hchild
        rcases hq.there with e' | e' <;> rw [e'] <;> exact nofun
      subst hzq
      refine ⟨e, ⟨x, ?_, e, hstatus, hd.waiter.trans hpid.symm, ?_, hexit.subset hd.exited⟩, ?_, ?_⟩
      · rw [hd.reaped]
        exact List.mem_cons_self
      · rw [hd.forker, hq.forker, hpid]
      · intro k w hk hw
        obtain rfl : k = x.child := Int.ofNat.inj (hk.trans e.symm)
        rw [hcopied]
        exact exited_unique ht' hw (hexit.subset hown)
      · rw [hj]
        exact hq.foreground
    · refine Or.inr ⟨e, q, hkeep.resolve_left fun h1 => e ?_⟩
      obtain rfl := Option.some.inj (hz.symm.trans h1.2.1)
      rw [hd.child]
      exact hq.same

theorem wait2_stays (h : Inv k) (addr res : Option Bool) (status : Int) :
    (wait2 k p addr res).pc p ≠ .exit status := by
  rcases wait2_cases h p addr res with ⟨q, x, hd⟩ | ⟨e, -⟩ | e
  · rw [hd.ret]
    exact nofun
  · rw [e, State.goto_self]
    exact nofun
  · rw [e, State.goto_self]
    exact nofun

/-- the kernel goes on in a call of the shell -/
theorem Ok.advance (h : Ok p s) (hg : s.place ≠ .gone) (hs : Step s.kernel (p, .advance) k) :
    Ok p { s with kernel := k, status := (copied s.kernel p).getD s.status } := by
  refine h.of_step hs rfl fun _ => ?_
  have hrun := h.runs hg
  obtain ⟨hlive, hstays, hplace⟩ := h.runs hg
  obtain ⟨hl, hpid⟩ := live_step h.inv hs hlive fun _ => hstays
  obtain ⟨-, htr⟩ := hs.trans
  have haw : k.hist.reaped = s.kernel.hist.reaped → ∀ v, (∃ q, Awaited s p q v) → ∃ q, Awaited
      { s with kernel := k, status := (copied s.kernel p).getD s.status } p q v := by
    rintro he v ⟨q, hq⟩
    rcases hq.step h.inv (t := { s with kernel := k, status := (copied s.kernel p).getD s.status })
      hs hlive hpid rfl with e | e
    · exact absurd he e.2.2
    · exact ⟨q, e⟩
  suffices hkey : ∀ place, At s p place (s.kernel.pc p) → (∀ status, k.pc p ≠ .exit status) ∧
      At { s with kernel := k, status := (copied s.kernel p).getD s.status } p place (k.pc p) from
    ⟨hl, (hkey _ hplace).1, (hkey _ hplace).2⟩
  intro place hplace
  cases htr with
  | parent hpc =>
    rw [State.goto_self]
    rw [hpc] at hplace
    refine ⟨nofun, ?_⟩
    cases place with
    | ready | panic | gone | pork => trivial
    | call => exact absurd hplace.1 nofun
    | wait => exact hplace.elim
  | child hpc =>
    have hq := (awaited_of_child h hlive hpc (t := { s with kernel := _ }) hs rfl).2
    rw [State.goto_self]
    rw [hpc] at hplace
    refine ⟨nofun, ?_⟩
    cases place with
    | ready | panic | gone => trivial
    | pork => exact Or.inr ⟨_, hq.other, hq.there, hq.forker, hq.same, hq.foreground⟩
    | call => exact absurd hplace.1 nofun
    | wait => exact hplace.elim
  | exit hpc => exact absurd hpc (hstays _)
  | scan hpc =>
    rw [hpc] at hplace
    refine ⟨wait2_stays h.inv _ _, ?_⟩
    cases place with
    | ready | panic | gone => trivial
    | pork => exact hplace.elim
    | call => exact absurd hplace.1 nofun
    | wait pid =>
      obtain ⟨rfl, rfl, q, hq⟩ := hplace
      exact waiting_scan h hrun hpc hq (t := { s with kernel := _, status := _ }) hs rfl rfl rfl
  | count hpc =>
    rw [State.goto_self]
    rw [hpc] at hplace
    refine ⟨nofun, ?_⟩
    have hst : (copied s.kernel p).getD s.status = s.status := by
      unfold copied
      rw [hpc]
      rfl
    cases place with
    | ready | panic | gone => trivial
    | pork => exact Or.imp id (haw rfl _) hplace
    | call => exact absurd hplace.1 nofun
    | wait pid =>
      refine Or.imp (And.imp_right fun hr => ?_) (And.imp_right (haw rfl pid)) hplace
      show Received _ p pid ((copied s.kernel p).getD s.status)
      rw [hst]
      exact hr.step (h.inv.step hs) hs hpid rfl

theorem stays_of_call (hs : Step k (p, a) k') (ha : a ≠ .advance) (he : ∀ status, a ≠ .exit status) :
    ∀ status, k'.pc p ≠ .exit status := by
  intro status
  obtain ⟨-, htr⟩ := hs.trans
  cases htr with
  | parent | child | exit | scan | count => exact absurd rfl ha
  | exiting => exact absurd rfl (he _)
  | waiting | kill | strace | reset | other =>
    rw [State.goto_self]
    exact nofun
  | fork memory hpc =>
    unfold fork
    split
    · rw [State.goto_self]
      exact nofun
    · dsimp only
      split
      · rw [State.goto_self]
        exact nofun
      · rw [State.goto_self]
        exact nofun

theorem step_fork {memory : Bool} (hs : Step k (p, .fork memory) k') : k'.pc p = .ret (-1) ∨
    ∃ np, k'.pc p = .fork np := by
  obtain ⟨-, htr⟩ := hs.trans
  cases htr
  unfold fork
  split
  · exact Or.inl State.goto_self
  · dsimp only
    split
    · exact Or.inr ⟨_, State.goto_self⟩
    · exact Or.inl State.goto_self

theorem step_wait2 {addr res : Option Bool} (hs : Step k (p, .wait2 addr res) k') :
    k' = k.goto p (.wait addr res) := by
  obtain ⟨-, htr⟩ := hs.trans
  cases htr
  rfl

/-- the shell calls the kernel, and is where it says -/
theorem Ok.enter (h : Ok p s) (hg : s.place ≠ .gone) (hs : s.enter p a place = some t)
    (hat : place ≠ .gone → Step s.kernel (p, a) t.kernel → t.jobs = s.jobs →
      (∀ status, t.kernel.pc p ≠ .exit status) ∧ At t p place (t.kernel.pc p)) : Ok p t := by
  obtain ⟨k, hk, rfl⟩ := Option.map_eq_some_iff.mp hs
  have hstep : Step s.kernel (p, a) k := hk
  refine h.of_step hstep rfl fun hne => ?_
  obtain ⟨hlive, hstays, -⟩ := h.runs hg
  obtain ⟨h1, h2⟩ := hat hne hstep rfl
  exact ⟨(live_step h.inv hstep hlive fun _ => hstays).1, h1, h2⟩

theorem Awaited.congr (hk : t.kernel = s.kernel) (hj : t.jobs = s.jobs) (h : Awaited s p q pid) :
    Awaited t p q pid := by
  obtain ⟨h1, h2, h3, h4, h5⟩ := h
  exact ⟨h1, by rwa [hk], by rwa [hk], by rwa [hk], by rwa [hj]⟩

theorem Ok.local (h : Ok p s) (hk : t.kernel = s.kernel) (hg : s.place ≠ .gone)
    (hj : ∀ b ∈ t.jobs, ∃ n : Nat, (n : Int) = b ∧ Known s.kernel n)
    (hat : At t p t.place (s.kernel.pc p)) : Ok p t := by
  obtain ⟨hlive, hstays, -⟩ := h.runs hg
  exact ⟨hk ▸ h.inv, hk ▸ h.missed, hk ▸ hj, fun _ => ⟨hk ▸ hlive, hk ▸ hstays, hk ▸ hat⟩⟩

theorem Ok.forked (h : Ok p s) (hs : shellStep p s .forked = some t) : Ok p t := by
  rw [shellStep] at hs
  split at hs
  · rename_i background pid hplace hpc
    have hg : s.place ≠ .gone := by
      rw [hplace]
      exact nofun
    have hat := (h.runs hg).place
    rw [hplace, hpc] at hat
    split at hs
    · rw [← Option.some.inj hs]
      exact h.local rfl hg h.jobs trivial
    · rename_i hne
      obtain ⟨q, hq⟩ := Or.resolve_left hat hne
      split at hs
      · split at hs
        · rw [← Option.some.inj hs]
          refine h.local rfl hg (fun b hb => ?_) trivial
          rcases List.mem_cons.mp hb with rfl | hb
          · exact ⟨(s.kernel.slot q).pid, hq.same, Or.inl ⟨q, hq.there, rfl⟩⟩
          · exact h.jobs b hb
        · rw [← Option.some.inj hs]
          exact h.local rfl hg h.jobs ⟨⟨pid, hpc⟩, q, hq.congr (s := s) rfl rfl⟩
      · exact absurd hs nofun
  · exact absurd hs nofun

/-- the comparison in the loop ends it at its child, or goes to the next call -/
theorem Ok.test (h : Ok p s) (hs : shellStep p s .test = some t) : Ok p t ∧ ∃ pid,
    s.place = .wait pid ∧ (t.Ended p pid ∨ t.place = .call pid) := by
  rw [shellStep] at hs
  split at hs
  · rename_i pid a0 hplace hpc
    have hg : s.place ≠ .gone := by
      rw [hplace]
      exact nofun
    have hat := (h.runs hg).place
    rw [hplace, hpc] at hat
    rcases hat with ⟨he, hr⟩ | ⟨he, q, hq⟩
    · rw [if_pos he] at hs
      rw [← Option.some.inj hs]
      exact ⟨h.local rfl hg h.jobs trivial, pid, hplace, Or.inl ⟨rfl, hr.reap, hr.own, hr.foreground⟩⟩
    · rw [if_neg he] at hs
      rw [← Option.some.inj hs]
      exact ⟨h.local rfl hg h.jobs ⟨⟨a0, hpc⟩, q, hq.congr (s := s) rfl rfl⟩, pid, hplace, Or.inr rfl⟩
  · exact absurd hs nofun

theorem not_gone_of_calls (h : s.place.calls a = true) : s.place ≠ .gone ∧ a ≠ .advance ∧
    (∀ status, a ≠ .exit status) ∧ ∀ pc, At t p s.place pc := by
  generalize s.place = place at h
  cases place with
  | pork | call | wait | gone => exact absurd h nofun
  | ready | panic =>
    refine ⟨nofun, ?_, fun status => ?_, fun _ => trivial⟩
    · rintro rfl
      exact absurd h nofun
    · rintro rfl
      exact absurd h nofun

theorem Ok.wait (h : Ok p s) (hs : shellStep p s .wait = some t) : Ok p t := by
  rw [shellStep] at hs
  split at hs
  · rename_i pid hplace
    have hg : s.place ≠ .gone := by
      rw [hplace]
      exact nofun
    have hrun := h.runs hg
    have hat := hrun.place
    rw [hplace] at hat
    obtain ⟨-, q, hq⟩ := hat
    refine h.enter hg hs fun _ hstep hj => ⟨stays_of_call hstep nofun nofun, ?_⟩
    have hgoto := step_wait2 hstep
    have hpid := (live_step h.inv hstep hrun.live fun _ => hrun.stays).2
    rw [hgoto, State.goto_self]
    refine ⟨rfl, rfl, q, (hq.step h.inv hstep hrun.live hpid hj).resolve_left fun e => e.2.2 ?_⟩
    rw [hgoto]
    rfl
  · exact absurd hs nofun

theorem Ok.shell {m : Move} (h : Ok p s) (hs : shellStep p s m = some t) : Ok p t := by
  cases m with
  | call a =>
    rw [shellStep] at hs
    split at hs
    · rename_i hc
      obtain ⟨hg, ha, he, hat⟩ := not_gone_of_calls hc
      exact h.enter hg hs fun _ hstep _ => ⟨stays_of_call hstep ha he, hat _⟩
    · exact absurd hs nofun
  | run background memory =>
    rw [shellStep] at hs
    split at hs
    · rename_i hplace
      have hg : s.place ≠ .gone := by
        rw [hplace]
        exact nofun
      refine h.enter hg hs fun _ hstep _ => ⟨stays_of_call hstep nofun nofun, ?_⟩
      rcases step_fork hstep with e | ⟨np, e⟩
      · rw [e]
        exact Or.inl rfl
      · rw [e]
        exact trivial
    · exact absurd hs nofun
  | forked => exact h.forked hs
  | wait => exact h.wait hs
  | test => exact (h.test hs).1
  | exit status =>
    rw [shellStep] at hs
    split at hs
    · rename_i hmay
      refine h.enter (fun hg => ?_) hs fun hg => absurd rfl hg
      unfold Sys.mayExit at hmay
      rw [hg] at hmay
      exact absurd hmay nofun
    · exact absurd hs nofun
  | advance =>
    rw [shellStep] at hs
    split at hs
    · exact absurd hs nofun
    · rename_i hg
      obtain ⟨k, hk, rfl⟩ := Option.map_eq_some_iff.mp hs
      exact h.advance hg hk

theorem Ok.step {e : Event} (h : Ok p s) (hs : SysStep p s e t) : Ok p t := by
  cases e with
  | shell m => exact h.shell hs
  | other q a =>
    unfold SysStep sysStep at hs
    dsimp only at hs
    split at hs
    · exact absurd hs nofun
    · rename_i hno
      obtain ⟨k, hk, rfl⟩ := Option.map_eq_some_iff.mp hs
      exact h.other hk fun e => not_not.mp fun hg => hno ⟨e, hg⟩

end

end Boogsh.Jobs
