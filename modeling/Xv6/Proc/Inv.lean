import Xv6.Proc.Model

/-!
# Parents, pids and zombies

`Inv` holds in every state: who the parent of a process is, that pids are not given twice, and that
a process that has exited is a zombie until it is reaped.  Most steps change nothing that `Inv`
speaks of; `Inv.congr` is for them.
-/

namespace Proc
open Lib

/-! ## what a step can do -/

inductive Trans (s : State) (p : Fin nproc) : Act → State → Prop
  | fork {a0 : Int} (memory : Bool) (h : s.pc p = .user a0) : Trans s p (.fork memory) (fork s p memory)
  | exiting {a0 : Int} (status : Int) (h : s.pc p = .user a0) (hp : p ≠ initproc) :
      Trans s p (.exit status) (s.goto p (.exit status))
  | waiting {a0 : Int} (addr res : Option Bool) (h : s.pc p = .user a0) :
      Trans s p (.wait2 addr res) (s.goto p (.wait addr res))
  | kill {a0 : Int} (pid : Int) (h : s.pc p = .user a0) :
      Trans s p (.kill pid) ((kill s pid).1.goto p (.ret (kill s pid).2))
  | strace {a0 : Int} (h : s.pc p = .user a0) : Trans s p .strace
      (((s.setSlot p { s.slot p with strace := true }).mark p .strace).goto p (.ret 0))
  | reset {a0 : Int} (h : s.pc p = .user a0) : Trans s p .benchmarkReset
      (((s.setSlot p { s.slot p with counter := 0 }).mark p .reset).goto p (.ret 0))
  | other {a0 : Int} (v : Int) (h : s.pc p = .user a0) : Trans s p (.other v) (s.goto p (.ret v))
  | parent {np : Fin nproc} (h : s.pc p = .fork np) : Trans s p .advance
      ((s.setSlot np { s.slot np with parent := some p }).goto p (.forked np))
  | child {np : Fin nproc} (h : s.pc p = .forked np) : Trans s p .advance
      (((s.setSlot np { s.slot np with state := .live }).goto np (.user 0)).goto p
        (.ret (s.slot np).pid))
  | exit {status : Int} (h : s.pc p = .exit status) : Trans s p .advance (exit s p status)
  | scan {addr res : Option Bool} (h : s.pc p = .wait addr res) :
      Trans s p .advance (wait2 s p addr res)
  | count {v : Int} (h : s.pc p = .ret v) : Trans s p .advance
      (((s.setSlot p { s.slot p with counter := incr (s.slot p).counter }).mark p .done).goto p
        (.user v))

theorem Step.trans {s t : State} {p : Fin nproc} {a : Act} (h : Step s (p, a) t) :
    (s.slot p).state = .live ∧ Trans s p a t := by
  unfold Step step at h
  dsimp only at h
  by_cases hlive : (s.slot p).state = .live
  · rw [if_neg (not_not.mpr hlive)] at h
    refine ⟨hlive, ?_⟩
    cases a with
    | advance =>
      dsimp only at h
      unfold advance at h
      cases hpc : s.pc p with
      | user a0 =>
        rw [hpc] at h
        exact absurd h nofun
      | fork np =>
        rw [hpc] at h
        obtain rfl := Option.some.inj h
        exact .parent hpc
      | forked np =>
        rw [hpc] at h
        obtain rfl := Option.some.inj h
        exact .child hpc
      | exit status =>
        rw [hpc] at h
        obtain rfl := Option.some.inj h
        exact .exit hpc
      | wait addr res =>
        rw [hpc] at h
        obtain rfl := Option.some.inj h
        exact .scan hpc
      | asleep addr res =>
        rw [hpc] at h
        exact absurd h nofun
      | ret v =>
        rw [hpc] at h
        obtain rfl := Option.some.inj h
        exact .count hpc
    | fork memory =>
      dsimp only at h
      split at h
      · rename_i hpc
        obtain rfl := Option.some.inj h
        exact .fork memory hpc
      · exact absurd h nofun
    | exit status =>
      dsimp only at h
      split at h
      · rename_i hpc
        split at h
        · exact absurd h nofun
        · rename_i hp
          obtain rfl := Option.some.inj h
          exact .exiting status hpc hp
      · exact absurd h nofun
    | wait2 addr res =>
      dsimp only at h
      split at h
      · rename_i hpc
        obtain rfl := Option.some.inj h
        exact .waiting addr res hpc
      · exact absurd h nofun
    | kill pid =>
      dsimp only at h
      split at h
      · rename_i hpc
        obtain rfl := Option.some.inj h
        exact .kill pid hpc
      · exact absurd h nofun
    | strace =>
      dsimp only at h
      split at h
      · rename_i hpc
        obtain rfl := Option.some.inj h
        exact .strace hpc
      · exact absurd h nofun
    | benchmarkReset =>
      dsimp only at h
      split at h
      · rename_i hpc
        obtain rfl := Option.some.inj h
        exact .reset hpc
      · exact absurd h nofun
    | other v =>
      dsimp only at h
      split at h
      · rename_i hpc
        obtain rfl := Option.some.inj h
        exact .other v hpc
      · exact absurd h nofun
  · rw [if_pos hlive] at h
    exact absurd h nofun

/-! ## the invariant -/

/-- the child of a process that is in `fork`, and whether it has its parent -/
def Pc.child : Pc → Option (Fin nproc × Bool)
  | .fork np => some (np, false)
  | .forked np => some (np, true)
  | _ => none

/-- what a process may be at that starts no `fork` and, if it is `initproc`, no `exit` -/
def Pc.Calm (q : Fin nproc) (pc : Pc) : Prop :=
  pc.child = none ∧ ∀ status, pc = .exit status → q ≠ initproc

def State.gone (s : State) : List Nat := s.hist.exited.map Prod.fst

/-- process `r` is the one that may wait for the process in slot `q`: it forked it, or it is
`initproc` and the one that forked it has exited -/
def Waits (s : State) (r q : Fin nproc) : Prop :=
  (s.slot r).pid = s.hist.forker q ∨ (r = initproc ∧ s.hist.forker q ∈ s.gone)

structure Inv (s : State) : Prop where
  init : (s.slot initproc).state = .live ∧ (s.slot initproc).pid = initpid ∧
    (s.slot initproc).parent = none
  running : ∀ status, s.pc initproc ≠ .exit status
  pidLt : ∀ q, (s.slot q).state ≠ .unused → (s.slot q).pid < s.nextpid
  pidInj : ∀ q r, (s.slot q).state ≠ .unused → (s.slot r).state ≠ .unused →
    (s.slot q).pid = (s.slot r).pid → q = r
  parent : ∀ q r, (s.slot q).parent = some r →
    (s.slot r).state = .live ∧ (s.slot q).state ≠ .unused
  family : ∀ q, q ≠ initproc → (s.slot q).state = .live ∨ (s.slot q).state = .zombie →
    ∃ r, (s.slot q).parent = some r ∧ Waits s r q
  child : ∀ p np b, (s.slot p).state = .live → (s.pc p).child = some (np, b) →
    (s.slot np).state = .used ∧ (s.slot np).parent = (if b then some p else none) ∧
      s.hist.forker np = (s.slot p).pid
  exitedLt : ∀ k ∈ s.gone, k < s.nextpid
  exitedNodup : s.gone.Nodup
  stays : ∀ q, (s.slot q).state = .live ∨ (s.slot q).state = .used → (s.slot q).pid ∉ s.gone
  zombie : ∀ q, (s.slot q).state = .zombie → ((s.slot q).pid, (s.slot q).xstate) ∈ s.hist.exited
  reaped : ∀ x ∈ s.hist.reaped, x.child ∈ s.gone ∧
    ∀ q, (s.slot q).state ≠ .unused → (s.slot q).pid ≠ x.child
  once : (s.hist.reaped.map Reap.child).Nodup

section
variable {s t : State} {p q r np : Fin nproc} {pc : Pc} {x : Slot}

@[simp] theorem State.goto_self : (s.goto p pc).pc p = pc := Function.update_self ..

theorem State.goto_of_ne (h : q ≠ p) : (s.goto p pc).pc q = s.pc q := Function.update_of_ne h _ _

@[simp] theorem State.setSlot_self : (s.setSlot p x).slot p = x := Function.update_self ..

theorem State.setSlot_of_ne (h : q ≠ p) : (s.setSlot p x).slot q = s.slot q :=
  Function.update_of_ne h _ _

/-- the fields that `Inv` speaks of -/
structure Slot.Same (x y : Slot) : Prop where
  state : x.state = y.state
  pid : x.pid = y.pid
  parent : x.parent = y.parent
  xstate : x.xstate = y.xstate

theorem Slot.Same.rfl' (x : Slot) : x.Same x := ⟨rfl, rfl, rfl, rfl⟩

theorem same_setSlot (h : x.Same (s.slot p)) (q : Fin nproc) :
    ((s.setSlot p x).slot q).Same (s.slot q) := by
  by_cases e : q = p
  · subst e
    rw [State.setSlot_self]
    exact h
  · rw [State.setSlot_of_ne e]
    exact .rfl' _

theorem Inv.congr (h : Inv s) (hslot : ∀ q, (t.slot q).Same (s.slot q))
    (hn : t.nextpid = s.nextpid) (hf : t.hist.forker = s.hist.forker)
    (he : t.hist.exited = s.hist.exited) (hr : t.hist.reaped = s.hist.reaped)
    (hpc : ∀ q, t.pc q = s.pc q ∨ (t.pc q).Calm q) : Inv t := by
  have hg : t.gone = s.gone := by
    unfold State.gone
    rw [he]
  have hw : ∀ r q, Waits s r q → Waits t r q := by
    intro r q hw
    unfold Waits
    rw [(hslot r).pid, hf, hg]
    exact hw
  constructor
  · rw [(hslot _).state, (hslot _).pid, (hslot _).parent]
    exact h.init
  · intro status e
    rcases hpc initproc with e' | e'
    · exact h.running status (e'.symm.trans e)
    · exact e'.2 status e rfl
  · intro q hq
    rw [(hslot q).state] at hq
    rw [(hslot q).pid, hn]
    exact h.pidLt q hq
  · intro q r hq hr' e
    rw [(hslot q).state] at hq
    rw [(hslot r).state] at hr'
    rw [(hslot q).pid, (hslot r).pid] at e
    exact h.pidInj q r hq hr' e
  · intro q r e
    rw [(hslot q).parent] at e
    rw [(hslot r).state, (hslot q).state]
    exact h.parent q r e
  · intro q hq hs
    rw [(hslot q).state] at hs
    obtain ⟨r, h1, h2⟩ := h.family q hq hs
    exact ⟨r, (hslot q).parent.trans h1, hw r q h2⟩
  · intro p np b hp hc
    rw [(hslot p).state] at hp
    rw [(hslot np).state, (hslot np).parent, (hslot p).pid, hf]
    rcases hpc p with e | e
    · exact h.child p np b hp (e ▸ hc)
    · exact absurd (e.1.symm.trans hc) nofun
  · rw [hg, hn]
    exact h.exitedLt
  · rw [hg]
    exact h.exitedNodup
  · intro q hq
    rw [(hslot q).state] at hq
    rw [(hslot q).pid, hg]
    exact h.stays q hq
  · intro q hq
    rw [(hslot q).state] at hq
    rw [(hslot q).pid, (hslot q).xstate, he]
    exact h.zombie q hq
  · rw [hr, hg]
    intro y hy
    obtain ⟨h1, h2⟩ := h.reaped y hy
    refine ⟨h1, fun q hq => ?_⟩
    rw [(hslot q).state] at hq
    rw [(hslot q).pid]
    exact h2 q hq
  · rw [hr]
    exact h.once

theorem calm_goto (hpc : pc.Calm p) (q : Fin nproc) :
    (s.goto p pc).pc q = s.pc q ∨ ((s.goto p pc).pc q).Calm q := by
  by_cases e : q = p
  · subst e
    rw [State.goto_self]
    exact Or.inr hpc
  · rw [State.goto_of_ne e]
    exact Or.inl rfl

theorem Inv.goto (h : Inv s) (hpc : pc.Calm p) : Inv (s.goto p pc) :=
  h.congr (fun _ => .rfl' _) rfl rfl rfl rfl (calm_goto hpc)

theorem Pc.calm_user (a0 : Int) : (Pc.user a0).Calm p := ⟨rfl, nofun⟩

theorem Pc.calm_ret (v : Int) : (Pc.ret v).Calm p := ⟨rfl, nofun⟩

theorem Pc.calm_wait (addr res : Option Bool) : (Pc.wait addr res).Calm p := ⟨rfl, nofun⟩

theorem Pc.calm_asleep (addr res : Option Bool) : (Pc.asleep addr res).Calm p := ⟨rfl, nofun⟩

/-! ## `wakeup` -/

/-- `wakeup` moves a process from its sleep to the head of the loop, and does nothing else -/
structure Woken (s t : State) : Prop where
  slot : t.slot = s.slot
  nextpid : t.nextpid = s.nextpid
  hist : t.hist = s.hist
  pc : ∀ r, t.pc r = s.pc r ∨ ∃ addr res, t.pc r = .wait addr res

theorem woken_wakeup (s : State) (q : Fin nproc) : Woken s (s.wakeup q) := by
  unfold State.wakeup
  split
  · rename_i addr res hpc
    refine ⟨rfl, rfl, rfl, fun r => ?_⟩
    by_cases e : r = q
    · subst e
      exact Or.inr ⟨addr, res, State.goto_self⟩
    · exact Or.inl (State.goto_of_ne e)
  · exact ⟨rfl, rfl, rfl, fun _ => Or.inl rfl⟩

theorem Woken.calm (h : Woken s t) (q : Fin nproc) : t.pc q = s.pc q ∨ (t.pc q).Calm q := by
  rcases h.pc q with e | ⟨addr, res, e⟩
  · exact Or.inl e
  · rw [e]
    exact Or.inr (Pc.calm_wait addr res)

theorem Inv.woken (h : Inv s) (hw : Woken s t) : Inv t := by
  refine h.congr (fun r => ?_) hw.nextpid ?_ ?_ ?_ hw.calm
  · rw [hw.slot]
    exact .rfl' _
  · rw [hw.hist]
  · rw [hw.hist]
  · rw [hw.hist]

theorem Inv.kill (h : Inv s) (pid : Int) : Inv (kill s pid).1 := by
  unfold Proc.kill
  split
  · exact h
  · rename_i q hq
    have hs : Inv (s.setSlot q { s.slot q with killed := true }) :=
      h.congr (same_setSlot ⟨rfl, rfl, rfl, rfl⟩) rfl rfl rfl rfl (fun _ => Or.inl rfl)
    exact hs.woken (woken_wakeup _ q)

end

end Proc
