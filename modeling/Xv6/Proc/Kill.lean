import Xv6.Proc.Count
import Xv6.Proc.Family

/-!
# `kill`

A slot that is not in use has the pid 0, so `kill(0)` finds one as long as there is one.  The flag
that it sets there stays when `allocproc` takes the slot.
-/

namespace Proc
open Lib

def State.InUse (s : State) (q : Fin nproc) : Prop := (s.slot q).state ≠ .unused

/-- only the flag of `q` has changed, and `q` does not sleep any more -/
structure Flagged (s t : State) (q : Fin nproc) : Prop where
  slot : t.slot = Function.update s.slot q { s.slot q with killed := true }
  pc : ∀ r, r ≠ q → t.pc r = s.pc r
  wakes : (s.pc q).Rouses (t.pc q)
  nextpid : t.nextpid = s.nextpid
  hist : t.hist = s.hist

/-- `kill(pid)` flags the process with that pid, or there is none and it returns -1 -/
def Exact (s : State) (pid : Int) : Prop :=
  (∃ q, s.InUse q ∧ (s.slot q).pid = pid ∧ (kill s pid).2 = 0 ∧ Flagged s (kill s pid).1 q) ∨
    ((∀ q, s.InUse q → (s.slot q).pid ≠ pid) ∧ kill s pid = (s, -1))

/-- the pid is not 0, or the table is full -/
def Harmless (s : State) (pid : Int) : Prop := pid ≠ 0 ∨ ∀ q, s.InUse q

/-- what a step does to the slot `q` -/
inductive Fate (s : State) (a : Act) (t : State) (q : Fin nproc) : Prop
  | kept (state : t.InUse q ↔ s.InUse q) (pid : (t.slot q).pid = (s.slot q).pid)
      (killed : (t.slot q).killed = (s.slot q).killed)
  | flagged (pid : Int) (call : a = .kill pid) (found : (s.slot q).pid = pid)
      (slot : t.slot q = { s.slot q with killed := true })
  | freed (x : Slot) (slot : t.slot q = freeproc x)
  | born (unused : ¬ s.InUse q) (slot : t.slot q = { s.slot q with pid := s.nextpid, state := .used })

/-- the pids of a table: 0 is for the slots that are not in use -/
structure Numbered (s : State) : Prop where
  next : 0 < s.nextpid
  unused : ∀ q, ¬ s.InUse q → (s.slot q).pid = 0
  used : ∀ q, s.InUse q → (s.slot q).pid ≠ 0

/-- no slot that is not in use is flagged -/
def Unflagged (s : State) : Prop := ∀ q, ¬ s.InUse q → (s.slot q).killed = false

section
variable {s t : State} {p q z : Fin nproc} {a : Act} {x : Slot} {pid : Int}

/-! ## one slot, one step -/

theorem Fate.of_eq (h : t.slot q = s.slot q) : Fate s a t q := by
  refine .kept ?_ (congrArg Slot.pid h) (congrArg Slot.killed h)
  unfold State.InUse
  rw [h]

theorem Fate.of_setSlot (ht : t.slot = (s.setSlot z x).slot)
    (hstate : x.state = .unused ↔ (s.slot z).state = .unused) (hpid : x.pid = (s.slot z).pid)
    (hkilled : x.killed = (s.slot z).killed) (q : Fin nproc) : Fate s a t q := by
  by_cases e : q = z
  · have hq : t.slot q = x := by rw [ht, e, State.setSlot_self]
    refine .kept ?_ ?_ ?_
    · unfold State.InUse
      rw [hq, e]
      exact not_congr hstate
    · rw [hq, e]
      exact hpid
    · rw [hq, e]
      exact hkilled
  · exact .of_eq (by rw [ht, State.setSlot_of_ne e])

theorem buried_killed (status : Int) : (buried s p status q).killed = (s.slot q).killed := by
  unfold buried
  dsimp only
  split
  · split
    · rfl
    · rfl
  · split
    · rfl
    · rfl

theorem fate_fork (memory : Bool) (q : Fin nproc) : Fate s a (fork s p memory) q := by
  unfold fork
  cases hf : s.firstUnused with
  | none => exact .of_eq rfl
  | some np =>
    have hu : ¬ s.InUse np := not_not.mpr (firstUnused_spec hf)
    by_cases e : q = np
    · subst e
      cases memory with
      | true => exact .born hu (allocproc_slot_self (p := p))
      | false => exact .freed _ State.setSlot_self
    · cases memory with
      | true => exact .of_eq (allocproc_slot_of_ne (p := p) e)
      | false => exact .of_eq ((State.setSlot_of_ne e).trans (allocproc_slot_of_ne (p := p) e))

theorem kill_flagged (hz : Fin.find? (fun q => ((s.slot q).pid : Int) = pid) = some z) :
    (kill s pid).2 = 0 ∧ Flagged s (kill s pid).1 z := by
  unfold kill
  rw [hz]
  have hw := woken_wakeup (s.setSlot z { s.slot z with killed := true }) z
  refine ⟨rfl, hw.slot, fun r hr => ?_, ?_, hw.nextpid, hw.hist⟩
  · -- the only process that is woken is `z`
    unfold State.wakeup
    dsimp only
    split
    · exact State.goto_of_ne hr
    · rfl
  · exact rouses_wakeup (s.setSlot z { s.slot z with killed := true }) z z

theorem fate_kill (pid : Int) (q : Fin nproc) : Fate s (.kill pid) (kill s pid).1 q := by
  cases hf : Fin.find? (fun q => ((s.slot q).pid : Int) = pid) with
  | none =>
    refine .of_eq ?_
    unfold kill
    rw [hf]
  | some z =>
    have hslot := (kill_flagged hf).2.slot
    by_cases e : q = z
    · subst e
      refine .flagged pid rfl (of_decide_eq_true (Fin.eq_true_of_find?_eq_some hf)) ?_
      rw [hslot, Function.update_self]
    · exact .of_eq (by rw [hslot, Function.update_of_ne e])

theorem fate_exit (hlive : (s.slot p).state = .live) (status : Int) (q : Fin nproc) :
    Fate s a (exit s p status) q := by
  have hslot := (exit_eq s p status).1
  have hu : s.InUse p := by
    unfold State.InUse
    rw [hlive]
    exact nofun
  refine .kept ?_ ?_ ?_
  · unfold State.InUse
    rw [hslot]
    exact buried_used hu
  · rw [hslot, buried_pid]
  · rw [hslot, buried_killed]

theorem fate_wait2 (addr res : Option Bool) (q : Fin nproc) : Fate s a (wait2 s p addr res) q := by
  unfold wait2
  cases hz : s.findZombie p with
  | none =>
    dsimp only
    split
    · exact .of_eq rfl
    · exact .of_eq rfl
  | some z =>
    dsimp only
    split
    · exact .of_eq rfl
    · by_cases e : q = z
      · subst e
        exact .freed _ State.setSlot_self
      · exact .of_eq (State.setSlot_of_ne e)

theorem fate_step (h : Inv s) (hs : Step s (p, a) t) (q : Fin nproc) : Fate s a t q := by
  obtain ⟨hlive, ht⟩ := hs.trans
  cases ht with
  | fork memory hpc => exact fate_fork memory q
  | exiting | waiting | other => exact .of_eq rfl
  | kill pid hpc =>
    cases fate_kill (s := s) pid q with
    | kept state pid killed => exact .kept state pid killed
    | flagged pid call found slot => exact .flagged pid call found slot
    | freed x slot => exact .freed x slot
    | born unused slot => exact .born unused slot
  | strace hpc =>
    refine .of_setSlot (x := { s.slot p with strace := true }) ?_ Iff.rfl rfl rfl q
    rfl
  | reset hpc =>
    refine .of_setSlot (x := { s.slot p with counter := 0 }) ?_ Iff.rfl rfl rfl q
    rfl
  | count hpc =>
    refine .of_setSlot (x := { s.slot p with counter := incr (s.slot p).counter }) ?_ Iff.rfl rfl
      rfl q
    rfl
  | parent hpc =>
    rename_i np
    refine .of_setSlot (x := { s.slot np with parent := some p }) ?_ Iff.rfl rfl rfl q
    rfl
  | child hpc =>
    rename_i np
    -- the child does not run yet, and it is there
    have hu : (s.slot np).state = .used := (h.child p np true hlive (by rw [hpc]; rfl)).1
    refine .of_setSlot (x := { s.slot np with state := .live }) ?_ ?_ rfl rfl q
    · rfl
    · rw [hu]
      exact iff_of_false nofun nofun
  | exit hpc => exact fate_exit hlive _ q
  | scan hpc => exact fate_wait2 _ _ q

/-! ## every run -/

theorem not_inUse_freeproc (h : t.slot q = freeproc x) : ¬ t.InUse q := by
  unfold State.InUse
  rw [h]
  exact not_not.mpr rfl

theorem numbered_start : Numbered start := by
  refine ⟨Nat.succ_pos _, fun q hq => ?_, fun q hq => ?_⟩
  · unfold State.InUse start at *
    dsimp only at *
    split at hq
    · exact absurd nofun hq
    · next e => rw [if_neg e]
  · unfold State.InUse start at *
    dsimp only at *
    split at hq
    · next e =>
      rw [if_pos e]
      exact nofun
    · exact absurd rfl hq

theorem unflagged_start : Unflagged start := by
  intro q _
  unfold start
  dsimp only
  split
  · rfl
  · rfl

theorem Numbered.step {e : Fin nproc × Act} (hi : Inv s) (h : Numbered s) (hs : Step s e t) :
    Numbered t := by
  have hfate := fate_step hi hs
  refine ⟨lt_of_lt_of_le h.next (grows_step hs).1, fun q hq => ?_, fun q hq => ?_⟩
  · cases hfate q with
    | kept state pid killed =>
      rw [pid]
      exact h.unused q (fun hu => hq (state.mpr hu))
    | flagged pid call found slot =>
      unfold State.InUse at hq
      rw [slot] at hq ⊢
      exact h.unused q hq
    | freed x slot =>
      rw [slot]
      rfl
    | born unused slot =>
      unfold State.InUse at hq
      rw [slot] at hq
      exact absurd nofun hq
  · cases hfate q with
    | kept state pid killed =>
      rw [pid]
      exact h.used q (state.mp hq)
    | flagged pid call found slot =>
      unfold State.InUse at hq
      rw [slot] at hq ⊢
      exact h.used q hq
    | freed x slot => exact absurd hq (not_inUse_freeproc slot)
    | born unused slot =>
      rw [slot]
      exact Nat.ne_of_gt h.next

/-- a call of `kill` that is harmless flags no slot that is not in use -/
theorem Unflagged.step {e : Fin nproc × Act} (hi : Inv s) (hn : Numbered s) (h : Unflagged s)
    (hs : Step s e t) (hc : ∀ pid, e.2 = .kill pid → Harmless s pid) : Unflagged t := by
  intro q hq
  cases fate_step hi hs q with
  | kept state pid killed =>
    rw [killed]
    exact h q (fun hu => hq (state.mpr hu))
  | flagged pid call found slot =>
    unfold State.InUse at hq
    rw [slot] at hq
    rcases hc pid call with hne | hall
    · rw [← found, hn.unused q hq] at hne
      exact absurd rfl hne
    · exact absurd (hall q) hq
  | freed x slot =>
    rw [slot]
    rfl
  | born unused slot =>
    unfold State.InUse at hq
    rw [slot] at hq
    exact absurd nofun hq

theorem exact_iff_harmless (h : Numbered s) (pid : Int) : Exact s pid ↔ Harmless s pid := by
  cases hf : Fin.find? (fun q => ((s.slot q).pid : Int) = pid) with
  | none =>
    have hno : ∀ q, ((s.slot q).pid : Int) ≠ pid := fun q =>
      of_decide_eq_false (Fin.eq_false_of_find?_eq_none hf q)
    have hkill : kill s pid = (s, -1) := by
      unfold kill
      rw [hf]
    refine iff_of_true (Or.inr ⟨fun q _ => hno q, hkill⟩) ?_
    by_cases h0 : pid = 0
    · refine Or.inr (fun q => by_contra (fun hq => hno q ?_))
      rw [h.unused q hq, h0]
      rfl
    · exact Or.inl h0
  | some z =>
    have hz : ((s.slot z).pid : Int) = pid := of_decide_eq_true (Fin.eq_true_of_find?_eq_some hf)
    obtain ⟨hres, hflag⟩ := kill_flagged hf
    by_cases hu : s.InUse z
    · refine iff_of_true (Or.inl ⟨z, hu, hz, hres, hflag⟩) (Or.inl ?_)
      rw [← hz]
      exact_mod_cast h.used z hu
    · -- the slot that it finds is not in use, and its pid is 0
      have h0 : pid = 0 := by
        rw [← hz, h.unused z hu]
        rfl
      refine iff_of_false ?_ ?_
      · rintro (⟨q, hq, hpid, -, -⟩ | ⟨-, hkill⟩)
        · rw [h0] at hpid
          exact h.used q hq (by exact_mod_cast hpid)
        · rw [hkill] at hres
          exact absurd hres (show (-1 : Int) ≠ 0 by decide)
      · rintro (hne | hall)
        · exact hne h0
        · exact hu (hall z)

/-- `kill` is exact for every pid but 0, and for 0 when the table is full; where all calls before
were of that kind, no process is born with its flag set -/
theorem kill_iff (l : List (Fin nproc × Act)) (s : State) (hrun : Run Step start l s) :
    (∀ pid : Int, Exact s pid ↔ Harmless s pid) ∧
    (Run (guarded (fun s e => ∀ pid, e.2 = .kill pid → Harmless s pid) Step) start l s →
      ∀ e t q, Step s e t → ¬ s.InUse q → t.InUse q → (t.slot q).killed = false) := by
  have hnum : Inv s ∧ Numbered s := by
    refine hrun.invariant (I := fun s => Inv s ∧ Numbered s) ?_ ⟨inv_start, numbered_start⟩
    rintro s e t ⟨hi, h⟩ hs
    exact ⟨hi.step hs, h.step hi hs⟩
  refine ⟨exact_iff_harmless hnum.2, fun hclean e t q hs hq hborn => ?_⟩
  have hflag : (Inv s ∧ Numbered s) ∧ Unflagged s := by
    refine hclean.invariant (I := fun s => (Inv s ∧ Numbered s) ∧ Unflagged s) ?_
      ⟨⟨inv_start, numbered_start⟩, unflagged_start⟩
    rintro s e t ⟨⟨hi, hn⟩, h⟩ ⟨hc, hs⟩
    exact ⟨⟨hi.step hs, hn.step hi hs⟩, h.step hi hn hs hc⟩
  cases fate_step hnum.1 hs q with
  | kept state pid killed => exact absurd (state.mp hborn) hq
  | flagged pid call found slot =>
    unfold State.InUse at hborn
    rw [slot] at hborn
    exact absurd hborn hq
  | freed x slot => exact absurd hborn (not_inUse_freeproc slot)
  | born unused slot =>
    rw [slot]
    exact hflag.2 q hq

end

def killsChild : List (Fin nproc × Act) := forks ++ [(0, .kill 2), (0, .advance)]

theorem kill_killsChild : ∃ s, Run Step start killsChild s ∧ (s.slot 1).killed = true ∧
    (∀ pid : Int, pid ≠ 0 → Exact s pid) ∧
    ∀ e t q, Step s e t → ¬ s.InUse q → t.InUse q → (t.slot q).killed = false := by
  have hsome : (exec (fun s e => step s e.1 e.2) start killsChild).map
      (fun s => (s.slot 1).killed) = some true := by
    decide +kernel
  obtain ⟨s, hs, hkilled⟩ := Option.map_eq_some_iff.mp hsome
  have hrun : Run Step start killsChild s := Run.of_exec (fun _ _ _ h => h) hs
  obtain ⟨hexact, hborn⟩ := kill_iff killsChild s hrun
  refine ⟨s, hrun, hkilled, fun pid h => (hexact pid).mpr (Or.inl h), hborn (hrun.guard ?_)⟩
  intro e he u pid hpid
  have hall : ∀ e ∈ killsChild, (match e.2 with | .kill pid => decide (pid ≠ 0) | _ => true) = true := by
    decide
  have hne := hall e he
  rw [hpid] at hne
  exact Or.inl (of_decide_eq_true hne)

def killsNobody : List (Fin nproc × Act) := [(0, .kill 0), (0, .advance)]

theorem not_exact_start : ¬ Exact start 0 := by
  rw [exact_iff_harmless numbered_start]
  rintro (hne | hall)
  · exact hne rfl
  · exact hall 1 rfl

/-- `kill(0)` returns 0 though no process has that pid, and the next child is born with its flag set -/
theorem newborn_flagged : (¬ ∀ l s, Run Step start l s → ∀ pid : Int, Exact s pid) ∧
    ∃ s t, Run Step start killsNobody s ∧ s.pc 0 = .user 0 ∧ Step s (0, .fork true) t ∧
      ¬ s.InUse 1 ∧ t.InUse 1 ∧ (t.slot 1).killed = true := by
  refine ⟨fun hall => not_exact_start (hall [] start (.nil start) 0), ?_⟩
  have hsome : ((exec (fun s e => step s e.1 e.2) start killsNobody).bind (fun s =>
      (step s 0 (.fork true)).map (fun t => (s, t)))).map (fun (s, t) =>
        (s.pc 0, (s.slot 1).state, (t.slot 1).state, (t.slot 1).killed)) =
      some (.user 0, .unused, .used, true) := by
    decide +kernel
  obtain ⟨⟨s, t⟩, hst, he⟩ := Option.map_eq_some_iff.mp hsome
  obtain ⟨u, hu, hmap⟩ := Option.bind_eq_some_iff.mp hst
  obtain ⟨v, hv, e⟩ := Option.map_eq_some_iff.mp hmap
  obtain ⟨rfl, rfl⟩ := Prod.mk.inj e
  simp only [Prod.mk.injEq] at he
  obtain ⟨hpc, hs1, ht1, hk⟩ := he
  refine ⟨u, v, Run.of_exec (fun _ _ _ h => h) hu, hpc, hv, ?_, ?_, hk⟩
  · unfold State.InUse
    rw [hs1]
    exact not_not.mpr rfl
  · unfold State.InUse
    rw [ht1]
    exact nofun

end Proc
