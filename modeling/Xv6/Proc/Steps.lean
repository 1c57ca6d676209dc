import Mathlib.Data.Fintype.EquivFin
import Xv6.Proc.Inv

/-!
# `fork`, `exit` and `wait2` keep the parents and the pids

Each of the three is cut into what it does to the table: a slot is taken, it gets a parent, it runs,
it becomes a zombie, it is free.
-/

namespace Proc
open Lib

section
variable {s t : State} {p q r np : Fin nproc} {pc : Pc}

/-! ## a slot is taken -/

theorem firstUnused_spec (h : s.firstUnused = some np) : (s.slot np).state = .unused := by
  have h' := (Fin.find?_eq_some_iff.mp h).1
  exact of_decide_eq_true h'

theorem allocproc_slot_self :
    (s.allocproc p np).slot np = { s.slot np with pid := s.nextpid, state := .used } :=
  Function.update_self ..

theorem allocproc_slot_of_ne (h : q ≠ np) : (s.allocproc p np).slot q = s.slot q :=
  Function.update_of_ne h _ _

theorem allocproc_forker_self : (s.allocproc p np).hist.forker np = (s.slot p).pid :=
  Function.update_self ..

theorem allocproc_forker_of_ne (h : q ≠ np) :
    (s.allocproc p np).hist.forker q = s.hist.forker q :=
  Function.update_of_ne h _ _

theorem Inv.parent_unused (h : Inv s) (hq : (s.slot q).state = .unused) :
    (s.slot q).parent = none := by
  cases e : (s.slot q).parent with
  | none => rfl
  | some r => exact absurd hq (h.parent q r e).2

theorem Inv.allocproc (h : Inv s) (hu : (s.slot np).state = .unused) :
    Inv (s.allocproc p np) := by
  have hne : ∀ {q}, (s.slot q).state ≠ .unused → q ≠ np := by
    intro q hq e
    exact hq (e ▸ hu)
  have hlt : ∀ {q}, (s.slot q).state ≠ .unused → (s.slot q).pid ≠ s.nextpid := fun hq =>
    (h.pidLt _ hq).ne
  have hinit : initproc ≠ np := hne (by rw [h.init.1]; decide)
  have hused : ∀ {q}, ((s.allocproc p np).slot q).state ≠ .unused → q ≠ np →
      (s.slot q).state ≠ .unused := by
    intro q hq e
    rwa [allocproc_slot_of_ne e] at hq
  constructor
  · rw [allocproc_slot_of_ne hinit]
    exact h.init
  · exact h.running
  · intro q hq
    show _ < s.nextpid + 1
    by_cases e : q = np
    · rw [e, allocproc_slot_self]
      exact Nat.lt_succ_self _
    · rw [allocproc_slot_of_ne e]
      exact (h.pidLt q (hused hq e)).trans (Nat.lt_succ_self _)
  · intro q r hq hr e
    by_cases eq : q = np
    · by_cases er : r = np
      · rw [eq, er]
      · rw [eq, allocproc_slot_self, allocproc_slot_of_ne er] at e
        exact absurd e.symm (hlt (hused hr er))
    · rw [allocproc_slot_of_ne eq] at e
      by_cases er : r = np
      · rw [er, allocproc_slot_self] at e
        exact absurd e (hlt (hused hq eq))
      · rw [allocproc_slot_of_ne er] at e
        exact h.pidInj q r (hused hq eq) (hused hr er) e
  · intro q r e
    by_cases eq : q = np
    · rw [eq, allocproc_slot_self] at e
      exact absurd ((h.parent_unused hu).symm.trans e) nofun
    · rw [allocproc_slot_of_ne eq] at e
      obtain ⟨h1, h2⟩ := h.parent q r e
      have er : r ≠ np := hne (by rw [h1]; decide)
      rw [allocproc_slot_of_ne er, allocproc_slot_of_ne eq]
      exact ⟨h1, h2⟩
  · intro q hq hs
    have eq : q ≠ np := by
      rintro rfl
      rw [allocproc_slot_self] at hs
      rcases hs with e | e
      · exact absurd e nofun
      · exact absurd e nofun
    rw [allocproc_slot_of_ne eq] at hs ⊢
    obtain ⟨r, h1, h2⟩ := h.family q hq hs
    have er : r ≠ np := hne (by rw [(h.parent q r h1).1]; decide)
    refine ⟨r, h1, ?_⟩
    unfold Waits
    rw [allocproc_slot_of_ne er, allocproc_forker_of_ne eq]
    exact h2
  · intro p' np' b hp hc
    have ep : p' ≠ np := by
      rintro rfl
      rw [allocproc_slot_self] at hp
      exact absurd hp nofun
    rw [allocproc_slot_of_ne ep] at hp ⊢
    obtain ⟨h1, h2⟩ := h.child p' np' b hp hc
    have en : np' ≠ np := hne (by rw [h1]; decide)
    rw [allocproc_slot_of_ne en, allocproc_forker_of_ne en]
    exact ⟨h1, h2⟩
  · intro k hk
    exact (h.exitedLt k hk).trans (Nat.lt_succ_self _)
  · exact h.exitedNodup
  · intro q hq
    by_cases e : q = np
    · rw [e, allocproc_slot_self]
      intro hk
      exact absurd (h.exitedLt _ hk) (lt_irrefl _)
    · rw [allocproc_slot_of_ne e] at hq ⊢
      exact h.stays q hq
  · intro q hq
    have e : q ≠ np := by
      rintro rfl
      rw [allocproc_slot_self] at hq
      exact absurd hq nofun
    rw [allocproc_slot_of_ne e] at hq ⊢
    exact h.zombie q hq
  · intro x hx
    obtain ⟨h1, h2⟩ := h.reaped x hx
    refine ⟨h1, fun q hq => ?_⟩
    by_cases e : q = np
    · rw [e, allocproc_slot_self]
      exact (h.exitedLt _ h1).ne'
    · rw [allocproc_slot_of_ne e]
      exact h2 q (hused hq e)
  · exact h.once

/-! ## a slot is free -/

/-- no process is in `fork` with the slot, and no process runs in it -/
structure Idle (s : State) (q : Fin nproc) : Prop where
  notLive : (s.slot q).state ≠ .live
  noFork : ∀ p b, (s.slot p).state = .live → (s.pc p).child ≠ some (q, b)

theorem Inv.free (h : Inv s) (hq : Idle s q) : Inv (s.setSlot q (freeproc (s.slot q))) := by
  have hused : ∀ {r}, ((s.setSlot q (freeproc (s.slot q))).slot r).state ≠ .unused → r ≠ q := by
    rintro r hr rfl
    rw [State.setSlot_self] at hr
    exact hr rfl
  have hlive : ∀ {r}, (s.slot r).state = .live → r ≠ q := by
    rintro r hr rfl
    exact hq.notLive hr
  constructor
  · rw [State.setSlot_of_ne (hlive h.init.1)]
    exact h.init
  · exact h.running
  · intro r hr
    have er := hused hr
    rw [State.setSlot_of_ne er] at hr ⊢
    exact h.pidLt r hr
  · intro r r' hr hr' e
    have er := hused hr
    have er' := hused hr'
    rw [State.setSlot_of_ne er] at hr e
    rw [State.setSlot_of_ne er'] at hr' e
    exact h.pidInj r r' hr hr' e
  · intro r r' e
    have hr : r ≠ q := by
      rintro rfl
      rw [State.setSlot_self] at e
      exact absurd e nofun
    rw [State.setSlot_of_ne hr] at e
    obtain ⟨h1, h2⟩ := h.parent r r' e
    rw [State.setSlot_of_ne hr, State.setSlot_of_ne (hlive h1)]
    exact ⟨h1, h2⟩
  · intro r hr hs
    have e : r ≠ q := hused (by rcases hs with e | e <;> rw [e] <;> decide)
    rw [State.setSlot_of_ne e] at hs ⊢
    obtain ⟨r', h1, h2⟩ := h.family r hr hs
    refine ⟨r', h1, ?_⟩
    unfold Waits
    rw [State.setSlot_of_ne (hlive (h.parent r r' h1).1)]
    exact h2
  · intro p np b hp hc
    have ep : p ≠ q := hused (by rw [hp]; decide)
    rw [State.setSlot_of_ne ep] at hp ⊢
    have en : np ≠ q := by
      rintro rfl
      exact hq.noFork p b hp hc
    rw [State.setSlot_of_ne en]
    exact h.child p np b hp hc
  · exact h.exitedLt
  · exact h.exitedNodup
  · intro r hr
    have e : r ≠ q := hused (by rcases hr with e | e <;> rw [e] <;> decide)
    rw [State.setSlot_of_ne e] at hr ⊢
    exact h.stays r hr
  · intro r hr
    have e : r ≠ q := hused (by rw [hr]; decide)
    rw [State.setSlot_of_ne e] at hr ⊢
    exact h.zombie r hr
  · intro x hx
    obtain ⟨h1, h2⟩ := h.reaped x hx
    refine ⟨h1, fun r hr => ?_⟩
    have er := hused hr
    rw [State.setSlot_of_ne er] at hr ⊢
    exact h2 r hr
  · exact h.once

theorem Inv.record (h : Inv s) {x : Reap} (hg : x.child ∈ s.gone)
    (hx : ∀ q, (s.slot q).state ≠ .unused → (s.slot q).pid ≠ x.child)
    (hn : x.child ∉ s.hist.reaped.map Reap.child) :
    Inv { s with hist := { s.hist with reaped := x :: s.hist.reaped } } where
  init := h.init
  running := h.running
  pidLt := h.pidLt
  pidInj := h.pidInj
  parent := h.parent
  family := h.family
  child := h.child
  exitedLt := h.exitedLt
  exitedNodup := h.exitedNodup
  stays := h.stays
  zombie := h.zombie
  reaped := by
    intro y hy
    rcases List.mem_cons.mp hy with rfl | hy
    · exact ⟨hg, hx⟩
    · exact h.reaped y hy
  once := List.nodup_cons.mpr ⟨hn, h.once⟩

/-! ## `fork` -/

theorem Inv.gotoFork (h : Inv s) {b : Bool} (hpc : pc.child = some (np, b))
    (hs : (s.slot np).state = .used) (hp : (s.slot np).parent = if b then some p else none)
    (hf : s.hist.forker np = (s.slot p).pid) : Inv (s.goto p pc) where
  init := h.init
  running := by
    intro status e
    by_cases ei : initproc = p
    · rw [ei, State.goto_self] at e
      rw [e] at hpc
      exact absurd hpc nofun
    · rw [State.goto_of_ne ei] at e
      exact h.running status e
  pidLt := h.pidLt
  pidInj := h.pidInj
  parent := h.parent
  family := h.family
  child := by
    intro p' np' b' hl hc
    by_cases e : p' = p
    · subst e
      rw [State.goto_self, hpc] at hc
      obtain ⟨rfl, rfl⟩ := Prod.mk.inj (Option.some.inj hc)
      exact ⟨hs, hp, hf⟩
    · rw [State.goto_of_ne e] at hc
      exact h.child p' np' b' hl hc
  exitedLt := h.exitedLt
  exitedNodup := h.exitedNodup
  stays := h.stays
  zombie := h.zombie
  reaped := h.reaped
  once := h.once

theorem Inv.fork (h : Inv s) (hlive : (s.slot p).state = .live) (memory : Bool) :
    Inv (fork s p memory) := by
  unfold Proc.fork
  cases hf : s.firstUnused with
  | none => exact h.goto (Pc.calm_ret _)
  | some np =>
    have hu := firstUnused_spec hf
    have hne : p ≠ np := by
      rintro rfl
      exact absurd (hlive.symm.trans hu) nofun
    have ha : Inv (s.allocproc p np) := h.allocproc hu
    dsimp only
    split
    · refine ha.gotoFork (b := false) rfl ?_ ?_ ?_
      · rw [allocproc_slot_self]
      · rw [allocproc_slot_self]
        exact h.parent_unused hu
      · rw [allocproc_forker_self, allocproc_slot_of_ne hne]
    · refine (ha.free ⟨?_, ?_⟩).goto (Pc.calm_ret _)
      · rw [allocproc_slot_self]
        exact nofun
      · intro p' b hl hc
        have ep : p' ≠ np := by
          rintro rfl
          rw [allocproc_slot_self] at hl
          exact absurd hl nofun
        rw [allocproc_slot_of_ne ep] at hl
        exact absurd ((h.child p' np b hl hc).1.symm.trans hu) nofun

/-- a live process that is in `fork`: nobody else is, with the same child -/
theorem Inv.forker_unique (h : Inv s) {b b' : Bool} (hp : (s.slot p).state = .live)
    (hq : (s.slot q).state = .live) (hpc : (s.pc p).child = some (np, b))
    (hqc : (s.pc q).child = some (np, b')) : q = p := by
  have h1 := (h.child p np b hp hpc).2.2
  have h2 := (h.child q np b' hq hqc).2.2
  exact h.pidInj q p (by rw [hq]; decide) (by rw [hp]; decide) (h2.symm.trans h1)

theorem Inv.setParent (h : Inv s) (hlive : (s.slot p).state = .live) (hpc : s.pc p = .fork np) :
    Inv ((s.setSlot np { s.slot np with parent := some p }).goto p (.forked np)) := by
  obtain ⟨hs, hpar, hf⟩ := h.child p np false hlive (by rw [hpc]; rfl)
  have hnp : ∀ {q}, (s.slot q).state = .live → q ≠ np := by
    rintro q hq rfl
    exact absurd (hq.symm.trans hs) nofun
  have hst : ∀ q, ((s.setSlot np { s.slot np with parent := some p }).slot q).state =
      (s.slot q).state := by
    intro q
    by_cases e : q = np
    · rw [e, State.setSlot_self]
    · rw [State.setSlot_of_ne e]
  have hpid : ∀ q, ((s.setSlot np { s.slot np with parent := some p }).slot q).pid =
      (s.slot q).pid := by
    intro q
    by_cases e : q = np
    · rw [e, State.setSlot_self]
    · rw [State.setSlot_of_ne e]
  constructor
  · exact (State.setSlot_of_ne (hnp h.init.1)).symm ▸ h.init
  · intro status e
    by_cases ei : initproc = p
    · rw [ei, State.goto_self] at e
      exact absurd e nofun
    · rw [State.goto_of_ne ei] at e
      exact h.running status e
  · intro q hq
    exact (hpid q).symm ▸ h.pidLt q (hst q ▸ hq)
  · intro q r hq hr e
    exact h.pidInj q r (hst q ▸ hq) (hst r ▸ hr) (hpid q ▸ hpid r ▸ e)
  · intro q r e
    show ((s.setSlot _ _).slot r).state = _ ∧ ((s.setSlot _ _).slot q).state ≠ _
    rw [hst, hst]
    by_cases eq : q = np
    · subst eq
      have e' : some p = some r := by
        rw [← e]
        show _ = ((s.setSlot q _).slot q).parent
        rw [State.setSlot_self]
      rw [← Option.some.inj e', hs]
      exact ⟨hlive, nofun⟩
    · exact h.parent q r ((congrArg Slot.parent (State.setSlot_of_ne eq)).symm.trans e)
  · intro q hq hs'
    have eq : q ≠ np := by
      rintro rfl
      have : (s.slot q).state = .live ∨ (s.slot q).state = .zombie := hst q ▸ hs'
      rw [hs] at this
      rcases this with e | e
      · exact absurd e nofun
      · exact absurd e nofun
    obtain ⟨r, h1, h2⟩ := h.family q hq (hst q ▸ hs')
    refine ⟨r, (congrArg Slot.parent (State.setSlot_of_ne eq)).trans h1, ?_⟩
    show ((s.setSlot _ _).slot r).pid = _ ∨ _
    rw [hpid]
    exact h2
  · intro p' np' b hl hc
    show ((s.setSlot _ _).slot np').state = _ ∧ ((s.setSlot _ _).slot np').parent = _ ∧
      _ = ((s.setSlot _ _).slot p').pid
    rw [hst, hpid]
    by_cases ep : p' = p
    · subst ep
      rw [State.goto_self] at hc
      obtain ⟨rfl, rfl⟩ := Prod.mk.inj (Option.some.inj hc)
      exact ⟨hs, congrArg Slot.parent State.setSlot_self, hf⟩
    · rw [State.goto_of_ne ep] at hc
      have hl' : (s.slot p').state = .live := hst p' ▸ hl
      have en : np' ≠ np := by
        rintro rfl
        exact ep (h.forker_unique hlive hl' (by rw [hpc]; rfl) hc)
      rw [State.setSlot_of_ne en]
      exact h.child p' np' b hl' hc
  · exact h.exitedLt
  · exact h.exitedNodup
  · intro q hq
    exact (hpid q).symm ▸ h.stays q (hst q ▸ hq)
  · intro q hq
    have eq : q ≠ np := by
      rintro rfl
      exact absurd ((hst q ▸ hq : (s.slot q).state = .zombie).symm.trans hs) nofun
    exact (State.setSlot_of_ne eq).symm ▸ h.zombie q (hst q ▸ hq)
  · intro x hx
    obtain ⟨h1, h2⟩ := h.reaped x hx
    exact ⟨h1, fun q hq => (hpid q).symm ▸ h2 q (hst q ▸ hq)⟩
  · exact h.once

theorem Inv.run (h : Inv s) (hlive : (s.slot p).state = .live) (hpc : s.pc p = .forked np) :
    Inv (((s.setSlot np { s.slot np with state := .live }).goto np (.user 0)).goto p
      (.ret (s.slot np).pid)) := by
  obtain ⟨hs, hpar, hf⟩ := h.child p np true hlive (by rw [hpc]; rfl)
  have hnp : ∀ {q}, (s.slot q).state = .live → q ≠ np := by
    rintro q hq rfl
    exact absurd (hq.symm.trans hs) nofun
  have hn : (s.slot np).state ≠ .unused := by
    rw [hs]
    exact nofun
  have hinit : np ≠ initproc := (hnp h.init.1).symm
  have hpcs : ∀ q, q ≠ p → q ≠ np →
      (((s.setSlot np { s.slot np with state := .live }).goto np (.user 0)).goto p
        (.ret (s.slot np).pid)).pc q = s.pc q := by
    intro q h1 h2
    rw [State.goto_of_ne h1, State.goto_of_ne h2]
    rfl
  have hcalm : ∀ q, q = p ∨ q = np →
      ((((s.setSlot np { s.slot np with state := .live }).goto np (.user 0)).goto p
        (.ret (s.slot np).pid)).pc q).Calm q := by
    intro q hq
    by_cases e : q = p
    · rw [e, State.goto_self]
      exact Pc.calm_ret _
    · rw [State.goto_of_ne e, hq.resolve_left e, State.goto_self]
      exact Pc.calm_user _
  have hslot : ∀ q, q ≠ np → (s.setSlot np { s.slot np with state := .live }).slot q = s.slot q :=
    fun q e => State.setSlot_of_ne e
  have hself : (s.setSlot np { s.slot np with state := .live }).slot np =
      { s.slot np with state := .live } := State.setSlot_self
  have hpid : ∀ q, ((s.setSlot np { s.slot np with state := .live }).slot q).pid =
      (s.slot q).pid := by
    intro q
    by_cases e : q = np
    · rw [e, hself]
    · rw [hslot q e]
  have hused : ∀ q, ((s.setSlot np { s.slot np with state := .live }).slot q).state ≠ .unused →
      (s.slot q).state ≠ .unused := by
    intro q hq
    by_cases e : q = np
    · rwa [e]
    · rwa [hslot q e] at hq
  constructor
  · exact (hslot _ hinit.symm).symm ▸ h.init
  · intro status e
    by_cases ei : initproc = p
    · exact (hcalm _ (Or.inl ei)).2 status e rfl
    · rw [hpcs _ ei hinit.symm] at e
      exact h.running status e
  · intro q hq
    exact (hpid q).symm ▸ h.pidLt q (hused q hq)
  · intro q r hq hr e
    exact h.pidInj q r (hused q hq) (hused r hr) (hpid q ▸ hpid r ▸ e)
  · intro q r e
    have e' : (s.slot q).parent = some r := by
      rw [← e]
      show _ = ((s.setSlot np _).slot q).parent
      by_cases eq : q = np
      · rw [eq, hself]
      · rw [hslot q eq]
    obtain ⟨h1, h2⟩ := h.parent q r e'
    refine ⟨(congrArg Slot.state (hslot r (hnp h1))).trans h1, ?_⟩
    show ((s.setSlot np _).slot q).state ≠ _
    by_cases eq : q = np
    · rw [eq, hself]
      exact nofun
    · rwa [hslot q eq]
  · intro q hq hs'
    by_cases eq : q = np
    · subst eq
      refine ⟨p, ?_, Or.inl ?_⟩
      · show ((s.setSlot q _).slot q).parent = _
        rw [hself]
        exact hpar
      · exact (hpid p).trans hf.symm
    · obtain ⟨r, h1, h2⟩ := h.family q hq (hslot q eq ▸ hs')
      refine ⟨r, (congrArg Slot.parent (hslot q eq)).trans h1, ?_⟩
      show ((s.setSlot np _).slot r).pid = _ ∨ _
      rw [hpid]
      exact h2
  · intro p' np' b hl hc
    by_cases ep : p' = p ∨ p' = np
    · exact absurd ((hcalm p' ep).1.symm.trans hc) nofun
    · obtain ⟨e1, e2⟩ := not_or.mp ep
      rw [hpcs p' e1 e2] at hc
      have hl' : (s.slot p').state = .live := hslot p' e2 ▸ hl
      have en : np' ≠ np := by
        rintro rfl
        exact e1 (h.forker_unique hlive hl' (by rw [hpc]; rfl) hc)
      show ((s.setSlot np _).slot np').state = _ ∧ ((s.setSlot np _).slot np').parent = _ ∧
        _ = ((s.setSlot np _).slot p').pid
      rw [hslot np' en, hslot p' e2]
      exact h.child p' np' b hl' hc
  · exact h.exitedLt
  · exact h.exitedNodup
  · intro q hq
    refine (hpid q).symm ▸ h.stays q ?_
    by_cases e : q = np
    · rw [e]
      exact Or.inr hs
    · exact hslot q e ▸ hq
  · intro q hq
    have eq : q ≠ np := by
      rintro rfl
      exact absurd ((congrArg Slot.state hself).symm.trans hq) nofun
    exact (hslot q eq).symm ▸ h.zombie q (hslot q eq ▸ hq)
  · intro x hx
    obtain ⟨h1, h2⟩ := h.reaped x hx
    exact ⟨h1, fun q hq => (hpid q).symm ▸ h2 q (hused q hq)⟩
  · exact h.once

/-! ## `exit` -/

def buried (s : State) (p : Fin nproc) (status : Int) (q : Fin nproc) : Slot :=
  let x := s.slot q
  let x := if x.parent = some p then { x with parent := some initproc } else x
  if q = p then { x with xstate := status, state := .zombie } else x

theorem woken_reparent (s : State) (p : Fin nproc) : Woken
    { s with slot := fun q =>
      if (s.slot q).parent = some p then { s.slot q with parent := some initproc } else s.slot q }
    (s.reparent p) := by
  unfold State.reparent
  dsimp only
  split
  · exact woken_wakeup _ _
  · exact ⟨rfl, rfl, rfl, fun _ => Or.inl rfl⟩

theorem exit_woken (s : State) (p : Fin nproc) (status : Int) :
    ∃ u, Woken (s.reparent p) u ∧ exit s p status =
      { u.setSlot p { u.slot p with xstate := status, state := .zombie } with
        hist := { u.hist with exited := ((u.slot p).pid, status) :: u.hist.exited } } := by
  unfold exit
  dsimp only
  split
  · exact ⟨_, woken_wakeup _ _, rfl⟩
  · exact ⟨_, ⟨rfl, rfl, rfl, fun _ => Or.inl rfl⟩, rfl⟩

theorem exit_eq (s : State) (p : Fin nproc) (status : Int) :
    (exit s p status).slot = buried s p status ∧ (exit s p status).nextpid = s.nextpid ∧
    (exit s p status).hist =
      { s.hist with exited := ((s.slot p).pid, status) :: s.hist.exited } ∧
    ∀ q, (exit s p status).pc q = s.pc q ∨ ∃ addr res, (exit s p status).pc q = .wait addr res := by
  have hr := woken_reparent s p
  obtain ⟨u, hw, e⟩ := exit_woken s p status
  have hslot := hw.slot.trans hr.slot
  rw [e]
  refine ⟨?_, hw.nextpid.trans hr.nextpid, ?_, ?_⟩
  · show Function.update u.slot p _ = _
    rw [hslot]
    funext q
    unfold buried
    by_cases e : q = p
    · subst e
      rw [Function.update_self, if_pos rfl]
    · rw [Function.update_of_ne e, if_neg e]
  · dsimp only
    rw [hw.hist.trans hr.hist, hslot]
    dsimp only
    split
    · rfl
    · rfl
  · intro q
    rcases hw.pc q with e | e
    · rcases hr.pc q with e' | ⟨addr, res, e'⟩
      · exact Or.inl (e.trans e')
      · exact Or.inr ⟨addr, res, e.trans e'⟩
    · exact Or.inr e

section
variable {status : Int}

theorem buried_pid : (buried s p status q).pid = (s.slot q).pid := by
  unfold buried
  dsimp only
  split
  · split
    · rfl
    · rfl
  · split
    · rfl
    · rfl

theorem buried_state_of_ne (h : q ≠ p) : (buried s p status q).state = (s.slot q).state := by
  unfold buried
  dsimp only
  rw [if_neg h]
  split
  · rfl
  · rfl

theorem buried_state_self : (buried s p status p).state = .zombie := by
  unfold buried
  dsimp only
  rw [if_pos rfl]

theorem buried_parent (h : (s.slot q).parent ≠ some p) :
    (buried s p status q).parent = (s.slot q).parent := by
  unfold buried
  dsimp only
  rw [if_neg h]
  split
  · rfl
  · rfl

theorem buried_orphan (h : (s.slot q).parent = some p) :
    (buried s p status q).parent = some initproc := by
  unfold buried
  dsimp only
  rw [if_pos h]
  split
  · rfl
  · rfl

theorem buried_xstate_of_ne (h : q ≠ p) : (buried s p status q).xstate = (s.slot q).xstate := by
  unfold buried
  dsimp only
  rw [if_neg h]
  split
  · rfl
  · rfl

theorem buried_xstate_self : (buried s p status p).xstate = status := by
  unfold buried
  dsimp only
  rw [if_pos rfl]

theorem buried_used (h : (s.slot p).state ≠ .unused) :
    (buried s p status q).state ≠ .unused ↔ (s.slot q).state ≠ .unused := by
  by_cases e : q = p
  · rw [e, buried_state_self]
    exact iff_of_true nofun h
  · rw [buried_state_of_ne e]

theorem Inv.exit (h : Inv s) (hlive : (s.slot p).state = .live) (hpc : s.pc p = .exit status) :
    Inv (exit s p status) := by
  obtain ⟨hslot, hnext, hhist, hpcs⟩ := exit_eq s p status
  have hp : p ≠ initproc := by
    rintro rfl
    exact h.running status hpc
  have hn : (s.slot p).state ≠ .unused := by
    rw [hlive]
    exact nofun
  have hg : (Proc.exit s p status).gone = (s.slot p).pid :: s.gone := by
    unfold State.gone
    rw [hhist]
    rfl
  have hpc' : ∀ q c, ((Proc.exit s p status).pc q).child = some c → (s.pc q).child = some c := by
    intro q c hc
    rcases hpcs q with e | ⟨addr, res, e⟩
    · rwa [e] at hc
    · rw [e] at hc
      exact absurd hc nofun
  constructor
  · rw [hslot, buried_state_of_ne hp.symm, buried_pid, buried_parent]
    · exact h.init
    · rw [h.init.2.2]
      exact nofun
  · intro status' e
    rcases hpcs initproc with e' | ⟨addr, res, e'⟩
    · exact h.running status' (e'.symm.trans e)
    · exact absurd (e'.symm.trans e) nofun
  · intro q hq
    rw [hslot, buried_used hn] at hq
    rw [hslot, buried_pid, hnext]
    exact h.pidLt q hq
  · intro q r hq hr e
    rw [hslot, buried_used hn] at hq hr
    rw [hslot, buried_pid, buried_pid] at e
    exact h.pidInj q r hq hr e
  · intro q r e
    rw [hslot] at e ⊢
    rw [buried_used hn]
    by_cases ep : (s.slot q).parent = some p
    · rw [buried_orphan ep] at e
      rw [← Option.some.inj e, buried_state_of_ne hp.symm]
      exact ⟨h.init.1, (h.parent q p ep).2⟩
    · rw [buried_parent ep] at e
      have er : r ≠ p := by
        rintro rfl
        exact ep e
      rw [buried_state_of_ne er]
      exact h.parent q r e
  · intro q hq hs
    have hs' : (s.slot q).state = .live ∨ (s.slot q).state = .zombie := by
      by_cases e : q = p
      · exact Or.inl (e ▸ hlive)
      · rwa [hslot, buried_state_of_ne e] at hs
    obtain ⟨r, h1, h2⟩ := h.family q hq hs'
    rw [hslot]
    unfold Waits
    rw [hg, hhist, hslot]
    by_cases er : r = p
    · subst er
      refine ⟨initproc, buried_orphan h1, Or.inr ⟨rfl, ?_⟩⟩
      rcases h2 with e | e
      · exact List.mem_cons.mpr (Or.inl e.symm)
      · exact absurd e.1 hp
    · refine ⟨r, ?_, ?_⟩
      · rw [buried_parent, h1]
        rw [h1]
        exact fun e => er (Option.some.inj e)
      · rw [buried_pid]
        exact h2.imp id (And.imp id (List.mem_cons_of_mem _))
  · intro p' np b hl hc
    have ep : p' ≠ p := by
      rintro rfl
      rw [hslot, buried_state_self] at hl
      exact absurd hl nofun
    rw [hslot, buried_state_of_ne ep] at hl
    obtain ⟨h1, h2, h3⟩ := h.child p' np b hl (hpc' _ _ hc)
    have en : np ≠ p := by
      rintro rfl
      exact absurd (h1.symm.trans hlive) nofun
    rw [hslot, hhist, buried_state_of_ne en, buried_pid, buried_parent]
    · exact ⟨h1, h2, h3⟩
    · rw [h2]
      split
      · exact fun e => ep (Option.some.inj e)
      · exact nofun
  · rw [hg, hnext]
    intro k hk
    rcases List.mem_cons.mp hk with rfl | hk
    · exact h.pidLt p hn
    · exact h.exitedLt k hk
  · rw [hg]
    exact List.nodup_cons.mpr ⟨h.stays p (Or.inl hlive), h.exitedNodup⟩
  · intro q hq
    have e : q ≠ p := by
      rintro rfl
      rw [hslot, buried_state_self] at hq
      rcases hq with e | e
      · exact absurd e nofun
      · exact absurd e nofun
    rw [hslot, buried_state_of_ne e] at hq
    rw [hslot, buried_pid, hg]
    intro hm
    refine (List.mem_cons.mp hm).elim (fun e' => e ?_) (h.stays q hq)
    refine h.pidInj q p ?_ hn e'
    rcases hq with e | e
    · rw [e]
      exact nofun
    · rw [e]
      exact nofun
  · intro q hq
    rw [hslot] at hq ⊢
    rw [buried_pid, hhist]
    by_cases e : q = p
    · rw [e, buried_xstate_self]
      exact List.mem_cons_self
    · rw [buried_state_of_ne e] at hq
      rw [buried_xstate_of_ne e]
      exact List.mem_cons_of_mem _ (h.zombie q hq)
  · rw [hhist, hg, hslot]
    intro x hx
    obtain ⟨h1, h2⟩ := h.reaped x hx
    refine ⟨List.mem_cons_of_mem _ h1, fun q hq => ?_⟩
    rw [buried_used hn] at hq
    rw [buried_pid]
    exact h2 q hq
  · rw [hhist]
    exact h.once

end

/-! ## `wait2` -/

theorem findZombie_spec (h : s.findZombie p = some q) :
    (s.slot q).parent = some p ∧ (s.slot q).state = .zombie :=
  of_decide_eq_true (Fin.find?_eq_some_iff.mp h).1

theorem Inv.wait2 (h : Inv s) (addr res : Option Bool) : Inv (wait2 s p addr res) := by
  unfold Proc.wait2
  cases hf : s.findZombie p with
  | none =>
    dsimp only
    split
    · exact h.goto (Pc.calm_ret _)
    · exact h.goto (Pc.calm_asleep _ _)
  | some q =>
    dsimp only
    split
    · exact h.goto (Pc.calm_ret _)
    · obtain ⟨-, hz⟩ := findZombie_spec hf
      have hn : (s.slot q).state ≠ .unused := by
        rw [hz]
        exact nofun
      have hidle : Idle s q := by
        refine ⟨?_, fun p' b hl hc => ?_⟩
        · rw [hz]
          exact nofun
        · exact absurd ((h.child p' q b hl hc).1.symm.trans hz) nofun
      have hfree := (h.free hidle).goto (p := p) (Pc.calm_ret (s.slot q).pid)
      refine hfree.record (x := ⟨(s.slot p).pid, (s.slot q).pid, s.hist.forker q, (s.slot q).xstate,
        (s.slot q).counter, since (s.hist.log q)⟩) ?_ ?_ ?_
      · exact List.mem_map_of_mem (h.zombie q hz)
      · intro r hr e
        have er : r ≠ q := by
          rintro rfl
          exact hr (congrArg Slot.state State.setSlot_self)
        have hr' : ((s.setSlot q (freeproc (s.slot q))).slot r).state ≠ .unused := hr
        have e' : ((s.setSlot q (freeproc (s.slot q))).slot r).pid = (s.slot q).pid := e
        rw [State.setSlot_of_ne er] at hr' e'
        exact er (h.pidInj r q hr' hn e')
      · intro hm
        obtain ⟨y, hy, e⟩ := List.mem_map.mp hm
        exact (h.reaped y hy).2 q hn e.symm

/-! ## all steps -/

theorem inv_start : Inv start := by
  have hs : ∀ q, (start.slot q).state ≠ .unused → q = initproc := by
    intro q hq
    by_contra e
    exact hq (congrArg Slot.state (if_neg e))
  have hinit : start.slot initproc = ⟨.live, false, 0, initpid, none, false, 0⟩ := by
    unfold Proc.start
    dsimp only
    exact if_pos rfl
  have hpar : ∀ q, (start.slot q).parent = none := by
    intro q
    unfold Proc.start
    dsimp only
    split
    · rfl
    · rfl
  constructor
  · rw [hinit]
    exact ⟨rfl, rfl, rfl⟩
  · exact nofun
  · intro q hq
    rw [hs q hq, hinit]
    decide
  · intro q r hq hr _
    rw [hs q hq, hs r hr]
  · intro q r e
    exact absurd ((hpar q).symm.trans e) nofun
  · intro q hq h
    refine absurd (hs q ?_) hq
    rcases h with e | e
    · rw [e]
      exact nofun
    · rw [e]
      exact nofun
  · intro p np b _ hc
    exact absurd hc nofun
  · exact nofun
  · exact List.nodup_nil
  · intro q _
    exact List.not_mem_nil
  · intro q hq
    rw [hs q (by rw [hq]; exact nofun), hinit] at hq
    exact absurd hq nofun
  · exact nofun
  · exact List.nodup_nil

theorem Inv.mark (h : Inv s) {x : Slot} {m : Mark} (hx : x.Same (s.slot p)) (hpc : pc.Calm p) :
    Inv (((s.setSlot p x).mark p m).goto p pc) :=
  h.congr (same_setSlot hx) rfl rfl rfl rfl (calm_goto hpc)

theorem Inv.step {e : Fin nproc × Act} (h : Inv s) (hs : Step s e t) : Inv t := by
  obtain ⟨p, a⟩ := e
  obtain ⟨hlive, ht⟩ := hs.trans
  cases ht with
  | fork memory hpc => exact h.fork hlive memory
  | exiting status hpc hp => exact h.goto ⟨rfl, fun _ _ => hp⟩
  | waiting addr res hpc => exact h.goto (Pc.calm_wait addr res)
  | kill pid hpc => exact (h.kill pid).goto (Pc.calm_ret _)
  | strace hpc => exact h.mark ⟨rfl, rfl, rfl, rfl⟩ (Pc.calm_ret 0)
  | reset hpc => exact h.mark ⟨rfl, rfl, rfl, rfl⟩ (Pc.calm_ret 0)
  | other v hpc => exact h.goto (Pc.calm_ret v)
  | parent hpc => exact h.setParent hlive hpc
  | child hpc => exact h.run hlive hpc
  | exit hpc => exact h.exit hlive hpc
  | scan hpc => exact h.wait2 _ _
  | count hpc => exact h.mark ⟨rfl, rfl, rfl, rfl⟩ (Pc.calm_user _)

end

end Proc
