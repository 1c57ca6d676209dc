import Xv6.Proc.Reap

/-!
# What a step leaves of a process

A process stays as it is when another one takes a step, except that its parent reaps it and that it
is woken; and one that sleeps in `wait2` has no child to reap: `exit` wakes the parent in the critical
section that makes the zombie.
-/

namespace Proc
open Lib

def State.There (s : State) (q : Fin nproc) : Prop :=
  (s.slot q).state = .live ∨ (s.slot q).state = .zombie

/-- the process in slot `q` is still there behind a step of process `r` -/
structure Stays (s t : State) (r q : Fin nproc) : Prop where
  pid : (t.slot q).pid = (s.slot q).pid
  forker : t.hist.forker q = s.hist.forker q
  state : (t.slot q).state = (s.slot q).state ∨
    (q = r ∧ ∃ status, s.pc r = .exit status) ∧ (t.slot q).state = .zombie
  xstate : (s.slot q).state = .zombie → (t.slot q).xstate = (s.slot q).xstate

/-- a process that sleeps in `wait2` has no zombie to reap -/
def NoneMissed (s : State) (p : Fin nproc) : Prop :=
  ∀ addr res, s.pc p = .asleep addr res → ∀ q, (s.slot q).parent = some p →
    (s.slot q).state ≠ .zombie

section
variable {s t : State} {p q r np : Fin nproc} {a : Act} {status : Int}

theorem Stays.there (h : Stays s t r q) (hq : s.There q) : t.There q := by
  rcases h.state with e | ⟨-, e⟩
  · unfold State.There
    rw [e]
    exact hq
  · exact Or.inr e

theorem Stays.of_same (h : (t.slot q).Same (s.slot q)) (hf : t.hist.forker q = s.hist.forker q) :
    Stays s t r q := ⟨h.pid, hf, Or.inl h.state, fun _ => h.xstate⟩

theorem Stays.of_eq (h : t.slot q = s.slot q) (hf : t.hist.forker q = s.hist.forker q) :
    Stays s t r q := .of_same (by rw [h]; exact .rfl' _) hf

/-! ## the slots -/

theorem stays_setSlot {x : Slot} (hx : x.Same (s.slot p)) (ht : t.slot = (s.setSlot p x).slot)
    (hf : t.hist.forker = s.hist.forker) : Stays s t r q := by
  refine .of_same ?_ (congrFun hf q)
  rw [ht]
  exact same_setSlot hx q

theorem stays_fork (hq : s.There q) (memory : Bool) : Stays s (fork s p memory) p q := by
  unfold fork
  cases hu : s.firstUnused with
  | none => exact .of_eq rfl rfl
  | some np =>
    have hne : q ≠ np := by
      rintro rfl
      have hfree := firstUnused_spec hu
      rcases hq with e | e <;> exact absurd (e.symm.trans hfree) nofun
    dsimp only
    split
    · exact .of_eq (allocproc_slot_of_ne (p := p) hne) (allocproc_forker_of_ne hne)
    · refine .of_eq ?_ (allocproc_forker_of_ne hne)
      exact (State.setSlot_of_ne hne).trans (allocproc_slot_of_ne hne)

theorem stays_exit (hr : (s.slot r).state = .live) (hpc : s.pc r = .exit status) :
    Stays s (exit s r status) r q := by
  obtain ⟨hslot, -, hhist, -⟩ := exit_eq s r status
  refine ⟨by rw [hslot, buried_pid], by rw [hhist], ?_, ?_⟩
  · rw [hslot]
    by_cases e : q = r
    · subst e
      exact Or.inr ⟨⟨rfl, status, hpc⟩, buried_state_self⟩
    · exact Or.inl (buried_state_of_ne e)
  · intro hz
    have e : q ≠ r := by
      rintro rfl
      exact absurd (hr.symm.trans hz) nofun
    rw [hslot, buried_xstate_of_ne e]

/-- the scan of `wait2` reaps a process, or leaves it -/
theorem stays_wait2 (h : Inv s) (addr res : Option Bool) :
    s.findZombie r = some q ∧ (∃ x, Delivers s r q x (wait2 s r addr res)) ∨
      Stays s (wait2 s r addr res) r q := by
  cases hz : s.findZombie r with
  | none =>
    right
    unfold wait2
    rw [hz]
    dsimp only
    split
    · exact .of_eq rfl rfl
    · exact .of_eq rfl rfl
  | some z =>
    by_cases hbad : addr = some false ∨ res = some false
    · right
      unfold wait2
      rw [hz]
      dsimp only
      rw [if_pos hbad]
      exact .of_eq rfl rfl
    · obtain ⟨ha, hr⟩ := not_or.mp hbad
      by_cases e : q = z
      · subst e
        exact Or.inl ⟨rfl, delivers_of_zombie h hz ha hr⟩
      · right
        unfold wait2
        rw [hz]
        dsimp only
        rw [if_neg hbad]
        exact .of_eq (State.setSlot_of_ne e) rfl

/-- a step of process `r` reaps a process, or leaves it there -/
theorem stays_step (h : Inv s) (hs : Step s (r, a) t) (hq : s.There q) :
    s.findZombie r = some q ∧ (∃ x, Delivers s r q x t) ∨ Stays s t r q := by
  obtain ⟨hlive, ht⟩ := hs.trans
  cases ht with
  | fork memory hpc => exact Or.inr (stays_fork hq memory)
  | exit hpc => exact Or.inr (stays_exit hlive hpc)
  | scan hpc => exact stays_wait2 h _ _
  | exiting | waiting | other => exact Or.inr (.of_eq rfl rfl)
  | strace =>
    exact Or.inr (stays_setSlot (x := { s.slot r with strace := true }) ⟨rfl, rfl, rfl, rfl⟩ rfl rfl)
  | reset =>
    exact Or.inr (stays_setSlot (x := { s.slot r with counter := 0 }) ⟨rfl, rfl, rfl, rfl⟩ rfl rfl)
  | count =>
    exact Or.inr (stays_setSlot (x := { s.slot r with counter := incr (s.slot r).counter })
      ⟨rfl, rfl, rfl, rfl⟩ rfl rfl)
  | kill pid hpc =>
    right
    unfold kill
    split
    · exact .of_eq rfl rfl
    · rename_i z hz
      have hw := woken_wakeup (s.setSlot z { s.slot z with killed := true }) z
      exact stays_setSlot (x := { s.slot z with killed := true }) ⟨rfl, rfl, rfl, rfl⟩ hw.slot
        (congrArg Hist.forker hw.hist)
  | parent hpc =>
    rename_i np
    obtain ⟨hused, -⟩ := h.child r np false hlive (by rw [hpc]; rfl)
    have hne : q ≠ np := by
      rintro rfl
      rcases hq with e | e <;> exact absurd (e.symm.trans hused) nofun
    exact Or.inr (.of_eq (State.setSlot_of_ne hne) rfl)
  | child hpc =>
    rename_i np
    obtain ⟨hused, -⟩ := h.child r np true hlive (by rw [hpc]; rfl)
    have hne : q ≠ np := by
      rintro rfl
      rcases hq with e | e <;> exact absurd (e.symm.trans hused) nofun
    exact Or.inr (.of_eq (State.setSlot_of_ne hne) rfl)

theorem live_step (h : Inv s) (hs : Step s (r, a) t) (hp : (s.slot p).state = .live)
    (hno : p = r → ∀ status, s.pc p ≠ .exit status) :
    (t.slot p).state = .live ∧ (t.slot p).pid = (s.slot p).pid := by
  rcases stays_step h hs (Or.inl hp) with ⟨hz, -⟩ | hst
  · exact absurd (hp.symm.trans (findZombie_spec hz).2) nofun
  · rcases hst.state with e | ⟨⟨e, status, hpc⟩, -⟩
    · exact ⟨e.trans hp, hst.pid⟩
    · exact absurd (e ▸ hpc) (hno e status)

theorem grows_step (hs : Step s (r, a) t) : s.nextpid ≤ t.nextpid ∧
    s.hist.exited <:+ t.hist.exited ∧ s.hist.reaped <:+ t.hist.reaped := by
  obtain ⟨hlive, ht⟩ := hs.trans
  have hsame : ∀ {u : State}, u.nextpid = s.nextpid → u.hist.exited = s.hist.exited →
      u.hist.reaped = s.hist.reaped → s.nextpid ≤ u.nextpid ∧
        s.hist.exited <:+ u.hist.exited ∧ s.hist.reaped <:+ u.hist.reaped := by
    intro u h1 h2 h3
    rw [h1, h2, h3]
    exact ⟨Nat.le_refl _, List.suffix_refl _, List.suffix_refl _⟩
  cases ht with
  | fork memory hpc =>
    unfold fork
    split
    · exact hsame rfl rfl rfl
    · dsimp only
      split <;> exact ⟨Nat.le_succ _, List.suffix_refl _, List.suffix_refl _⟩
  | exiting | waiting | strace | reset | other | parent | child | count => exact hsame rfl rfl rfl
  | kill pid hpc =>
    unfold kill
    split
    · exact hsame rfl rfl rfl
    · rename_i z hz
      have hw := woken_wakeup (s.setSlot z { s.slot z with killed := true }) z
      exact hsame hw.nextpid (congrArg Hist.exited hw.hist) (congrArg Hist.reaped hw.hist)
  | exit hpc =>
    rename_i status
    obtain ⟨-, hn, hhist, -⟩ := exit_eq s r status
    rw [hn, hhist]
    exact ⟨Nat.le_refl _, List.suffix_cons _ _, List.suffix_refl _⟩
  | scan hpc =>
    unfold wait2
    split
    · split
      · exact hsame rfl rfl rfl
      · exact ⟨Nat.le_refl _, List.suffix_refl _, List.suffix_cons _ _⟩
    · split <;> exact hsame rfl rfl rfl

/-- a process exits once, with one status -/
theorem exited_unique (h : Inv s) {k : Nat} {v w : Int} (hv : (k, v) ∈ s.hist.exited)
    (hw : (k, w) ∈ s.hist.exited) : v = w :=
  congrArg Prod.snd (List.inj_on_of_nodup_map h.exitedNodup hv hw rfl)

/-! ## `wakeup` -/

/-- a process goes on, or is woken -/
def Pc.Rouses (a b : Pc) : Prop :=
  b = a ∨ ∃ addr res, a = .asleep addr res ∧ b = .wait addr res

theorem Pc.Rouses.trans {a b c : Pc} (h : a.Rouses b) (h' : b.Rouses c) : a.Rouses c := by
  rcases h with rfl | ⟨addr, res, ha, rfl⟩
  · exact h'
  · rcases h' with rfl | ⟨_, _, hb, -⟩
    · exact Or.inr ⟨addr, res, ha, rfl⟩
    · exact absurd hb nofun

theorem Pc.Rouses.asleep {a b : Pc} {addr res : Option Bool} (h : a.Rouses b)
    (hb : b = .asleep addr res) : a = .asleep addr res := by
  rcases h with rfl | ⟨_, _, -, rfl⟩
  · exact hb
  · exact absurd hb nofun

theorem rouses_wakeup (s : State) (q r : Fin nproc) : (s.pc r).Rouses ((s.wakeup q).pc r) := by
  unfold State.wakeup
  split
  · rename_i addr res hpc
    by_cases e : r = q
    · subst e
      exact Or.inr ⟨addr, res, hpc, State.goto_self⟩
    · exact Or.inl (State.goto_of_ne e)
  · exact Or.inl rfl

theorem wakeup_wakes (s : State) (q : Fin nproc) (addr res : Option Bool) :
    (s.wakeup q).pc q ≠ .asleep addr res := by
  unfold State.wakeup
  split
  · rw [State.goto_self]
    exact nofun
  · rename_i hpc
    exact hpc addr res

theorem rouses_reparent (s : State) (p r : Fin nproc) : (s.pc r).Rouses ((s.reparent p).pc r) := by
  unfold State.reparent
  dsimp only
  split
  · exact rouses_wakeup _ initproc r
  · exact Or.inl rfl

theorem rouses_exit (s : State) (p r : Fin nproc) (status : Int) :
    (s.pc r).Rouses ((exit s p status).pc r) := by
  refine (rouses_reparent s p r).trans ?_
  unfold exit
  dsimp only
  split
  · exact rouses_wakeup _ _ r
  · exact Or.inl rfl

/-- `exit` wakes the parent, and `initproc` where there are children to give away -/
theorem exit_wakes (s : State) (p : Fin nproc) (status : Int) {r : Fin nproc}
    (hr : (s.slot p).parent = some r ∧ r ≠ p ∨ r = initproc ∧ ∃ q, (s.slot q).parent = some p)
    (addr res : Option Bool) : (exit s p status).pc r ≠ .asleep addr res := by
  intro hbad
  have hpar : ∀ x, (s.slot p).parent = some x → x ≠ p → ((s.reparent p).slot p).parent = some x := by
    intro x hx hne
    rw [(woken_reparent s p).slot]
    have hno : ¬ (s.slot p).parent = some p := by
      rw [hx]
      exact fun e => hne (Option.some.inj e)
    exact (congrArg Slot.parent (if_neg hno)).trans hx
  unfold exit at hbad
  dsimp only at hbad
  rcases hr with ⟨hp, hne⟩ | ⟨rfl, hex⟩
  · rw [hpar r hp hne] at hbad
    exact wakeup_wakes _ r addr res hbad
  · have hinit : (s.reparent p).pc initproc ≠ .asleep addr res := by
      unfold State.reparent
      dsimp only
      rw [if_pos hex]
      exact wakeup_wakes _ initproc addr res
    split at hbad
    · exact hinit ((rouses_wakeup _ _ initproc).asleep hbad)
    · exact hinit hbad

/-- what the step of another process does to the place of a process; a slot that `fork` takes starts
in user mode -/
theorem rouses_step (h : Inv s) (hs : Step s (r, a) t) (hne : p ≠ r) :
    (s.pc p).Rouses (t.pc p) ∨ (s.slot p).state ≠ .live ∧ t.pc p = .user 0 := by
  obtain ⟨hlive, ht⟩ := hs.trans
  have hgoto : ∀ {u : State} {pc : Pc}, (s.pc p).Rouses (u.pc p) →
      (s.pc p).Rouses ((u.goto r pc).pc p) := by
    intro u pc hu
    rw [State.goto_of_ne hne]
    exact hu
  cases ht with
  | fork memory hpc =>
    left
    unfold fork
    split
    · exact hgoto (Or.inl rfl)
    · dsimp only
      split <;> exact hgoto (Or.inl rfl)
  | exiting | waiting | strace | reset | other | parent | count => exact Or.inl (hgoto (Or.inl rfl))
  | kill pid hpc =>
    refine Or.inl (hgoto ?_)
    unfold kill
    split
    · exact Or.inl rfl
    · exact rouses_wakeup _ _ p
  | child hpc =>
    rename_i np
    by_cases e : p = np
    · subst e
      obtain ⟨hused, -⟩ := h.child r p true hlive (by rw [hpc]; rfl)
      refine Or.inr ⟨by rw [hused]; exact nofun, ?_⟩
      exact (State.goto_of_ne hne).trans State.goto_self
    · exact Or.inl (hgoto (Or.inl (State.goto_of_ne e)))
  | exit hpc => exact Or.inl (rouses_exit s r p _)
  | scan hpc =>
    left
    unfold wait2
    split
    · split
      · exact hgoto (Or.inl rfl)
      · exact hgoto (u := s.setSlot _ _) (Or.inl rfl)
    · split <;> exact hgoto (Or.inl rfl)

/-- a process goes to sleep only where the scan finds nothing -/
theorem asleep_self (hs : Step s (p, a) t) {addr res : Option Bool} (ht : t.pc p = .asleep addr res) :
    t.slot = s.slot ∧ s.findZombie p = none := by
  obtain ⟨hlive, htr⟩ := hs.trans
  have hgoto : ∀ {u : State} {pc : Pc}, (u.goto p pc).pc p = .asleep addr res →
      pc = .asleep addr res := by
    intro u pc hu
    rwa [State.goto_self] at hu
  cases htr with
  | fork memory hpc =>
    unfold fork at ht
    split at ht
    · exact absurd (hgoto ht) nofun
    · dsimp only at ht
      split at ht <;> exact absurd (hgoto ht) nofun
  | exiting | waiting | kill | strace | reset | other | parent | child | count =>
    exact absurd (hgoto ht) nofun
  | exit hpc => exact absurd (hpc.symm.trans ((rouses_exit s p p _).asleep ht)) nofun
  | scan hpc =>
    unfold wait2 at ht ⊢
    split
    · rename_i q hq
      rw [hq] at ht
      dsimp only at ht
      split at ht
      · exact absurd (hgoto ht) nofun
      · exact absurd (hgoto (u := s.setSlot _ _) ht) nofun
    · rename_i hq
      rw [hq] at ht
      dsimp only at ht
      split at ht
      · exact absurd (hgoto ht) nofun
      · rename_i hno
        rw [if_neg hno]
        exact ⟨rfl, hq⟩

/-- a zombie that a process has behind a step was there before, or `exit` made it one, or gave it
to `initproc` -/
theorem zombie_before (h : Inv s) (hs : Step s (r, a) t) (hpar : (t.slot q).parent = some p)
    (hz : (t.slot q).state = .zombie) :
    (s.slot q).parent = some p ∧ (s.slot q).state = .zombie ∨
    ∃ status, t = exit s r status ∧ ((s.slot r).parent = some p ∧ p ≠ r ∨
      p = initproc ∧ ∃ q, (s.slot q).parent = some r) := by
  obtain ⟨hlive, ht⟩ := hs.trans
  have hsame : (t.slot q).Same (s.slot q) → (s.slot q).parent = some p ∧ (s.slot q).state = .zombie :=
    fun he => ⟨he.parent.symm.trans hpar, he.state.symm.trans hz⟩
  have hother : ∀ np, (∀ q, q ≠ np → t.slot q = s.slot q) → (t.slot np).state ≠ .zombie →
      (s.slot q).parent = some p ∧ (s.slot q).state = .zombie := by
    intro np hne hnp
    have e : q ≠ np := by
      rintro rfl
      exact hnp hz
    rw [hne q e] at hpar hz
    exact ⟨hpar, hz⟩
  cases ht with
  | fork memory hpc =>
    left
    unfold fork at *
    cases hu : s.firstUnused with
    | none =>
      rw [hu] at hpar hz
      exact ⟨hpar, hz⟩
    | some np =>
      rw [hu] at hother
      dsimp only at hother
      cases memory with
      | true =>
        refine hother np (fun q e => allocproc_slot_of_ne (p := r) e) ?_
        show ((s.allocproc r np).slot np).state ≠ _
        rw [allocproc_slot_self]
        exact nofun
      | false =>
        refine hother np (fun q e => ?_) ?_
        · exact (State.setSlot_of_ne e).trans (allocproc_slot_of_ne e)
        · show (((s.allocproc r np).setSlot np _).slot np).state ≠ _
          rw [State.setSlot_self]
          exact nofun
  | exiting | waiting | other => exact Or.inl ⟨hpar, hz⟩
  | kill pid hpc =>
    left
    unfold kill at hsame
    split at hsame
    · exact hsame (.rfl' _)
    · rename_i z hz
      refine hsame ?_
      show ((State.wakeup _ z).slot q).Same _
      rw [(woken_wakeup _ z).slot]
      exact same_setSlot (x := { s.slot z with killed := true }) ⟨rfl, rfl, rfl, rfl⟩ q
  | strace =>
    exact Or.inl (hsame (same_setSlot (x := { s.slot r with strace := true }) ⟨rfl, rfl, rfl, rfl⟩ q))
  | reset =>
    exact Or.inl (hsame (same_setSlot (x := { s.slot r with counter := 0 }) ⟨rfl, rfl, rfl, rfl⟩ q))
  | count =>
    exact Or.inl (hsame (same_setSlot (x := { s.slot r with counter := incr (s.slot r).counter })
      ⟨rfl, rfl, rfl, rfl⟩ q))
  | parent hpc =>
    rename_i np
    obtain ⟨hused, -⟩ := h.child r np false hlive (by rw [hpc]; rfl)
    refine Or.inl (hother np (fun q e => State.setSlot_of_ne e) ?_)
    show ((s.setSlot np _).slot np).state ≠ _
    rw [State.setSlot_self]
    exact fun e => absurd (hused.symm.trans e) nofun
  | child hpc =>
    rename_i np
    refine Or.inl (hother np (fun q e => State.setSlot_of_ne e) ?_)
    show ((s.setSlot np _).slot np).state ≠ _
    rw [State.setSlot_self]
    exact nofun
  | exit hpc =>
    rename_i status
    rw [(exit_eq s r status).1] at hpar hz
    by_cases horphan : (s.slot q).parent = some r
    · rw [buried_orphan horphan] at hpar
      exact Or.inr ⟨status, rfl, Or.inr ⟨(Option.some.inj hpar).symm, q, horphan⟩⟩
    · rw [buried_parent horphan] at hpar
      by_cases e : q = r
      · subst e
        refine Or.inr ⟨status, rfl, Or.inl ⟨hpar, ?_⟩⟩
        rintro rfl
        exact horphan hpar
      · rw [buried_state_of_ne e] at hz
        exact Or.inl ⟨hpar, hz⟩
  | scan hpc =>
    left
    unfold wait2 at *
    cases hf : s.findZombie r with
    | none =>
      rw [hf] at hsame
      dsimp only at hsame
      split at hsame <;> exact hsame (.rfl' _)
    | some z =>
      rw [hf] at hsame hother
      dsimp only at hsame hother
      split at hsame
      · exact hsame (.rfl' _)
      · rename_i hgood
        rw [if_neg hgood] at hother
        refine hother z (fun q e => State.setSlot_of_ne e) ?_
        show ((s.setSlot z _).slot z).state ≠ _
        rw [State.setSlot_self]
        exact nofun

/-- no wakeup is lost -/
theorem noneMissed_step (h : Inv s) (hm : ∀ p, NoneMissed s p) (hs : Step s (r, a) t) :
    ∀ p, NoneMissed t p := by
  intro p addr res hpc q hpar hz
  by_cases e : p = r
  · subst e
    obtain ⟨hslot, hnone⟩ := asleep_self hs hpc
    rw [hslot] at hpar hz
    have hno := Fin.find?_eq_none_iff.mp hnone q
    exact of_decide_eq_false hno ⟨hpar, hz⟩
  · rcases zombie_before h hs hpar hz with ⟨hpar', hz'⟩ | ⟨status, rfl, hwho⟩
    · rcases rouses_step h hs e with hr | ⟨-, hu⟩
      · exact hm p addr res (hr.asleep hpc) q hpar' hz'
      · exact absurd (hu.symm.trans hpc) nofun
    · exact exit_wakes s r status hwho addr res hpc

theorem noneMissed_start (p : Fin nproc) : NoneMissed start p := nofun

end

end Proc
