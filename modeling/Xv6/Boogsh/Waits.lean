import Mathlib.Data.Fintype.Card
import Mathlib.Data.Finset.Card
import Xv6.Boogsh.Jobs

/-!
# The end of the foreground wait

`loops_step` says how the loop of `run_program` can end, `loop_ends` that it does once its child has
exited, and `not_returned_again` that no later `wait` gets the child.
-/

namespace Boogsh.Jobs
open Lib Proc

section
variable {s t : Sys} {k k' : State} {p q r : Fin nproc} {a : Act} {pid v : Int}

/-! ## the end of the loop -/

theorem loops_step {e : Event} (h : Ok p s) (hl : s.Loops pid) (hs : SysStep p s e t) :
    t.Loops pid ∨ (s.kernel.slot p).killed = true ∧ t.place = .gone ∨ t.Ended p pid := by
  have henter : ∀ {a : Act} {place : Place}, s.enter p a place = some t → t.place = place := by
    intro a place he
    obtain ⟨k, -, rfl⟩ := Option.map_eq_some_iff.mp he
    rfl
  have hready : s.place ≠ .ready ∧ s.place ≠ .panic ∧ s.place.calls = fun _ => false := by
    rcases hl with e | e <;> rw [e] <;>
      exact ⟨Place.noConfusion, Place.noConfusion, funext fun a => by cases a <;> rfl⟩
  cases e with
  | other q a =>
    unfold SysStep sysStep at hs
    dsimp only at hs
    split at hs
    · cases hs
    · obtain ⟨k, -, rfl⟩ := Option.map_eq_some_iff.mp hs
      exact Or.inl hl
  | shell m =>
    have hs' : shellStep p s m = some t := hs
    cases m with
    | test =>
      obtain ⟨-, pid', hplace, ht⟩ := h.test hs'
      have he : pid' = pid := by
        rcases hl with e | e
        · cases hplace.symm.trans e
        · exact Place.wait.inj (hplace.symm.trans e)
      subst he
      rcases ht with ht | ht
      · exact Or.inr (Or.inr ht)
      · exact Or.inl (Or.inl ht)
    | call a =>
      rw [shellStep] at hs'
      rw [hready.2.2] at hs'
      cases hs'
    | run background memory =>
      rw [shellStep] at hs'
      rw [if_neg hready.1] at hs'
      cases hs'
    | forked =>
      rw [shellStep] at hs'
      rcases hl with e | e <;> rw [e] at hs' <;> cases hs'
    | wait =>
      rw [shellStep] at hs'
      rcases hl with e | e
      · rw [e] at hs'
        exact Or.inl (Or.inr (henter hs'))
      · rw [e] at hs'
        cases hs'
    | exit status =>
      rw [shellStep] at hs'
      split at hs'
      · rename_i hmay
        refine Or.inr (Or.inl ⟨?_, henter hs'⟩)
        unfold Sys.mayExit at hmay
        rw [decide_eq_false hready.1, decide_eq_false hready.2.1] at hmay
        have hk := (Bool.and_eq_true_iff.mp hmay).1
        exact (Bool.and_eq_true_iff.mp hk).2
      · cases hs'
    | advance =>
      rw [shellStep] at hs'
      split at hs'
      · cases hs'
      · obtain ⟨k, -, rfl⟩ := Option.map_eq_some_iff.mp hs'
        exact Or.inl hl

def zombies (k : State) (p : Fin nproc) : Nat :=
  (Finset.univ.filter fun q => (k.slot q).parent = some p ∧ (k.slot q).state = .zombie).card

def Sys.left (p : Fin nproc) (s : Sys) : Nat :=
  match s.place, s.kernel.pc p with
  | .call _, _ => 8 * zombies s.kernel p + 5
  | .wait _, .wait _ _ => 8 * zombies s.kernel p + 4
  | .wait _, .ret _ => 8 * zombies s.kernel p + 7
  | .wait _, .user _ => 8 * zombies s.kernel p + 6
  | _, _ => 0

theorem zombies_congr (h : ∀ q, (k'.slot q).Same (k.slot q)) : zombies k' p = zombies k p := by
  unfold zombies
  congr 1
  refine Finset.filter_congr fun q _ => ?_
  rw [(h q).parent, (h q).state]

/-- a `wait` that returns a child leaves one less -/
theorem zombies_lt {z : Fin nproc} (hz : k.findZombie p = some z)
    (hother : ∀ q, q ≠ z → k'.slot q = k.slot q) (hfree : (k'.slot z).state = .unused) :
    zombies k' p < zombies k p := by
  obtain ⟨hpar, hst⟩ := findZombie_spec hz
  refine Finset.card_lt_card ⟨fun q hq => ?_, fun hsub => ?_⟩
  · obtain ⟨-, h1, h2⟩ := Finset.mem_filter.mp hq
    have hne : q ≠ z := by
      rintro rfl
      exact absurd (hfree.symm.trans h2) nofun
    rw [hother q hne] at h1 h2
    exact Finset.mem_filter.mpr ⟨Finset.mem_univ q, h1, h2⟩
  · have hmem := hsub (Finset.mem_filter.mpr ⟨Finset.mem_univ z, hpar, hst⟩)
    have h2 := (Finset.mem_filter.mp hmem).2.2
    exact absurd (hfree.symm.trans h2) nofun

theorem zombie_of_exited (h : Ok p s) (hlive : (s.kernel.slot p).state = .live)
    (hq : Awaited s p q pid) (he : s.Exited pid) :
    (s.kernel.slot q).parent = some p ∧ (s.kernel.slot q).state = .zombie := by
  refine ⟨parent_of_child h.inv hlive ⟨hq.other, hq.there, Or.inl hq.forker.symm⟩, ?_⟩
  obtain ⟨n, v, hn, hv⟩ := he
  have hgone : (s.kernel.slot q).pid ∈ s.kernel.gone := by
    rw [Int.ofNat.inj (hq.same.trans hn.symm)]
    exact List.mem_map_of_mem (f := Prod.fst) hv
  rcases hq.there with e | e
  · exact absurd hgone (h.inv.stays q (Or.inl e))
  · exact e

/-- a call of `wait` that finds a child ends with one less to do -/
theorem left_scan {z : Fin nproc} (hlive : (k.slot p).state = .live) (hz : k.findZombie p = some z) :
    (∃ v, (wait2 k p (some true) none).pc p = .ret v) ∧
      zombies (wait2 k p (some true) none) p < zombies k p ∧
      ((wait2 k p (some true) none).slot p).killed = (k.slot p).killed := by
  have hno : ¬ ((some true : Option Bool) = some false ∨ (none : Option Bool) = some false) := by
    decide
  have hne : p ≠ z := by
    rintro rfl
    exact absurd (hlive.symm.trans (findZombie_spec hz).2) nofun
  have hslot : ∀ q, q ≠ z → (wait2 k p (some true) none).slot q = k.slot q := by
    intro q hq
    unfold wait2
    rw [hz]
    dsimp only
    rw [if_neg hno]
    exact State.setSlot_of_ne hq
  refine ⟨?_, zombies_lt hz hslot ?_, by rw [hslot p hne]⟩
  · unfold wait2
    rw [hz]
    dsimp only
    rw [if_neg hno]
    exact ⟨_, State.goto_self⟩
  · unfold wait2
    rw [hz]
    dsimp only
    rw [if_neg hno]
    show ((k.setSlot z (freeproc (k.slot z))).slot z).state = _
    rw [State.setSlot_self]
    rfl

theorem advance_eq (hg : s.place ≠ .gone) (hs : step s.kernel p .advance = some k) :
    shellStep p s .advance =
      some { s with kernel := k, status := (copied s.kernel p).getD s.status } := by
  rw [shellStep, if_neg hg, hs]
  rfl

/-- when its child has exited there is a move of the shell, and less to do behind it -/
theorem loop_progress (h : Ok p s) (hl : s.Loops pid) (hk : (s.kernel.slot p).killed = false)
    (he : s.Exited pid) : ∃ m t, shellStep p s m = some t ∧ t.left p < s.left p ∧
      (t.kernel.slot p).killed = false := by
  have hg : s.place ≠ .gone := by
    rcases hl with e | e <;> rw [e] <;> exact nofun
  obtain ⟨hlive, hstays, hat⟩ := h.runs hg
  have hstep : step s.kernel p .advance = advance s.kernel p := by
    unfold step
    exact if_neg (not_not.mpr hlive)
  rcases hl with hp | hp
  · rw [hp] at hat
    obtain ⟨⟨a0, hpc⟩, -⟩ := hat
    have hcall : step s.kernel p (.wait2 (some true) none) =
        some (s.kernel.goto p (.wait (some true) none)) := by
      unfold step
      rw [if_neg (not_not.mpr hlive)]
      dsimp only
      rw [hpc]
    refine ⟨.wait, { s with kernel := s.kernel.goto p (.wait (some true) none), place := .wait pid },
      ?_, ?_, hk⟩
    · rw [shellStep, hp]
      dsimp only
      unfold Sys.enter
      rw [hcall]
      rfl
    · unfold Sys.left
      rw [hp]
      dsimp only
      rw [State.goto_self]
      show 8 * zombies s.kernel p + 4 < _
      omega
  · rw [hp] at hat
    cases hpc : s.kernel.pc p with
    | fork | forked | exit =>
      rw [hpc] at hat
      exact hat.elim
    | asleep addr res =>
      rw [hpc] at hat
      obtain ⟨-, -, q, hq⟩ := hat
      obtain ⟨hpar, hz⟩ := zombie_of_exited h hlive hq he
      exact absurd hz (h.missed p addr res hpc q hpar)
    | user v =>
      by_cases e : v = pid
      · refine ⟨.test, { s with place := .ready, exitStatus := s.status }, ?_, ?_, hk⟩
        · rw [shellStep, hp, hpc]
          exact if_pos e
        · unfold Sys.left
          rw [hp, hpc]
          exact Nat.succ_pos _
      · refine ⟨.test, { s with place := .call pid }, ?_, ?_, hk⟩
        · rw [shellStep, hp, hpc]
          exact if_neg e
        · unfold Sys.left
          rw [hp, hpc]
          exact Nat.lt_succ_self _
    | ret v =>
      have hadv : step s.kernel p .advance = some (((s.kernel.setSlot p { s.kernel.slot p with
          counter := incr (s.kernel.slot p).counter }).mark p .done).goto p (.user v)) := by
        rw [hstep]
        unfold advance
        rw [hpc]
      refine ⟨.advance, _, advance_eq hg hadv, ?_, ?_⟩
      · have hz : zombies (((s.kernel.setSlot p { s.kernel.slot p with
            counter := incr (s.kernel.slot p).counter }).mark p .done).goto p (.user v)) p =
            zombies s.kernel p := zombies_congr (same_setSlot ⟨rfl, rfl, rfl, rfl⟩)
        unfold Sys.left
        rw [hp, hpc]
        dsimp only
        rw [State.goto_self, hz]
        exact Nat.lt_succ_self _
      · show ((s.kernel.setSlot p _).slot p).killed = false
        rw [State.setSlot_self]
        exact hk
    | wait addr res =>
      rw [hpc] at hat
      obtain ⟨rfl, rfl, q, hq⟩ := hat
      obtain ⟨hpar, hz⟩ := zombie_of_exited h hlive hq he
      have hadv : step s.kernel p .advance = some (wait2 s.kernel p (some true) none) := by
        rw [hstep]
        unfold advance
        rw [hpc]
      cases hf : s.kernel.findZombie p with
      | none =>
        have hno := Fin.find?_eq_none_iff.mp hf q
        exact absurd ⟨hpar, hz⟩ (of_decide_eq_false hno)
      | some z =>
        obtain ⟨⟨v, hv⟩, hlt, hkill⟩ := left_scan hlive hf
        refine ⟨.advance, _, advance_eq hg hadv, ?_, hkill.trans hk⟩
        unfold Sys.left
        rw [hp, hpc]
        dsimp only
        rw [hv]
        dsimp only
        omega

/-- an event is a step of the kernel, or one of the shell alone -/
theorem kernel_step {e : Event} (hs : SysStep p s e t) :
    t.kernel = s.kernel ∨ ∃ r a, Step s.kernel (r, a) t.kernel := by
  have henter : ∀ {a : Act} {place : Place}, s.enter p a place = some t →
      ∃ r a, Step s.kernel (r, a) t.kernel := by
    intro a place he
    obtain ⟨k, hk, rfl⟩ := Option.map_eq_some_iff.mp he
    exact ⟨p, a, hk⟩
  cases e with
  | other q a =>
    unfold SysStep sysStep at hs
    dsimp only at hs
    split at hs
    · exact absurd hs nofun
    · obtain ⟨k, hk, rfl⟩ := Option.map_eq_some_iff.mp hs
      exact Or.inr ⟨q, a, hk⟩
  | shell m =>
    have hs' : shellStep p s m = some t := hs
    cases m with
    | call | run | exit =>
      rw [shellStep] at hs'
      split at hs'
      · exact Or.inr (henter hs')
      · exact absurd hs' nofun
    | forked =>
      rw [shellStep] at hs'
      split at hs'
      · split at hs'
        · rw [← Option.some.inj hs']
          exact Or.inl rfl
        · split at hs'
          · split at hs' <;> rw [← Option.some.inj hs'] <;> exact Or.inl rfl
          · exact absurd hs' nofun
      · exact absurd hs' nofun
    | wait =>
      rw [shellStep] at hs'
      split at hs'
      · exact Or.inr (henter hs')
      · exact absurd hs' nofun
    | test =>
      rw [shellStep] at hs'
      split at hs'
      · split at hs' <;> rw [← Option.some.inj hs'] <;> exact Or.inl rfl
      · exact absurd hs' nofun
    | advance =>
      rw [shellStep] at hs'
      split at hs'
      · exact absurd hs' nofun
      · obtain ⟨k, hk, rfl⟩ := Option.map_eq_some_iff.mp hs'
        exact Or.inr ⟨p, .advance, hk⟩

theorem grows_event {e : Event} (hs : SysStep p s e t) :
    s.kernel.hist.exited <:+ t.kernel.hist.exited ∧ s.kernel.hist.reaped <:+ t.kernel.hist.reaped := by
  rcases kernel_step hs with e | ⟨r, a, hstep⟩
  · rw [e]
    exact ⟨List.suffix_refl _, List.suffix_refl _⟩
  · exact (grows_step hstep).2

theorem Sys.Exited.event {e : Event} (hs : SysStep p s e t) (he : s.Exited pid) : t.Exited pid := by
  obtain ⟨n, v, hn, hv⟩ := he
  exact ⟨n, v, hn, (grows_event hs).1.subset hv⟩

/-- the shell is in the loop or at its end, and its child has exited -/
structure Draining (p : Fin nproc) (pid : Int) (s : Sys) : Prop where
  ok : Ok p s
  killed : (s.kernel.slot p).killed = false
  exited : s.Exited pid
  place : s.Loops pid ∨ s.Ended p pid

/-- a move in the loop -/
structure Drain (p : Fin nproc) (pid : Int) (s : Sys) (e : Event) (t : Sys) : Prop where
  loops : s.Loops pid
  step : guarded ByShell (SysStep p) s e t
  killed : (t.kernel.slot p).killed = false

theorem Draining.step {e : Event} (h : Draining p pid s) (hs : Drain p pid s e t) :
    Draining p pid t := by
  have hstep := hs.step.2
  refine ⟨h.ok.step hstep, hs.killed, h.exited.event hstep, ?_⟩
  rcases loops_step h.ok hs.loops hstep with hl | ⟨hk, -⟩ | hend
  · exact Or.inl hl
  · exact absurd (h.killed.symm.trans hk) nofun
  · exact Or.inr hend

/-- once the child has exited, the shell alone gets to the end of the loop -/
theorem loop_ends (h : Ok p s) (hl : s.Loops pid) (hk : (s.kernel.slot p).killed = false)
    (he : s.Exited pid) : ∃ l t, Run (guarded ByShell (SysStep p)) s l t ∧ t.Ended p pid := by
  have hprog : ∀ s, Draining p pid s → s.Ended p pid ∨
      ∃ e t, Drain p pid s e t ∧ t.left p < s.left p := by
    rintro s ⟨hok, hk, he, hl | hend⟩
    · obtain ⟨m, t, hm, hlt, hk'⟩ := loop_progress hok hl hk he
      exact Or.inr ⟨.shell m, t, ⟨hl, ⟨⟨m, rfl⟩, hm⟩, hk'⟩, hlt⟩
    · exact Or.inl hend
  obtain ⟨l, t, hrun, ht⟩ := @Run.exists_of_measure _ _ (Drain p pid) s _ _ (Sys.left p)
    (fun _ _ _ => Draining.step) hprog ⟨h, hk, he, Or.inl hl⟩
  exact ⟨l, t, hrun.mono fun _ _ _ h => h.step, ht⟩

theorem ok_start {boot : List (Fin nproc × Act)} (hboot : Run Step start boot k)
    (hlive : (k.slot p).state = .live) (huser : ∃ a0, k.pc p = .user a0) : Ok p (.start k) := by
  have hboth : Inv k ∧ ∀ q, NoneMissed k q := by
    refine hboot.invariant (I := fun k => Inv k ∧ ∀ q, NoneMissed k q) ?_
      ⟨inv_start, noneMissed_start⟩
    rintro s ⟨r, a⟩ t ⟨hi, hm⟩ hs
    exact ⟨hi.step hs, noneMissed_step hi hm hs⟩
  obtain ⟨a0, hpc⟩ := huser
  refine ⟨hboth.1, hboth.2, fun _ hb => absurd hb List.not_mem_nil, fun _ => ⟨hlive, ?_, trivial⟩⟩
  intro status e
  exact absurd (hpc.symm.trans e) nofun

/-- what `wait` returns: -1, or a child that was not returned before -/
theorem wait_returns {addr res : Option Bool} (h : Inv k) (hs : Step k (r, a) k')
    (hpc : k.pc p = .wait addr res) (hret : k'.pc p = .ret v) :
    v = -1 ∨ ∃ x : Reap, k'.hist.reaped = x :: k.hist.reaped ∧ x.child = v := by
  by_cases e : p = r
  · subst e
    obtain ⟨-, htr⟩ := hs.trans
    cases htr with
    | scan h' =>
      rename_i addr res
      rcases wait2_cases h p addr res with ⟨q, x, hd⟩ | ⟨e, -⟩ | e
      · exact Or.inr ⟨x, hd.reaped, (Pc.ret.inj (hret.symm.trans hd.ret)).symm⟩
      · rw [e, State.goto_self] at hret
        exact Or.inl (Pc.ret.inj hret).symm
      · rw [e, State.goto_self] at hret
        exact absurd hret nofun
    | fork _ h' | exiting _ h' | waiting _ _ h' | kill _ h' | strace h' | reset h' | other _ h'
    | parent h' | child h' | exit h' | count h' => exact absurd (hpc.symm.trans h') nofun
  · rcases rouses_step h hs e with (e' | ⟨_, _, e', -⟩) | ⟨-, e'⟩
    · exact absurd (hret.symm.trans (e'.trans hpc)) nofun
    · exact absurd (hpc.symm.trans e') nofun
    · exact absurd (hret.symm.trans e') nofun

/-- a child that the shell got is not returned again -/
theorem not_returned_again {l : List Event} {e : Event} {u : Sys} {w : Int} {addr res : Option Bool}
    (h : Ok p s) (hr : Received s p pid v) (hrun : Run (SysStep p) s l t) (hs : SysStep p t e u)
    (hpc : t.kernel.pc p = .wait addr res) (hret : u.kernel.pc p = .ret w) : w ≠ pid := by
  obtain ⟨x, hx, hchild, -⟩ := hr.reap
  have ht : Ok p t ∧ x ∈ t.kernel.hist.reaped := by
    refine hrun.invariant (I := fun t => Ok p t ∧ x ∈ t.kernel.hist.reaped) ?_ ⟨h, hx⟩
    rintro s e t ⟨hok, hx⟩ hs
    exact ⟨hok.step hs, (grows_event hs).2.subset hx⟩
  rintro rfl
  rcases kernel_step hs with e' | ⟨r, a, hstep⟩
  · rw [e', hpc] at hret
    exact absurd hret nofun
  · rcases wait_returns ht.1.inv hstep hpc hret with e' | ⟨y, hy, hyc⟩
    · omega
    · have honce := (ht.1.step hs).inv.once
      rw [hy, List.map_cons, List.nodup_cons] at honce
      refine honce.1 (List.mem_map.mpr ⟨x, ht.2, ?_⟩)
      exact Int.ofNat.inj (hchild.trans hyc.symm)

end

/-- in every order of exits: the loop of the shell ends at its own child only, with the status of that
child, unless the shell is killed; it does end, once the child has exited; and no `wait` behind it
returns the child again -/
theorem foreground_wait (p : Fin nproc) (boot : List (Fin nproc × Act)) (k : State)
    (hboot : Run Step start boot k) (hlive : (k.slot p).state = .live)
    (huser : ∃ a0, k.pc p = .user a0) (l : List Event) (s : Sys)
    (hrun : Run (SysStep p) (.start k) l s) (pid : Int) :
    (∀ e t, SysStep p s e t → s.Loops pid →
      t.Loops pid ∨ (s.kernel.slot p).killed = true ∧ t.place = .gone ∨ t.Ended p pid) ∧
    (s.Loops pid → (s.kernel.slot p).killed = false → s.Exited pid →
      ∃ l t, Run (guarded ByShell (SysStep p)) s l t ∧ t.Ended p pid) ∧
    ∀ v, Received s p pid v → ∀ l t e u addr res w, Run (SysStep p) s l t → SysStep p t e u →
      t.kernel.pc p = .wait addr res → u.kernel.pc p = .ret w → w ≠ pid := by
  have h : Ok p s := hrun.invariant (fun _ _ _ => Ok.step) (ok_start hboot hlive huser)
  refine ⟨fun e t hs hl => loops_step h hl hs, fun hl hk he => loop_ends h hl hk he, ?_⟩
  intro v hr l t e u addr res w hrun' hs hpc hret
  exact not_returned_again h hr hrun' hs hpc hret

def boot : List (Fin nproc × Act) := [(0, .fork true), (0, .advance), (0, .advance), (0, .advance)]

def session : List Event :=
  [.shell (.run true true), .shell .advance, .shell .advance, .shell .advance, .shell .forked,
    .shell (.run false true), .shell .advance, .shell .advance, .shell .advance, .shell .forked,
    .other 2 (.exit 5), .other 2 .advance, .shell .wait, .shell .advance, .shell .advance,
    .shell .test, .other 3 (.exit 7), .other 3 .advance]

theorem foreground_wait_session : ∃ k s, Run Step start boot k ∧ Run (SysStep 1) (.start k) session s ∧
    s.Loops 4 ∧ s.jobs = [3] ∧ s.status = 5 ∧
    ∃ l t, Run (guarded ByShell (SysStep 1)) s l t ∧ t.Ended 1 4 := by
  have hsome : (exec (fun s e => step s e.1 e.2) start boot).bind (fun k =>
      (exec (sysStep 1) (.start k) session).map (fun s => decide ((k.slot 1).state = .live ∧
        k.pc 1 = .user 0 ∧ s.place = .call 4 ∧ s.jobs = [3] ∧ s.status = 5 ∧
        (s.kernel.slot 1).killed = false ∧ s.kernel.hist.exited = [(4, 7), (3, 5)]))) =
      some true := by
    decide +kernel
  obtain ⟨k, hk, hrest⟩ := Option.bind_eq_some_iff.mp hsome
  obtain ⟨s, hs, he⟩ := Option.map_eq_some_iff.mp hrest
  obtain ⟨hlive, huser, hplace, hjobs, hstatus, hkill, hexit⟩ := of_decide_eq_true he
  have hboot : Run Step start boot k := Run.of_exec (fun _ _ _ h => h) hk
  have hrun : Run (SysStep 1) (.start k) session s := Run.of_exec (fun _ _ _ h => h) hs
  have hl : s.Loops 4 := Or.inl hplace
  have hex : s.Exited 4 := by
    refine ⟨4, 7, rfl, ?_⟩
    rw [hexit]
    exact List.mem_cons_self
  exact ⟨k, s, hboot, hrun, hl, hjobs, hstatus,
    (foreground_wait 1 boot k hboot hlive ⟨0, huser⟩ session s hrun 4).2.1 hl hkill hex⟩

end Boogsh.Jobs
