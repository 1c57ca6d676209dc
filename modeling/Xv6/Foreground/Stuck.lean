import Xv6.Boogsh.Wiring
import Xv6.Foreground.Exit

/-!
# How the foreground command gets stuck

The process in `execute_pipeline` still has the read ends of all pipes while it waits, so a child
that has filled its pipe, and whose reader is gone, sleeps for ever (`Wedged`), and one of the
calls of `wait` never returns.
-/

namespace Foreground
open Lib Kernel Boogsh

variable {P : Pipeline} {t0 : Fds} {s s' : State} {i j p : Nat}

def unreaped (P : Pipeline) (s : State) : Nat :=
  ((Finset.range (P.n - 1)).filter (fun j => (s.stage j).phase ≠ .reaped)).card

structure Wedged (P : Pipeline) (i : Nat) (s : State) : Prop where
  lt : i + 1 < P.n
  main : ∃ m, s.main = .waiting m ∧ unreaped P s ≤ m
  phase : ∃ k, (s.stage i).phase = .writing (k + 1)
  full : pipeSize ≤ s.count i
  reader : i + 2 < P.n → (s.stage (i + 1)).Dead

theorem Stage.Live.ne_reaped {st : Stage} (h : st.Live) : st.phase ≠ .reaped :=
  fun e => h.2 (Or.inr e)

theorem Wedged.update (hw : Wedged P i s) {st : Stage} {c : Nat → Nat} (hj : j ≠ i)
    (hold : (s.stage j).Live) (hst : st.phase ≠ .reaped) (hc : pipeSize ≤ c i) :
    Wedged P i { s with stage := Function.update s.stage j st, count := c } := by
  obtain ⟨m, hm, hle⟩ := hw.main
  have hphase : ∀ l, (Function.update s.stage j st l).phase ≠ .reaped
      ↔ (s.stage l).phase ≠ .reaped := by
    intro l
    by_cases e : l = j
    · rw [e, Function.update_self]
      exact ⟨fun _ => hold.ne_reaped, fun _ => hst⟩
    · rw [Function.update_of_ne e]
  refine ⟨hw.lt, ⟨m, hm, ?_⟩, ?_, hc, fun h => ?_⟩
  · show ((Finset.range (P.n - 1)).filter
      (fun l => (Function.update s.stage j st l).phase ≠ .reaped)).card ≤ m
    simp only [hphase]
    exact hle
  · show ∃ k, (Function.update s.stage j st i).phase = .writing (k + 1)
    rw [Function.update_of_ne hj.symm]
    exact hw.phase
  · show (Function.update s.stage j st (i + 1)).Dead
    have hd := hw.reader h
    have e : i + 1 ≠ j := by
      rintro rfl
      exact hold.2 hd
    rwa [Function.update_of_ne e]

theorem Wedged.stageStep (h0 : Initial t0) (hi : Inv P t0 s) (hw : Wedged P i s)
    (h : StageStep P j s s') : Wedged P i s' := by
  obtain ⟨m, hm, -⟩ := hw.main
  obtain ⟨k, hk⟩ := hw.phase
  have hne : ∀ {ph : Phase}, (s.stage j).phase = ph → ph ≠ .writing (k + 1) → j ≠ i := by
    rintro ph hph hph' rfl
    exact hph' (hph.symm.trans hk)
  -- its own steps need a pipe with room or without a reader
  have hopen : s.ReadOpen i := Or.inl ((hi.waiting hm).1 i hw.lt)
  cases h with
  | exec hph | childPanics hph | write hph | read hph | getEnd hph | getFile hph | exit hph =>
    exact hw.update (hne hph nofun) (live_of_phase hph nofun nofun nofun) nofun hw.full
  | wrote hph =>
    exact hw.update (hne hph nofun) (live_of_phase hph nofun nofun nofun) nofun hw.full
  | put hph hfd hopen' hroom =>
    rename_i l p
    obtain rfl := writeEnd_eq ((hi.stage j).writing hph).1 hfd
    have hpi : p ≠ i := by
      rintro rfl
      exact absurd hroom (Nat.not_lt_of_le hw.full)
    refine hw.update hpi (live_of_phase hph nofun nofun nofun) nofun ?_
    rw [Function.update_of_ne hpi.symm]
    exact hw.full
  | writeFails hph hfd hclosed =>
    rename_i l p
    obtain rfl := writeEnd_eq ((hi.stage j).writing hph).1 hfd
    have hpi : p ≠ i := by
      rintro rfl
      exact hclosed hopen
    exact hw.update hpi (live_of_phase hph nofun nofun nofun) nofun hw.full
  | get hph hfd hcount =>
    rename_i l p
    have hl : (s.stage j).Live := live_of_phase hph nofun nofun nofun
    obtain rfl := readEnd_eq ((hi.stage j).reading hph).1 h0 hfd
    -- the reader of pipe `i` is dead
    have hpi : i ≠ p := by
      rintro rfl
      exact hl.2 (hw.reader (by have := hi.lt_of_born hm hl.1; omega))
    refine hw.update (hne hph nofun) hl nofun ?_
    rw [Function.update_of_ne hpi]
    exact hw.full

theorem Wedged.mem (hw : Wedged P i s) :
    i ∈ (Finset.range (P.n - 1)).filter (fun j => (s.stage j).phase ≠ .reaped) := by
  obtain ⟨k, hk⟩ := hw.phase
  have hlt := hw.lt
  rw [Finset.mem_filter, Finset.mem_range, hk]
  exact ⟨by omega, nofun⟩

theorem Wedged.mainStep (hi : Inv P t0 s) (hw : Wedged P i s) (h : MainStep P s s') :
    Wedged P i s' := by
  obtain ⟨m, hm, hle⟩ := hw.main
  obtain ⟨k, hk⟩ := hw.phase
  cases h with
  | fork hm' | pipeFails hm' | parent hm' | parentPanics hm' | execFails hm'
  | redirectPanics hm' => exact absurd (hm.symm.trans hm') nofun
  | reap hm' hz =>
    rename_i m' j
    obtain rfl := Main.waiting.inj (hm.symm.trans hm')
    have hji : j ≠ i := by
      rintro rfl
      exact absurd (hz.symm.trans hk) nofun
    have hlt := hi.lt_of_born hm (i := j) (by rw [hz]; exact nofun)
    have hmem : j ∈ (Finset.range (P.n - 1)).filter (fun l => (s.stage l).phase ≠ .reaped) := by
      rw [Finset.mem_filter, Finset.mem_range, hz]
      exact ⟨by omega, nofun⟩
    have herase : (Finset.range (P.n - 1)).filter (fun l =>
        (Function.update s.stage j { s.stage j with phase := .reaped } l).phase ≠ .reaped)
        = ((Finset.range (P.n - 1)).filter (fun l => (s.stage l).phase ≠ .reaped)).erase j := by
      ext l
      rw [Finset.mem_erase, Finset.mem_filter, Finset.mem_filter]
      by_cases e : l = j
      · rw [e, Function.update_self]
        exact ⟨fun h => absurd rfl h.2, fun h => absurd rfl h.1⟩
      · rw [Function.update_of_ne e]
        exact ⟨fun h => ⟨e, h⟩, And.right⟩
    refine ⟨hw.lt, ⟨m', rfl, ?_⟩, ⟨k, ?_⟩, hw.full, fun h => ?_⟩
    · have hcard := Finset.card_erase_add_one hmem
      have hle' : ((Finset.range (P.n - 1)).filter
        (fun l => (s.stage l).phase ≠ .reaped)).card ≤ m' + 1 := hle
      show ((Finset.range (P.n - 1)).filter (fun l =>
        (Function.update s.stage j { s.stage j with phase := .reaped } l).phase ≠ .reaped)).card ≤ m'
      rw [herase]
      omega
    · show (Function.update s.stage j _ i).phase = _
      rw [Function.update_of_ne hji.symm]
      exact hk
    · show (Function.update s.stage j { s.stage j with phase := .reaped } (i + 1)).Dead
      by_cases e : i + 1 = j
      · rw [e, Function.update_self]
        exact Or.inr rfl
      · rw [Function.update_of_ne e]
        exact hw.reader h
  | waitFails hm' hno =>
    rcases hno i with h | h
    · exact absurd (hk.symm.trans h) nofun
    · exact absurd (hk.symm.trans h) nofun
  | exit hm' =>
    obtain rfl := Main.waiting.inj (hm.symm.trans hm')
    exact absurd (Finset.card_pos.mpr ⟨i, hw.mem⟩) (by unfold unreaped at hle; omega)

theorem Wedged.not_canExit (h0 : Initial t0) (hi : Inv P t0 s) (hw : Wedged P i s) :
    ¬ CanExit P s := by
  rintro ⟨acts, s', hr, hd⟩
  have hstep : ∀ s a s', Inv P t0 s ∧ Wedged P i s → Step P s a s' → Inv P t0 s' ∧ Wedged P i s' := by
    rintro s a s' ⟨hi, hw⟩ hs
    refine ⟨hs.inv h0 hi, ?_⟩
    cases hs with
    | main h => exact hw.mainStep hi h
    | stage h => exact hw.stageStep h0 hi h
  obtain ⟨m, hm, -⟩ := (hr.invariant hstep ⟨hi, hw⟩).2.main
  exact absurd (hm.symm.trans hd) nofun

/-! ## runs that lead there -/

/-- the process has forked stages `0` to `k - 1`, and no child has made a step -/
structure Launched (P : Pipeline) (t0 : Fds) (k : Nat) (s : State) : Prop where
  inv : Inv P t0 s
  main : s.main = .level k
  left : ∀ j, s.count j = 0 ∧ (s.stage j).left = P.out j
  forked : ∀ j < k, ∃ fd0 fd1, (s.stage j).phase = .forked fd0 fd1

theorem exists_launched (h0 : Initial t0) {k : Nat} (hk : k < P.n) (hfree : k = 0 ∨ k + 1 ≤ t0.free) :
    ∃ acts s, Run (Step P) (initial P t0) acts s ∧ Launched P t0 k s := by
  induction k with
  | zero =>
    exact ⟨[], _, .nil _, inv_initial h0 hk, rfl, fun j => ⟨rfl, rfl⟩,
      fun j hj => absurd hj (Nat.not_lt_zero j)⟩
  | succ k ih =>
    obtain ⟨acts, s, hr, hl⟩ := ih (by omega) (by omega)
    obtain ⟨-, hlev, hb⟩ := hl.inv.level hl.main
    have hf := hlev.free
    obtain ⟨⟨t, fd0, fd1⟩, hp⟩ := Option.isSome_iff_exists.mp
      (pipe_isSome_iff (k := k).mpr (show 2 ≤ s.fds.free by omega))
    have hs1 : Step P s .main _ := .main (.fork hl.main hk hp)
    have hi1 := hs1.inv h0 hl.inv
    obtain ⟨-, ⟨t', hlev', hp'⟩, -⟩ := hi1.parent rfl
    obtain ⟨t2, h2, -⟩ := hlev'.parent h0 hp'
    have hs2 : Step P _ .main _ := .main (.parent rfl h2)
    refine ⟨_, _, (hr.snoc hs1).snoc hs2, hs2.inv h0 hi1, rfl, fun j => ?_, fun j hj => ?_⟩
    · show Function.update s.count k 0 j = 0 ∧
        (Function.update s.stage k ⟨.forked fd0 fd1, t, P.out k, false⟩ j).left = P.out j
      by_cases e : j = k
      · subst e
        rw [Function.update_self, Function.update_self]
        exact ⟨rfl, rfl⟩
      · rw [Function.update_of_ne e, Function.update_of_ne e]
        exact hl.left j
    · show ∃ a b, (Function.update s.stage k ⟨.forked fd0 fd1, t, P.out k, false⟩ j).phase
        = .forked a b
      by_cases e : j = k
      · rw [e, Function.update_self]
        exact ⟨fd0, fd1, rfl⟩
      · rw [Function.update_of_ne e]
        exact hl.forked j (by omega)

/-- `d` bytes of a write go into a pipe that has room for them -/
theorem run_put {k d : Nat} (hph : (s.stage i).phase = .writing (k + d))
    (hfd : (s.stage i).fds 1 = some (.writeEnd i)) (hopen : Holds s.fds (.readEnd i))
    (hroom : s.count i + d ≤ pipeSize) :
    ∃ acts s', Run (Step P) s acts s' ∧ s'.main = s.main ∧ (s'.stage i).phase = .writing k ∧
      s'.count i = s.count i + d ∧ ∀ j, j ≠ i → s'.stage j = s.stage j := by
  induction d generalizing s with
  | zero => exact ⟨[], s, .nil s, rfl, hph, rfl, fun _ _ => rfl⟩
  | succ d ih =>
    have hs : Step P s (.stage i) _ := .stage (.put hph hfd (Or.inl hopen) (by omega))
    obtain ⟨acts, s', hr, hm, hph', hcount, hstage⟩ := ih
      (s := s.setPipe i { s.stage i with
        phase := .writing (k + d), left := (s.stage i).left - 1 } i (s.count i + 1))
      (by rw [State.setPipe_self])
      (by rw [State.setPipe_self]; exact hfd) hopen
      (by rw [State.setPipe_count]; omega)
    refine ⟨_, s', .cons hs hr, hm, hph', ?_, fun j hj => ?_⟩
    · rw [hcount, State.setPipe_count]
      omega
    · rw [hstage j hj, State.setPipe_of_ne hj]

theorem run_exec (h0 : Initial t0) (hi : Inv P t0 s) {fd0 fd1 : Fin nofile}
    (hph : (s.stage i).phase = .forked fd0 fd1) :
    ∃ s', Step P s (.stage i) s' ∧ s'.main = s.main ∧ s'.fds = s.fds ∧ s'.count = s.count ∧
      (s'.stage i).phase = .running ∧ ChildTable t0 i (s'.stage i).fds ∧
      (s'.stage i).left = (s.stage i).left ∧ ∀ j, j ≠ i → s'.stage j = s.stage j := by
  obtain ⟨t, hl, hp⟩ := (hi.stage i).forked hph
  obtain ⟨t2, h2, hc⟩ := hl.child h0 hp
  refine ⟨s.setStage i { s.stage i with phase := .running, fds := t2 }, .stage (.exec hph h2),
    rfl, rfl, rfl, ?_, ?_, ?_, fun j hj => State.setStage_of_ne hj⟩
  · rw [State.setStage_self]
  · rw [State.setStage_self]
    exact hc
  · rw [State.setStage_self]

/-- a child that writes more than its pipe holds falls asleep -/
theorem run_fill (h0 : Initial t0) (hi : Inv P t0 s) {m : Nat} (hm : s.main = .waiting m)
    {fd0 fd1 : Fin nofile} (hph : (s.stage i).phase = .forked fd0 fd1) (hcount : s.count i = 0)
    (hleft : pipeSize < (s.stage i).left) :
    ∃ acts s', Run (Step P) s acts s' ∧ s'.main = s.main ∧ (s'.stage i).phase = .writing 1 ∧
      s'.count i = pipeSize ∧ ∀ j, j ≠ i → s'.stage j = s.stage j := by
  have hlt := hi.lt_of_born hm (i := i) (by rw [hph]; exact nofun)
  obtain ⟨s1, hs1, hm1, hf1, hc1, hph1, hct1, hl1, hst1⟩ := run_exec h0 hi hph
  have hs2 : Step P s1 (.stage i)
      (s1.setStage i { s1.stage i with phase := .writing (1 + pipeSize) }) :=
    .stage (.write hph1 (by omega))
  obtain ⟨acts, s', hr, hm', hph', hcount', hstage⟩ := run_put (P := P) (i := i) (k := 1)
    (d := pipeSize) (s := s1.setStage i { s1.stage i with phase := .writing (1 + pipeSize) })
    (by rw [State.setStage_self])
    (by rw [State.setStage_self]; exact hct1.stdout)
    (by show Holds s1.fds _; rw [hf1]; exact (hi.waiting hm).1 i hlt)
    (by show s1.count i + pipeSize ≤ pipeSize; rw [hc1]; omega)
  refine ⟨_, s', .cons hs1 (.cons hs2 hr), hm'.trans hm1, hph', ?_, fun j hj => ?_⟩
  · rw [hcount']
    show s1.count i + pipeSize = pipeSize
    rw [hc1]
    omega
  · rw [hstage j hj, State.setStage_of_ne hj, hst1 j hj]

theorem run_exit (h0 : Initial t0) (hi : Inv P t0 s) {fd0 fd1 : Fin nofile}
    (hph : (s.stage j).phase = .forked fd0 fd1) (hd : ¬ P.drains j = true) :
    ∃ acts s', Run (Step P) s acts s' ∧ s'.main = s.main ∧ s'.count = s.count ∧
      (s'.stage j).Dead ∧ ∀ i, i ≠ j → s'.stage i = s.stage i := by
  obtain ⟨s1, hs1, hm1, -, hc1, hph1, -, -, hst1⟩ := run_exec h0 hi hph
  have hs2 : Step P s1 (.stage j) (s1.setStage j (s1.stage j).exit) :=
    .stage (.exit hph1 (fun h => absurd h hd))
  refine ⟨_, _, .cons hs1 (.single hs2), hm1, hc1, ?_, fun i hij => ?_⟩
  · rw [State.setStage_self]
    exact Or.inl rfl
  · rw [State.setStage_of_ne hij, hst1 i hij]

theorem unreaped_le (P : Pipeline) (s : State) : unreaped P s ≤ P.n - 1 :=
  (Finset.card_filter_le _ _).trans (Finset.card_range _).le

/-- a stage with more output than its pipe holds, before one that need not read it -/
theorem exists_wedged (h0 : Initial t0) (hn : P.n ≤ t0.free) (hopens : opens P.openOk P.last)
    (hlt : i + 1 < P.n) (hout : pipeSize < P.out i)
    (hd : i + 2 < P.n → ¬ P.drains (i + 1) = true) :
    ∃ acts s, Run (Step P) (initial P t0) acts s ∧ Inv P t0 s ∧ Wedged P i s := by
  obtain ⟨acts, s, hr, hl⟩ := exists_launched (P := P) (k := P.n - 1) h0 (by omega)
    (Or.inr (by omega))
  obtain ⟨-, hlev, -⟩ := hl.inv.level hl.main
  have hf := hlev.free
  have hred := (redirect_spec P.openOk P.last (hlev.stdin_ne h0) (hlev.stdout_ne h0)).1.mpr
    ⟨hopens, Or.inr (by omega)⟩
  obtain ⟨t, ht⟩ := Option.isSome_iff_exists.mp hred
  have hs1 : Step P s .main _ := .main (.execFails hl.main (by omega) ht)
  have hi1 := hs1.inv h0 hl.inv
  obtain ⟨fd0, fd1, hph⟩ := hl.forked i (by omega)
  obtain ⟨acts2, s2, hr2, hm2, hph2, hcount2, hst2⟩ := run_fill h0 hi1 rfl (i := i) hph (hl.left i).1
    (by rw [(hl.left i).2]; exact hout)
  have hr12 := (hr.snoc hs1).append hr2
  have hi2 : Inv P t0 s2 :=
    hr12.invariant (fun _ _ _ h hs => hs.inv h0 h) (inv_initial h0 (by omega))
  by_cases hlast : i + 2 < P.n
  · obtain ⟨fd2, fd3, hph3⟩ := hl.forked (i + 1) (by omega)
    have hph3' : (s2.stage (i + 1)).phase = .forked fd2 fd3 := by
      rw [hst2 _ (Nat.succ_ne_self i)]
      exact hph3
    obtain ⟨acts3, s3, hr3, hm3, hcount3, hdead, hst3⟩ := run_exit h0 hi2 hph3' (hd hlast)
    have hr123 := hr12.append hr3
    refine ⟨_, s3, hr123, hr123.invariant (fun _ _ _ h hs => hs.inv h0 h)
      (inv_initial h0 (by omega)), hlt, ⟨P.n - 1, hm3.trans hm2, unreaped_le P s3⟩, ⟨0, ?_⟩, ?_,
      fun _ => hdead⟩
    · rw [hst3 i (Nat.ne_of_lt (Nat.lt_succ_self i))]
      exact hph2
    · rw [hcount3, hcount2]
  · exact ⟨_, s2, hr12, hi2, hlt, ⟨P.n - 1, hm2, unreaped_le P s2⟩, ⟨0, hph2⟩, hcount2.ge,
      fun h => absurd h hlast⟩

/-- too many stages: `pipe` fails, and its descriptors are used all the same -/
theorem exists_undefined (h0 : Initial t0) (h2 : 2 ≤ P.n) (hn : t0.free < P.n) :
    ∃ acts s, Run (Step P) (initial P t0) acts s ∧ s.main = .undefined := by
  obtain ⟨acts, s, hr, hl⟩ := exists_launched (P := P) (k := t0.free - 1) h0 (by omega) (by omega)
  obtain ⟨-, hlev, -⟩ := hl.inv.level hl.main
  have hf := hlev.free
  have hp : pipe s.fds (t0.free - 1) = none := by
    rw [← Option.not_isSome_iff_eq_none, pipe_isSome_iff]
    omega
  have hs : Step P s .main _ := .main (.pipeFails hl.main (by omega) hp)
  exact ⟨_, _, hr.snoc hs, rfl⟩

theorem not_canExit_of_undefined (h : s.main = .undefined) : ¬ CanExit P s := by
  rintro ⟨acts, s', hr, hd⟩
  have hstep : ∀ s a s', s.main = .undefined → Step P s a s' → s'.main = .undefined := by
    rintro s a s' h hs
    cases hs with
    | main hs =>
      cases hs with
      | fork hm | pipeFails hm | parent hm | parentPanics hm | execFails hm | redirectPanics hm
      | reap hm | waitFails hm | exit hm => exact absurd (h.symm.trans hm) nofun
    | stage hs =>
      cases hs with
      | exec | childPanics | write | put | writeFails | wrote | read | get | getEnd | getFile
      | exit => exact h
  exact absurd ((hr.invariant hstep h).symm.trans hd) nofun

/-- the foreground command is never stuck and can always exit exactly when there are descriptors
for the pipes and each stage's output fits into its pipe or is read to the end -/
theorem canExit_iff (h0 : Initial t0) (h2 : 2 ≤ P.n) (hopens : opens P.openOk P.last) :
    (∀ acts s, Run (Step P) (initial P t0) acts s → ¬ Stuck s ∧ CanExit P s) ↔
      P.n ≤ t0.free ∧ ∀ i, i + 1 < P.n →
        P.out i ≤ pipeSize ∨ (i + 2 < P.n ∧ P.drains (i + 1) = true) := by
  constructor
  · intro h
    have hn : P.n ≤ t0.free := by
      by_contra hlt
      obtain ⟨acts, s, hr, hu⟩ := exists_undefined h0 h2 (Nat.lt_of_not_le hlt)
      exact not_canExit_of_undefined hu (h acts s hr).2
    refine ⟨hn, fun i hi => ?_⟩
    by_contra hno
    obtain ⟨hout, hd⟩ := not_or.mp hno
    obtain ⟨acts, s, hr, hinv, hw⟩ := exists_wedged h0 hn hopens hi (Nat.lt_of_not_le hout)
      (fun h1 h2 => hd ⟨h1, h2⟩)
    exact hw.not_canExit h0 hinv (h acts s hr).2
  · rintro ⟨hn, hfits⟩ acts s hr
    have hi : Inv P t0 s := hr.invariant (fun _ _ _ h hs => hs.inv h0 h) (inv_initial h0 (by omega))
    have hc := canExit_of_inv h0 hn hopens hfits hi
    exact ⟨hc.not_stuck, hc⟩

def twoStages (m : Nat) : Pipeline where
  n := 2
  out := fun _ => m
  drains := fun _ => false
  last := ⟨["nosuch".toList], false, false, none, none⟩
  openOk := fun _ _ => true

theorem canExit_twoStages : (twoStages 512).n ≤ shellFds.free ∧
    ∀ acts s, Run (Step (twoStages 512)) (initial (twoStages 512) shellFds) acts s →
      ¬ Stuck s ∧ CanExit (twoStages 512) s :=
  have hn : (twoStages 512).n ≤ shellFds.free := by decide +kernel
  ⟨hn, (canExit_iff initial_shellFds (by decide) ⟨fun _ _ => rfl, fun _ _ => rfl⟩).mpr
    ⟨hn, fun i _ => Or.inl (le_refl 512)⟩⟩

/-- one byte more than the pipe holds -/
theorem stuck_twoStages : ∃ acts s, Run (Step (twoStages 513)) (initial (twoStages 513) shellFds)
    acts s ∧ Stuck s := by
  obtain ⟨acts, s, hr, hi, hw⟩ := exists_wedged (P := twoStages 513) (i := 0) initial_shellFds
    (by decide +kernel) ⟨fun _ _ => rfl, fun _ _ => rfl⟩ (by decide) (by decide)
    (fun h => absurd h (by decide))
  obtain ⟨m, hm, hle⟩ := hw.main
  obtain ⟨k, hk⟩ := hw.phase
  have hblocked : WriteBlocked s 0 :=
    ⟨k, 0, hk, ((hi.stage 0).writing hk).1.stdout, Or.inl ((hi.waiting hm).1 0 hw.lt), hw.full⟩
  have hpos : 0 < m := (Finset.card_pos.mpr ⟨0, hw.mem⟩).trans_le hle
  refine ⟨acts, s, hr, ⟨m - 1, by rw [hm, Nat.sub_add_cancel hpos]⟩, ⟨0, hblocked⟩, fun i => ?_⟩
  cases i with
  | zero => exact Or.inr (Or.inr (Or.inl hblocked))
  | succ i => exact Or.inl (((hi.waiting hm).2.2 (i + 1)).mpr (Nat.succ_pos i))

end Foreground
