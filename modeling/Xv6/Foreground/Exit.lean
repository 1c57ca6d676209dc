import Xv6.Foreground.Inv
import Mathlib.Algebra.BigOperators.Group.Finset.Piecewise
import Mathlib.Algebra.BigOperators.Intervals

/-!
# The foreground command can exit

Every step that some process has to take sooner or later makes `measure` smaller.  If each stage
either fits its output into its pipe or is read to the end by the next one, some process can always
take such a step: the children that sleep on full pipes form a chain upwards, and the last one of
it has a pipe that is not full.
-/

namespace Foreground
open Lib Kernel Boogsh

variable {P : Pipeline} {t0 : Fds} {s s' : State} {i p : Nat}

/-! ## the measure -/

def weight (st : Stage) : Nat :=
  match st.phase with
  | .unborn => 9
  | .forked _ _ => 8
  | .writing _ => 6
  | .running => if st.eof then 3 else 5
  | .reading _ => 4
  | .zombie => 1
  | .reaped => 0

def mainWeight (P : Pipeline) : Main → Nat
  | .level k => P.n + 2 + 2 * (P.n - k)
  | .parent k _ _ => P.n + 1 + 2 * (P.n - k)
  | .waiting m => m + 1
  | .done => 0
  | .undefined => 0

def total (P : Pipeline) (f : Nat → Nat) : Nat := ∑ i ∈ Finset.range (P.n - 1), f i

def measure (P : Pipeline) (s : State) : Nat :=
  mainWeight P s.main + total P (fun i => weight (s.stage i)) +
    3 * total P (fun i => (s.stage i).left) + 2 * total P s.count

theorem total_update (f : Nat → Nat) (b : Nat) (hi : i + 1 < P.n) :
    total P (Function.update f i b) + f i = total P f + b := by
  have hmem : i ∈ Finset.range (P.n - 1) := Finset.mem_range.mpr (by omega)
  unfold total
  rw [Finset.sum_update_of_mem hmem, ← Finset.add_sum_erase _ f hmem, Finset.sdiff_singleton_eq_erase]
  omega

theorem total_stage (f : Stage → Nat) (st : Stage) (hi : i + 1 < P.n) :
    total P (fun j => f (Function.update s.stage i st j)) + f (s.stage i)
      = total P (fun j => f (s.stage j)) + f st := by
  have e : (fun j => f (Function.update s.stage i st j))
      = Function.update (fun j => f (s.stage j)) i (f st) := by
    funext j
    by_cases hj : j = i
    · rw [hj, Function.update_self, Function.update_self]
    · rw [Function.update_of_ne hj, Function.update_of_ne hj]
  rw [e, total_update _ _ hi]

theorem measure_setPipe {m : Main} {t : Fds} {st : Stage} {c : Nat} (hi : i + 1 < P.n)
    (hp : p + 1 < P.n) (hw : mainWeight P m + weight st + 3 * st.left + 2 * c
      < mainWeight P s.main + weight (s.stage i) + 3 * (s.stage i).left + 2 * s.count p) :
    measure P { s.setPipe i st p c with main := m, fds := t } < measure P s := by
  have h1 := total_stage (s := s) weight st hi
  have h2 := total_stage (s := s) Stage.left st hi
  have h3 := total_update s.count c hp
  show mainWeight P m + total P (fun j => weight (Function.update s.stage i st j)) +
    3 * total P (fun j => (Function.update s.stage i st j).left) +
    2 * total P (Function.update s.count p c) < _
  unfold measure
  omega

theorem measure_setStage {m : Main} {t : Fds} {st : Stage} (hi : i + 1 < P.n)
    (hleft : st.left = (s.stage i).left)
    (hw : mainWeight P m + weight st < mainWeight P s.main + weight (s.stage i)) :
    measure P { s.setStage i st with main := m, fds := t } < measure P s := by
  have h : measure P { s.setPipe i st i (s.count i) with main := m, fds := t } < measure P s :=
    measure_setPipe hi hi (by omega)
  unfold State.setPipe at h
  rwa [Function.update_eq_self] at h

theorem measure_child {st : Stage} (hi : i + 1 < P.n) (hleft : st.left = (s.stage i).left)
    (hw : weight st < weight (s.stage i)) : measure P (s.setStage i st) < measure P s :=
  measure_setStage hi hleft (Nat.add_lt_add_left hw _)

/-! ## some process can move -/

theorem Inv.lt_of_born (hi : Inv P t0 s) {m : Nat} (hm : s.main = .waiting m)
    (h : (s.stage i).phase ≠ .unborn) : i + 1 < P.n := by
  obtain ⟨-, -, hb⟩ := hi.waiting hm
  by_contra hge
  exact h ((hb i).mpr (by omega))

theorem weight_running (st : Stage) (h : st.phase = .running) :
    weight st = if st.eof then 3 else 5 := by
  unfold weight
  rw [h]

theorem weight_running_le (st : Stage) (h : st.phase = .running) : 3 ≤ weight st ∧ weight st ≤ 5 := by
  rw [weight_running st h]
  split
  · omega
  · omega

theorem read_moves (h0 : Initial t0) (hi : Inv P t0 s) {m k : Nat} (hm : s.main = .waiting m)
    (hph : (s.stage i).phase = .reading k) :
    (∃ s', StageStep P i s s' ∧ measure P s' < measure P s) ∨ ReadBlocked s i := by
  obtain ⟨hc, hk⟩ := (hi.stage i).reading hph
  have hlt : i + 1 < P.n := hi.lt_of_born hm (by rw [hph]; exact nofun)
  have hw : weight (s.stage i) = 4 := by
    unfold weight
    rw [hph]
  cases i with
  | zero =>
    have hfd : ∀ p, (s.stage 0).fds 0 ≠ some (.readEnd p) := by
      intro p e
      exact absurd (readEnd_eq hc h0 e) (by omega)
    refine Or.inl ⟨_, .getFile (b := true) hph hfd, measure_child hlt rfl ?_⟩
    rw [hw, weight_running _ rfl, Bool.or_true, if_pos rfl]
    decide
  | succ j =>
    have hfd : (s.stage (j + 1)).fds 0 = some (.readEnd j) := hc.stdin
    by_cases hcount : s.count j = 0
    · by_cases hopen : s.WriteOpen j
      · exact Or.inr ⟨k, j, hph, hfd, hcount, hopen⟩
      · refine Or.inl ⟨_, .getEnd hph hfd hcount hopen, measure_child hlt rfl ?_⟩
        rw [hw, weight_running _ rfl, if_pos rfl]
        decide
    · refine Or.inl ⟨_, .get hph hfd hcount, measure_setPipe hlt (by omega) ?_⟩
      have hle := (weight_running_le { s.stage (j + 1) with phase := .running } rfl).2
      show _ + 3 * (s.stage (j + 1)).left + _ < _
      omega

theorem live_moves (h0 : Initial t0) (hi : Inv P t0 s) {m : Nat} (hm : s.main = .waiting m)
    (hl : (s.stage i).Live) :
    (∃ s', StageStep P i s s' ∧ measure P s' < measure P s) ∨ WriteBlocked s i ∨
      ReadBlocked s i := by
  have hlt : i + 1 < P.n := hi.lt_of_born hm hl.1
  cases hph : (s.stage i).phase with
  | unborn => exact absurd hph hl.1
  | zombie => exact absurd (Or.inl hph) hl.2
  | reaped => exact absurd (Or.inr hph) hl.2
  | forked fd0 fd1 =>
    obtain ⟨t, hlev, hp⟩ := (hi.stage i).forked hph
    obtain ⟨t2, h2, -⟩ := hlev.child h0 hp
    refine Or.inl ⟨_, .exec hph h2, measure_child hlt rfl ?_⟩
    have hle := (weight_running_le { s.stage i with phase := .running, fds := t2 } rfl).2
    have hw : weight (s.stage i) = 8 := by
      unfold weight
      rw [hph]
    omega
  | running =>
    have hw := weight_running _ hph
    by_cases hd : P.drains i = true → (s.stage i).eof = true
    · refine Or.inl ⟨_, .exit hph hd, measure_child hlt rfl ?_⟩
      have hle := (weight_running_le _ hph).1
      show 1 < _
      omega
    · -- it has not seen the end of its input yet
      obtain ⟨-, he⟩ := Classical.not_imp.mp hd
      refine Or.inl ⟨_, .read hph Nat.zero_lt_one, measure_child hlt rfl ?_⟩
      rw [hw, if_neg he]
      show 4 < 5
      omega
  | writing k =>
    obtain ⟨hc, hk⟩ := (hi.stage i).writing hph
    have hw : weight (s.stage i) = 6 := by
      unfold weight
      rw [hph]
    cases k with
    | zero =>
      refine Or.inl ⟨_, .wrote hph, measure_child hlt rfl ?_⟩
      have hle := (weight_running_le { s.stage i with phase := .running } rfl).2
      omega
    | succ k =>
      have hopen : s.ReadOpen i := Or.inl ((hi.waiting hm).1 i hlt)
      by_cases hroom : s.count i < pipeSize
      · refine Or.inl ⟨_, .put hph hc.stdout hopen hroom, measure_setPipe hlt hlt ?_⟩
        show mainWeight P s.main + 6 + 3 * ((s.stage i).left - 1) + 2 * (s.count i + 1) < _
        omega
      · exact Or.inr (Or.inl ⟨k, i, hph, hc.stdout, hopen, Nat.le_of_not_lt hroom⟩)
  | reading k => exact (read_moves h0 hi hm hph).imp_right Or.inr

/-- a child that sleeps in `piperead` comes after one that is alive -/
theorem ReadBlocked.live (h0 : Initial t0) (hi : Inv P t0 s) {m : Nat} (hm : s.main = .waiting m)
    (h : ReadBlocked s i) : ∃ p, i = p + 1 ∧ s.count p = 0 ∧ (s.stage p).Live := by
  obtain ⟨k, p, hph, hfd, hcount, hopen⟩ := h
  obtain rfl := readEnd_eq ((hi.stage i).reading hph).1 h0 hfd
  refine ⟨p, rfl, hcount, ?_⟩
  rcases hopen with hopen | ⟨j, hj⟩
  · exact absurd hopen ((hi.waiting hm).2.1 p)
  · obtain rfl := (hi.stage j).eq_of_holds hj
    refine ⟨hi.born p (by rw [hph]; exact nofun), fun hd => ?_⟩
    rw [((hi.stage p).dead hd).1] at hj
    exact not_holds_closed _ hj

/-- a child that sleeps in `pipewrite` writes more than its pipe holds -/
theorem WriteBlocked.out_lt (hi : Inv P t0 s) (h : WriteBlocked s i) :
    pipeSize ≤ s.count i ∧ pipeSize < P.out i ∧ (s.stage i).Live := by
  obtain ⟨k, p, hph, hfd, -, hfull⟩ := h
  obtain ⟨hc, hk⟩ := (hi.stage i).writing hph
  obtain rfl := writeEnd_eq hc hfd
  have hcount := hi.count p
  exact ⟨hfull, by omega, live_of_phase hph nofun nofun nofun⟩

/-- each stage's output fits into its pipe, or is read to the end by the next stage -/
def Fits (P : Pipeline) : Prop :=
  ∀ i, i + 1 < P.n → P.out i ≤ pipeSize ∨ (i + 2 < P.n ∧ P.drains (i + 1) = true)

/-- the children that sleep in `pipewrite` are not all that is left -/
theorem exists_move (h0 : Initial t0) (hi : Inv P t0 s) (hfits : Fits P) {m : Nat}
    (hm : s.main = .waiting m) (hlive : ∃ i, (s.stage i).Live) :
    ∃ i s', StageStep P i s s' ∧ measure P s' < measure P s := by
  classical
  by_contra hno
  have hblocked : ∀ i, (s.stage i).Live → WriteBlocked s i ∨ ReadBlocked s i := by
    intro i hl
    rcases live_moves h0 hi hm hl with ⟨s', hs⟩ | hb
    · exact absurd ⟨i, s', hs⟩ hno
    · exact hb
  -- from the first live child on, each one sleeps in `pipewrite`
  have hchain : ∀ d, Nat.find hlive + d + 1 < P.n → WriteBlocked s (Nat.find hlive + d) := by
    intro d hd
    induction d with
    | zero =>
      rcases hblocked _ (Nat.find_spec hlive) with hw | hr
      · exact hw
      · obtain ⟨p, hp, -, hl⟩ := hr.live h0 hi hm
        exact absurd hl (Nat.find_min hlive (by omega))
    | succ d ih =>
      obtain ⟨hfull, hout, hprev⟩ := (ih (by omega)).out_lt hi
      obtain ⟨-, hdrain⟩ := (hfits (Nat.find hlive + d) (by omega)).resolve_left (by omega)
      have hl : (s.stage (Nat.find hlive + d + 1)).Live := by
        refine ⟨fun h => ?_, fun hdead => ?_⟩
        · exact absurd (((hi.waiting hm).2.2 _).mp h) (by omega)
        · exact hprev.2 (hi.eof _ (((hi.stage _).dead hdead).2 hdrain))
      rcases hblocked _ hl with hw | hr
      · exact hw
      · obtain ⟨p, hp, hcount, -⟩ := hr.live h0 hi hm
        obtain rfl : p = Nat.find hlive + d := by omega
        rw [hcount] at hfull
        exact absurd hfull (by decide)
  have hlt := hi.lt_of_born hm (Nat.find_spec hlive).1
  have hlast := hchain (P.n - 2 - Nat.find hlive) (by omega)
  rw [show Nat.find hlive + (P.n - 2 - Nat.find hlive) = P.n - 2 by omega] at hlast
  obtain ⟨-, hout, -⟩ := hlast.out_lt hi
  rcases hfits (P.n - 2) (by omega) with h | ⟨h, -⟩
  · omega
  · omega

/-! ## the way to the exit -/

theorem fork_moves (hi : Inv P t0 s) {k : Nat} (hm : s.main = .level k) (hk : k + 1 < P.n)
    (hfree : 2 ≤ s.fds.free) : ∃ s', MainStep P s s' ∧ measure P s' < measure P s := by
  obtain ⟨-, -, hb⟩ := hi.level hm
  obtain ⟨⟨t, fd0, fd1⟩, hp⟩ := Option.isSome_iff_exists.mp (pipe_isSome_iff (k := k).mpr hfree)
  refine ⟨_, .fork hm hk hp, measure_setPipe hk hk ?_⟩
  have hun : (s.stage k).phase = .unborn := (hb k).mpr le_rfl
  obtain ⟨-, -, hleft⟩ := (hi.stage k).unborn hun
  have hw : weight (s.stage k) = 9 := by
    unfold weight
    rw [hun]
  rw [hm, hw, hleft]
  show P.n + 1 + 2 * (P.n - k) + 8 + 3 * P.out k + 0
    < P.n + 2 + 2 * (P.n - k) + 9 + 3 * P.out k + 2 * s.count k
  omega

theorem reap_moves (hi : Inv P t0 s) {m : Nat} (hm : s.main = .waiting (m + 1))
    (hz : (s.stage i).phase = .zombie) : ∃ s', MainStep P s s' ∧ measure P s' < measure P s := by
  have hlt := hi.lt_of_born hm (by rw [hz]; exact nofun)
  refine ⟨_, .reap hm hz, measure_setStage hlt rfl ?_⟩
  rw [hm]
  show m + 1 + 0 < m + 1 + 1 + weight (s.stage i)
  omega

theorem measure_main {m : Main} {t : Fds} (h : mainWeight P m < mainWeight P s.main) :
    measure P { s with main := m, fds := t } < measure P s := by
  unfold measure
  dsimp only
  omega

theorem progress (h0 : Initial t0) (hn : P.n ≤ t0.free) (hopens : opens P.openOk P.last)
    (hfits : Fits P) (hi : Inv P t0 s) :
    s.main = .done ∨ ∃ a s', Step P s a s' ∧ measure P s' < measure P s := by
  cases hm : s.main with
  | done => exact Or.inl rfl
  | undefined =>
    have h := hi.main
    unfold MainInv at h
    rw [hm] at h
    omega
  | level k =>
    obtain ⟨hk, hl, -⟩ := hi.level hm
    have hfree := hl.free
    by_cases hlast : k + 1 < P.n
    · obtain ⟨s', hs, hlt⟩ := fork_moves hi hm hlast (by omega)
      exact Or.inr ⟨.main, s', .main hs, hlt⟩
    · have hr := (redirect_spec P.openOk P.last (hl.stdin_ne h0) (hl.stdout_ne h0)).1.mpr
        ⟨hopens, Or.inr (by omega)⟩
      obtain ⟨t, ht⟩ := Option.isSome_iff_exists.mp hr
      refine Or.inr ⟨.main, _, .main (.execFails hm (by omega) ht), measure_main ?_⟩
      rw [hm]
      show k + 1 < P.n + 2 + 2 * (P.n - k)
      omega
  | parent k fd0 fd1 =>
    obtain ⟨hk, ⟨t, hl, hp⟩, -⟩ := hi.parent hm
    obtain ⟨t2, h2, -⟩ := hl.parent h0 hp
    refine Or.inr ⟨.main, _, .main (.parent hm h2), measure_main ?_⟩
    rw [hm]
    show P.n + 2 + 2 * (P.n - (k + 1)) < P.n + 1 + 2 * (P.n - k)
    omega
  | waiting m =>
    cases m with
    | zero =>
      refine Or.inr ⟨.main, _, .main (.exit hm), measure_main ?_⟩
      rw [hm]
      exact Nat.zero_lt_one
    | succ m =>
      by_cases hz : ∃ i, (s.stage i).phase = .zombie
      · obtain ⟨i, hz⟩ := hz
        obtain ⟨s', hs, hlt⟩ := reap_moves hi hm hz
        exact Or.inr ⟨.main, s', .main hs, hlt⟩
      · by_cases hlive : ∃ i, (s.stage i).Live
        · obtain ⟨i, s', hs, hlt⟩ := exists_move h0 hi hfits hm hlive
          exact Or.inr ⟨.stage i, s', .stage hs, hlt⟩
        · have hall : ∀ i, (s.stage i).phase = .unborn ∨ (s.stage i).phase = .reaped := by
            intro i
            by_contra hne
            obtain ⟨h1, h2⟩ := not_or.mp hne
            exact hlive ⟨i, h1, fun hd => hd.elim (fun h => hz ⟨i, h⟩) h2⟩
          refine Or.inr ⟨.main, _, .main (.waitFails hm hall), measure_main ?_⟩
          rw [hm]
          exact Nat.lt_succ_self _

/-- the process in `execute_pipeline` can exit -/
def CanExit (P : Pipeline) (s : State) : Prop :=
  ∃ acts s', Run (Step P) s acts s' ∧ s'.main = .done

theorem canExit_of_inv (h0 : Initial t0) (hn : P.n ≤ t0.free) (hopens : opens P.openOk P.last)
    (hfits : Fits P) (hi : Inv P t0 s) : CanExit P s :=
  Run.exists_of_measure (measure P) (fun _ _ _ h hs => hs.inv h0 h)
    (fun _ h => progress h0 hn hopens hfits h) hi

/-- a stuck state is the end of every run -/
theorem Stuck.no_step (h : Stuck s) {a : Actor} : ¬ Step P s a s' := by
  obtain ⟨⟨m, hm⟩, ⟨w, hw⟩, hall⟩ := h
  intro hs
  cases hs with
  | main hs =>
    cases hs with
    | fork hm' | pipeFails hm' | parent hm' | parentPanics hm' | execFails hm' | redirectPanics hm'
    | exit hm' => exact absurd (hm.symm.trans hm') nofun
    | reap hm' hz =>
      rename_i j
      rcases hall j with h | h | ⟨k, p, h, -⟩ | ⟨k, p, h, -⟩
      all_goals exact absurd (h.symm.trans hz) nofun
    | waitFails hm' hno =>
      obtain ⟨k, p, hph, -⟩ := hw
      rcases hno w with h | h
      all_goals exact absurd (hph.symm.trans h) nofun
  | stage hs =>
    rename_i j
    rcases hall j with h | h | ⟨k, p, h, hfd, hopen, hfull⟩ | ⟨k, p, h, hfd, hcount, hopen⟩
    · cases hs with
      | exec hph | childPanics hph | write hph | put hph | writeFails hph | wrote hph | read hph
      | get hph | getEnd hph | getFile hph | exit hph => exact absurd (h.symm.trans hph) nofun
    · cases hs with
      | exec hph | childPanics hph | write hph | put hph | writeFails hph | wrote hph | read hph
      | get hph | getEnd hph | getFile hph | exit hph => exact absurd (h.symm.trans hph) nofun
    · cases hs with
      | exec hph | childPanics hph | write hph | wrote hph | read hph
      | get hph | getEnd hph | getFile hph | exit hph => exact absurd (h.symm.trans hph) nofun
      | put hph hfd' _ hroom =>
        obtain rfl := File.writeEnd.inj (Option.some.inj (hfd.symm.trans hfd'))
        exact absurd hroom (Nat.not_lt_of_le hfull)
      | writeFails hph hfd' hclosed =>
        obtain rfl := File.writeEnd.inj (Option.some.inj (hfd.symm.trans hfd'))
        exact hclosed hopen
    · cases hs with
      | exec hph | childPanics hph | write hph | put hph | writeFails hph | wrote hph | read hph
      | exit hph => exact absurd (h.symm.trans hph) nofun
      | get hph hfd' hne =>
        obtain rfl := File.readEnd.inj (Option.some.inj (hfd.symm.trans hfd'))
        exact hne hcount
      | getEnd hph hfd' _ hclosed =>
        obtain rfl := File.readEnd.inj (Option.some.inj (hfd.symm.trans hfd'))
        exact hclosed hopen
      | getFile hph hfd' => exact hfd' p hfd

theorem CanExit.not_stuck (h : CanExit P s) : ¬ Stuck s := by
  rintro hst
  obtain ⟨acts, s', hr, hd⟩ := h
  cases hr with
  | nil =>
    obtain ⟨⟨m, hm⟩, -⟩ := hst
    exact absurd (hm.symm.trans hd) nofun
  | cons ha _ => exact hst.no_step ha

end Foreground
