import Xv6.Foreground.Model

/-!
# Invariant of a foreground pipeline

`Inv P t0 s` says which descriptors each process has, that the bytes of a pipe and those still to
be written are at most what its writer writes, and that a stage that has seen the end of its input
comes after one that is dead.
-/

namespace Foreground
open Lib Kernel Boogsh

variable {P : Pipeline} {t0 : Fds} {s s' : State} {i p : Nat}

/-- stage `i`, by what it is doing -/
def StageInv (P : Pipeline) (t0 : Fds) (i : Nat) (st : Stage) : Prop :=
  match st.phase with
  | .unborn => st.fds = closed ∧ st.eof = false ∧ st.left = P.out i
  | .forked fd0 fd1 => ∃ t, Level t0 i t ∧ pipe t i = some (st.fds, fd0, fd1)
  | .running => ChildTable t0 i st.fds
  | .writing k => ChildTable t0 i st.fds ∧ k ≤ st.left
  | .reading k => ChildTable t0 i st.fds ∧ 0 < k
  | .zombie | .reaped => st.fds = closed ∧ (P.drains i = true → st.eof = true)

/-- stages `0` to `k - 1` have been forked -/
def Born (s : State) (k : Nat) : Prop := ∀ i, (s.stage i).phase = .unborn ↔ k ≤ i

def MainInv (P : Pipeline) (t0 : Fds) (s : State) : Prop :=
  match s.main with
  | .level k => k < P.n ∧ Level t0 k s.fds ∧ Born s k
  | .parent k fd0 fd1 =>
    k + 1 < P.n ∧ (∃ t, Level t0 k t ∧ pipe t k = some (s.fds, fd0, fd1)) ∧ Born s (k + 1)
  | .waiting _ =>
    (∀ i, i + 1 < P.n → Holds s.fds (.readEnd i)) ∧ (∀ i, ¬ Holds s.fds (.writeEnd i)) ∧
      Born s (P.n - 1)
  | .done => True
  | .undefined => t0.free < P.n

def Stage.Dead (st : Stage) : Prop := st.phase = .zombie ∨ st.phase = .reaped

def Stage.Live (st : Stage) : Prop := st.phase ≠ .unborn ∧ ¬ st.Dead

structure Inv (P : Pipeline) (t0 : Fds) (s : State) : Prop where
  main : MainInv P t0 s
  stage : ∀ i, StageInv P t0 i (s.stage i)
  count : ∀ i, s.count i + (s.stage i).left ≤ P.out i
  born : ∀ i, (s.stage (i + 1)).phase ≠ .unborn → (s.stage i).phase ≠ .unborn
  eof : ∀ i, (s.stage (i + 1)).eof = true → (s.stage i).Dead

theorem inv_initial (h0 : Initial t0) (hn : 0 < P.n) : Inv P t0 (initial P t0) where
  main := ⟨hn, h0.level, fun i => ⟨fun _ => Nat.zero_le i, fun _ => rfl⟩⟩
  stage := fun _ => ⟨rfl, rfl, rfl⟩
  count := fun i => (Nat.zero_add (P.out i)).le
  born := fun _ h => absurd rfl h
  eof := fun _ h => absurd h (by simp [initial])

/-! ## descriptors of a stage -/

theorem not_holds_closed (f : File) : ¬ Holds closed f := by
  rintro ⟨fd, e⟩
  exact absurd e (by simp [closed])

/-- a live stage has the write end of its own pipe -/
theorem StageInv.holds_writeEnd {st : Stage} (h : StageInv P t0 i st) (hl : st.Live) :
    Holds st.fds (.writeEnd i) := by
  unfold StageInv at h
  unfold Stage.Live Stage.Dead at hl
  cases hph : st.phase with
  | unborn => exact absurd hph hl.1
  | forked fd0 fd1 =>
    rw [hph] at h
    obtain ⟨t, -, hp⟩ := h
    obtain ⟨-, -, -, e⟩ := Kernel.pipe_spec hp
    exact ⟨fd1, by rw [e, Function.update_self]⟩
  | running =>
    rw [hph] at h
    exact (h.writeEnd i).mpr rfl
  | writing k =>
    rw [hph] at h
    exact (h.1.writeEnd i).mpr rfl
  | reading k =>
    rw [hph] at h
    exact (h.1.writeEnd i).mpr rfl
  | zombie => exact absurd (Or.inl hph) hl.2
  | reaped => exact absurd (Or.inr hph) hl.2

theorem StageInv.eq_of_holds {st : Stage} (h : StageInv P t0 i st)
    (hw : Holds st.fds (.writeEnd p)) : p = i := by
  unfold StageInv at h
  cases hph : st.phase with
  | forked fd0 fd1 =>
    rw [hph] at h
    obtain ⟨t, hl, hp⟩ := h
    obtain ⟨-, -, -, e⟩ := Kernel.pipe_spec hp
    obtain ⟨fd, hfd⟩ := hw
    rw [e] at hfd
    rcases Slots.update_eq_some hfd with ⟨-, h1⟩ | hfd
    · exact (File.writeEnd.inj h1).symm
    · rcases Slots.update_eq_some hfd with ⟨-, h1⟩ | hfd
      · exact absurd h1 nofun
      · exact absurd hfd (hl.writeEnd fd p)
  | running =>
    rw [hph] at h
    exact (h.writeEnd p).mp hw
  | writing k =>
    rw [hph] at h
    exact (h.1.writeEnd p).mp hw
  | reading k =>
    rw [hph] at h
    exact (h.1.writeEnd p).mp hw
  | unborn | zombie | reaped =>
    rw [hph] at h
    rw [h.1] at hw
    exact absurd hw (not_holds_closed _)

theorem StageInv.unborn {st : Stage} (h : StageInv P t0 i st) (hph : st.phase = .unborn) :
    st.fds = closed ∧ st.eof = false ∧ st.left = P.out i := by
  unfold StageInv at h
  rwa [hph] at h

theorem StageInv.running {st : Stage} (h : StageInv P t0 i st) (hph : st.phase = .running) :
    ChildTable t0 i st.fds := by
  unfold StageInv at h
  rwa [hph] at h

theorem StageInv.writing {st : Stage} {k : Nat} (h : StageInv P t0 i st)
    (hph : st.phase = .writing k) : ChildTable t0 i st.fds ∧ k ≤ st.left := by
  unfold StageInv at h
  rwa [hph] at h

theorem StageInv.reading {st : Stage} {k : Nat} (h : StageInv P t0 i st)
    (hph : st.phase = .reading k) : ChildTable t0 i st.fds ∧ 0 < k := by
  unfold StageInv at h
  rwa [hph] at h

theorem StageInv.forked {st : Stage} {fd0 fd1 : Fin nofile} (h : StageInv P t0 i st)
    (hph : st.phase = .forked fd0 fd1) :
    ∃ t, Level t0 i t ∧ pipe t i = some (st.fds, fd0, fd1) := by
  unfold StageInv at h
  rwa [hph] at h

theorem StageInv.dead {st : Stage} (h : StageInv P t0 i st) (hd : st.Dead) :
    st.fds = closed ∧ (P.drains i = true → st.eof = true) := by
  unfold StageInv at h
  rcases hd with hph | hph
  · rwa [hph] at h
  · rwa [hph] at h

theorem writeEnd_eq {t : Fds} (h : ChildTable t0 i t) (hfd : t 1 = some (.writeEnd p)) : p = i := by
  rw [h.stdout, Option.some_inj, File.writeEnd.injEq] at hfd
  exact hfd.symm

theorem readEnd_eq {t : Fds} (h : ChildTable t0 i t) (h0 : Initial t0)
    (hfd : t 0 = some (.readEnd p)) : i = p + 1 := by
  rw [h.stdin] at hfd
  split at hfd
  · exact absurd hfd (h0.readEnd 0 p)
  · rw [Option.some_inj, File.readEnd.injEq] at hfd
    omega

/-! ## steps of a stage -/

/-- what the invariant needs of a step of stage `i` -/
theorem Inv.update (hi : Inv P t0 s) {st : Stage} {c : Nat → Nat} (hold : (s.stage i).Live)
    (hborn : st.phase ≠ .unborn) (hst : StageInv P t0 i st)
    (hcount : ∀ j, c j + (Function.update s.stage i st j).left ≤ P.out j)
    (heof : ∀ j, j + 1 = i → st.eof = true → (s.stage j).Dead) :
    Inv P t0 { s with stage := Function.update s.stage i st, count := c } := by
  have hunborn : ∀ j, (Function.update s.stage i st j).phase = .unborn
      ↔ (s.stage j).phase = .unborn := by
    intro j
    by_cases e : j = i
    · rw [e, Function.update_self]
      exact ⟨fun h => absurd h hborn, fun h => absurd h hold.1⟩
    · rw [Function.update_of_ne e]
  have hdead : ∀ j, (s.stage j).Dead → (Function.update s.stage i st j).Dead := by
    intro j hd
    have e : j ≠ i := by
      rintro rfl
      exact hold.2 hd
    rwa [Function.update_of_ne e]
  refine ⟨?_, fun j => ?_, hcount, fun j h => ?_, fun j h => ?_⟩
  · have hm := hi.main
    have hb : ∀ k, Born s k → Born { s with stage := Function.update s.stage i st, count := c } k :=
      fun k h j => (hunborn j).trans (h j)
    unfold MainInv at hm ⊢
    cases hmain : s.main with
    | level k =>
      rw [hmain] at hm
      exact ⟨hm.1, hm.2.1, hb k hm.2.2⟩
    | parent k fd0 fd1 =>
      rw [hmain] at hm
      exact ⟨hm.1, hm.2.1, hb _ hm.2.2⟩
    | waiting m =>
      rw [hmain] at hm
      exact ⟨hm.1, hm.2.1, hb _ hm.2.2⟩
    | done => trivial
    | undefined =>
      rw [hmain] at hm
      exact hm
  · by_cases e : j = i
    · subst e
      show StageInv P t0 j (Function.update s.stage j st j)
      rwa [Function.update_self]
    · show StageInv P t0 j (Function.update s.stage i st j)
      rw [Function.update_of_ne e]
      exact hi.stage j
  · exact fun h1 => hi.born j (fun h2 => h ((hunborn (j + 1)).mpr h2)) ((hunborn j).mp h1)
  · by_cases e : j + 1 = i
    · have h1 : (Function.update s.stage i st (j + 1)).eof = true := h
      rw [e, Function.update_self] at h1
      exact hdead j (heof j e h1)
    · have h1 : (Function.update s.stage i st (j + 1)).eof = true := h
      rw [Function.update_of_ne e] at h1
      exact hdead j (hi.eof j h1)

theorem Inv.setStage (hi : Inv P t0 s) {st : Stage} (hold : (s.stage i).Live)
    (hborn : st.phase ≠ .unborn) (hst : StageInv P t0 i st) (hleft : st.left = (s.stage i).left)
    (heof : ∀ j, j + 1 = i → st.eof = true → (s.stage j).Dead) : Inv P t0 (s.setStage i st) := by
  refine hi.update hold hborn hst (fun j => ?_) heof
  have h := hi.count j
  by_cases e : j = i
  · subst e
    rwa [Function.update_self, hleft]
  · rwa [Function.update_of_ne e]

theorem live_of_phase {st : Stage} {ph : Phase} (h : st.phase = ph) (h1 : ph ≠ .unborn)
    (h2 : ph ≠ .zombie) (h3 : ph ≠ .reaped) : st.Live := by
  subst h
  exact ⟨h1, fun h => h.elim h2 h3⟩

/-- once no process has the write end of pipe `p`, the stage before it is dead -/
theorem Inv.dead_of_not_writeOpen (hi : Inv P t0 s) (hp : (s.stage p).phase ≠ .unborn)
    (h : ¬ s.WriteOpen p) : (s.stage p).Dead := by
  by_contra hd
  exact h (Or.inr ⟨p, (hi.stage p).holds_writeEnd ⟨hp, hd⟩⟩)

theorem StageStep.inv (h0 : Initial t0) (hi : Inv P t0 s) (h : StageStep P i s s') :
    Inv P t0 s' := by
  have heof : ∀ j, j + 1 = i → (s.stage i).eof = true → (s.stage j).Dead := by
    rintro j rfl
    exact hi.eof j
  cases h with
  | exec hph h =>
    obtain ⟨t, hl, hp⟩ := (hi.stage i).forked hph
    obtain ⟨t2, h2, hc⟩ := hl.child h0 hp
    obtain rfl : t2 = _ := Option.some.inj (h2.symm.trans h)
    exact hi.setStage (live_of_phase hph nofun nofun nofun) nofun hc rfl heof
  | childPanics hph h =>
    obtain ⟨t, hl, hp⟩ := (hi.stage i).forked hph
    obtain ⟨t2, h2, -⟩ := hl.child h0 hp
    exact absurd (h2.symm.trans h) (by simp)
  | write hph hk =>
    exact hi.setStage (live_of_phase hph nofun nofun nofun) nofun
      ⟨(hi.stage i).running hph, hk⟩ rfl heof
  | put hph hfd hopen hroom =>
    rename_i k p
    obtain ⟨hc, hk⟩ := (hi.stage i).writing hph
    obtain rfl := writeEnd_eq hc hfd
    refine hi.update (live_of_phase hph nofun nofun nofun) nofun ⟨hc, ?_⟩ (fun j => ?_) heof
    · show k ≤ (s.stage p).left - 1
      omega
    · have h := hi.count j
      by_cases e : j = p
      · subst e
        rw [Function.update_self, Function.update_self]
        show s.count j + 1 + ((s.stage j).left - 1) ≤ P.out j
        omega
      · rwa [Function.update_of_ne e, Function.update_of_ne e]
  | writeFails hph hfd hclosed =>
    exact hi.setStage (live_of_phase hph nofun nofun nofun) nofun
      ((hi.stage i).writing hph).1 rfl heof
  | wrote hph =>
    exact hi.setStage (live_of_phase hph nofun nofun nofun) nofun
      ((hi.stage i).writing hph).1 rfl heof
  | read hph hk =>
    exact hi.setStage (live_of_phase hph nofun nofun nofun) nofun
      ⟨(hi.stage i).running hph, hk⟩ rfl heof
  | get hph hfd hcount =>
    rename_i k p
    refine hi.update (live_of_phase hph nofun nofun nofun) nofun
      ((hi.stage i).reading hph).1 (fun j => ?_) heof
    have h := hi.count j
    have hleft : (Function.update s.stage i { s.stage i with phase := .running } j).left
        = (s.stage j).left := by
      by_cases e : j = i
      · rw [e, Function.update_self]
      · rw [Function.update_of_ne e]
    rw [hleft]
    by_cases e : j = p
    · subst e
      rw [Function.update_self]
      omega
    · rwa [Function.update_of_ne e]
  | getEnd hph hfd hcount hclosed =>
    obtain ⟨hc, -⟩ := (hi.stage i).reading hph
    obtain rfl := readEnd_eq hc h0 hfd
    refine hi.setStage (live_of_phase hph nofun nofun nofun) nofun hc rfl ?_
    rintro j hj -
    obtain rfl := Nat.succ.inj hj
    refine hi.dead_of_not_writeOpen (hi.born j ?_) hclosed
    rw [hph]
    exact nofun
  | getFile hph hfd =>
    obtain ⟨hc, -⟩ := (hi.stage i).reading hph
    refine hi.setStage (live_of_phase hph nofun nofun nofun) nofun hc rfl ?_
    rintro j rfl -
    exact absurd (hc.stdin.trans (if_neg (Nat.succ_ne_zero j))) (hfd _)
  | exit hph hd =>
    exact hi.setStage (live_of_phase hph nofun nofun nofun) nofun ⟨rfl, hd⟩ rfl heof

/-! ## steps of `execute_pipeline` -/

theorem Inv.setMain (hi : Inv P t0 s) {m : Main} {t : Fds}
    (hm : MainInv P t0 { s with main := m, fds := t }) :
    Inv P t0 { s with main := m, fds := t } :=
  ⟨hm, hi.stage, hi.count, hi.born, hi.eof⟩

theorem Inv.level (hi : Inv P t0 s) {k : Nat} (hm : s.main = .level k) :
    k < P.n ∧ Level t0 k s.fds ∧ Born s k := by
  have h := hi.main
  unfold MainInv at h
  rwa [hm] at h

theorem Inv.parent (hi : Inv P t0 s) {k : Nat} {fd0 fd1 : Fin nofile}
    (hm : s.main = .parent k fd0 fd1) :
    k + 1 < P.n ∧ (∃ t, Level t0 k t ∧ pipe t k = some (s.fds, fd0, fd1)) ∧ Born s (k + 1) := by
  have h := hi.main
  unfold MainInv at h
  rwa [hm] at h

theorem Inv.waiting (hi : Inv P t0 s) {m : Nat} (hm : s.main = .waiting m) :
    (∀ i, i + 1 < P.n → Holds s.fds (.readEnd i)) ∧ (∀ i, ¬ Holds s.fds (.writeEnd i)) ∧
      Born s (P.n - 1) := by
  have h := hi.main
  unfold MainInv at h
  rwa [hm] at h

theorem Inv.fork (hi : Inv P t0 s) {k : Nat} {t : Fds} {fd0 fd1 : Fin nofile}
    (hm : s.main = .level k) (hk : k + 1 < P.n) (hp : pipe s.fds k = some (t, fd0, fd1)) :
    Inv P t0 { s.setPipe k ⟨.forked fd0 fd1, t, P.out k, false⟩ k 0 with
      main := .parent k fd0 fd1, fds := t } := by
  obtain ⟨-, hl, hb⟩ := hi.level hm
  have hself : ∀ {st : Stage}, Function.update s.stage k st k = st := Function.update_self ..
  have hof : ∀ {st : Stage} {j : Nat}, j ≠ k → Function.update s.stage k st j = s.stage j :=
    fun h => Function.update_of_ne h ..
  have hb' : ∀ j, (Function.update s.stage k ⟨.forked fd0 fd1, t, P.out k, false⟩ j).phase
      = .unborn ↔ k + 1 ≤ j := by
    intro j
    by_cases e : j = k
    · subst e
      rw [hself]
      exact ⟨nofun, fun h => by omega⟩
    · rw [hof e, hb j]
      omega
  refine ⟨⟨hk, ⟨s.fds, hl, hp⟩, hb'⟩, fun j => ?_, fun j => ?_, fun j => ?_, fun j h => ?_⟩
  · show StageInv P t0 j (Function.update s.stage k ⟨.forked fd0 fd1, t, P.out k, false⟩ j)
    by_cases e : j = k
    · subst e
      rw [hself]
      exact ⟨s.fds, hl, hp⟩
    · rw [hof e]
      exact hi.stage j
  · show Function.update s.count k 0 j
      + (Function.update s.stage k ⟨.forked fd0 fd1, t, P.out k, false⟩ j).left ≤ P.out j
    by_cases e : j = k
    · subst e
      rw [hself, Function.update_self]
      exact (Nat.zero_add _).le
    · rw [hof e, Function.update_of_ne e]
      exact hi.count j
  · show (Function.update s.stage k _ (j + 1)).phase ≠ .unborn →
      (Function.update s.stage k _ j).phase ≠ .unborn
    rw [ne_eq, ne_eq, hb', hb']
    omega
  · show (Function.update s.stage k _ j).Dead
    replace h : (Function.update s.stage k _ (j + 1)).eof = true := h
    by_cases e1 : j + 1 = k
    · rw [e1, hself] at h
      exact absurd h (by simp)
    · rw [hof e1] at h
      by_cases e : j = k
      · -- the next stage is not there yet
        subst e
        have hun : (s.stage (j + 1)).phase = .unborn := (hb (j + 1)).mpr (Nat.le_succ j)
        obtain ⟨-, heof, -⟩ := (hi.stage (j + 1)).unborn hun
        exact absurd (heof.symm.trans h) (by simp)
      · rw [hof e]
        exact hi.eof j h

theorem Inv.reap (hi : Inv P t0 s) {m : Nat} (hm : s.main = .waiting (m + 1))
    (hz : (s.stage i).phase = .zombie) :
    Inv P t0 { s.setStage i { s.stage i with phase := .reaped } with main := .waiting m } := by
  obtain ⟨h1, h2, hb⟩ := hi.waiting hm
  have hunborn : ∀ j, (Function.update s.stage i { s.stage i with phase := .reaped } j).phase
      = .unborn ↔ (s.stage j).phase = .unborn := by
    intro j
    by_cases e : j = i
    · subst e
      rw [Function.update_self, hz]
      exact ⟨nofun, nofun⟩
    · rw [Function.update_of_ne e]
  have hleft : ∀ j, (Function.update s.stage i { s.stage i with phase := .reaped } j).left
      = (s.stage j).left := by
    intro j
    by_cases e : j = i
    · rw [e, Function.update_self]
    · rw [Function.update_of_ne e]
  have heof : ∀ j, (Function.update s.stage i { s.stage i with phase := .reaped } j).eof
      = (s.stage j).eof := by
    intro j
    by_cases e : j = i
    · rw [e, Function.update_self]
    · rw [Function.update_of_ne e]
  refine ⟨⟨h1, h2, fun j => (hunborn j).trans (hb j)⟩, fun j => ?_, fun j => ?_, fun j => ?_,
    fun j h => ?_⟩
  · show StageInv P t0 j (Function.update s.stage i { s.stage i with phase := .reaped } j)
    by_cases e : j = i
    · subst e
      rw [Function.update_self]
      exact (hi.stage j).dead (Or.inl hz)
    · rw [Function.update_of_ne e]
      exact hi.stage j
  · show s.count j + (Function.update s.stage i { s.stage i with phase := .reaped } j).left ≤ P.out j
    rw [hleft]
    exact hi.count j
  · show (Function.update s.stage i _ (j + 1)).phase ≠ .unborn →
      (Function.update s.stage i _ j).phase ≠ .unborn
    rw [ne_eq, ne_eq, hunborn, hunborn]
    exact hi.born j
  · show (Function.update s.stage i { s.stage i with phase := .reaped } j).Dead
    have hd := hi.eof j ((heof (j + 1)).symm.trans h)
    by_cases e : j = i
    · rw [e, Function.update_self]
      exact Or.inr rfl
    · rwa [Function.update_of_ne e]

theorem Inv.execFails (hi : Inv P t0 s) (h0 : Initial t0) {k : Nat} {t : Fds}
    (hm : s.main = .level k) (hk : k + 1 = P.n) (h : redirect P.openOk P.last s.fds = some t) :
    Inv P t0 { s with main := .waiting k, fds := t } := by
  obtain ⟨-, hl, hb⟩ := hi.level hm
  have hr := (redirect_spec P.openOk P.last (hl.stdin_ne h0) (hl.stdout_ne h0)).2 t h
  refine hi.setMain ⟨fun i hi => ?_, ?_, ?_⟩
  · obtain ⟨fd, e0, e1, e⟩ := hl.leaked i (by omega)
    exact ⟨fd, (hr.other fd e0 e1).trans e⟩
  · rintro i ⟨fd, e⟩
    rcases hr.node fd with h1 | ⟨path, flags, h1⟩
    · exact hl.writeEnd fd i (h1.symm.trans e)
    · exact absurd (h1.symm.trans e) (by simp)
  · rwa [show P.n - 1 = k by omega]

theorem MainStep.inv (h0 : Initial t0) (hi : Inv P t0 s) (h : MainStep P s s') :
    Inv P t0 s' := by
  cases h with
  | fork hm hk hp => exact hi.fork hm hk hp
  | pipeFails hm hk hp =>
    obtain ⟨-, hl, -⟩ := hi.level hm
    rename_i k
    have hlt : ¬ 2 ≤ s.fds.free := by
      rw [← pipe_isSome_iff (k := k), hp]
      simp
    have hfree := hl.free
    refine hi.setMain ?_
    show t0.free < P.n
    omega
  | parent hm h =>
    obtain ⟨hk, ⟨t, hl, hp⟩, hb⟩ := hi.parent hm
    obtain ⟨t2, h2, hl2⟩ := hl.parent h0 hp
    obtain rfl : t2 = _ := Option.some.inj (h2.symm.trans h)
    exact hi.setMain ⟨hk, hl2, hb⟩
  | parentPanics hm h =>
    obtain ⟨hk, ⟨t, hl, hp⟩, hb⟩ := hi.parent hm
    obtain ⟨t2, h2, -⟩ := hl.parent h0 hp
    exact absurd (h2.symm.trans h) (by simp)
  | execFails hm hk h => exact hi.execFails h0 hm hk h
  | redirectPanics hm hk h => exact hi.setMain trivial
  | reap hm hz => exact hi.reap hm hz
  | waitFails hm h => exact hi.setMain (hi.waiting hm)
  | exit hm => exact hi.setMain trivial

theorem Step.inv (h0 : Initial t0) (hi : Inv P t0 s) {a : Actor} (h : Step P s a s') :
    Inv P t0 s' := by
  cases h with
  | main h => exact h.inv h0 hi
  | stage h => exact h.inv h0 hi

end Foreground
