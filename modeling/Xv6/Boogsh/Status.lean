import Xv6.Boogsh.Wiring

/-!
# The exit status of a pipeline (`execute_pipeline`, `parse_and_run_cmd`, `run_program`)

The child of `run_program` goes through the stages itself and becomes the program of the last one,
so that its status is the status of that program.  When the `exec` fails, `execute_pipeline`
returns 1, but only to the call for the stage before, which returns 0.

What becomes of the stages is `fate`: the status that the program of a stage exits with, or `none`
when it cannot be exec'd.  The children of the earlier stages end, so that `wait(0)` returns.
-/

namespace Boogsh
open Ulib Lib Kernel

/-- how a process comes out of `execute_pipeline` -/
inductive Outcome where
  | exit (status : Int)
  | ret (value : Int)
  deriving DecidableEq, Repr

/-- the call for the stage before: `wait(0)` and `return 0`, when the inner call returns -/
def outer : Option (Nat × Outcome) → Option (Nat × Outcome)
  | some (j, .ret _) => some (j, .ret 0)
  | r => r

/-- `execute_pipeline` in the process that runs it, from the command with pipe `k` on, and the stage
that it has come to -/
def executeStatus (openOk : OpenOk) (fate : Nat → Option Int) :
    Nat → List Command → Fds → Option (Nat × Outcome)
  | _, [], _ => none
  | k, cmd :: rest, t =>
    if !cmd.stdoutPipe then
      match redirect openOk cmd t with
      | none => some (k, .exit 1)
      | some _ =>
        match fate k with
        | some status => some (k, .exit status)
        | none => some (k, .ret 1)
    else
      match pipe t k with
      | none => none
      | some (t, fd0, fd1) =>
        match parentSetup t fd0 fd1 with
        | none => some (k, .exit 1)
        | some t => outer (executeStatus openOk fate (k + 1) rest t)

/-- the end of `parse_and_run_cmd` -/
def exitCode : Outcome → Int
  | .exit status => status
  | .ret value => if value = 1 then 1 else 0

/-- `while (wait(&status) != pid)`, with the children that `wait` finds -/
def waitFor (pid : Nat) : List (Nat × Int) → Option Int
  | [] => none
  | (p, status) :: rest => if p = pid then some status else waitFor pid rest

/-- `exit_status` after `run_program`; `other` are the children found before the one with `pid` -/
def runProgram (openOk : OpenOk) (fate : Nat → Option Int) (cmds : List Command) (t : Fds)
    (pid : Nat) (other : List (Nat × Int)) : Option (Nat × Option Int) :=
  (executeStatus openOk fate 0 cmds t).map
    (fun r => (r.1, waitFor pid (other ++ [(pid, exitCode r.2)])))

/-- the last command gets to its `exec` -/
def LastStarts (openOk : OpenOk) (cmds : List Command) (free : Nat) : Prop :=
  LastOpens openOk cmds ∧ Room cmds free

/-- `exit_status` is from the last stage: the status of its program, or not 0 when there is none -/
def Reports (openOk : OpenOk) (fate : Nat → Option Int) (cmds : List Command) (t : Fds) (pid : Nat)
    (other : List (Nat × Int)) : Prop :=
  ∃ status, runProgram openOk fate cmds t pid other = some (cmds.length - 1, some status) ∧
    (∀ v, fate (cmds.length - 1) = some v → LastStarts openOk cmds t.free → status = v) ∧
    (fate (cmds.length - 1) = none ∨ ¬ LastStarts openOk cmds t.free → status ≠ 0)

/-- what the process comes to at the last stage, `m` -/
structure Comes (openOk : OpenOk) (fate : Nat → Option Int) (m : Nat) (cmds : List Command)
    (free : Nat) (o : Outcome) : Prop where
  stopped : ¬ LastStarts openOk cmds free → o = .exit 1
  program : LastStarts openOk cmds free → ∀ v, fate m = some v → o = .exit v
  failed : LastStarts openOk cmds free → fate m = none →
    o = .ret (if cmds.length = 1 then 1 else 0)

section
variable {openOk : OpenOk} {fate : Nat → Option Int} {t0 t : Fds} {k m pid : Nat} {cmd : Command}
  {cmds : List Command} {o : Outcome}

theorem executeStatus_cons : executeStatus openOk fate k (cmd :: cmds) t =
    if !cmd.stdoutPipe then
      match redirect openOk cmd t with
      | none => some (k, .exit 1)
      | some _ =>
        match fate k with
        | some status => some (k, .exit status)
        | none => some (k, .ret 1)
    else
      match pipe t k with
      | none => none
      | some (t, fd0, fd1) =>
        match parentSetup t fd0 fd1 with
        | none => some (k, .exit 1)
        | some t => outer (executeStatus openOk fate (k + 1) cmds t) := by
  exact rfl

theorem outer_eq_some {r : Option (Nat × Outcome)} (h : outer r = some (m, o)) :
    ∃ o', r = some (m, o') := by
  cases r with
  | none => exact absurd h (by simp [outer])
  | some p =>
    obtain ⟨j, q⟩ := p
    cases q with
    | exit status =>
      obtain ⟨rfl, -⟩ := Prod.mk.inj (Option.some.inj h)
      exact ⟨_, rfl⟩
    | ret value =>
      obtain ⟨rfl, -⟩ := Prod.mk.inj (Option.some.inj h)
      exact ⟨_, rfl⟩

theorem lastStarts_singleton {free : Nat} :
    LastStarts openOk [cmd] free ↔ opens openOk cmd ∧ (noFiles cmd ∨ 0 < free) := by
  unfold LastStarts
  rw [room_singleton, show LastOpens openOk [cmd] ↔ opens openOk cmd by simp [LastOpens]]

theorem executeStatus_last (openOk : OpenOk) (fate : Nat → Option Int) (cmds : List Command)
    (h0 : Initial t0) (hl : Level t0 k t) (hf : cmd.stdoutPipe = false) :
    ∃ o, executeStatus openOk fate k (cmd :: cmds) t = some (k, o) ∧
      Comes openOk fate k [cmd] t.free o := by
  obtain ⟨hsome, -⟩ := redirect_spec openOk cmd (hl.stdin_ne h0) (hl.stdout_ne h0)
  rw [← lastStarts_singleton] at hsome
  rw [executeStatus_cons, hf]
  cases h : redirect openOk cmd t with
  | none =>
    have hno : ¬ LastStarts openOk [cmd] t.free := fun hs => by
      rw [h] at hsome
      exact absurd (hsome.mpr hs) (by simp)
    exact ⟨_, rfl, fun _ => rfl, fun hs => absurd hs hno, fun hs => absurd hs hno⟩
  | some t' =>
    have hs : LastStarts openOk [cmd] t.free := hsome.mp (by rw [h]; rfl)
    cases hk : fate k with
    | none =>
      exact ⟨.ret 1, rfl, fun hno => absurd hs hno,
        fun _ v hv => absurd (hk.symm.trans hv) (by simp), fun _ _ => rfl⟩
    | some status =>
      refine ⟨.exit status, rfl, fun hno => absurd hs hno, fun _ v hv => ?_,
        fun _ hn => absurd (hk.symm.trans hn) (by simp)⟩
      rw [Option.some.inj (hk.symm.trans hv)]

theorem executeStatus_next (openOk : OpenOk) (fate : Nat → Option Int) (cmds : List Command)
    (h0 : Initial t0) (hl : Level t0 k t) (hf : cmd.stdoutPipe = true) :
    (executeStatus openOk fate k (cmd :: cmds) t = none ∧ t.free < 2) ∨
    ∃ t2, Level t0 (k + 1) t2 ∧ 2 ≤ t.free ∧ t2.free + 1 = t.free ∧
      executeStatus openOk fate k (cmd :: cmds) t
        = outer (executeStatus openOk fate (k + 1) cmds t2) := by
  rcases hl.pipe_cases h0 with ⟨hp, hlt⟩ | ⟨tp, fd0, fd1, t1, t2, hp, -, h2, -, hl2, hfree, he⟩
  · refine Or.inl ⟨?_, hlt⟩
    rw [executeStatus_cons, hf, hp]
    rfl
  · refine Or.inr ⟨t2, hl2, hfree, he, ?_⟩
    rw [executeStatus_cons, hf, hp]
    dsimp only
    rw [h2]
    rfl

/-- the return value is lost on the way up -/
theorem Comes.cons {free : Nat} (hne : cmds ≠ []) (hfree : 2 ≤ free + 1)
    (hc : Comes openOk fate m cmds free o) :
    ∃ o', outer (some (m, o)) = some (m, o') ∧
      Comes openOk fate m (cmd :: cmds) (free + 1) o' := by
  have hpos : 0 < cmds.length := List.length_pos_iff.mpr hne
  have hiff : LastStarts openOk (cmd :: cmds) (free + 1) ↔ LastStarts openOk cmds free := by
    unfold LastStarts
    rw [lastOpens_cons hne, room_cons hne hfree]
  have hlen : (if (cmd :: cmds).length = 1 then (1 : Int) else 0) = 0 :=
    if_neg (by rw [List.length_cons]; omega)
  cases o with
  | exit status =>
    refine ⟨.exit status, rfl, fun hno => hc.stopped (fun h => hno (hiff.mpr h)),
      fun hs v hv => hc.program (hiff.mp hs) v hv, fun hs hn => ?_⟩
    exact absurd (hc.failed (hiff.mp hs) hn) (by simp)
  | ret value =>
    refine ⟨.ret 0, rfl, fun hno => absurd (hc.stopped (fun h => hno (hiff.mpr h))) (by simp),
      fun hs v hv => absurd (hc.program (hiff.mp hs) v hv) (by simp), fun _ _ => ?_⟩
    rw [hlen]

theorem executeStatus_spec (openOk : OpenOk) (fate : Nat → Option Int) (h0 : Initial t0)
    (hne : cmds ≠ []) (hl : Level t0 k t)
    (hm : m + 1 = k + cmds.length) :
    ((∃ o, executeStatus openOk fate k cmds t = some (m, o)) ↔
      Chained cmds ∧ (cmds.length = 1 ∨ cmds.length ≤ t.free)) ∧
    ∀ o, executeStatus openOk fate k cmds t = some (m, o) → Comes openOk fate m cmds t.free o := by
  induction cmds generalizing k t with
  | nil => exact absurd rfl hne
  | cons cmd cmds ih =>
    rw [List.length_cons] at hm
    cases hf : cmd.stdoutPipe with
    | false =>
      obtain ⟨o, e, hc⟩ := executeStatus_last openOk fate cmds h0 hl hf
      rw [e]
      by_cases hlast : cmds = []
      · subst hlast
        obtain rfl : m = k := Nat.succ.inj hm
        refine ⟨⟨fun _ => ⟨chained_singleton.mpr hf, Or.inl rfl⟩, fun _ => ⟨o, rfl⟩⟩,
          fun o' e' => ?_⟩
        obtain ⟨-, rfl⟩ := Prod.mk.inj (Option.some.inj e')
        exact hc
      · -- the process ends at a stage before the last
        have hpos : 0 < cmds.length := List.length_pos_iff.mpr hlast
        have hno : ∀ o', some (k, o) ≠ some (m, o') := by
          intro o' e'
          obtain ⟨hk, -⟩ := Prod.mk.inj (Option.some.inj e')
          omega
        refine ⟨⟨fun ⟨o', e'⟩ => absurd e' (hno o'), fun ⟨hch, _⟩ => ?_⟩,
          fun o' e' => absurd e' (hno o')⟩
        exact absurd (((chained_cons hlast).mp hch).1.symm.trans hf) (by simp)
    | true =>
      rcases executeStatus_next openOk fate cmds h0 hl hf with
        ⟨e, hlt⟩ | ⟨t2, hl2, h2, hfree, e⟩
      · rw [e]
        refine ⟨⟨fun ⟨o, e'⟩ => absurd e' (by simp), fun ⟨hch, hroom⟩ => ?_⟩,
          fun o e' => absurd e' (by simp)⟩
        have hlast : cmds ≠ [] := by
          rintro rfl
          exact absurd ((chained_singleton.mp hch).symm.trans hf) (by simp)
        have hpos : 0 < cmds.length := List.length_pos_iff.mpr hlast
        rw [List.length_cons] at hroom
        omega
      · rw [e]
        by_cases hlast : cmds = []
        · subst hlast
          -- the recursion would run past the array
          have hout : outer (executeStatus openOk fate (k + 1) [] t2) = none := rfl
          rw [hout]
          refine ⟨⟨fun ⟨o, e'⟩ => absurd e' (by simp), fun ⟨hch, _⟩ => ?_⟩,
            fun o e' => absurd e' (by simp)⟩
          exact absurd ((chained_singleton.mp hch).symm.trans hf) (by simp)
        · have hpos : 0 < cmds.length := List.length_pos_iff.mpr hlast
          obtain ⟨hiff, hcomes⟩ := ih hlast hl2 (by omega)
          have hup : ∀ o, executeStatus openOk fate (k + 1) cmds t2 = some (m, o) →
              ∃ o', outer (executeStatus openOk fate (k + 1) cmds t2) = some (m, o') ∧
                Comes openOk fate m (cmd :: cmds) t.free o' := by
            intro o eo
            rw [eo, ← hfree]
            exact (hcomes o eo).cons hlast (by omega)
          have hpipes : (cmds.length + 1 = 1 ∨ cmds.length + 1 ≤ t.free) ↔
              (cmds.length = 1 ∨ cmds.length ≤ t2.free) := by
            rw [← hfree] at h2 ⊢
            generalize t2.free = free at h2
            omega
          rw [chained_cons hlast, List.length_cons, hpipes]
          refine ⟨⟨?_, ?_⟩, fun o e' => ?_⟩
          · rintro ⟨o, e'⟩
            obtain ⟨o1, e1⟩ := outer_eq_some e'
            obtain ⟨hch, hroom⟩ := hiff.mp ⟨o1, e1⟩
            exact ⟨⟨hf, hch⟩, hroom⟩
          · rintro ⟨⟨-, hch⟩, hroom⟩
            obtain ⟨o1, e1⟩ := hiff.mpr ⟨hch, hroom⟩
            obtain ⟨o2, e2, -⟩ := hup o1 e1
            exact ⟨o2, e2⟩
          · obtain ⟨o1, e1⟩ := outer_eq_some e'
            obtain ⟨o2, e2, hc⟩ := hup o1 e1
            obtain ⟨-, rfl⟩ := Prod.mk.inj (Option.some.inj (e'.symm.trans e2))
            exact hc

theorem waitFor_eq {other : List (Nat × Int)} {status : Int} (h : ∀ w ∈ other, w.1 ≠ pid) :
    waitFor pid (other ++ [(pid, status)]) = some status := by
  induction other with
  | nil => exact if_pos rfl
  | cons w other ih =>
    obtain ⟨hw, ho⟩ := List.forall_mem_cons.mp h
    obtain ⟨p, st⟩ := w
    show (if p = pid then some st else waitFor pid (other ++ [(pid, status)])) = some status
    rw [if_neg hw, ih ho]

/-- the status of a pipeline is that of its last stage exactly when its flags lead there, there are
descriptors for the pipes, and no `exec` fails behind a pipe -/
theorem reports_iff {other : List (Nat × Int)} (h0 : Initial t0) (hne : cmds ≠ [])
    (hother : ∀ w ∈ other, w.1 ≠ pid) :
    Reports openOk fate cmds t0 pid other ↔
      Chained cmds ∧ (cmds.length = 1 ∨ cmds.length ≤ t0.free) ∧
        (cmds.length = 1 ∨ (fate (cmds.length - 1)).isSome = true ∨ ¬ LastOpens openOk cmds) := by
  have hpos : 0 < cmds.length := List.length_pos_iff.mpr hne
  obtain ⟨hiff, hcomes⟩ := executeStatus_spec openOk fate
    (m := cmds.length - 1) h0 hne h0.level (by omega)
  constructor
  · rintro ⟨status, hrun, hprog, hfail⟩
    obtain ⟨⟨j, o⟩, e, er⟩ := Option.map_eq_some_iff.mp hrun
    dsimp only at er
    rw [waitFor_eq hother] at er
    obtain ⟨rfl, hst⟩ := Prod.mk.inj er
    obtain rfl := Option.some.inj hst
    obtain ⟨hch, hroom⟩ := hiff.mp ⟨o, e⟩
    refine ⟨hch, hroom, ?_⟩
    by_contra hno
    obtain ⟨h1, h2⟩ := not_or.mp hno
    obtain ⟨h2, h3⟩ := not_or.mp h2
    have hs : LastStarts openOk cmds t0.free :=
      ⟨not_not.mp h3, Or.inr (hroom.resolve_left h1)⟩
    have hn : fate (cmds.length - 1) = none := Option.not_isSome_iff_eq_none.mp h2
    refine hfail (Or.inl hn) ?_
    rw [(hcomes o e).failed hs hn, if_neg h1]
    rfl
  · rintro ⟨hch, hroom, hlast⟩
    obtain ⟨o, e⟩ := hiff.mpr ⟨hch, hroom⟩
    have hc := hcomes o e
    refine ⟨exitCode o, ?_, fun v hv hs => ?_, fun hn => ?_⟩
    · unfold runProgram
      rw [e, Option.map_some, waitFor_eq hother]
    · rw [hc.program hs v hv]
      rfl
    · by_cases hs : LastStarts openOk cmds t0.free
      · have hnone := hn.resolve_right (not_not.mpr hs)
        have h1 : cmds.length = 1 := by
          rcases hlast with h1 | h1 | h1
          · exact h1
          · exact absurd h1 (by simp [hnone])
          · exact absurd hs.1 h1
        rw [hc.failed hs hnone, if_pos h1]
        decide
      · rw [hc.stopped hs]
        decide

end

/-- a single command that cannot be exec'd -/
theorem reports_nosuch : Reports (fun _ _ => true) (fun _ => none)
    (plainCommands ["nosuch".toList]) shellFds 4 [] :=
  (reports_iff initial_shellFds (by decide +kernel) (fun w hw => absurd hw List.not_mem_nil)).mpr
    ⟨chained_singleton.mpr rfl, Or.inl rfl, Or.inl rfl⟩

/-- `ls | nosuch`: the status is 0 -/
theorem status_ls_nosuch : parseLine "ls | nosuch".toList
      = some (plainCommands ["ls".toList, "nosuch".toList]) ∧
    runProgram (fun _ _ => true) (fun k => if k = 0 then some 0 else none)
      (plainCommands ["ls".toList, "nosuch".toList]) shellFds 4 [] = some (1, some 0) ∧
    ¬ Reports (fun _ _ => true) (fun k => if k = 0 then some 0 else none)
      (plainCommands ["ls".toList, "nosuch".toList]) shellFds 4 [] := by
  have hrun : runProgram (fun _ _ => true) (fun k => if k = 0 then some 0 else none)
      (plainCommands ["ls".toList, "nosuch".toList]) shellFds 4 [] = some (1, some 0) := by
    decide +kernel
  refine ⟨by decide +kernel, hrun, ?_⟩
  rintro ⟨status, h, -, hfail⟩
  obtain ⟨-, e⟩ := Prod.mk.inj (Option.some.inj (hrun.symm.trans h))
  exact hfail (Or.inl (by decide +kernel)) (Option.some.inj e).symm

end Boogsh
