import Xv6.Boogsh.Parse
import Xv6.Kernel.Fd

/-!
# Descriptors in `execute_pipeline`

The process that runs `execute_pipeline` makes a pipe for each stage but the last, forks a child
for the stage, puts the read end of the pipe in place of its own descriptor 0 and goes on with the
next command; it closes the write end, but not the descriptor that `pipe` gave it for the read end.
`Level t0 k t` is what its table is then, after `k` stages, and `ChildTable` what a child has when
it reaches its `exec`.

`fork` and the tables of the kernel do not fail.  `pipe` is not checked: when it fails, the
descriptors that `execute_pipeline` goes on with are uninitialised, and the result is `none`.
-/

namespace Boogsh
open Ulib Lib Kernel

structure Started where
  tokens : List Str
  fds : Fds

/-! ## the model -/

/-- what the child does before `exec`; `none` is a panic -/
def childSetup (t : Fds) (fd0 fd1 : Fin nofile) : Option Fds :=
  match close t fd0 with
  | none => none
  | some t =>
    match close t 1 with
    | none => none
    | some t => (dup t fd1).map Prod.fst

def parentSetup (t : Fds) (fd0 fd1 : Fin nofile) : Option Fds :=
  match close t fd1 with
  | none => none
  | some t =>
    match close t 0 with
    | none => none
    | some t => (dup t fd0).map Prod.fst

/-- whether `open` finds or makes the file, for the given flags -/
abbrev OpenOk := Str → Nat → Bool

/-- `open`, `close(target)`, `dup`, `close`: the file takes the place of descriptor `target` -/
def reopen (openOk : OpenOk) (t : Fds) (target : Fin nofile) (path : Str) (flags : Nat) :
    Option Fds :=
  if openOk path flags then
    match fdalloc t (.node path flags) with
    | none => none
    | some (t, fd) =>
      match close t target with
      | none => none
      | some t =>
        match dup t fd with
        | none => none
        | some (t, _) => close t fd
  else none

/-- `O_RDWR | O_CREATE`, with `O_APPEND` after `>>` -/
def outFlags (append : Bool) : Nat := if append then 0x20a else 0x202

def redirectOut (openOk : OpenOk) (cmd : Command) (t : Fds) : Option Fds :=
  match cmd.stdoutFile with
  | none => some t
  | some path => reopen openOk t 1 path (outFlags cmd.append)

def redirectIn (openOk : OpenOk) (cmd : Command) (t : Fds) : Option Fds :=
  match cmd.stdinFile with
  | none => some t
  | some path => reopen openOk t 0 path 0

def redirect (openOk : OpenOk) (cmd : Command) (t : Fds) : Option Fds :=
  match redirectOut openOk cmd t with
  | none => none
  | some t => redirectIn openOk cmd t

/-- the processes that reach an `exec`, from the command with pipe `k` on -/
def executePipeline (openOk : OpenOk) : Nat → List Command → Fds → Option (List Started)
  | _, [], _ => none
  | k, cmd :: rest, t =>
    if !cmd.stdoutPipe then
      match redirect openOk cmd t with
      | none => some []
      | some t => some [⟨cmd.tokens, t⟩]
    else
      match pipe t k with
      | none => none
      | some (t, fd0, fd1) =>
        let child := ((childSetup t fd0 fd1).map (fun t => Started.mk cmd.tokens t)).toList
        match parentSetup t fd0 fd1 with
        | none => some child
        | some t => (executePipeline openOk (k + 1) rest t).map (child ++ ·)

/-! ## tables along the pipeline -/

/-- the shell's table: standard input and output are open, and no pipe of this pipeline is -/
structure Initial (t0 : Fds) : Prop where
  stdin : t0 0 ≠ none
  stdout : t0 1 ≠ none
  readEnd : ∀ fd k, t0 fd ≠ some (.readEnd k)
  writeEnd : ∀ fd k, t0 fd ≠ some (.writeEnd k)

/-- the table of the process in `execute_pipeline` after `k` stages; `leaked` are the descriptors
that `pipe` returned -/
structure Level (t0 : Fds) (k : Nat) (t : Fds) : Prop where
  stdin : t 0 = if k = 0 then t0 0 else some (.readEnd (k - 1))
  stdout : t 1 = t0 1
  free : t.free + k = t0.free
  readEnd : ∀ fd i, t fd = some (.readEnd i) → i < k
  writeEnd : ∀ fd i, t fd ≠ some (.writeEnd i)
  leaked : ∀ i < k, ∃ fd, fd ≠ 0 ∧ fd ≠ 1 ∧ t fd = some (.readEnd i)

/-- the table of stage `k` at its `exec` -/
structure ChildTable (t0 : Fds) (k : Nat) (t : Fds) : Prop where
  stdin : t 0 = if k = 0 then t0 0 else some (.readEnd (k - 1))
  stdout : t 1 = some (.writeEnd k)
  readEnd : ∀ i, Holds t (.readEnd i) ↔ i < k
  writeEnd : ∀ i, Holds t (.writeEnd i) ↔ i = k

section
variable {t0 t : Fds} {k : Nat}

theorem Initial.level (h : Initial t0) : Level t0 0 t0 where
  stdin := rfl
  stdout := rfl
  free := rfl
  readEnd := fun fd i e => absurd e (h.readEnd fd i)
  writeEnd := h.writeEnd
  leaked := fun _ hi => absurd hi (Nat.not_lt_zero _)

theorem Level.stdin_ne (hl : Level t0 k t) (h0 : Initial t0) : t 0 ≠ none := by
  rw [hl.stdin]
  split
  · exact h0.stdin
  · exact Option.some_ne_none _

theorem Level.stdout_ne (hl : Level t0 k t) (h0 : Initial t0) : t 1 ≠ none := by
  rw [hl.stdout]
  exact h0.stdout

theorem eq_zero_of_lt_one {j : Fin nofile} (h : j < 1) : j = 0 := by
  exact Fin.ext (Nat.lt_one_iff.mp h)

theorem Level.pipe_spec {t1 : Fds} {fd0 fd1 : Fin nofile} (hl : Level t0 k t) (h0 : Initial t0)
    (hp : pipe t k = some (t1, fd0, fd1)) :
    (fd0 ≠ 0 ∧ fd0 ≠ 1) ∧ (fd1 ≠ 0 ∧ fd1 ≠ 1) ∧ fd0 ≠ fd1 ∧ t fd0 = none ∧ t fd1 = none ∧
      t1 = Function.update (Function.update t fd0 (some (.readEnd k))) fd1 (some (.writeEnd k)) := by
  obtain ⟨a0, a1, hne, e⟩ := Kernel.pipe_spec hp
  have hs := hl.stdin_ne h0
  have ho := hl.stdout_ne h0
  exact ⟨⟨fun e => hs (e ▸ a0), fun e => ho (e ▸ a0)⟩, ⟨fun e => hs (e ▸ a1), fun e => ho (e ▸ a1)⟩,
    hne, a0, a1, e⟩

theorem Level.parent {t1 : Fds} {fd0 fd1 : Fin nofile} (hl : Level t0 k t) (h0 : Initial t0)
    (hp : pipe t k = some (t1, fd0, fd1)) :
    ∃ t2, parentSetup t1 fd0 fd1 = some t2 ∧ Level t0 (k + 1) t2 := by
  obtain ⟨⟨a0, a1⟩, ⟨b0, b1⟩, hne, hf0, hf1, rfl⟩ := hl.pipe_spec h0 hp
  have hs := hl.stdin_ne h0
  -- the write end is closed again, and the read end doubled at 0
  have hw : Function.update t fd0 (some (File.readEnd k)) fd1 = none := by
    rw [Function.update_of_ne hne.symm, hf1]
  have hs1 : Function.update t fd0 (some (File.readEnd k)) 0 ≠ none := by
    rwa [Function.update_of_ne a0.symm]
  have hr : Function.update t fd0 (some (File.readEnd k)) fd0 = some (.readEnd k) :=
    Function.update_self ..
  have hset : parentSetup (Function.update (Function.update t fd0 (some (.readEnd k))) fd1
      (some (.writeEnd k))) fd0 fd1
      = some (Function.update (Function.update t fd0 (some (.readEnd k))) 0 (some (.readEnd k))) := by
    unfold parentSetup
    rw [close_of_open (by rw [Function.update_self]; exact Option.some_ne_none _),
      Slots.release_update hw]
    dsimp only
    rw [close_of_open hs1]
    dsimp only
    rw [dup_release hr a0 (fun j hj => absurd hj (Fin.not_lt_zero j))]
    rfl
  refine ⟨_, hset, ?_, ?_, ?_, ?_, ?_, ?_⟩
  · rw [Function.update_self, if_neg (Nat.succ_ne_zero k), Nat.add_sub_cancel]
  · rw [Function.update_of_ne (by decide), Function.update_of_ne a1.symm, hl.stdout]
  · rw [Slots.free_update_taken hs1]
    have h1 := Slots.free_update_some (a := File.readEnd k) hf0
    have h2 := hl.free
    omega
  · intro fd i e
    rcases Slots.update_eq_some e with ⟨-, h1⟩ | e
    · rw [← File.readEnd.inj h1]
      exact Nat.lt_succ_self k
    · rcases Slots.update_eq_some e with ⟨-, h1⟩ | e
      · rw [← File.readEnd.inj h1]
        exact Nat.lt_succ_self k
      · exact (hl.readEnd fd i e).trans (Nat.lt_succ_self k)
  · intro fd i e
    rcases Slots.update_eq_some e with ⟨-, h1⟩ | e
    · exact absurd h1 nofun
    · rcases Slots.update_eq_some e with ⟨-, h1⟩ | e
      · exact absurd h1 nofun
      · exact hl.writeEnd fd i e
  · intro i hi
    by_cases hik : i = k
    · refine ⟨fd0, a0, a1, ?_⟩
      rw [Function.update_of_ne a0, Function.update_self, hik]
    · obtain ⟨fd, c0, c1, e⟩ := hl.leaked i (by omega)
      have hfd : fd ≠ fd0 := by
        rintro rfl
        rw [hf0] at e
        exact absurd e (by simp)
      exact ⟨fd, c0, c1, by rw [Function.update_of_ne c0, Function.update_of_ne hfd, e]⟩

theorem Level.child {t1 : Fds} {fd0 fd1 : Fin nofile} (hl : Level t0 k t) (h0 : Initial t0)
    (hp : pipe t k = some (t1, fd0, fd1)) :
    ∃ t2, childSetup t1 fd0 fd1 = some t2 ∧ ChildTable t0 k t2 := by
  obtain ⟨⟨a0, a1⟩, ⟨b0, b1⟩, hne, hf0, hf1, rfl⟩ := hl.pipe_spec h0 hp
  have hs := hl.stdin_ne h0
  have ho := hl.stdout_ne h0
  -- the read end is closed again, and the write end doubled at 1
  have hcomm : Function.update (Function.update t fd0 (some (File.readEnd k))) fd1
      (some (.writeEnd k)) = Function.update (Function.update t fd1 (some (.writeEnd k))) fd0
      (some (.readEnd k)) := Function.update_comm hne _ _ _
  have hr : Function.update t fd1 (some (File.writeEnd k)) fd0 = none := by
    rw [Function.update_of_ne hne, hf0]
  have ho1 : Function.update t fd1 (some (File.writeEnd k)) 1 ≠ none := by
    rwa [Function.update_of_ne b1.symm]
  have hw : Function.update t fd1 (some (File.writeEnd k)) fd1 = some (.writeEnd k) :=
    Function.update_self ..
  have hlow : ∀ j < (1 : Fin nofile), Function.update t fd1 (some (File.writeEnd k)) j ≠ none := by
    intro j hj
    rw [eq_zero_of_lt_one hj, Function.update_of_ne b0.symm]
    exact hs
  have hset : childSetup (Function.update (Function.update t fd0 (some (.readEnd k))) fd1
      (some (.writeEnd k))) fd0 fd1
      = some (Function.update (Function.update t fd1 (some (.writeEnd k))) 1
        (some (.writeEnd k))) := by
    unfold childSetup
    rw [hcomm, close_of_open (by rw [Function.update_self]; exact Option.some_ne_none _),
      Slots.release_update hr]
    dsimp only
    rw [close_of_open ho1]
    dsimp only
    rw [dup_release hw b1 hlow]
    rfl
  have hread : ∀ fd i, Function.update (Function.update t fd1 (some (File.writeEnd k))) 1
      (some (.writeEnd k)) fd = some (.readEnd i) → t fd = some (.readEnd i) := by
    intro fd i e
    rcases Slots.update_eq_some e with ⟨-, h1⟩ | e
    · exact absurd h1 nofun
    · rcases Slots.update_eq_some e with ⟨-, h1⟩ | e
      · exact absurd h1 nofun
      · exact e
  refine ⟨_, hset, ?_, ?_, fun i => ⟨?_, fun hi => ?_⟩, fun i => ⟨?_, fun hi => ?_⟩⟩
  · rw [Function.update_of_ne (by decide), Function.update_of_ne b0.symm, hl.stdin]
  · rw [Function.update_self]
  · rintro ⟨fd, e⟩
    exact hl.readEnd fd i (hread fd i e)
  · obtain ⟨fd, c0, c1, e⟩ := hl.leaked i hi
    have hfd : fd ≠ fd1 := by
      rintro rfl
      rw [hf1] at e
      exact absurd e (by simp)
    exact ⟨fd, by rw [Function.update_of_ne c1, Function.update_of_ne hfd, e]⟩
  · rintro ⟨fd, e⟩
    rcases Slots.update_eq_some e with ⟨-, h1⟩ | e
    · exact (File.writeEnd.inj h1).symm
    · rcases Slots.update_eq_some e with ⟨-, h1⟩ | e
      · exact (File.writeEnd.inj h1).symm
      · exact absurd e (hl.writeEnd fd i)
  · exact ⟨1, by rw [Function.update_self, hi]⟩

/-! ## redirections -/

theorem reopen_eq {openOk : OpenOk} {target : Fin nofile} {path : Str} {flags : Nat}
    (ht : t target ≠ none) (hlow : ∀ j < target, t j ≠ none) :
    reopen openOk t target path flags = if openOk path flags = true ∧ 0 < t.free then
      some (Function.update t target (some (.node path flags))) else none := by
  unfold reopen
  by_cases hop : openOk path flags = true
  · rw [if_pos hop]
    by_cases hfree : 0 < t.free
    · rw [if_pos ⟨hop, hfree⟩]
      obtain ⟨t1, fd, h1⟩ := Slots.exists_alloc hfree (File.node path flags)
      obtain ⟨hfd, -, rfl⟩ := Slots.alloc_spec h1
      have hne : fd ≠ target := fun e => ht (e ▸ hfd)
      have hnode : Function.update t fd (some (File.node path flags)) fd
          = some (.node path flags) := Function.update_self ..
      have ht1 : Function.update t fd (some (File.node path flags)) target ≠ none := by
        rwa [Function.update_of_ne hne.symm]
      have hlow1 : ∀ j < target, Function.update t fd (some (File.node path flags)) j ≠ none := by
        intro j hj
        by_cases e : j = fd
        · rw [e, hnode]
          exact Option.some_ne_none _
        · rw [Function.update_of_ne e]
          exact hlow j hj
      unfold fdalloc
      rw [h1]
      dsimp only
      rw [close_of_open ht1]
      dsimp only
      rw [dup_release hnode hne hlow1]
      dsimp only
      rw [Function.update_comm hne, close_of_open (by
        rw [Function.update_self]
        exact Option.some_ne_none _), Slots.release_update (by rwa [Function.update_of_ne hne])]
    · rw [if_neg (fun h => hfree h.2)]
      unfold fdalloc
      rw [Slots.alloc_eq_none_iff.mpr (by omega)]
  · rw [if_neg hop, if_neg (fun h => hop h.1)]

def opens (openOk : OpenOk) (cmd : Command) : Prop :=
  (∀ path, cmd.stdoutFile = some path → openOk path (outFlags cmd.append) = true) ∧
    ∀ path, cmd.stdinFile = some path → openOk path 0 = true

def noFiles (cmd : Command) : Prop := cmd.stdoutFile = none ∧ cmd.stdinFile = none

/-- a redirection changes descriptors 0 and 1 only, and only where it has a file -/
structure Redirected (cmd : Command) (t t' : Fds) : Prop where
  stdin : cmd.stdinFile = none → t' 0 = t 0
  stdout : cmd.stdoutFile = none → t' 1 = t 1
  other : ∀ fd, fd ≠ 0 → fd ≠ 1 → t' fd = t fd
  node : ∀ fd, t' fd = t fd ∨ ∃ path flags, t' fd = some (.node path flags)

theorem redirectOut_spec (openOk : OpenOk) (cmd : Command) (hs : t 0 ≠ none) (ho : t 1 ≠ none) :
    ((redirectOut openOk cmd t).isSome ↔
      (∀ path, cmd.stdoutFile = some path → openOk path (outFlags cmd.append) = true) ∧
        (cmd.stdoutFile = none ∨ 0 < t.free)) ∧
      ∀ t', redirectOut openOk cmd t = some t' → t'.free = t.free ∧ t' 1 ≠ none ∧
        (∀ fd, fd ≠ 1 → t' fd = t fd) ∧ (cmd.stdoutFile = none → t' 1 = t 1) ∧
        (t' 1 = t 1 ∨ ∃ path flags, t' 1 = some (.node path flags)) := by
  have hlow : ∀ j < (1 : Fin nofile), t j ≠ none := fun j hj => by rwa [eq_zero_of_lt_one hj]
  unfold redirectOut
  cases h : cmd.stdoutFile with
  | none =>
    refine ⟨by simp, fun t' e => ?_⟩
    rw [← Option.some.inj e]
    exact ⟨rfl, ho, fun _ _ => rfl, fun _ => rfl, Or.inl rfl⟩
  | some path =>
    dsimp only
    rw [reopen_eq ho hlow]
    by_cases hc : openOk path (outFlags cmd.append) = true ∧ 0 < t.free
    · rw [if_pos hc]
      refine ⟨by simpa using hc, fun t' e => ?_⟩
      rw [← Option.some.inj e]
      have hnode : Function.update t 1 (some (File.node path (outFlags cmd.append))) 1
          = some (.node path (outFlags cmd.append)) := Function.update_self ..
      exact ⟨Slots.free_update_taken ho, by rw [hnode]; exact Option.some_ne_none _,
        fun fd hfd => Function.update_of_ne hfd _ _, fun e => absurd e (by simp),
        Or.inr ⟨_, _, hnode⟩⟩
    · rw [if_neg hc]
      exact ⟨by simpa using hc, fun t' e => absurd e (by simp)⟩

theorem redirect_spec (openOk : OpenOk) (cmd : Command) (hs : t 0 ≠ none) (ho : t 1 ≠ none) :
    ((redirect openOk cmd t).isSome ↔ opens openOk cmd ∧ (noFiles cmd ∨ 0 < t.free)) ∧
      ∀ t', redirect openOk cmd t = some t' → Redirected cmd t t' := by
  obtain ⟨hsome, hspec⟩ := redirectOut_spec openOk cmd hs ho
  unfold redirect
  cases h1 : redirectOut openOk cmd t with
  | none =>
    rw [h1] at hsome
    refine ⟨⟨fun h => absurd h (by simp), fun ⟨ho, hf⟩ => ?_⟩, fun t' e => absurd e (by simp)⟩
    exact absurd (hsome.mpr ⟨ho.1, hf.imp And.left id⟩) (by simp)
  | some t1 =>
    obtain ⟨hout, hfile⟩ := hsome.mp (by rw [h1]; rfl)
    obtain ⟨hfree, ho1, hother, hkeep, hnode⟩ := hspec t1 h1
    have hs1 : t1 0 ≠ none := by rwa [hother 0 (by decide)]
    have hnode1 : ∀ fd, t1 fd = t fd ∨ ∃ path flags, t1 fd = some (.node path flags) := by
      intro fd
      by_cases e : fd = 1
      · rw [e]
        exact hnode
      · exact Or.inl (hother fd e)
    dsimp only
    unfold redirectIn
    cases h2 : cmd.stdinFile with
    | none =>
      refine ⟨⟨fun _ => ⟨⟨hout, by simp [h2]⟩, hfile.imp (fun e => ⟨e, h2⟩) id⟩, fun _ => rfl⟩,
        fun t' e => ?_⟩
      rw [← Option.some.inj e]
      exact ⟨fun _ => hother 0 (by decide), hkeep, fun fd _ e1 => hother fd e1, hnode1⟩
    | some path =>
      dsimp only
      rw [reopen_eq hs1 (fun j hj => absurd hj (Fin.not_lt_zero j)), hfree]
      by_cases hc : openOk path 0 = true ∧ 0 < t.free
      · rw [if_pos hc]
        refine ⟨⟨fun _ => ⟨⟨hout, fun p e => ?_⟩, Or.inr hc.2⟩, fun _ => rfl⟩, fun t' e => ?_⟩
        · rw [h2, Option.some_inj] at e
          rw [← e]
          exact hc.1
        · rw [← Option.some.inj e]
          refine ⟨fun e1 => absurd (h2.symm.trans e1) (by simp), fun e1 => ?_, fun fd e0 e1 => ?_,
            fun fd => ?_⟩
          · rw [Function.update_of_ne (by decide), hkeep e1]
          · rw [Function.update_of_ne e0, hother fd e1]
          · by_cases e0 : fd = 0
            · exact Or.inr ⟨path, 0, by rw [e0, Function.update_self]⟩
            · rw [Function.update_of_ne e0]
              exact hnode1 fd
      · rw [if_neg hc]
        refine ⟨⟨fun h => absurd h (by simp), fun ⟨ho, hf⟩ => ?_⟩, fun t' e => absurd e (by simp)⟩
        refine absurd ⟨ho.2 path h2, ?_⟩ hc
        rcases hf with hf | hf
        · exact absurd (h2.symm.trans hf.2) (by simp)
        · exact hf

end

end Boogsh
