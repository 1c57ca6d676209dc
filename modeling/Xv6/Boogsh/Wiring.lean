import Xv6.Boogsh.Pipeline

/-!
# Which pipelines start

`execute_pipeline` starts a process for each command exactly when the flags lead it to the last
one, there are descriptors for every pipe, and the files of the last command can be opened
(`executePipeline_spec`).  The pipes then connect the stages, but the descriptors for the read ends
add up: every stage also has the read ends of all pipes before its own.
-/

namespace Boogsh
open Ulib Lib Kernel

def parseAndRunCmd (openOk : OpenOk) (s : Str) (t : Fds) : Option (List Started) :=
  match parseLine s with
  | none => none
  | some cmds => executePipeline openOk 0 cmds t

/-! ## the whole run -/

def Chained (cmds : List Command) : Prop :=
  ∀ (i : Nat) cmd, cmds[i]? = some cmd → cmd.stdoutPipe = decide (i + 1 < cmds.length)

/-- descriptors for the pipes, and for the files of the last command -/
def Room (cmds : List Command) (free : Nat) : Prop :=
  (cmds.length = 1 ∧ ∀ cmd ∈ cmds, noFiles cmd) ∨ cmds.length ≤ free

def LastOpens (openOk : OpenOk) (cmds : List Command) : Prop :=
  ∀ cmd, cmds.getLast? = some cmd → opens openOk cmd

/-- a process for every command, from pipe `k` on -/
structure Stages (t0 : Fds) (k : Nat) (cmds : List Command) (l : List Started) : Prop where
  length : l.length = cmds.length
  tokens : ∀ (i : Nat) cmd p, cmds[i]? = some cmd → l[i]? = some p → p.tokens = cmd.tokens
  inner : ∀ (i : Nat) p, l[i]? = some p → i + 1 < l.length → ChildTable t0 (k + i) p.fds
  last : ∀ (i : Nat) cmd p, cmds[i]? = some cmd → l[i]? = some p → i + 1 = l.length →
    ∃ t, Level t0 (k + i) t ∧ Redirected cmd t p.fds

section
variable {openOk : OpenOk} {t0 t : Fds} {k : Nat} {cmd : Command} {cmds : List Command}
  {l : List Started}

theorem chained_singleton : Chained [cmd] ↔ cmd.stdoutPipe = false := by
  constructor
  · intro h
    exact h 0 cmd rfl
  · intro h i c e
    cases i with
    | zero =>
      rw [← Option.some.inj e, h]
      rfl
    | succ i => exact absurd e (by simp)

theorem chained_cons (hne : cmds ≠ []) :
    Chained (cmd :: cmds) ↔ cmd.stdoutPipe = true ∧ Chained cmds := by
  have hpos : 0 < cmds.length := List.length_pos_iff.mpr hne
  constructor
  · intro h
    refine ⟨(h 0 cmd rfl).trans (decide_eq_true (by simpa using hpos)), fun i c e => ?_⟩
    rw [h (i + 1) c e]
    simp
  · rintro ⟨h0, h⟩ i c e
    cases i with
    | zero =>
      rw [← Option.some.inj e, h0]
      exact (decide_eq_true (by simpa using hpos)).symm
    | succ i =>
      rw [h i c e]
      simp

theorem Stages.singleton (hl : Level t0 k t) {t' : Fds} (h : Redirected cmd t t') :
    Stages t0 k [cmd] [⟨cmd.tokens, t'⟩] where
  length := rfl
  tokens := by
    intro i c p e1 e2
    cases i with
    | zero =>
      rw [← Option.some.inj e1, ← Option.some.inj e2]
    | succ i => exact absurd e1 (by simp)
  inner := fun i p _ hi => absurd hi (by simp)
  last := by
    intro i c p e1 e2 _
    cases i with
    | zero =>
      rw [← Option.some.inj e1, ← Option.some.inj e2]
      exact ⟨t, hl, h⟩
    | succ i => exact absurd e1 (by simp)

theorem Stages.cons {t' : Fds} (hc : ChildTable t0 k t') (hs : Stages t0 (k + 1) cmds l)
    (hne : cmds ≠ []) : Stages t0 k (cmd :: cmds) (⟨cmd.tokens, t'⟩ :: l) where
  length := by
    rw [List.length_cons, List.length_cons, hs.length]
  tokens := by
    intro i c p e1 e2
    cases i with
    | zero =>
      rw [← Option.some.inj e1, ← Option.some.inj e2]
    | succ i => exact hs.tokens i c p e1 e2
  inner := by
    intro i p e hi
    cases i with
    | zero =>
      rw [← Option.some.inj e]
      exact hc
    | succ i =>
      have h := hs.inner i p e (Nat.lt_of_succ_lt_succ hi)
      rwa [Nat.add_right_comm, Nat.add_assoc] at h
  last := by
    intro i c p e1 e2 hi
    cases i with
    | zero =>
      have h0 : l.length = 0 := (Nat.succ.inj hi).symm
      rw [hs.length] at h0
      exact absurd (List.eq_nil_of_length_eq_zero h0) hne
    | succ i =>
      have h := hs.last i c p e1 e2 (Nat.succ.inj hi)
      rwa [Nat.add_right_comm, Nat.add_assoc] at h

theorem executePipeline_cons : executePipeline openOk k (cmd :: cmds) t =
    if !cmd.stdoutPipe then
      match redirect openOk cmd t with
      | none => some []
      | some t => some [⟨cmd.tokens, t⟩]
    else
      match pipe t k with
      | none => none
      | some (t, fd0, fd1) =>
        let child := ((childSetup t fd0 fd1).map (fun t => Started.mk cmd.tokens t)).toList
        match parentSetup t fd0 fd1 with
        | none => some child
        | some t => (executePipeline openOk (k + 1) cmds t).map (child ++ ·) := by
  exact rfl

theorem executePipeline_last (openOk : OpenOk) (cmds : List Command) (h0 : Initial t0)
    (hl : Level t0 k t) (hf : cmd.stdoutPipe = false) :
    (executePipeline openOk k (cmd :: cmds) t = some [] ∧
      ¬ (opens openOk cmd ∧ (noFiles cmd ∨ 0 < t.free))) ∨
    ∃ t', executePipeline openOk k (cmd :: cmds) t = some [⟨cmd.tokens, t'⟩] ∧
      Redirected cmd t t' ∧ opens openOk cmd ∧ (noFiles cmd ∨ 0 < t.free) := by
  obtain ⟨hsome, hspec⟩ := redirect_spec openOk cmd (hl.stdin_ne h0) (hl.stdout_ne h0)
  rw [executePipeline_cons, hf]
  cases h : redirect openOk cmd t with
  | none =>
    refine Or.inl ⟨rfl, fun hc => ?_⟩
    rw [h] at hsome
    exact absurd (hsome.mpr hc) (by simp)
  | some t' => exact Or.inr ⟨t', rfl, hspec t' h, hsome.mp (by rw [h]; rfl)⟩

/-- the pipe and the tables of the two processes, when there are two free descriptors -/
theorem Level.pipe_cases (h0 : Initial t0) (hl : Level t0 k t) :
    (pipe t k = none ∧ t.free < 2) ∨
    ∃ tp fd0 fd1 t1 t2, pipe t k = some (tp, fd0, fd1) ∧ childSetup tp fd0 fd1 = some t1 ∧
      parentSetup tp fd0 fd1 = some t2 ∧ ChildTable t0 k t1 ∧ Level t0 (k + 1) t2 ∧
      2 ≤ t.free ∧ t2.free + 1 = t.free := by
  have hiff := pipe_isSome_iff (t := t) (k := k)
  cases hp : pipe t k with
  | none =>
    rw [hp] at hiff
    exact Or.inl ⟨rfl, Nat.lt_of_not_le (fun h => absurd (hiff.mpr h) (by simp))⟩
  | some p =>
    obtain ⟨tp, fd0, fd1⟩ := p
    obtain ⟨t1, h1, hc⟩ := hl.child h0 hp
    obtain ⟨t2, h2, hl2⟩ := hl.parent h0 hp
    have hfree : t2.free + 1 = t.free := by
      have e1 := hl.free
      have e2 := hl2.free
      omega
    exact Or.inr ⟨tp, fd0, fd1, t1, t2, rfl, h1, h2, hc, hl2, hiff.mp (by rw [hp]; rfl), hfree⟩

theorem executePipeline_next (openOk : OpenOk) (cmds : List Command) (h0 : Initial t0)
    (hl : Level t0 k t) (hf : cmd.stdoutPipe = true) :
    (executePipeline openOk k (cmd :: cmds) t = none ∧ t.free < 2) ∨
    ∃ t1 t2, ChildTable t0 k t1 ∧ Level t0 (k + 1) t2 ∧ 2 ≤ t.free ∧ t2.free + 1 = t.free ∧
      executePipeline openOk k (cmd :: cmds) t
        = (executePipeline openOk (k + 1) cmds t2).map (fun l => ⟨cmd.tokens, t1⟩ :: l) := by
  rcases hl.pipe_cases h0 with ⟨hp, hlt⟩ | ⟨tp, fd0, fd1, t1, t2, hp, h1, h2, hc, hl2, hfree, he⟩
  · refine Or.inl ⟨?_, hlt⟩
    rw [executePipeline_cons, hf, hp]
    rfl
  · refine Or.inr ⟨t1, t2, hc, hl2, hfree, he, ?_⟩
    rw [executePipeline_cons, hf, hp]
    dsimp only
    rw [h1, h2]
    rfl

theorem room_singleton {free : Nat} : Room [cmd] free ↔ noFiles cmd ∨ 0 < free := by
  unfold Room
  simp [Nat.lt_iff_add_one_le]

theorem room_cons {free : Nat} (hne : cmds ≠ []) (h : 2 ≤ free + 1) :
    Room (cmd :: cmds) (free + 1) ↔ Room cmds free := by
  have hpos : 0 < cmds.length := List.length_pos_iff.mpr hne
  unfold Room
  rw [List.length_cons]
  constructor
  · rintro (⟨h1, -⟩ | h1)
    · omega
    · exact Or.inr (by omega)
  · rintro (⟨h1, -⟩ | h1)
    · exact Or.inr (by omega)
    · exact Or.inr (by omega)

theorem lastOpens_cons (hne : cmds ≠ []) : LastOpens openOk (cmd :: cmds) ↔ LastOpens openOk cmds := by
  obtain ⟨c, cs, rfl⟩ := List.exists_cons_of_ne_nil hne
  unfold LastOpens
  rw [List.getLast?_cons_cons]

theorem executePipeline_spec (openOk : OpenOk) (h0 : Initial t0) (hne : cmds ≠ []) (hl : Level t0 k t) :
    ((∃ l, executePipeline openOk k cmds t = some l ∧ l.length = cmds.length) ↔
      Chained cmds ∧ Room cmds t.free ∧ LastOpens openOk cmds) ∧
    ∀ l, executePipeline openOk k cmds t = some l → l.length = cmds.length → Stages t0 k cmds l := by
  induction cmds generalizing k t with
  | nil => exact absurd rfl hne
  | cons cmd cmds ih =>
    by_cases hlast : cmds = []
    · subst hlast
      rw [chained_singleton, room_singleton, show LastOpens openOk [cmd] ↔ opens openOk cmd by
        simp [LastOpens]]
      cases hf : cmd.stdoutPipe with
      | false =>
        rcases executePipeline_last openOk [] h0 hl hf with ⟨e, hno⟩ | ⟨t', e, hr, ho, hroom⟩
        · rw [e]
          refine ⟨⟨?_, fun ⟨_, h1, h2⟩ => absurd ⟨h2, h1⟩ hno⟩, ?_⟩
          · rintro ⟨l, e1, h⟩
            rw [← Option.some.inj e1] at h
            exact absurd h (by simp)
          · intro l e1 h
            rw [← Option.some.inj e1] at h
            exact absurd h (by simp)
        · rw [e]
          refine ⟨⟨fun _ => ⟨rfl, hroom, ho⟩, fun _ => ⟨_, rfl, rfl⟩⟩, fun l e1 _ => ?_⟩
          rw [← Option.some.inj e1]
          exact .singleton hl hr
      | true =>
        -- the recursion would run past the array
        have e : executePipeline openOk k [cmd] t = none := by
          rcases executePipeline_next openOk [] h0 hl hf with ⟨e, -⟩ | ⟨t1, t2, -, -, -, -, e⟩
          · exact e
          · rw [e]
            rfl
        rw [e]
        exact ⟨⟨fun ⟨l, e1, _⟩ => absurd e1 (by simp), fun h => absurd h.1 (by simp)⟩,
          fun l e1 _ => absurd e1 (by simp)⟩
    · have hpos : 0 < cmds.length := List.length_pos_iff.mpr hlast
      rw [chained_cons hlast]
      cases hf : cmd.stdoutPipe with
      | false =>
        have hlen : ∀ l, executePipeline openOk k (cmd :: cmds) t = some l →
            l.length ≠ (cmd :: cmds).length := by
          intro l e1 h
          rcases executePipeline_last openOk cmds h0 hl hf with
            ⟨e, -⟩ | ⟨t', e, -⟩
          · rw [← Option.some.inj (e.symm.trans e1)] at h
            simp at h
          · rw [← Option.some.inj (e.symm.trans e1)] at h
            exact hlast (by simpa using h)
        exact ⟨⟨fun ⟨l, e1, h⟩ => absurd h (hlen l e1), fun h => absurd h.1.1 (by simp)⟩,
          fun l e1 h => absurd h (hlen l e1)⟩
      | true =>
        rcases executePipeline_next openOk cmds h0 hl hf with
          ⟨e, hfree⟩ | ⟨t1, t2, hc, hl2, h2, hfree, e⟩
        · rw [e]
          refine ⟨⟨fun ⟨l, e1, _⟩ => absurd e1 (by simp), fun ⟨_, hr, _⟩ => ?_⟩,
            fun l e1 _ => absurd e1 (by simp)⟩
          rcases hr with ⟨h1, -⟩ | h1
          · rw [List.length_cons] at h1
            omega
          · rw [List.length_cons] at h1
            omega
        · obtain ⟨hiff, hst⟩ := ih hlast hl2
          rw [e, ← hfree, room_cons hlast (by omega), lastOpens_cons hlast]
          constructor
          · constructor
            · rintro ⟨l, e1, h⟩
              obtain ⟨l2, e2, rfl⟩ := Option.map_eq_some_iff.mp e1
              obtain ⟨a, b⟩ := hiff.mp ⟨l2, e2, Nat.succ.inj h⟩
              exact ⟨⟨rfl, a⟩, b⟩
            · rintro ⟨⟨-, a⟩, b⟩
              obtain ⟨l, e1, h⟩ := hiff.mpr ⟨a, b⟩
              exact ⟨⟨cmd.tokens, t1⟩ :: l, by rw [e1]; rfl, by rw [List.length_cons, h]; rfl⟩
          · intro l e1 h
            obtain ⟨l2, e2, rfl⟩ := Option.map_eq_some_iff.mp e1
            exact .cons hc (hst l2 e2 (Nat.succ.inj h)) hlast

/-! ## lines without an operator -/

/-- stage `i` reads pipe `i - 1` and writes pipe `i` -/
structure Wired (t0 : Fds) (words : List (List Str)) (l : List Started) : Prop where
  length : l.length = words.length
  tokens : ∀ (i : Nat) ws p, words[i]? = some ws → l[i]? = some p → p.tokens = ws ∧ p.tokens ≠ []
  stdin : ∀ (i : Nat) p, l[i]? = some p →
    p.fds 0 = if i = 0 then t0 0 else some (.readEnd (i - 1))
  stdout : ∀ (i : Nat) p, l[i]? = some p →
    p.fds 1 = if i + 1 = l.length then t0 1 else some (.writeEnd i)

theorem Stages.stdin (hs : Stages t0 0 cmds l) {i : Nat} {p : Started} (hp : l[i]? = some p)
    (hfile : ∀ cmd, cmds[i]? = some cmd → cmd.stdinFile = none) :
    p.fds 0 = if i = 0 then t0 0 else some (.readEnd (i - 1)) := by
  obtain ⟨hi, -⟩ := List.getElem?_eq_some_iff.mp hp
  by_cases hlast : i + 1 = l.length
  · obtain ⟨cmd, hcmd⟩ : ∃ cmd, cmds[i]? = some cmd :=
      ⟨_, List.getElem?_eq_getElem (hs.length ▸ hi)⟩
    obtain ⟨t, hl, hr⟩ := hs.last i cmd p hcmd hp hlast
    rw [hr.stdin (hfile cmd hcmd), hl.stdin, Nat.zero_add]
  · rw [(hs.inner i p hp (by omega)).stdin, Nat.zero_add]

theorem Stages.stdout (hs : Stages t0 0 cmds l) {i : Nat} {p : Started} (hp : l[i]? = some p)
    (hfile : i + 1 = l.length → ∀ cmd, cmds[i]? = some cmd → cmd.stdoutFile = none) :
    p.fds 1 = if i + 1 = l.length then t0 1 else some (.writeEnd i) := by
  obtain ⟨hi, -⟩ := List.getElem?_eq_some_iff.mp hp
  by_cases hlast : i + 1 = l.length
  · obtain ⟨cmd, hcmd⟩ : ∃ cmd, cmds[i]? = some cmd :=
      ⟨_, List.getElem?_eq_getElem (hs.length ▸ hi)⟩
    obtain ⟨t, hl, hr⟩ := hs.last i cmd p hcmd hp hlast
    rw [if_pos hlast, hr.stdout (hfile hlast cmd hcmd), hl.stdout]
  · rw [if_neg hlast, (hs.inner i p hp (by omega)).stdout, Nat.zero_add]

theorem stageOf_getElem {s : Str} (h : parseLine s = some cmds) {i : Nat} (hcmd : cmds[i]? = some cmd) :
    ∃ words, (stages s)[i]? = some words ∧ StageOf words (i + 1 = cmds.length) cmd := by
  obtain ⟨-, hlen, hst⟩ := parseLine_spec h
  obtain ⟨hi, -⟩ := List.getElem?_eq_some_iff.mp hcmd
  have hw : (stages s)[i]? = some _ := List.getElem?_eq_getElem (hlen ▸ hi)
  exact ⟨_, hw, hst i _ cmd hw hcmd⟩

/-- without an operator before the last stage, the flags lead to the last command -/
theorem chained_of_parse {s : Str} (h : parseLine s = some cmds) :
    Chained cmds ↔ ∀ (i : Nat) words, (stages s)[i]? = some words → i + 1 < (stages s).length →
      redirected words = false := by
  obtain ⟨-, hlen, hst⟩ := parseLine_spec h
  constructor
  · intro hc i words hw hi
    obtain ⟨cmd, hcmd⟩ : ∃ cmd, cmds[i]? = some cmd :=
      ⟨_, List.getElem?_eq_getElem (by omega)⟩
    have h1 := (hst i words cmd hw hcmd).stdoutPipe
    rw [hc i cmd hcmd, decide_eq_true (by omega), decide_eq_false (by omega)] at h1
    simpa using h1
  · intro hr i cmd hcmd
    obtain ⟨words, hw, hso⟩ := stageOf_getElem h hcmd
    obtain ⟨hi, -⟩ := List.getElem?_eq_some_iff.mp hcmd
    rw [hso.stdoutPipe]
    by_cases hlast : i + 1 = cmds.length
    · rw [decide_eq_true hlast, decide_eq_false (by omega)]
      rfl
    · rw [decide_eq_false hlast, decide_eq_true (by omega), hr i words hw (by omega)]
      rfl

/-- every stage of a line without operators starts, between its two pipes, exactly when there are
descriptors for the pipes -/
theorem wired_iff {s : Str} (h0 : Initial t0) (hne : stages s ≠ [])
    (hword : ∀ words ∈ stages s, words ≠ [])
    (hplain : ∀ words ∈ stages s, redirected words = false) :
    (∃ l, parseAndRunCmd openOk s t0 = some l ∧ Wired t0 (stages s) l) ↔
      (stages s).length = 1 ∨ (stages s).length ≤ t0.free := by
  obtain ⟨cmds, hcmds⟩ := parseLine_plain hne hplain
  obtain ⟨hne', hlen, hst⟩ := parseLine_spec hcmds
  have hrun : parseAndRunCmd openOk s t0 = executePipeline openOk 0 cmds t0 := by
    unfold parseAndRunCmd
    rw [hcmds]
  have hso : ∀ (i : Nat) cmd, cmds[i]? = some cmd → ∃ words, (stages s)[i]? = some words ∧
      cmd.tokens = words ∧ noFiles cmd := by
    intro i cmd hcmd
    obtain ⟨words, hw, hso⟩ := stageOf_getElem hcmds hcmd
    have hp := hplain words (List.mem_of_getElem? hw)
    exact ⟨words, hw, hso.tokens.trans (commandWords_plain hp), hso.plain hp⟩
  have hno : ∀ cmd ∈ cmds, noFiles cmd := by
    intro cmd hmem
    obtain ⟨i, hi⟩ := List.getElem?_of_mem hmem
    obtain ⟨-, -, -, h⟩ := hso i cmd hi
    exact h
  obtain ⟨hiff, hstages⟩ := executePipeline_spec openOk h0 hne' h0.level
  rw [hrun, ← hlen]
  constructor
  · rintro ⟨l, e, hw⟩
    obtain ⟨-, hroom, -⟩ := hiff.mp ⟨l, e, hw.length.trans hlen.symm⟩
    exact hroom.imp And.left id
  · intro hroom
    have hlast : LastOpens openOk cmds := by
      intro cmd hcmd
      obtain ⟨h1, h2⟩ := hno cmd (List.mem_of_getLast? hcmd)
      exact ⟨fun p e => absurd (h1.symm.trans e) (by simp),
        fun p e => absurd (h2.symm.trans e) (by simp)⟩
    obtain ⟨l, e, hl⟩ := hiff.mpr ⟨(chained_of_parse hcmds).mpr
      (fun i words hw _ => hplain words (List.mem_of_getElem? hw)),
      hroom.imp (fun h1 => ⟨h1, hno⟩) id, hlast⟩
    have hs := hstages l e hl
    refine ⟨l, e, hl.trans hlen, fun i ws p hw hp => ?_,
      fun i p hp => hs.stdin hp (fun c hc => (hno c (List.mem_of_getElem? hc)).2),
      fun i p hp => hs.stdout hp (fun _ c hc => (hno c (List.mem_of_getElem? hc)).1)⟩
    obtain ⟨hi, -⟩ := List.getElem?_eq_some_iff.mp hp
    have hcmd : cmds[i]? = some _ := List.getElem?_eq_getElem (hl ▸ hi)
    obtain ⟨words, hw', htok, -⟩ := hso i _ hcmd
    rw [hs.tokens i _ p hcmd hp, htok, Option.some.inj (hw'.symm.trans hw)]
    exact ⟨rfl, hword ws (List.mem_of_getElem? hw)⟩

def shellFds : Fds := fun fd => if fd.val < 3 then some (.inherited fd.val) else none

theorem shellFds_eq (fd : Fin nofile) :
    shellFds fd = none ∨ shellFds fd = some (.inherited fd.val) := by
  unfold shellFds
  split
  · exact Or.inr rfl
  · exact Or.inl rfl

theorem initial_shellFds : Initial shellFds where
  stdin := by decide
  stdout := by decide
  readEnd := by
    intro fd k e
    rcases shellFds_eq fd with h | h
    · exact absurd (h.symm.trans e) (by simp)
    · exact absurd (h.symm.trans e) (by simp)
  writeEnd := by
    intro fd k e
    rcases shellFds_eq fd with h | h
    · exact absurd (h.symm.trans e) (by simp)
    · exact absurd (h.symm.trans e) (by simp)

/-- two stages, thirteen free descriptors -/
theorem wired_ls_wc : ∃ l, parseAndRunCmd (fun _ _ => true) "ls|wc".toList shellFds = some l ∧
    Wired shellFds (stages "ls|wc".toList) l :=
  (wired_iff initial_shellFds (by decide +kernel) (by decide +kernel) (by decide +kernel)).mpr
    (Or.inr (by decide +kernel))

/-- fourteen stages: the last `pipe` fails -/
theorem wired_stops : (stages "a|a|a|a|a|a|a|a|a|a|a|a|a|a".toList).length = 14 ∧
    (∀ words ∈ stages "a|a|a|a|a|a|a|a|a|a|a|a|a|a".toList, redirected words = false) ∧
    ¬ ∃ l, parseAndRunCmd (fun _ _ => true) "a|a|a|a|a|a|a|a|a|a|a|a|a|a".toList shellFds = some l ∧
      Wired shellFds (stages "a|a|a|a|a|a|a|a|a|a|a|a|a|a".toList) l := by
  have hnone : parseAndRunCmd (fun _ _ => true) "a|a|a|a|a|a|a|a|a|a|a|a|a|a".toList shellFds
      = none := by decide +kernel
  refine ⟨by decide +kernel, by decide +kernel, ?_⟩
  rintro ⟨l, e, -⟩
  rw [hnone] at e
  exact absurd e (by simp)

/-! ## lines with operators -/

/-- each stage runs its command and feeds the next one, where neither has an operator for it -/
structure Feeds (words : List (List Str)) (l : List Started) : Prop where
  length : l.length = words.length
  tokens : ∀ (i : Nat) ws p, words[i]? = some ws → l[i]? = some p →
    p.tokens = commandWords ws ∧ p.tokens ≠ []
  stdout : ∀ (i : Nat) ws p, words[i]? = some ws → l[i]? = some p → i + 1 < l.length →
    ">".toList ∉ operators ws → ">>".toList ∉ operators ws → p.fds 1 = some (.writeEnd i)
  stdin : ∀ (i : Nat) ws p, words[i + 1]? = some ws → l[i + 1]? = some p →
    "<".toList ∉ operators ws → p.fds 0 = some (.readEnd i)

theorem lastOpens_iff {s : Str} (h : parseLine s = some cmds) :
    LastOpens openOk cmds ↔ ∀ words cmd, (stages s).getLast? = some words →
      parseStage words = some cmd → opens openOk cmd := by
  obtain ⟨hne, hlen, hst⟩ := parseLine_spec h
  have hpos : 0 < cmds.length := List.length_pos_iff.mpr hne
  unfold LastOpens
  rw [List.getLast?_eq_getElem?, List.getLast?_eq_getElem?, ← hlen]
  constructor
  · intro hl words c hw hc
    obtain ⟨cmd, hcmd⟩ : ∃ cmd, cmds[cmds.length - 1]? = some cmd :=
      ⟨_, List.getElem?_eq_getElem (by omega)⟩
    obtain ⟨b, hb⟩ := (hst _ words cmd hw hcmd).parsed
    rw [← Option.some.inj (hb.symm.trans hc)]
    exact hl cmd hcmd
  · intro hl cmd hcmd
    obtain ⟨words, hw, hso⟩ := stageOf_getElem h hcmd
    obtain ⟨b, hb⟩ := hso.parsed
    have hopens : opens openOk { cmd with stdoutPipe := b } := hl words _ hw hb
    exact hopens

theorem room_iff {s : Str} (h : parseLine s = some cmds) {free : Nat} :
    Room cmds free ↔ ((stages s).length = 1 ∧ ∀ words ∈ stages s, redirected words = false) ∨
      (stages s).length ≤ free := by
  obtain ⟨hne, hlen, hst⟩ := parseLine_spec h
  unfold Room
  rw [hlen]
  refine or_congr_left (and_congr_right fun h1 => ⟨fun hno words hw => ?_, fun hr cmd hc => ?_⟩)
  · obtain ⟨i, hi⟩ := List.getElem?_of_mem hw
    obtain ⟨hlt, -⟩ := List.getElem?_eq_some_iff.mp hi
    have hcmd : cmds[i]? = some _ := List.getElem?_eq_getElem (hlen ▸ hlt)
    obtain ⟨n1, n2⟩ := hno _ (List.mem_of_getElem? hcmd)
    cases hr : redirected words with
    | false => rfl
    | true =>
      rcases (hst i words _ hi hcmd).file hr with hf | hf
      · exact absurd n1 hf
      · exact absurd n2 hf
  · obtain ⟨i, hi⟩ := List.getElem?_of_mem hc
    obtain ⟨words, hw, hso⟩ := stageOf_getElem h hi
    exact hso.plain (hr words (List.mem_of_getElem? hw))

/-- a line with operators starts its whole pipeline exactly when the operators are in the last
stage, there are descriptors for the pipes and the files, and the files can be opened -/
theorem feeds_iff {s : Str} (h0 : Initial t0) (hparse : parseLine s = some cmds)
    (hword : ∀ words ∈ stages s, commandWords words ≠ []) :
    (∃ l, parseAndRunCmd openOk s t0 = some l ∧ Feeds (stages s) l) ↔
      (∀ (i : Nat) words, (stages s)[i]? = some words → i + 1 < (stages s).length →
        redirected words = false) ∧
      (((stages s).length = 1 ∧ ∀ words ∈ stages s, redirected words = false) ∨
        (stages s).length ≤ t0.free) ∧
      ∀ words cmd, (stages s).getLast? = some words → parseStage words = some cmd →
        opens openOk cmd := by
  obtain ⟨hne, hlen, hst⟩ := parseLine_spec hparse
  have hrun : parseAndRunCmd openOk s t0 = executePipeline openOk 0 cmds t0 := by
    unfold parseAndRunCmd
    rw [hparse]
  obtain ⟨hiff, hstages⟩ := executePipeline_spec openOk h0 hne h0.level
  rw [← chained_of_parse hparse, ← room_iff hparse, ← lastOpens_iff hparse, ← hiff, hrun]
  constructor
  · rintro ⟨l, e, hf⟩
    exact ⟨l, e, hf.length.trans hlen.symm⟩
  · rintro ⟨l, e, hl⟩
    have hs := hstages l e hl
    refine ⟨l, e, hl.trans hlen, fun i ws p hw hp => ?_, fun i ws p hw hp hi _ _ => ?_,
      fun i ws p hw hp hop => ?_⟩
    · obtain ⟨hi, -⟩ := List.getElem?_eq_some_iff.mp hp
      have hcmd : cmds[i]? = some _ := List.getElem?_eq_getElem (hl ▸ hi)
      rw [hs.tokens i _ p hcmd hp, (hst i ws _ hw hcmd).tokens]
      exact ⟨rfl, hword ws (List.mem_of_getElem? hw)⟩
    · rw [hs.stdout hp (fun e => by omega), if_neg (by omega)]
    · rw [hs.stdin hp (fun cmd hcmd => (hst (i + 1) ws cmd hw hcmd).stdin hop),
        if_neg (Nat.succ_ne_zero i), Nat.add_sub_cancel]

/-- the last stage may have a file -/
theorem feeds_ls_wc : ∃ l, parseAndRunCmd (fun _ _ => true) "ls|wc > f".toList shellFds = some l ∧
    Feeds (stages "ls|wc > f".toList) l := by
  have hparse : parseLine "ls|wc > f".toList = some [⟨["ls".toList], true, false, none, none⟩,
      ⟨["wc".toList], false, false, some "f".toList, none⟩] := by decide +kernel
  have hlen : (stages "ls|wc > f".toList).length = 2 := by decide +kernel
  refine (feeds_iff initial_shellFds hparse (by decide +kernel)).mpr ⟨fun i words hw hi => ?_,
    Or.inr (by decide +kernel), fun words cmd _ _ => ⟨fun _ _ => rfl, fun _ _ => rfl⟩⟩
  obtain rfl : i = 0 := by omega
  rw [← Option.some.inj hw]
  decide +kernel

/-- the second stage is never started -/
theorem feeds_stops : (∀ words ∈ stages "cat < f|wc".toList, commandWords words ≠ []) ∧ ¬ ∃ l,
    parseAndRunCmd (fun _ _ => true) "cat < f|wc".toList shellFds = some l ∧
      Feeds (stages "cat < f|wc".toList) l := by
  have hrun : (parseAndRunCmd (fun _ _ => true) "cat < f|wc".toList shellFds).map List.length
      = some 1 := by decide +kernel
  have hlen : (stages "cat < f|wc".toList).length = 2 := by decide +kernel
  refine ⟨by decide +kernel, ?_⟩
  rintro ⟨l, e, hf⟩
  rw [e, Option.map_some, hf.length, hlen] at hrun
  exact absurd hrun (by decide)

/-! ## which process has which end -/

/-- some live process has the read end of pipe `i`: otherwise `pipewrite` fails -/
def ReadOpen (l : List Started) (alive : Nat → Prop) (i : Nat) : Prop :=
  ∃ (j : Nat) (p : Started), l[j]? = some p ∧ alive j ∧ Holds p.fds (.readEnd i)

/-- some live process has the write end of pipe `i`: otherwise an empty pipe is at its end -/
def WriteOpen (l : List Started) (alive : Nat → Prop) (i : Nat) : Prop :=
  ∃ (j : Nat) (p : Started), l[j]? = some p ∧ alive j ∧ Holds p.fds (.writeEnd i)

/-- each end of a pipe is open in one stage only, and is closed when that stage dies -/
structure Exclusive (l : List Started) : Prop where
  readEnd : ∀ (i j : Nat) p, i + 1 < l.length → l[j]? = some p → Holds p.fds (.readEnd i) → j = i + 1
  writeEnd : ∀ (i j : Nat) p, i + 1 < l.length → l[j]? = some p → Holds p.fds (.writeEnd i) → j = i
  readClosed : ∀ alive i, i + 1 < l.length → ¬ alive (i + 1) → ¬ ReadOpen l alive i
  writeClosed : ∀ alive i, i + 1 < l.length → ¬ alive i → ¬ WriteOpen l alive i

theorem Redirected.holds_iff {t' : Fds} (hr : Redirected cmd t t') (hl : Level t0 k t) {i : Nat} :
    (Holds t' (.readEnd i) ↔ i < k) ∧ ¬ Holds t' (.writeEnd i) := by
  refine ⟨⟨?_, fun hi => ?_⟩, ?_⟩
  · rintro ⟨fd, e⟩
    rcases hr.node fd with h | ⟨p, f, h⟩
    · exact hl.readEnd fd i (h.symm.trans e)
    · exact absurd (h.symm.trans e) (by simp)
  · obtain ⟨fd, h0, h1, e⟩ := hl.leaked i hi
    exact ⟨fd, (hr.other fd h0 h1).trans e⟩
  · rintro ⟨fd, e⟩
    rcases hr.node fd with h | ⟨p, f, h⟩
    · exact hl.writeEnd fd i (h.symm.trans e)
    · exact absurd (h.symm.trans e) (by simp)

theorem Stages.holds_iff (hs : Stages t0 0 cmds l) {j : Nat} {p : Started} (hp : l[j]? = some p)
    {i : Nat} : (Holds p.fds (.readEnd i) ↔ i < j) ∧
      (Holds p.fds (.writeEnd i) ↔ i = j ∧ j + 1 < l.length) := by
  obtain ⟨hj, -⟩ := List.getElem?_eq_some_iff.mp hp
  by_cases hlast : j + 1 = l.length
  · obtain ⟨cmd, hcmd⟩ : ∃ cmd, cmds[j]? = some cmd :=
      ⟨_, List.getElem?_eq_getElem (hs.length ▸ hj)⟩
    obtain ⟨t, hl, hr⟩ := hs.last j cmd p hcmd hp hlast
    rw [Nat.zero_add] at hl
    obtain ⟨h1, h2⟩ := hr.holds_iff hl (i := i)
    exact ⟨h1, fun h => absurd h h2, fun h => by omega⟩
  · have hc := hs.inner j p hp (by omega)
    rw [Nat.zero_add] at hc
    refine ⟨hc.readEnd i, ?_⟩
    rw [hc.writeEnd i]
    exact ⟨fun h => ⟨h, by omega⟩, And.left⟩

/-- the third stage still has the read end of the first pipe -/
theorem exclusive_iff (h0 : Initial t0) (hrun : executePipeline openOk 0 cmds t0 = some l)
    (hlen : l.length = cmds.length) (h2 : 2 ≤ cmds.length) :
    Exclusive l ↔ cmds.length = 2 := by
  have hne : cmds ≠ [] := by
    rintro rfl
    exact absurd h2 (by decide)
  obtain ⟨-, hstages⟩ := executePipeline_spec openOk h0 hne h0.level
  have hs := hstages l hrun hlen
  constructor
  · intro he
    by_contra hne2
    obtain ⟨p, hp⟩ : ∃ p, l[2]? = some p := ⟨_, List.getElem?_eq_getElem (by omega)⟩
    have h := he.readEnd 0 2 p (by omega) hp ((hs.holds_iff hp).1.mpr (by omega))
    omega
  · intro hn
    have hread : ∀ (i j : Nat) p, i + 1 < l.length → l[j]? = some p →
        Holds p.fds (.readEnd i) → j = i + 1 := by
      intro i j p hi hp h
      obtain ⟨hj, -⟩ := List.getElem?_eq_some_iff.mp hp
      have := (hs.holds_iff hp).1.mp h
      omega
    have hwrite : ∀ (i j : Nat) p, i + 1 < l.length → l[j]? = some p →
        Holds p.fds (.writeEnd i) → j = i :=
      fun i j p hi hp h => ((hs.holds_iff hp).2.mp h).1.symm
    refine ⟨hread, hwrite, ?_, ?_⟩
    · rintro alive i hi hdead ⟨j, p, hp, ha, h⟩
      exact hdead (hread i j p hi hp h ▸ ha)
    · rintro alive i hi hdead ⟨j, p, hp, ha, h⟩
      exact hdead (hwrite i j p hi hp h ▸ ha)

def plainCommands (names : List Str) : List Command :=
  endPipeline (names.map (fun name => ⟨[name], true, false, none, none⟩))

/-- two stages -/
theorem exclusive_ls_wc : ∃ l, executePipeline (fun _ _ => true) 0
    (plainCommands ["ls".toList, "wc".toList]) shellFds = some l ∧ Exclusive l := by
  have hrun : (executePipeline (fun _ _ => true) 0
      (plainCommands ["ls".toList, "wc".toList]) shellFds).map List.length = some 2 := by
    decide +kernel
  obtain ⟨l, hl, hlen⟩ := Option.map_eq_some_iff.mp hrun
  exact ⟨l, hl, (exclusive_iff initial_shellFds hl (hlen.trans (by decide +kernel))
    (by decide +kernel)).mpr (by decide +kernel)⟩

/-- three stages: the last one has the read end of pipe 0 -/
theorem exclusive_stops : ∃ l, executePipeline (fun _ _ => true) 0
    (plainCommands ["a".toList, "b".toList, "c".toList]) shellFds = some l ∧ l.length = 3 ∧
      ¬ Exclusive l := by
  have hrun : (executePipeline (fun _ _ => true) 0
      (plainCommands ["a".toList, "b".toList, "c".toList]) shellFds).map (fun l =>
        (l.length, (l[2]?).map (fun p => decide (Holds p.fds (.readEnd 0))))) = some (3, some true) := by
    decide +kernel
  obtain ⟨l, hl, e⟩ := Option.map_eq_some_iff.mp hrun
  obtain ⟨hlen, e2⟩ := Prod.mk.inj e
  obtain ⟨p, hp, hd⟩ := Option.map_eq_some_iff.mp e2
  refine ⟨l, hl, hlen, fun he => ?_⟩
  have h := he.readEnd 0 2 p (by omega) hp (of_decide_eq_true hd)
  omega

end

end Boogsh
