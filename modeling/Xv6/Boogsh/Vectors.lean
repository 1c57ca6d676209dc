import Mathlib.Data.List.Forall2
import Xv6.Boogsh.Build
import Xv6.Boogsh.Redirect
import Xv6.Lib.Runs

/-!
# The argument vectors of a line

The stages of a line are its runs of bytes other than `|`, and the words of a stage are its runs of
bytes other than blanks.  `loadCmds_spec` describes the array that `execute_pipeline` is called with
in these terms, for every content that the memory from `malloc` may have.

No NULL is ever written behind the words of a stage.  `exec` reads on until it finds one, so what
it gets depends on what was in the memory before.
-/

namespace Boogsh
open Ulib Lib

/-! ## the model -/

/-- `cmds[sz - 1].stdout_pipe = false`; with `sz = 0` the write goes in front of the array -/
def closeCmds (m : Cmds) : Cmds :=
  if m.sz = 0 then m
  else { m with cmds := m.cmds.modify (m.sz - 1) (fun e => { e with stdoutPipe := false }) }

/-- the array that `execute_pipeline` is called with, and the line -/
def loadCmds (prior : Prior) (buf : Str) : Except Stop (Str × Cmds) :=
  match build prior buf with
  | .error e => .error e
  | .ok (buf, m) => .ok (buf, closeCmds m)

/-- `execute_pipeline` comes to entry `k` -/
def Reached (cmds : List RawCommand) (k : Nat) : Prop :=
  ∀ j < k, ∃ e, cmds[j]? = some e ∧ e.stdoutPipe = true

/-- the pointers that `sys_exec` copies from `uargv`: those in front of the first NULL, when there
is one in the array -/
def argvOf : List Word → Option (List Word)
  | [] => none
  | .null :: _ => some []
  | w :: rest => (argvOf rest).map (w :: ·)

def PointsTo (buf : Str) (p : Word) (w : Str) : Prop := ∃ q, p = .line q ∧ StrAt buf q w

/-! ## tokens and runs -/

theorem tokens_eq_runs {c : Char} {s : Str} {l : List Str} (h : Tokens [c] (some s) l) :
    l = runs c s := by
  generalize hr : some s = r at h
  induction h generalizing s with
  | done hn =>
    subst hr
    refine (runs_eq_nil.mpr fun x hx => ?_).symm
    exact List.mem_singleton.mp (nextToken_none (congrArg Prod.fst hn) x hx)
  | @next r r' t l hn ht ih =>
    subst hr
    obtain ⟨hne, hd, a, ha, hcase⟩ := nextToken_some hn
    have hct : c ∉ t := fun hm => hd c hm List.mem_cons_self
    rcases hcase with ⟨rfl, rfl⟩ | ⟨d, w, hdel, rfl, rfl⟩
    · rw [runs_append (fun x hx => List.mem_singleton.mp (ha x hx)), runs_eq_singleton hne hct]
      cases ht with
      | done _ => rfl
      | next hn' _ => exact absurd hn' (by simp [nextToken])
    · rw [runs_append (fun x hx => List.mem_singleton.mp (ha x hx)), List.mem_singleton.mp hdel,
        runs_run hne hct, ← ih rfl]

theorem tokenList_bar (s : Str) : tokenList "|".toList s = runs '|' s :=
  tokens_eq_runs (tokens_tokenList _ s)

theorem tokenList_blank (s : Str) : tokenList " ".toList s = runs ' ' s :=
  tokens_eq_runs (tokens_tokenList _ s)

theorem stages_eq (s : Str) : stages s = (runs '|' s).map (runs ' ') := by
  unfold stages
  rw [tokenList_bar]
  exact List.map_congr_left fun piece _ => tokenList_blank piece

/-! ## the array of a line -/

/-- entry `k` of the array, for its piece of the line; `last` says that no other follows -/
structure CmdEntry (prior : Prior) (buf : Str) (k : Nat) (piece : Str) (last : Bool)
    (e : RawCommand) : Prop where
  count : e.tokenCount = (commandWords (runs ' ' piece)).length
  tokens : ∀ (i : Nat) w, (commandWords (runs ' ' piece))[i]? = some w →
    ∃ p, e.tokens[i]? = some p ∧ PointsTo buf p w
  length : e.tokens.length = piece.length
  rest : ∀ i, e.tokenCount ≤ i → i < piece.length → e.tokens[i]? = some (prior.word k i)
  stdoutPipe : e.stdoutPipe = (!last && !redirected (runs ' ' piece))

/-- the array of a line -/
structure Built (prior : Prior) (buf : Str) (text : Str) (m : Cmds) : Prop where
  sz : m.sz = (runs '|' text).length
  le : m.sz ≤ m.cmds.length
  entry : ∀ (k : Nat) piece, (runs '|' text)[k]? = some piece →
    ∃ e, m.cmds[k]? = some e ∧ CmdEntry prior buf k piece (k + 1 = m.sz) e

section
variable {prior : Prior} {text buf : Str} {m : Cmds}

theorem parseStages_isSome (l : List (List Str)) : (parseStages l).isSome = l.all withFiles := by
  induction l with
  | nil => rfl
  | cons words l ih =>
    rw [parseStages_cons, List.all_cons, ← ih]
    have h : (parseStage words).isSome = withFiles words := parseWords_isSome words _ _ _
    rw [← h]
    cases parseStage words with
    | none => rfl
    | some cmd =>
      cases parseStages l with
      | none => rfl
      | some cmds => rfl

theorem CommandAt.entry {k hi : Nat} {piece : Str} {e : RawCommand} {cmd : Command}
    (hp : parseStage (runs ' ' piece) = some cmd)
    (h : CommandAt prior (Placed buf hi none) k piece e cmd) :
    CmdEntry prior buf k piece false e where
  count := by
    rw [h.stands.count, parseWords_tokens hp]
    rfl
  tokens := by
    intro i w hi
    rw [← List.nil_append (commandWords _), ← parseWords_tokens hp] at hi
    obtain ⟨q, h1, h2, -⟩ := h.stands.tokens i w hi
    exact ⟨.line q, h1, q, rfl, h2⟩
  length := h.length
  rest := h.rest
  stdoutPipe := by
    rw [h.stands.stdoutPipe, (parseWords_spec hp).stdoutPipe]
    rfl

theorem CmdEntry.close {k : Nat} {piece : Str} {e : RawCommand}
    (h : CmdEntry prior buf k piece false e) :
    CmdEntry prior buf k piece true { e with stdoutPipe := false } :=
  { h with stdoutPipe := rfl }

theorem closeCmds_sz (m : Cmds) : (closeCmds m).sz = m.sz := by
  unfold closeCmds
  split
  · rfl
  · rfl

theorem closeCmds_length (m : Cmds) : (closeCmds m).cmds.length = m.cmds.length := by
  unfold closeCmds
  split
  · rfl
  · exact List.length_modify _ _ _

theorem closeCmds_getElem? {k : Nat} {e : RawCommand} (hk : k < m.sz) (h : m.cmds[k]? = some e) :
    (closeCmds m).cmds[k]?
      = some (if k + 1 = m.sz then { e with stdoutPipe := false } else e) := by
  unfold closeCmds
  rw [if_neg (by omega)]
  show (m.cmds.modify (m.sz - 1) _)[k]? = _
  rw [List.getElem?_modify, h]
  show some (if m.sz - 1 = k then { e with stdoutPipe := false } else e) = _
  by_cases hl : k + 1 = m.sz
  · rw [if_pos hl, if_pos (by omega)]
  · rw [if_neg hl, if_neg (by omega)]

/-- an operator without a file is a panic; all other lines have an array -/
theorem loadCmds_spec (prior : Prior) (h0 : '\x00' ∉ text) (behind : Str) :
    (∃ piece ∈ runs '|' text, withFiles (runs ' ' piece) = false) ∧
      loadCmds prior (text ++ '\x00' :: behind) = .error .panic ∨
    (∀ piece ∈ runs '|' text, withFiles (runs ' ' piece) = true) ∧
      ∃ buf m, loadCmds prior (text ++ '\x00' :: behind) = .ok (buf, m) ∧
        Built prior buf text m := by
  have hspec := build_spec prior h0 behind
  have hsome := parseStages_isSome (stages text)
  rw [stages_eq, List.all_map] at hsome
  rw [stages_eq] at hspec
  unfold loadCmds
  cases hp : parseStages ((runs '|' text).map (runs ' ')) with
  | none =>
    rw [hp] at hspec hsome
    left
    rw [hspec]
    refine ⟨?_, rfl⟩
    simpa using hsome.symm
  | some cs =>
    rw [hp] at hspec hsome
    obtain ⟨buf, m, e1, hm⟩ := hspec
    right
    rw [e1]
    refine ⟨List.all_eq_true.mp hsome.symm, buf, closeCmds m, rfl, ?_, ?_, fun k piece hk => ?_⟩
    · rw [closeCmds_sz, hm.sz, tokenList_bar]
    · rw [closeCmds_sz, closeCmds_length, hm.cap]
      exact Nat.le_of_lt hm.room
    · obtain ⟨hlen, hstage⟩ := parseStages_spec hp
      obtain ⟨hlt, -⟩ := List.getElem?_eq_some_iff.mp hk
      rw [List.length_map] at hlen
      have hcs : cs[k]? = some cs[k] := List.getElem?_eq_getElem (by omega)
      obtain ⟨e, he, hc⟩ := hm.commands k piece cs[k] (by rw [tokenList_bar, hk]) hcs
      have hwords : ((runs '|' text).map (runs ' '))[k]? = some (runs ' ' piece) := by
        rw [List.getElem?_map, hk]
        rfl
      have hentry := hc.entry (hstage k _ cs[k] hwords hcs)
      have hsz : m.sz = (runs '|' text).length := by rw [hm.sz, tokenList_bar]
      refine ⟨_, closeCmds_getElem? (by omega) he, ?_⟩
      rw [closeCmds_sz]
      by_cases hl : k + 1 = m.sz
      · rw [if_pos hl, decide_eq_true hl]
        exact hentry.close
      · rw [if_neg hl, decide_eq_false hl]
        exact hentry

/-! ## all words of all stages -/

/-- one command for each stage in order, with all its words; all but the last feed another -/
structure Complete (buf text : Str) (m : Cmds) : Prop where
  pos : 0 < m.sz
  le : m.sz ≤ m.cmds.length
  sz : m.sz = (runs '|' text).length
  entry : ∀ (k : Nat) piece, (runs '|' text)[k]? = some piece → ∃ e, m.cmds[k]? = some e ∧
    e.tokenCount = (runs ' ' piece).length ∧
    (∀ (i : Nat) w, (runs ' ' piece)[i]? = some w → ∃ p, e.tokens[i]? = some p ∧ PointsTo buf p w) ∧
    e.stdoutPipe = decide (k + 1 ≠ m.sz)

theorem withFiles_plain {words : List Str} (h : redirected words = false) :
    withFiles words = true := by
  rw [← parseWords_isSome words false false ⟨[], true, false, none, none⟩, parseWords_plain h]
  rfl

/-- when no word of a stage is an operator, nothing of the line is lost -/
theorem loadCmds_complete (prior : Prior) (h0 : '\x00' ∉ text) (hc : ∃ c ∈ text, c ≠ '|')
    (hw : ∀ piece ∈ runs '|' text, ∀ w ∈ runs ' ' piece, isOp w = false) (behind : Str) :
    ∃ buf m, loadCmds prior (text ++ '\x00' :: behind) = .ok (buf, m) ∧ Complete buf text m := by
  have hplain : ∀ piece ∈ runs '|' text, redirected (runs ' ' piece) = false := fun piece hp =>
    List.any_eq_false.mpr fun w hm => by rw [hw piece hp w hm]; exact Bool.false_ne_true
  have hne : runs '|' text ≠ [] := by
    obtain ⟨c, hm, hbar⟩ := hc
    exact fun e => hbar (runs_eq_nil.mp e c hm)
  rcases loadCmds_spec prior h0 behind with ⟨⟨piece, hp, hf⟩, -⟩ | ⟨-, buf, m, e1, hb⟩
  · exact absurd (hf.symm.trans (withFiles_plain (hplain piece hp))) Bool.false_ne_true
  · refine ⟨buf, m, e1, ?_, hb.le, hb.sz, fun k piece hk => ?_⟩
    · rw [hb.sz]
      exact List.length_pos_iff.mpr hne
    · obtain ⟨e, he, hentry⟩ := hb.entry k piece hk
      have hred := hplain piece (List.mem_of_getElem? hk)
      have hwords := commandWords_plain hred
      refine ⟨e, he, ?_, fun i w hi => ?_, ?_⟩
      · rw [hentry.count, hwords]
      · exact hentry.tokens i w (by rw [hwords, hi])
      · rw [hentry.stdoutPipe, hred]
        simp

def zeroed : Prior := ⟨fun _ _ => ⟨[], false, false, .null, .null, 0⟩, fun _ _ => .null⟩

theorem loadCmds_ls_wc : ∃ buf m,
    loadCmds zeroed ("ls  |wc -l".toList ++ '\x00' :: []) = .ok (buf, m) ∧
      Complete buf "ls  |wc -l".toList m :=
  loadCmds_complete zeroed (by decide) ⟨'l', by decide, by decide⟩ (by decide +kernel) []

/-- an operator directly behind `|` is not a word of the line, but one of its stage -/
theorem operator_behind_bar : ¬ ∀ (prior : Prior) (text behind : Str), '\x00' ∉ text →
    (∃ c ∈ text, c ≠ '|') → (∀ w ∈ runs ' ' text, isOp w = false) →
    ∃ buf m, loadCmds prior (text ++ '\x00' :: behind) = .ok (buf, m) ∧ Complete buf text m := by
  intro h
  obtain ⟨buf, m, e1, hm⟩ := h zeroed "a|< b".toList [] (by decide) ⟨'a', by decide, by decide⟩
    (by decide +kernel)
  obtain ⟨e, he, hcount, -⟩ := hm.entry 1 "< b".toList (by decide +kernel)
  have hrun : (match loadCmds zeroed ("a|< b".toList ++ '\x00' :: []) with
      | .ok (_, m) => m.cmds[1]?.map RawCommand.tokenCount
      | .error _ => none) = some 0 := by decide +kernel
  rw [e1] at hrun
  dsimp only at hrun
  rw [he] at hrun
  have hlen : (runs ' ' "< b".toList).length = 2 := by decide +kernel
  exact absurd (hcount.symm.trans (Option.some.inj hrun)) (by rw [hlen]; decide)

/-! ## the pointer behind the words -/

/-- no stage before stage `k` has a redirection, which would end the pipeline there -/
def Linked (text : Str) (k : Nat) : Prop :=
  ∀ j < k, ∀ piece, (runs '|' text)[j]? = some piece → redirected (runs ' ' piece) = false

/-- every stage that is reached hands its words to `exec`, with a NULL behind them in its array -/
def Terminated (text buf : Str) (m : Cmds) : Prop :=
  ∀ (k : Nat) piece e, (runs '|' text)[k]? = some piece → m.cmds[k]? = some e → Reached m.cmds k →
    ∃ argv, argvOf e.tokens = some argv ∧
      List.Forall₂ (PointsTo buf) argv (commandWords (runs ' ' piece))

theorem Built.reached_iff (hb : Built prior buf text m) {k : Nat} (hk : k < m.sz) :
    Reached m.cmds k ↔ Linked text k := by
  constructor
  · intro h j hj piece hp
    obtain ⟨e, he, hflag⟩ := h j hj
    obtain ⟨e', he', hentry⟩ := hb.entry j piece hp
    obtain rfl := Option.some.inj (he.symm.trans he')
    rw [hentry.stdoutPipe] at hflag
    simpa using (Bool.and_eq_true_iff.mp hflag).2
  · intro h j hj
    have hlt : j < (runs '|' text).length := by rw [← hb.sz]; omega
    have hp : (runs '|' text)[j]? = some (runs '|' text)[j] := List.getElem?_eq_getElem hlt
    obtain ⟨e, he, hentry⟩ := hb.entry j _ hp
    refine ⟨e, he, ?_⟩
    rw [hentry.stdoutPipe, h j hj _ hp, decide_eq_false (by omega)]
    rfl

theorem argvOf_cons {w : Word} (h : w ≠ .null) (l : List Word) :
    argvOf (w :: l) = (argvOf l).map (w :: ·) := by
  cases w with
  | null => exact absurd rfl h
  | line p => rfl
  | stale v => rfl

theorem argvOf_eq_some {l argv : List Word} :
    argvOf l = some argv ↔ .null ∉ argv ∧ (argv ++ [.null]) <+: l := by
  induction l generalizing argv with
  | nil =>
    refine iff_of_false (by simp [argvOf]) (fun h => ?_)
    exact absurd (List.prefix_nil.mp h.2) (by simp)
  | cons w l ih =>
    by_cases hw : w = .null
    · subst hw
      cases argv with
      | nil => exact iff_of_true rfl ⟨List.not_mem_nil, l, rfl⟩
      | cons x a =>
        refine iff_of_false (by simp [argvOf]) (fun h => h.1 ?_)
        rw [(List.cons_prefix_cons.mp h.2).1]
        exact List.mem_cons_self
    · rw [argvOf_cons hw, Option.map_eq_some_iff]
      cases argv with
      | nil =>
        refine iff_of_false (by simp) (fun h => hw ?_)
        exact (List.cons_prefix_cons.mp h.2).1.symm
      | cons x a =>
        rw [List.mem_cons, not_or, List.cons_append, List.cons_prefix_cons]
        constructor
        · rintro ⟨a', h, e⟩
          obtain ⟨rfl, rfl⟩ := List.cons.inj e
          obtain ⟨h1, h2⟩ := ih.mp h
          exact ⟨⟨Ne.symm hw, h1⟩, rfl, h2⟩
        · rintro ⟨⟨-, h1⟩, rfl, h2⟩
          exact ⟨a, ih.mpr ⟨h1, h2⟩, rfl⟩

theorem CmdEntry.words {k : Nat} {piece : Str} {last : Bool} {e : RawCommand}
    (h : CmdEntry prior buf k piece last e) :
    List.Forall₂ (PointsTo buf) (e.tokens.take e.tokenCount) (commandWords (runs ' ' piece)) := by
  have hget : ∀ i (hi : i < (commandWords (runs ' ' piece)).length),
      ∃ p, e.tokens[i]? = some p ∧ PointsTo buf p (commandWords (runs ' ' piece))[i] :=
    fun i hi => h.tokens i _ (List.getElem?_eq_getElem hi)
  apply List.forall₂_iff_get.mpr
  constructor
  · rw [List.length_take, h.count, Nat.min_eq_left]
    by_contra hlt
    obtain ⟨p, hp, -⟩ := hget e.tokens.length (by omega)
    rw [List.getElem?_eq_none (Nat.le_refl _)] at hp
    exact absurd hp (by simp)
  · intro i h1 h2
    obtain ⟨p, hp, hq⟩ := hget i h2
    have hi : (e.tokens.take e.tokenCount)[i]? = some p := by
      rw [List.getElem?_take_of_lt (by rw [h.count]; exact h2), hp]
    rw [List.getElem?_eq_getElem h1] at hi
    rw [List.get_eq_getElem, List.get_eq_getElem, Option.some.inj hi]
    exact hq

/-- the entry hands its words to `exec` when there was a NULL behind them before -/
theorem CmdEntry.argv_iff {k : Nat} {piece : Str} {last : Bool} {e : RawCommand}
    (h : CmdEntry prior buf k piece last e) :
    (∃ argv, argvOf e.tokens = some argv ∧
      List.Forall₂ (PointsTo buf) argv (commandWords (runs ' ' piece))) ↔
    (commandWords (runs ' ' piece)).length < piece.length ∧
      prior.word k (commandWords (runs ' ' piece)).length = .null := by
  have hwords := h.words
  rw [← h.count]
  constructor
  · rintro ⟨argv, ha, hall⟩
    obtain ⟨-, hpre⟩ := argvOf_eq_some.mp ha
    have hlen : argv.length = e.tokenCount := hall.length_eq.trans h.count.symm
    have hnul : e.tokens[e.tokenCount]? = some .null := by
      obtain ⟨rest, hrest⟩ := hpre
      rw [← hlen, ← hrest, List.append_assoc, List.getElem?_append_right (Nat.le_refl _),
        Nat.sub_self]
      rfl
    obtain ⟨hlt, -⟩ := List.getElem?_eq_some_iff.mp hnul
    rw [h.length] at hlt
    refine ⟨hlt, ?_⟩
    rw [h.rest _ (Nat.le_refl _) hlt] at hnul
    exact Option.some.inj hnul
  · rintro ⟨hlt, hnul⟩
    have hget := h.rest _ (Nat.le_refl _) hlt
    rw [hnul] at hget
    obtain ⟨hlt', hget'⟩ := List.getElem?_eq_some_iff.mp hget
    refine ⟨e.tokens.take e.tokenCount, argvOf_eq_some.mpr ⟨fun hm => ?_, ?_⟩, hwords⟩
    · obtain ⟨i, hi, hn⟩ := List.mem_iff_getElem.mp hm
      obtain ⟨q, hq, -⟩ := hwords.get hi (hwords.length_eq ▸ hi)
      exact absurd (hn.symm.trans hq) (by simp)
    · rw [← hget', List.take_append_getElem hlt']
      exact List.take_prefix _ _

/-- there is a NULL behind the words of every stage that is reached -/
def NullBehind (prior : Prior) (text : Str) : Prop :=
  ∀ (k : Nat) piece, (runs '|' text)[k]? = some piece → Linked text k →
    (commandWords (runs ' ' piece)).length < piece.length ∧
      prior.word k (commandWords (runs ' ' piece)).length = .null

theorem Built.terminated_iff (hb : Built prior buf text m) :
    Terminated text buf m ↔ NullBehind prior text := by
  constructor
  · intro h k piece hk hl
    obtain ⟨e, he, hentry⟩ := hb.entry k piece hk
    obtain ⟨hlt, -⟩ := List.getElem?_eq_some_iff.mp hk
    exact hentry.argv_iff.mp (h k piece e hk he ((hb.reached_iff (hb.sz ▸ hlt)).mpr hl))
  · intro h k piece e hk he hr
    obtain ⟨e', he', hentry⟩ := hb.entry k piece hk
    obtain rfl := Option.some.inj (he.symm.trans he')
    obtain ⟨hlt, -⟩ := List.getElem?_eq_some_iff.mp hk
    exact hentry.argv_iff.mpr (h k piece hk ((hb.reached_iff (hb.sz ▸ hlt)).mp hr))

/-- the vectors end when the memory has a NULL in the right places -/
theorem vectors_iff (prior : Prior) (h0 : '\x00' ∉ text) (behind : Str) :
    (∀ buf m, loadCmds prior (text ++ '\x00' :: behind) = .ok (buf, m) → Terminated text buf m) ↔
    (∃ piece ∈ runs '|' text, withFiles (runs ' ' piece) = false) ∨ NullBehind prior text := by
  rcases loadCmds_spec prior h0 behind with ⟨hbad, e1⟩ | ⟨hgood, buf, m, e1, hb⟩
  · refine iff_of_true (fun buf m e => ?_) (Or.inl hbad)
    exact absurd (e1.symm.trans e) (by simp)
  · constructor
    · intro h
      exact Or.inr (hb.terminated_iff.mp (h buf m e1))
    · intro h buf' m' e2
      obtain ⟨rfl, rfl⟩ := Prod.mk.inj (Except.ok.inj (e1.symm.trans e2))
      rcases h with ⟨piece, hp, hf⟩ | h
      · exact absurd (hf.symm.trans (hgood piece hp)) Bool.false_ne_true
      · exact hb.terminated_iff.mpr h

theorem loadCmds_ls (prior : Prior) : ∃ buf m,
    loadCmds prior ("ls".toList ++ '\x00' :: []) = .ok (buf, m) ∧
      Built prior buf "ls".toList m := by
  have hfiles : ∀ piece ∈ runs '|' "ls".toList, withFiles (runs ' ' piece) = true := by
    decide +kernel
  have h0 : '\x00' ∉ "ls".toList := by decide
  rcases loadCmds_spec prior h0 [] with ⟨⟨piece, hp, hf⟩, -⟩ | ⟨-, h⟩
  · exact absurd (hf.symm.trans (hfiles piece hp)) Bool.false_ne_true
  · exact h

theorem vectors_ls : ∃ buf m, loadCmds zeroed ("ls".toList ++ '\x00' :: []) = .ok (buf, m) ∧
    Terminated "ls".toList buf m := by
  have hnull : NullBehind zeroed "ls".toList := by
    intro k piece hk _
    have hruns : runs '|' "ls".toList = ["ls".toList] := by decide +kernel
    rw [hruns] at hk
    rw [List.mem_singleton.mp (List.mem_of_getElem? hk)]
    exact ⟨by decide +kernel, rfl⟩
  obtain ⟨buf, m, e1, -⟩ := loadCmds_ls zeroed
  exact ⟨buf, m, e1, (vectors_iff zeroed (by decide) []).mpr (Or.inr hnull) buf m e1⟩

def leftover : Prior := ⟨zeroed.command, fun _ _ => .stale 1⟩

/-- `ls` gets an argument that nobody gave it -/
theorem leftover_argument : ¬ ∀ (prior : Prior) (text behind : Str), '\x00' ∉ text →
    (∀ piece ∈ text.splitOn '|', runs ' ' piece ≠ []) → ∀ buf m,
    loadCmds prior (text ++ '\x00' :: behind) = .ok (buf, m) → Terminated text buf m := by
  intro h
  obtain ⟨buf, m, e1, hb⟩ := loadCmds_ls leftover
  have hls := h leftover "ls".toList [] (by decide) (by decide +kernel) buf m e1
  obtain ⟨-, hn⟩ := hb.terminated_iff.mp hls 0 "ls".toList (by decide +kernel)
    (fun j hj => absurd hj (Nat.not_lt_zero j))
  exact absurd hn (by simp [leftover])

end

end Boogsh
