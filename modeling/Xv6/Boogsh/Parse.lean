import Xv6.Ulib.Str

/-!
# From a line to commands (`parse_and_run_cmd`)

`next_token` cuts the line at `|` and each piece at blanks, so a stage is its list of words.  A
redirection operator takes the next word as its file, and clears `stdout_pipe`, the flag that says
that another stage follows.
-/

namespace Boogsh
open Ulib

/-- `struct command` -/
structure Command where
  tokens : List Str
  stdoutPipe : Bool
  append : Bool
  stdoutFile : Option Str
  stdinFile : Option Str
  deriving DecidableEq, Repr

def tokensFrom (delim : Str) : Nat → Option Str → List Str
  | 0, _ => []
  | fuel + 1, p =>
    match nextToken p delim with
    | (none, _) => []
    | (some tok, p) => tok :: tokensFrom delim fuel p

def tokenList (delim s : Str) : List Str := tokensFrom delim (s.length + 1) (some s)

def stages (s : Str) : List (List Str) := (tokenList "|".toList s).map (tokenList " ".toList)

/-- the loop over the words of a stage; `none` is an operator without a file -/
def parseWords : List Str → Bool → Bool → Command → Option Command
  | [], _, _, cmd => some cmd
  | part :: rest, foundIn, foundOut, cmd =>
    if part = ">".toList then
      match rest with
      | [] => none
      | file :: rest => parseWords rest foundIn true
          { cmd with
            stdinFile := if foundIn then cmd.stdinFile else none
            stdoutPipe := false
            stdoutFile := some file }
    else if part = "<".toList then
      match rest with
      | [] => none
      | file :: rest => parseWords rest true foundOut
          { cmd with
            stdoutFile := if foundOut then cmd.stdoutFile else none
            stdoutPipe := false
            stdinFile := some file }
    else if part = ">>".toList then
      match rest with
      | [] => none
      | file :: rest => parseWords rest foundIn foundOut
          { cmd with
            stdinFile := if foundIn then cmd.stdinFile else none
            stdoutPipe := false
            stdoutFile := some file
            append := true }
    else parseWords rest foundIn foundOut { cmd with tokens := cmd.tokens ++ [part] }

def parseStage (words : List Str) : Option Command :=
  parseWords words false false ⟨[], true, false, none, none⟩

def parseStages : List (List Str) → Option (List Command)
  | [] => some []
  | words :: rest =>
    match parseStage words, parseStages rest with
    | some cmd, some cmds => some (cmd :: cmds)
    | _, _ => none

def endPipeline (cmds : List Command) : List Command :=
  cmds.modify (cmds.length - 1) (fun c => { c with stdoutPipe := false })

/-- the array `cmds`; `none` is a panic, or a line without a stage -/
def parseLine (s : Str) : Option (List Command) :=
  match parseStages (stages s) with
  | none => none
  | some cmds => if cmds = [] then none else some (endPipeline cmds)

/-- a word that `parse_and_run_cmd` takes for an operator -/
def isOp (w : Str) : Bool := w = ">".toList || w = "<".toList || w = ">>".toList

def redirected (words : List Str) : Bool := words.any isOp

/-- the words of a stage that are neither an operator nor the file of one -/
def commandWords : List Str → List Str
  | [] => []
  | [w] => if isOp w then [] else [w]
  | w :: v :: rest => if isOp w then commandWords rest else w :: commandWords (v :: rest)

def operators : List Str → List Str
  | [] => []
  | [w] => if isOp w then [w] else []
  | w :: v :: rest => if isOp w then w :: operators rest else operators (v :: rest)

/-! ## what the words leave behind -/

theorem isOp_eq_false {w : Str} (h1 : ¬ w = ">".toList) (h2 : ¬ w = "<".toList)
    (h3 : ¬ w = ">>".toList) : isOp w = false := by
  unfold isOp
  rw [decide_eq_false h1, decide_eq_false h2, decide_eq_false h3]
  rfl

theorem commandWords_cons {w : Str} (h : isOp w = false) (rest : List Str) :
    commandWords (w :: rest) = w :: commandWords rest := by
  cases rest with
  | nil => simp [commandWords, h]
  | cons v rest => simp [commandWords, h]

theorem operators_cons {w : Str} (h : isOp w = false) (rest : List Str) :
    operators (w :: rest) = operators rest := by
  cases rest with
  | nil => simp [operators, h]
  | cons v rest => simp [operators, h]

/-- without an operator, all words are the command's -/
theorem commandWords_plain {words : List Str} (h : redirected words = false) :
    commandWords words = words := by
  induction words with
  | nil => rfl
  | cons w words ih =>
    obtain ⟨hw, hrest⟩ := Bool.or_eq_false_iff.mp h
    rw [commandWords_cons hw, ih hrest]

theorem parseWords_tokens {words : List Str} {fi fo : Bool} {cmd cmd' : Command}
    (h : parseWords words fi fo cmd = some cmd') : cmd'.tokens = cmd.tokens ++ commandWords words := by
  fun_induction parseWords words fi fo cmd with
  | case1 fi fo cmd =>
    rw [← Option.some.inj h]
    simp [commandWords]
  | case2 => exact absurd h (by simp)
  | case3 fi fo cmd file rest ih => exact ih h
  | case4 => exact absurd h (by simp)
  | case5 fi fo cmd file rest _ ih => exact ih h
  | case6 => exact absurd h (by simp)
  | case7 fi fo cmd file rest _ _ ih => exact ih h
  | case8 part rest fi fo cmd h1 h2 h3 ih =>
    rw [ih h, commandWords_cons (isOp_eq_false h1 h2 h3)]
    simp

/-- only `<` sets the file for standard input -/
theorem parseWords_stdin {words : List Str} {fi fo : Bool} {cmd cmd' : Command}
    (h : parseWords words fi fo cmd = some cmd') (hc : cmd.stdinFile = none)
    (hop : "<".toList ∉ operators words) : cmd'.stdinFile = none := by
  fun_induction parseWords words fi fo cmd with
  | case1 fi fo cmd =>
    rw [← Option.some.inj h]
    exact hc
  | case2 => exact absurd h (by simp)
  | case3 fi fo cmd file rest ih =>
    refine ih h (by simp [hc]) (fun hm => hop ?_)
    exact List.mem_cons_of_mem _ hm
  | case4 => exact absurd h (by simp)
  | case5 fi fo cmd file rest _ ih => exact absurd List.mem_cons_self hop
  | case6 => exact absurd h (by simp)
  | case7 fi fo cmd file rest _ _ ih =>
    refine ih h (by simp [hc]) (fun hm => hop ?_)
    exact List.mem_cons_of_mem _ hm
  | case8 part rest fi fo cmd h1 h2 h3 ih =>
    rw [operators_cons (isOp_eq_false h1 h2 h3)] at hop
    exact ih h hc hop

/-- a file that is set is kept, unless another operator sets the other one -/
theorem parseWords_keeps {words : List Str} {fi fo : Bool} {cmd cmd' : Command}
    (h : parseWords words fi fo cmd = some cmd') :
    (fi = true → cmd.stdinFile ≠ none → cmd'.stdinFile ≠ none) ∧
    (cmd.stdoutFile ≠ none → cmd'.stdoutFile ≠ none ∨ cmd'.stdinFile ≠ none) := by
  fun_induction parseWords words fi fo cmd with
  | case1 fi fo cmd =>
    rw [← Option.some.inj h]
    exact ⟨fun _ h1 => h1, Or.inl⟩
  | case2 => exact absurd h (by simp)
  | case3 fi fo cmd file rest ih =>
    obtain ⟨h1, h2⟩ := ih h
    refine ⟨fun hf hs => h1 hf ?_, fun _ => h2 (by simp)⟩
    simpa [hf] using hs
  | case4 => exact absurd h (by simp)
  | case5 fi fo cmd file rest _ ih =>
    obtain ⟨h1, h2⟩ := ih h
    exact ⟨fun _ _ => h1 rfl (by simp), fun _ => Or.inr (h1 rfl (by simp))⟩
  | case6 => exact absurd h (by simp)
  | case7 fi fo cmd file rest _ _ ih =>
    obtain ⟨h1, h2⟩ := ih h
    refine ⟨fun hf hs => h1 hf ?_, fun _ => h2 (by simp)⟩
    simpa [hf] using hs
  | case8 part rest fi fo cmd h1 h2 h3 ih => exact ih h

structure Parsed (words : List Str) (cmd cmd' : Command) : Prop where
  stdoutPipe : cmd'.stdoutPipe = (cmd.stdoutPipe && !redirected words)
  plain : redirected words = false →
    cmd'.stdoutFile = cmd.stdoutFile ∧ cmd'.stdinFile = cmd.stdinFile
  file : redirected words = true → cmd'.stdoutFile ≠ none ∨ cmd'.stdinFile ≠ none

theorem Parsed.of_op {part file : Str} {rest : List Str} {cmd cmd1 cmd' : Command}
    (hop : isOp part = true) (ih : Parsed rest cmd1 cmd') (hflag : cmd1.stdoutPipe = false)
    (hfile : cmd'.stdoutFile ≠ none ∨ cmd'.stdinFile ≠ none) :
    Parsed (part :: file :: rest) cmd cmd' := by
  have hred : redirected (part :: file :: rest) = true := by simp [redirected, hop]
  refine ⟨?_, fun h => absurd (hred.symm.trans h) (by simp), fun _ => hfile⟩
  rw [ih.stdoutPipe, hflag, hred]
  simp

theorem parseWords_spec {words : List Str} {fi fo : Bool} {cmd cmd' : Command}
    (h : parseWords words fi fo cmd = some cmd') : Parsed words cmd cmd' := by
  fun_induction parseWords words fi fo cmd with
  | case1 fi fo cmd =>
    rw [← Option.some.inj h]
    exact ⟨by simp [redirected], fun _ => ⟨rfl, rfl⟩, fun h1 => absurd h1 (by simp [redirected])⟩
  | case2 => exact absurd h (by simp)
  | case3 fi fo cmd file rest ih =>
    exact .of_op (by simp [isOp]) (ih h) rfl ((parseWords_keeps h).2 (by simp))
  | case4 => exact absurd h (by simp)
  | case5 fi fo cmd file rest _ ih =>
    exact .of_op (by simp [isOp]) (ih h) rfl (Or.inr ((parseWords_keeps h).1 rfl (by simp)))
  | case6 => exact absurd h (by simp)
  | case7 fi fo cmd file rest _ _ ih =>
    exact .of_op (by simp [isOp]) (ih h) rfl ((parseWords_keeps h).2 (by simp))
  | case8 part rest fi fo cmd h1 h2 h3 ih =>
    have hop := isOp_eq_false h1 h2 h3
    have hred : redirected (part :: rest) = redirected rest := by simp [redirected, hop]
    have hp := ih h
    refine ⟨?_, ?_, ?_⟩
    · rw [hred]
      exact hp.stdoutPipe
    · rw [hred]
      exact hp.plain
    · rw [hred]
      exact hp.file

theorem parseWords_plain {words : List Str} (h : redirected words = false) (fi fo : Bool)
    (cmd : Command) :
    parseWords words fi fo cmd = some { cmd with tokens := cmd.tokens ++ words } := by
  fun_induction parseWords words fi fo cmd with
  | case1 => simp
  | case2 | case3 | case4 | case5 | case6 | case7 => simp [redirected, isOp] at h
  | case8 part rest fi fo cmd h1 h2 h3 ih =>
    rw [ih (by simpa [redirected, isOp_eq_false h1 h2 h3] using h)]
    simp

theorem parseStage_plain {words : List Str} (h : redirected words = false) :
    parseStage words = some ⟨words, true, false, none, none⟩ := by
  unfold parseStage
  rw [parseWords_plain h]
  rfl

structure StageOf (words : List Str) (last : Bool) (cmd : Command) : Prop where
  parsed : ∃ b, parseStage words = some { cmd with stdoutPipe := b }
  tokens : cmd.tokens = commandWords words
  stdoutPipe : cmd.stdoutPipe = (!last && !redirected words)
  plain : redirected words = false → cmd.stdoutFile = none ∧ cmd.stdinFile = none
  file : redirected words = true → cmd.stdoutFile ≠ none ∨ cmd.stdinFile ≠ none
  stdin : "<".toList ∉ operators words → cmd.stdinFile = none

theorem parseStages_spec {l : List (List Str)} {cmds : List Command}
    (h : parseStages l = some cmds) : cmds.length = l.length ∧
      ∀ (i : Nat) words cmd, l[i]? = some words → cmds[i]? = some cmd →
        parseStage words = some cmd := by
  induction l generalizing cmds with
  | nil =>
    rw [← Option.some.inj h]
    exact ⟨rfl, fun i words cmd h1 => absurd h1 (by simp)⟩
  | cons ws l ih =>
    unfold parseStages at h
    split at h
    · rename_i c cs h1 h2
      rw [← Option.some.inj h]
      obtain ⟨h3, h4⟩ := ih h2
      refine ⟨by simp [h3], fun i words cmd e1 e2 => ?_⟩
      cases i with
      | zero =>
        rw [← Option.some.inj e1, ← Option.some.inj e2]
        exact h1
      | succ i => exact h4 i words cmd e1 e2
    · exact absurd h (by simp)

theorem parseLine_spec {s : Str} {cmds : List Command} (h : parseLine s = some cmds) :
    cmds ≠ [] ∧ cmds.length = (stages s).length ∧
      ∀ (i : Nat) words cmd, (stages s)[i]? = some words → cmds[i]? = some cmd →
        StageOf words (i + 1 = cmds.length) cmd := by
  unfold parseLine at h
  split at h
  · exact absurd h (by simp)
  · rename_i l hl
    split at h
    · exact absurd h (by simp)
    · rename_i hne
      obtain ⟨hlen, hstage⟩ := parseStages_spec hl
      rw [← Option.some.inj h]
      unfold endPipeline
      have hpos : 0 < l.length := List.length_pos_iff.mpr hne
      refine ⟨fun e => hne ?_, by simpa using hlen, fun i words cmd e1 e2 => ?_⟩
      · simpa using congrArg List.length e
      · rw [List.getElem?_modify] at e2
        obtain ⟨c, hc, e3⟩ := Option.map_eq_some_iff.mp e2
        have hs := hstage i words c e1 hc
        have hp := parseWords_spec hs
        have htok : c.tokens = commandWords words := parseWords_tokens hs
        have hin : "<".toList ∉ operators words → c.stdinFile = none := parseWords_stdin hs rfl
        rw [List.length_modify]
        by_cases hlast : l.length - 1 = i
        · have hi : i + 1 = l.length := by omega
          simp only [hlast, if_true] at e3
          rw [← e3, decide_eq_true hi]
          exact ⟨⟨c.stdoutPipe, hs⟩, htok, rfl, hp.plain, hp.file, hin⟩
        · have hi : ¬ i + 1 = l.length := by omega
          simp only [hlast, if_false] at e3
          rw [← e3, decide_eq_false hi]
          exact ⟨⟨c.stdoutPipe, hs⟩, htok, hp.stdoutPipe, hp.plain, hp.file, hin⟩

theorem parseStages_plain {l : List (List Str)} (h : ∀ words ∈ l, redirected words = false) :
    parseStages l = some (l.map (fun words => ⟨words, true, false, none, none⟩)) := by
  induction l with
  | nil => rfl
  | cons words l ih =>
    show (match parseStage words, parseStages l with
      | some cmd, some cmds => some (cmd :: cmds)
      | _, _ => none) = _
    rw [parseStage_plain (h words List.mem_cons_self),
      ih (fun w hw => h w (List.mem_cons_of_mem _ hw))]
    rfl

theorem parseLine_plain {s : Str} (hne : stages s ≠ [])
    (h : ∀ words ∈ stages s, redirected words = false) : ∃ cmds, parseLine s = some cmds := by
  unfold parseLine
  rw [parseStages_plain h]
  dsimp only
  rw [if_neg (by simpa using hne)]
  exact ⟨_, rfl⟩

end Boogsh
