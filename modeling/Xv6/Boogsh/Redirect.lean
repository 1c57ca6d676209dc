import Mathlib.Data.List.Induction
import Xv6.Boogsh.Parse

/-!
# The order of redirections

In a stage the last `<` should give the file for standard input and the last of `>` and `>>` the one
for standard output, wherever they stand.  `>>` tells nobody that it has set a file, so that a `<`
behind it takes the file away, and `>` does not take back that `>>` asked to append.
-/

namespace Boogsh
open Ulib

inductive Op where
  /-- `<` -/
  | input
  /-- `>` -/
  | output
  /-- `>>` -/
  | append
  deriving DecidableEq

def opOf (w : Str) : Option Op :=
  if w = ">".toList then some .output
  else if w = "<".toList then some .input
  else if w = ">>".toList then some .append
  else none

def redirections : List Str → List (Op × Str)
  | [] => []
  | [_] => []
  | w :: v :: rest =>
    match opOf w with
    | some op => (op, v) :: redirections rest
    | none => redirections (v :: rest)

/-- every operator is followed by a file -/
def withFiles : List Str → Bool
  | [] => true
  | [w] => (opOf w).isNone
  | w :: v :: rest => if (opOf w).isSome then withFiles rest else withFiles (v :: rest)

def lastInput (ops : List (Op × Str)) : Option (Op × Str) :=
  (ops.filter (fun o => o.1 = .input)).getLast?

def lastOutput (ops : List (Op × Str)) : Option (Op × Str) :=
  (ops.filter (fun o => o.1 ≠ .input)).getLast?

/-- the last operators count, wherever they stand -/
structure OrderFree (words : List Str) (cmd : Command) : Prop where
  stdinFile : cmd.stdinFile = (lastInput (redirections words)).map Prod.snd
  stdoutFile : cmd.stdoutFile = (lastOutput (redirections words)).map Prod.snd
  append : cmd.append = true ↔ (lastOutput (redirections words)).map Prod.fst = some .append
  tokens : cmd.tokens = commandWords words

/-- with a `>>`, the last output operator is one, and there is a `>` or no `<` at the end -/
def InOrder (ops : List (Op × Str)) : Prop :=
  .append ∈ ops.map Prod.fst → (lastOutput ops).map Prod.fst = some .append ∧
    (.output ∈ ops.map Prod.fst ∨ ops.getLast?.map Prod.fst ≠ some .input)

/-! ## the flags and the files -/

structure Found where
  foundIn : Bool
  foundOut : Bool
  stdinFile : Option Str
  stdoutFile : Option Str
  append : Bool

def Found.add (s : Found) : Op × Str → Found
  | (.output, file) => { s with
      foundOut := true
      stdinFile := if s.foundIn then s.stdinFile else none
      stdoutFile := some file }
  | (.input, file) => { s with
      foundIn := true
      stdoutFile := if s.foundOut then s.stdoutFile else none
      stdinFile := some file }
  | (.append, file) => { s with
      stdinFile := if s.foundIn then s.stdinFile else none
      stdoutFile := some file
      append := true }

def Found.start : Found := ⟨false, false, none, none, false⟩

section
variable {words : List Str} {cmd cmd' : Command} {fi fo : Bool} {ops : List (Op × Str)}

theorem opOf_eq_none {w : Str} : opOf w = none ↔ isOp w = false := by
  unfold opOf isOp
  by_cases h1 : w = ">".toList
  · rw [if_pos h1, decide_eq_true h1]
    exact iff_of_false nofun nofun
  · rw [if_neg h1, decide_eq_false h1]
    by_cases h2 : w = "<".toList
    · rw [if_pos h2, decide_eq_true h2]
      exact iff_of_false nofun nofun
    · rw [if_neg h2, decide_eq_false h2]
      by_cases h3 : w = ">>".toList
      · rw [if_pos h3, decide_eq_true h3]
        exact iff_of_false nofun nofun
      · rw [if_neg h3, decide_eq_false h3]
        exact iff_of_true rfl rfl

theorem redirections_plain {w : Str} (h : opOf w = none) (rest : List Str) :
    redirections (w :: rest) = redirections rest := by
  cases rest with
  | nil => rfl
  | cons v rest =>
    show (match opOf w with
      | some op => (op, v) :: redirections rest
      | none => redirections (v :: rest)) = _
    rw [h]

/-- the loop over the words is a loop over the operators, and keeps the other words -/
theorem parseWords_fold (h : parseWords words fi fo cmd = some cmd') :
    let s := (redirections words).foldl Found.add
      ⟨fi, fo, cmd.stdinFile, cmd.stdoutFile, cmd.append⟩
    cmd'.stdinFile = s.stdinFile ∧ cmd'.stdoutFile = s.stdoutFile ∧ cmd'.append = s.append := by
  fun_induction parseWords words fi fo cmd with
  | case1 fi fo cmd =>
    rw [← Option.some.inj h]
    exact ⟨rfl, rfl, rfl⟩
  | case2 => cases h
  | case3 fi fo cmd file rest ih => exact ih h
  | case4 => cases h
  | case5 fi fo cmd file rest _ ih => exact ih h
  | case6 => cases h
  | case7 fi fo cmd file rest _ _ ih => exact ih h
  | case8 part rest fi fo cmd h1 h2 h3 ih =>
    rw [redirections_plain (opOf_eq_none.mpr (isOp_eq_false h1 h2 h3))]
    exact ih h

theorem parseWords_isSome (words : List Str) (fi fo : Bool) (cmd : Command) :
    (parseWords words fi fo cmd).isSome = withFiles words := by
  fun_induction parseWords words fi fo cmd with
  | case1 => rfl
  | case2 => rfl
  | case3 fi fo cmd file rest ih => exact ih
  | case4 => rfl
  | case5 fi fo cmd file rest _ ih => exact ih
  | case6 => rfl
  | case7 fi fo cmd file rest _ _ ih => exact ih
  | case8 part rest fi fo cmd h1 h2 h3 ih =>
    have hop := opOf_eq_none.mpr (isOp_eq_false h1 h2 h3)
    rw [ih]
    cases rest with
    | nil =>
      show true = (opOf part).isNone
      rw [hop]
      rfl
    | cons v rest =>
      show _ = if (opOf part).isSome then withFiles rest else withFiles (v :: rest)
      rw [hop]
      rfl

/-! ## all operators -/

theorem lastInput_concat (ops : List (Op × Str)) (o : Op × Str) :
    lastInput (ops ++ [o]) = if o.1 = .input then some o else lastInput ops := by
  unfold lastInput
  rw [List.filter_append]
  by_cases h : o.1 = .input
  · rw [List.filter_cons_of_pos (p := fun o : Op × Str => decide (o.1 = .input))
      (decide_eq_true h), if_pos h]
    exact List.getLast?_concat
  · rw [List.filter_cons_of_neg (p := fun o : Op × Str => decide (o.1 = .input))
      (fun hd => h (of_decide_eq_true hd)), if_neg h, List.filter_nil,
      List.append_nil]

theorem lastOutput_concat (ops : List (Op × Str)) (o : Op × Str) :
    lastOutput (ops ++ [o]) = if o.1 = .input then lastOutput ops else some o := by
  unfold lastOutput
  rw [List.filter_append]
  by_cases h : o.1 = .input
  · rw [List.filter_cons_of_neg (p := fun o : Op × Str => decide (o.1 ≠ .input))
      (fun hd => (of_decide_eq_true hd) h), if_pos h, List.filter_nil,
      List.append_nil]
  · rw [List.filter_cons_of_pos (p := fun o : Op × Str => decide (o.1 ≠ .input))
      (decide_eq_true h), if_neg h]
    exact List.getLast?_concat

theorem mem_concat_of_ne (a o : Op) (f : Str) (h : a ≠ o) :
    decide (a ∈ ops.map Prod.fst ++ [(o, f)].map Prod.fst) = decide (a ∈ ops.map Prod.fst) := by
  apply decide_eq_decide.mpr
  rw [List.mem_append]
  exact or_iff_left (fun hm => h (List.mem_singleton.mp hm))

/-- the flags, and the file for standard input -/
theorem fold_flags (ops : List (Op × Str)) :
    let s := ops.foldl Found.add .start
    s.foundIn = decide (.input ∈ ops.map Prod.fst) ∧
      s.foundOut = decide (.output ∈ ops.map Prod.fst) ∧
      s.append = decide (.append ∈ ops.map Prod.fst) ∧
      s.stdinFile = (lastInput ops).map Prod.snd := by
  induction ops using List.reverseRecOn with
  | nil => exact ⟨rfl, rfl, rfl, rfl⟩
  | append_singleton ops o ih =>
    obtain ⟨h1, h2, h3, h4⟩ := ih
    have hno : (ops.foldl Found.add .start).foundIn = false → lastInput ops = none := by
      intro hf
      unfold lastInput
      rw [List.filter_eq_nil_iff.mpr]
      · rfl
      · intro a ha hin
        rw [h1] at hf
        exact of_decide_eq_false hf (List.mem_map.mpr ⟨a, ha, of_decide_eq_true hin⟩)
    have hkeep : (if (ops.foldl Found.add .start).foundIn then
        (ops.foldl Found.add .start).stdinFile else none) = (lastInput ops).map Prod.snd := by
      by_cases hf : (ops.foldl Found.add .start).foundIn = true
      · rw [if_pos hf]
        exact h4
      · rw [if_neg hf, hno (Bool.eq_false_iff.mpr hf)]
        rfl
    dsimp only
    rw [List.foldl_append, List.foldl_cons, List.foldl_nil, List.map_append, lastInput_concat]
    obtain ⟨op, f⟩ := o
    cases op with
    | input =>
      refine ⟨?_, ?_, ?_, rfl⟩
      · exact (decide_eq_true (List.mem_append_right _ List.mem_cons_self)).symm
      · exact h2.trans (mem_concat_of_ne .output .input f nofun).symm
      · exact h3.trans (mem_concat_of_ne .append .input f nofun).symm
    | output =>
      refine ⟨?_, ?_, ?_, hkeep⟩
      · exact h1.trans (mem_concat_of_ne .input .output f nofun).symm
      · exact (decide_eq_true (List.mem_append_right _ List.mem_cons_self)).symm
      · exact h3.trans (mem_concat_of_ne .append .output f nofun).symm
    | append =>
      refine ⟨?_, ?_, ?_, hkeep⟩
      · exact h1.trans (mem_concat_of_ne .input .append f nofun).symm
      · exact h2.trans (mem_concat_of_ne .output .append f nofun).symm
      · exact (decide_eq_true (List.mem_append_right _ List.mem_cons_self)).symm

theorem lastOutput_none (h1 : .output ∉ ops.map Prod.fst) (h2 : .append ∉ ops.map Prod.fst) :
    lastOutput ops = none := by
  unfold lastOutput
  rw [List.filter_eq_nil_iff.mpr]
  · rfl
  · rintro ⟨op, f⟩ ha hout
    cases op with
    | input => exact of_decide_eq_true hout rfl
    | output => exact h1 (List.mem_map.mpr ⟨_, ha, rfl⟩)
    | append => exact h2 (List.mem_map.mpr ⟨_, ha, rfl⟩)

/-- the file for standard output: a `<` at the end takes it away when only `>>` has set one -/
theorem fold_stdoutFile (ops : List (Op × Str)) :
    (ops.foldl Found.add .start).stdoutFile =
      if .output ∉ ops.map Prod.fst ∧ ops.getLast?.map Prod.fst = some .input then none
      else (lastOutput ops).map Prod.snd := by
  induction ops using List.reverseRecOn with
  | nil => rfl
  | append_singleton ops o ih =>
    have hout := (fold_flags ops).2.1
    rw [List.foldl_append, List.foldl_cons, List.foldl_nil, List.getLast?_concat,
      lastOutput_concat, List.map_append]
    obtain ⟨op, f⟩ := o
    cases op with
    | input =>
      show (if (ops.foldl Found.add .start).foundOut then
        (ops.foldl Found.add .start).stdoutFile else none) = _
      rw [hout, ih]
      by_cases hmem : .output ∈ ops.map Prod.fst
      · rw [if_pos (decide_eq_true hmem), if_neg (fun hc => hc.1 hmem),
          if_neg (fun hc => hc.1 (List.mem_append_left _ hmem))]
        rfl
      · have hmem' : .output ∉ ops.map Prod.fst ++ [((Op.input, f) : Op × Str)].map Prod.fst := by
          simpa using hmem
        rw [if_neg (fun hd => hmem (of_decide_eq_true hd)), if_pos ⟨hmem', rfl⟩]
    | output =>
      rw [if_neg (fun hc => hc.1 (List.mem_append_right _ List.mem_cons_self))]
      rfl
    | append =>
      rw [if_neg (fun hc => absurd hc.2 nofun)]
      rfl

/-! ## what the parsed command has -/

theorem orderFree_iff (h : parseStage words = some cmd) :
    OrderFree words cmd ↔ InOrder (redirections words) := by
  obtain ⟨h1, h2, h3⟩ := parseWords_fold h
  obtain ⟨-, -, f3, f4⟩ := fold_flags (redirections words)
  have hin : cmd.stdinFile = (lastInput (redirections words)).map Prod.snd := h1.trans f4
  have hout := h2.trans (fold_stdoutFile (redirections words))
  have happ : cmd.append = true ↔ .append ∈ (redirections words).map Prod.fst := by
    rw [h3.trans f3, decide_eq_true_iff]
  have htok : cmd.tokens = commandWords words := parseWords_tokens h
  constructor
  · intro ho hmem
    have hlast := ho.append.mp (happ.mpr hmem)
    refine ⟨hlast, ?_⟩
    by_contra hno
    obtain ⟨hno1, hno2⟩ := not_or.mp hno
    rw [ho.stdoutFile, if_pos ⟨hno1, not_not.mp hno2⟩] at hout
    rw [Option.map_eq_none_iff.mp hout] at hlast
    exact absurd hlast nofun
  · intro hio
    refine ⟨hin, ?_, ?_, htok⟩
    · rw [hout]
      by_cases hc : .output ∉ (redirections words).map Prod.fst ∧
          (redirections words).getLast?.map Prod.fst = some .input
      · have hno : .append ∉ (redirections words).map Prod.fst :=
          fun hmem => (hio hmem).2.elim hc.1 (fun hne => hne hc.2)
        rw [if_pos hc, lastOutput_none hc.1 hno]
        rfl
      · rw [if_neg hc]
    · rw [happ]
      refine ⟨fun hmem => (hio hmem).1, fun hlast => ?_⟩
      obtain ⟨o, ho, hop⟩ := Option.map_eq_some_iff.mp hlast
      have hmem := List.mem_of_getLast? ho
      exact List.mem_map.mpr ⟨o, (List.mem_filter.mp hmem).1, hop⟩

/-- where every operator has a file, the stage is parsed; the operators can be put in any order just
as long as they are `InOrder` -/
theorem redirection_iff (h : withFiles words = true) : ∃ cmd, parseStage words = some cmd ∧
    (OrderFree words cmd ↔ InOrder (redirections words)) := by
  have hsome : (parseStage words).isSome = true := (parseWords_isSome words _ _ _).trans h
  obtain ⟨cmd, hcmd⟩ := Option.isSome_iff_exists.mp hsome
  exact ⟨cmd, hcmd, orderFree_iff hcmd⟩

end

/-- `a < g >> f > h >> k` -/
theorem redirection_example :
    ∃ cmd, parseStage ["a".toList, "<".toList, "g".toList, ">>".toList, "f".toList, ">".toList,
      "h".toList, ">>".toList, "k".toList] = some cmd ∧
    OrderFree ["a".toList, "<".toList, "g".toList, ">>".toList, "f".toList, ">".toList,
      "h".toList, ">>".toList, "k".toList] cmd := by
  have hwords : withFiles ["a".toList, "<".toList, "g".toList, ">>".toList, "f".toList, ">".toList,
      "h".toList, ">>".toList, "k".toList] = true := by decide
  obtain ⟨cmd, hcmd, hiff⟩ := redirection_iff hwords
  exact ⟨cmd, hcmd, hiff.mpr fun _ => ⟨by decide, Or.inl (by decide)⟩⟩

/-- `a >> f < g`: the output of `a` does not go to `f` -/
theorem append_forgotten : ¬ ∀ words cmd, withFiles words = true → parseStage words = some cmd →
    OrderFree words cmd := by
  intro hall
  have h := (hall ["a".toList, ">>".toList, "f".toList, "<".toList, "g".toList]
    ⟨["a".toList], false, true, none, some "g".toList⟩ (by decide) (by decide)).stdoutFile
  exact absurd h (by decide)

end Boogsh
