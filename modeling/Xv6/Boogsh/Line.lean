import Xv6.Boogsh.Reading

/-!
# One command line (`user/boogsh.c`)

What happens to a line between `read` and the `switch` of `choose_cmd`: `check_comment`,
`check_built_in`, the test for `&` and `change_directory` edit the buffer in place, so each of them
is a function from the old text to the new one.  `change_directory` reads from `buf + 3`; when the
text is shorter than that, the byte there is the NUL of an earlier edit and the path is empty.

`modes_agree_iff` says for which lines a prompt and a script come to the same decision.
-/

namespace Boogsh
open Ulib

inductive Choice where
  | cd | exit | history | historyT | repeat | searchByNum | searchByCmd | program | matrix
  deriving DecidableEq, Repr

def checkComment (buf : Str) : Str := buf.takeWhile (· ≠ '#')

def isCd (buf : Str) : Bool := "cd ".toList.isPrefixOf buf

def isLower (c : Char) : Bool := 'a' ≤ c && c ≤ 'z'

/-- the choice for a line that starts with `!`, by its second character -/
def searchKind : Option Char → Option Choice
  | none => none
  | some c =>
    if isDigit c then some .searchByNum else if isLower c then some .searchByCmd else none

/-- the chain of comparisons in `check_built_in`; `none` is the choice `-1` -/
def builtIn (buf : Str) : Option Choice :=
  if buf = "exit".toList then some .exit
  else if buf = "history -t".toList then some .historyT
  else if buf = "history".toList then some .history
  else if buf = "!!".toList then some .repeat
  else if buf.head? = some '!' then searchKind buf[1]?
  else if buf = "matrix".toList then some .matrix
  else some .program

def chopNewline (buf : Str) : Str := if buf.getLast? = some '\n' then buf.dropLast else buf

/-- the new text and the choice; a `cd` line keeps its newline -/
def checkBuiltIn (buf : Str) : Str × Option Choice :=
  if isCd buf then (buf, some .cd) else (chopNewline buf, builtIn (chopNewline buf))

/-- `choose_cmd` up to its `switch`: text, choice and `run_in_background`; `none` is an empty
line -/
def chooseHead (buf : Str) : Option (Str × Option Choice × Bool) :=
  let r := checkBuiltIn buf
  if r.1.length = 0 then none
  else if r.1.getLast? = some '&' then some (r.1.dropLast, r.2, true)
  else some (r.1, r.2, false)

/-- the text after `change_directory`, and the argument of `chdir` -/
def changeDirectory (scripting : Bool) (buf : Str) : Str × Str :=
  let buf := if scripting then buf else buf.dropLast
  (buf, buf.drop 3)

/-- what `choose_cmd` decides: `arg` is the path of `chdir` or the text of the program -/
structure Decision where
  choice : Option Choice
  background : Bool
  arg : Option Str
  deriving DecidableEq, Repr

/-- the `switch` of `choose_cmd`, without what the cases do -/
def dispatch (scripting : Bool) : Str × Option Choice × Bool → Decision
  | (buf, some .cd, background) => ⟨some .cd, background, some (changeDirectory scripting buf).2⟩
  | (buf, some .program, background) => ⟨some .program, background, some buf⟩
  | (_, choice, background) => ⟨choice, background, none⟩

def decision (scripting : Bool) (buf : Str) : Option Decision :=
  (chooseHead buf).map (dispatch scripting)

/-! ## where the line comes from -/

/-- `getcmd` and `check_comment`: the line at the prompt, `input` being what descriptor 0 delivers -/
def promptLine (input : Str) : Str := checkComment (cstr (fgets bufferSize input).1)

/-- `readLine`, `strcpy` and `check_comment`: a line of a script; there is none at its end -/
def scriptLine (b : LineBuf) (input : Str) : Except Fault (Option Str) :=
  match readLine b input with
  | .error f => .error f
  | .ok none => .ok none
  | .ok (some g) =>
    match copyLine g.buf with
    | .error f => .error f
    | .ok buf => .ok (some (checkComment buf))

/-! ## reading the line `L` -/

theorem mem_takeWhile {p : Char → Bool} {s : Str} {c : Char} (h : c ∈ s.takeWhile p) : c ∈ s :=
  (List.takeWhile_prefix p).subset h

theorem checkComment_append_of_not_mem {s t : Str} (h : '#' ∉ s) :
    checkComment (s ++ t) = s ++ checkComment t := by
  unfold checkComment
  refine List.takeWhile_append_of_pos (fun c hc => ?_)
  simpa using fun e : c = '#' => h (e ▸ hc)

theorem checkComment_append_of_mem {s t : Str} (h : '#' ∈ s) :
    checkComment (s ++ t) = checkComment s := by
  obtain ⟨l, r, rfl, hl⟩ := List.eq_append_cons_of_mem h
  rw [List.append_assoc, checkComment_append_of_not_mem hl, checkComment_append_of_not_mem hl]
  rfl

theorem checkComment_of_not_mem {s : Str} (h : '#' ∉ s) : checkComment s = s := by
  have h1 := checkComment_append_of_not_mem (t := []) h
  simpa [checkComment] using h1

section
variable {L rest input buf : Str} {b : LineBuf}

theorem promptLine_of_no_cr (hlen : L.length + 2 ≤ bufferSize) (hn : '\n' ∉ L) (h0 : '\x00' ∉ L)
    (hr : '\r' ∉ L) : promptLine (L ++ '\n' :: rest) = checkComment (L ++ ['\n']) := by
  unfold bufferSize at hlen
  have h1 : fgets bufferSize (L ++ '\n' :: rest) = (L ++ ['\n'], rest) :=
    fgetsLoop_stop (Or.inl rfl) hn hr (by unfold bufferSize; omega)
  unfold promptLine
  rw [h1, cstr_eq_self]
  simpa using h0

theorem promptLine_of_cr {A B : Str} (hlen : (A ++ '\r' :: B).length + 2 ≤ bufferSize)
    (hn : '\n' ∉ A) (h0 : '\x00' ∉ A) (hr : '\r' ∉ A) :
    promptLine ((A ++ '\r' :: B) ++ rest) = checkComment (A ++ ['\r']) := by
  unfold bufferSize at hlen
  simp only [List.length_append, List.length_cons] at hlen
  have h1 : fgets bufferSize ((A ++ '\r' :: B) ++ rest) = (A ++ ['\r'], B ++ rest) := by
    rw [List.append_assoc]
    exact fgetsLoop_stop (Or.inr rfl) hn hr (by unfold bufferSize; omega)
  unfold promptLine
  rw [h1, cstr_eq_self]
  simpa using h0

theorem scriptLine_of_readLine {g : Got} (hg : readLine b input = .ok (some g))
    (hlen : (cstr g.buf).length < bufferSize) :
    scriptLine b input = .ok (some (checkComment (cstr g.buf))) := by
  unfold scriptLine
  rw [hg]
  dsimp only
  rw [copyLine, if_pos hlen]

theorem scriptLine_line (rest : Str) (hb : b.Ok) (hlen : L.length < bufferSize) (hn : '\n' ∉ L)
    (h0 : '\x00' ∉ L) :
    b.Serves (L ++ ['\n']) ∧ scriptLine b (L ++ '\n' :: rest) = .ok (some (checkComment L)) ∨
      ¬ b.Serves (L ++ ['\n']) ∧ ∀ t, scriptLine b (L ++ '\n' :: rest) ≠ .ok (some t) := by
  have hfirst := readLine_first (.line rest hn hlen) hb (show '\x00' ∉ L ++ ['\n'] by simpa using h0)
  rw [List.append_assoc] at hfirst
  rcases hfirst with ⟨hs, g, hg, htext, -⟩ | ⟨hs, hno⟩
  · rw [List.dropLast_concat] at htext
    refine Or.inl ⟨hs, (scriptLine_of_readLine hg (by rwa [htext])).trans ?_⟩
    rw [htext]
  · refine Or.inr ⟨hs, fun t ht => ?_⟩
    unfold scriptLine at ht
    split at ht
    · cases ht
    · cases ht
    · rename_i g hg
      exact hno g hg

/-- the stores for a line are inside just when it fits -/
theorem scriptLine_ok_iff (hb : b.Ok) : (∃ o, scriptLine b input = .ok o) ↔ b.Fits input := by
  by_cases hroom : b.Room input
  · by_cases hnil : (b.piece input).1 = []
    · refine iff_of_true ⟨none, ?_⟩ ⟨hroom, by rw [hnil]; exact nofun, by rw [hnil]; exact Nat.zero_le _⟩
      rw [scriptLine, readLine_end hb hroom hnil]
    by_cases hnul : (b.piece input).1.head? = some '\x00'
    · refine iff_of_false ?_ fun hf => hf.nul hnul
      rintro ⟨o, ho⟩
      rw [scriptLine, readLine_nul hb hroom hnul] at ho
      cases ho
    obtain ⟨g, hg, htook⟩ := readLine_took hb hroom hnil hnul
    have hpos := List.length_pos_iff.mpr (cstr_ne_nil hnil hnul)
    have hlen : (cstr g.buf).length = (cstr (b.piece input).1).length - 1 := by
      rw [htook.text, List.length_dropLast]
    by_cases hlt : (cstr g.buf).length < bufferSize
    · exact iff_of_true ⟨_, scriptLine_of_readLine hg hlt⟩ ⟨hroom, hnul, by omega⟩
    · refine iff_of_false ?_ fun hf => ?_
      · rintro ⟨o, ho⟩
        rw [scriptLine, hg] at ho
        dsimp only at ho
        rw [copyLine, if_neg hlt] at ho
        cases ho
      · have := hf.size
        omega
  · refine iff_of_false ?_ fun hf => hroom hf.room
    rintro ⟨o, ho⟩
    obtain ⟨f, hf⟩ := readLine_no_room hb hroom
    rw [scriptLine, hf] at ho
    cases ho

/-- what a script passes is what `getline` read, cut at both ends -/
theorem scriptLine_text (hb : b.Ok) (h : scriptLine b input = .ok (some buf)) :
    buf = checkComment (cstr (b.piece input).1).dropLast := by
  have hf := (scriptLine_ok_iff hb).mp ⟨_, h⟩
  by_cases hnil : (b.piece input).1 = []
  · rw [scriptLine, readLine_end hb hf.room hnil] at h
    cases h
  obtain ⟨g, hg, htook⟩ := readLine_took hb hf.room hnil hf.nul
  have hpos := List.length_pos_iff.mpr (cstr_ne_nil hnil hf.nul)
  have hlt : (cstr g.buf).length < bufferSize := by
    have := hf.size
    rw [htook.text, List.length_dropLast]
    omega
  rw [scriptLine_of_readLine hg hlt, htook.text] at h
  exact (Option.some.inj (Except.ok.inj h)).symm

end

/-! ## when the two modes agree -/

/-- the lines on which prompt and script agree, `V` being the text before a `'#'`: no `'\r'` in `V`
and no `cd`; or a `cd` that nothing is chopped from in either mode; or, with a `'\r'` in `V`, a
line that ends there, or a search without a final `&` -/
def ModesAgree (L : Str) : Prop :=
  let V := checkComment L
  if '\r' ∈ V then
    isCd V = false ∧ ('\r' ∉ V.dropLast ∨ V.head? = some '!' ∧ V.getLast? ≠ some '&')
  else if isCd V then
    if '#' ∈ L then V = "cd ".toList ∨ V = "cd &".toList else V.getLast? ≠ some '&'
  else True

instance (L : Str) : Decidable (ModesAgree L) := by
  unfold ModesAgree
  infer_instance

theorem isCd_iff {buf : Str} : isCd buf = true ↔ ∃ p, buf = "cd ".toList ++ p := by
  unfold isCd
  rw [List.isPrefixOf_iff_prefix]
  exact ⟨fun ⟨p, hp⟩ => ⟨p, hp.symm⟩, fun ⟨p, hp⟩ => ⟨p, hp.symm⟩⟩

theorem isCd_append {e : Char} (he : e = '\n' ∨ e = '\r') (A B : Str) :
    isCd (A ++ e :: B) = isCd A := by
  have hc : ('c' == e) = false := by rcases he with rfl | rfl <;> rfl
  have hd : ('d' == e) = false := by rcases he with rfl | rfl <;> rfl
  have hs : (' ' == e) = false := by rcases he with rfl | rfl <;> rfl
  match A with
  | [] => simp [isCd, List.isPrefixOf, hc]
  | [a] => simp [isCd, List.isPrefixOf, hd]
  | [a, b] => simp [isCd, List.isPrefixOf, hs]
  | a :: b :: c :: A => simp [isCd, List.isPrefixOf]

theorem chopNewline_of_not_mem {s : Str} (h : '\n' ∉ s) : chopNewline s = s := by
  unfold chopNewline
  rw [if_neg (fun e => h (List.mem_of_getLast? e))]

theorem chopNewline_concat (s : Str) : chopNewline (s ++ ['\n']) = s := by
  unfold chopNewline
  rw [if_pos List.getLast?_concat, List.dropLast_concat]

theorem chooseHead_of_cd {buf : Str} (h : isCd buf = true) : chooseHead buf =
    if buf.getLast? = some '&' then some (buf.dropLast, some .cd, true)
    else some (buf, some .cd, false) := by
  obtain ⟨p, hp⟩ := isCd_iff.mp h
  have hne : ¬ buf.length = 0 := by simp [hp]
  unfold chooseHead checkBuiltIn
  rw [if_pos h]
  exact if_neg hne

theorem chooseHead_of_not_cd {buf : Str} (h : isCd buf = false) : chooseHead buf =
    if (chopNewline buf).length = 0 then none
    else if (chopNewline buf).getLast? = some '&' then
      some ((chopNewline buf).dropLast, builtIn (chopNewline buf), true)
    else some (chopNewline buf, builtIn (chopNewline buf), false) := by
  have h1 : checkBuiltIn buf = (chopNewline buf, builtIn (chopNewline buf)) := if_neg (by simp [h])
  unfold chooseHead
  rw [h1]

theorem searchKind_cases (c : Option Char) : searchKind c = none ∨
    searchKind c = some .searchByNum ∨ searchKind c = some .searchByCmd := by
  cases c with
  | none => exact Or.inl rfl
  | some c =>
    show (if isDigit c then some Choice.searchByNum
      else if isLower c then some .searchByCmd else none) = none ∨ _
    unfold searchKind
    by_cases h1 : isDigit c = true
    · simp [h1]
    · by_cases h2 : isLower c = true
      · simp [h1, h2]
      · simp [h1, h2]

theorem searchKind_ne_program (c : Option Char) : searchKind c ≠ some .program := by
  intro e
  rcases searchKind_cases c with h | h | h
  · exact absurd (h.symm.trans e) (by simp)
  · exact absurd (h.symm.trans e) (by simp)
  · exact absurd (h.symm.trans e) (by simp)

theorem builtIn_ne_cd (buf : Str) : builtIn buf ≠ some .cd := by
  have hs : searchKind buf[1]? ≠ some .cd := by
    intro e
    rcases searchKind_cases buf[1]? with h | h | h
    · exact absurd (h.symm.trans e) (by simp)
    · exact absurd (h.symm.trans e) (by simp)
    · exact absurd (h.symm.trans e) (by simp)
  unfold builtIn
  repeat' split
  all_goals first | exact hs | simp

theorem dispatch_of_ne (scripting : Bool) (buf : Str) {choice : Option Choice} (bg : Bool)
    (h : choice ≠ some .cd) : dispatch scripting (buf, choice, bg)
      = ⟨choice, bg, if choice = some .program then some buf else none⟩ := by
  match choice with
  | none => rfl
  | some .cd => exact absurd rfl h
  | some .exit => rfl
  | some .history => rfl
  | some .historyT => rfl
  | some .repeat => rfl
  | some .searchByNum => rfl
  | some .searchByCmd => rfl
  | some .program => rfl
  | some .matrix => rfl

/-- outside `cd` the mode plays no role -/
theorem decision_of_not_cd {V : Str} (h : isCd V = false) : decision false V = decision true V := by
  have hne := builtIn_ne_cd (chopNewline V)
  unfold decision
  rw [chooseHead_of_not_cd h]
  split
  · rfl
  · split
    · exact congrArg some ((dispatch_of_ne false _ _ hne).trans (dispatch_of_ne true _ _ hne).symm)
    · exact congrArg some ((dispatch_of_ne false _ _ hne).trans (dispatch_of_ne true _ _ hne).symm)

theorem decision_newline {L : Str} (h : isCd L = false) (hn : '\n' ∉ L) :
    decision false (L ++ ['\n']) = decision true L := by
  have h1 : isCd (L ++ ['\n']) = false := by rw [isCd_append (Or.inl rfl), h]
  have h2 : chooseHead (L ++ ['\n']) = chooseHead L := by
    rw [chooseHead_of_not_cd h1, chooseHead_of_not_cd h, chopNewline_concat,
      chopNewline_of_not_mem hn]
  rw [← decision_of_not_cd h]
  unfold decision
  rw [h2]

theorem decision_cd (scripting : Bool) {V : Str} (h : isCd V = true) : decision scripting V =
    some (if V.getLast? = some '&' then
      ⟨some .cd, true, some (changeDirectory scripting V.dropLast).2⟩
    else ⟨some .cd, false, some (changeDirectory scripting V).2⟩) := by
  unfold decision
  rw [chooseHead_of_cd h]
  split
  · rfl
  · rfl

theorem drop_dropLast_eq_iff {W : Str} (h : isCd W = true) :
    W.dropLast.drop 3 = W.drop 3 ↔ W = "cd ".toList := by
  obtain ⟨p, rfl⟩ := isCd_iff.mp h
  constructor
  · intro e
    have h1 := congrArg List.length e
    simp only [List.length_drop, List.length_dropLast, List.length_append] at h1
    have h2 : "cd ".toList.length = 3 := rfl
    have h3 : p = [] := List.length_eq_zero_iff.mp (by omega)
    rw [h3, List.append_nil]
  · intro e
    rw [e]
    rfl

theorem cdDecision_inj {b b' : Bool} {p p' : Str} :
    (⟨some .cd, b, some p⟩ : Decision) = ⟨some .cd, b', some p'⟩ ↔ b = b' ∧ p = p' := by simp

/-- a `cd` that ends in `&` is a shorter `cd` before it -/
theorem isCd_dropLast {V : Str} (h : isCd V = true) (ha : V.getLast? = some '&') :
    isCd V.dropLast = true ∧ V = V.dropLast ++ ['&'] := by
  obtain ⟨p, rfl⟩ := isCd_iff.mp h
  rcases List.eq_nil_or_concat p with rfl | ⟨q, c, rfl⟩
  · exact absurd ha (by decide)
  · rw [List.concat_eq_append, ← List.append_assoc] at ha ⊢
    rw [List.getLast?_concat] at ha
    rw [List.dropLast_concat, Option.some.inj ha]
    exact ⟨isCd_iff.mpr ⟨q, rfl⟩, rfl⟩

/-- a `cd` that a comment has cut the newline from: the prompt chops one character more -/
theorem cd_comment_agree_iff {V : Str} (h : isCd V = true) :
    decision false V = decision true V ↔ V = "cd ".toList ∨ V = "cd &".toList := by
  have hne : "cd ".toList ≠ "cd &".toList := by decide
  rw [decision_cd false h, decision_cd true h, Option.some_inj]
  by_cases ha : V.getLast? = some '&'
  · obtain ⟨hcd, hcat⟩ := isCd_dropLast h ha
    rw [if_pos ha, if_pos ha, cdDecision_inj]
    have e1 : V.dropLast.dropLast.drop 3 = V.dropLast.drop 3 ↔ V.dropLast = "cd ".toList :=
      drop_dropLast_eq_iff hcd
    constructor
    · rintro ⟨-, e⟩
      rw [hcat, e1.mp e]
      exact Or.inr rfl
    · rintro (e | e)
      · rw [e] at ha
        exact absurd ha (by decide)
      · rw [e]
        exact ⟨rfl, rfl⟩
  · rw [if_neg ha, if_neg ha, cdDecision_inj]
    have e1 : V.dropLast.drop 3 = V.drop 3 ↔ V = "cd ".toList := drop_dropLast_eq_iff h
    constructor
    · rintro ⟨-, e⟩
      exact Or.inl (e1.mp e)
    · rintro (e | e)
      · exact ⟨rfl, e1.mpr e⟩
      · rw [e] at ha
        exact absurd rfl ha

/-- a `cd` line as typed: the newline hides the `&` from the prompt -/
theorem cd_newline_agree_iff {L : Str} (h : isCd L = true) :
    decision false (L ++ ['\n']) = decision true L ↔ L.getLast? ≠ some '&' := by
  have h1 : isCd (L ++ ['\n']) = true := by rw [isCd_append (Or.inl rfl), h]
  have hn : ¬ (L ++ ['\n']).getLast? = some '&' := by
    rw [List.getLast?_concat]
    decide
  rw [decision_cd false h1, decision_cd true h, Option.some_inj, if_neg hn]
  by_cases ha : L.getLast? = some '&'
  · rw [if_pos ha, cdDecision_inj]
    simp [ha]
  · rw [if_neg ha, cdDecision_inj]
    have e : (L ++ ['\n']).dropLast.drop 3 = L.drop 3 := by rw [List.dropLast_concat]
    exact iff_of_true ⟨rfl, e⟩ ha

/-! ## a line with `'\r'` -/

/-- the comparisons with whole words fail, the others look at most at the `'\r'` -/
theorem builtIn_append_cr (A B : Str) :
    builtIn (A ++ '\r' :: B) = builtIn (A ++ ['\r']) ∧
      (builtIn (A ++ '\r' :: B) = some .program ↔ (A ++ '\r' :: B).head? ≠ some '!') := by
  have hword : ∀ (C : Str) (w : Str), '\r' ∉ w → A ++ '\r' :: C ≠ w := by
    intro C w hw e
    exact hw (e ▸ by simp)
  have hform : ∀ C : Str, builtIn (A ++ '\r' :: C) =
      if (A ++ '\r' :: C).head? = some '!' then searchKind (A ++ '\r' :: C)[1]?
      else some .program := by
    intro C
    unfold builtIn
    rw [if_neg (hword C _ (by decide)), if_neg (hword C _ (by decide)),
      if_neg (hword C _ (by decide)), if_neg (hword C _ (by decide)),
      if_neg (hword C _ (by decide))]
  refine ⟨?_, ?_⟩
  · rw [hform B, hform []]
    match A with
    | [] => rfl
    | [a] => rfl
    | a :: b :: A => rfl
  · rw [hform B]
    by_cases h : (A ++ '\r' :: B).head? = some '!'
    · rw [if_pos h]
      exact iff_of_false (searchKind_ne_program _) (fun hn => hn h)
    · rw [if_neg h]
      exact iff_of_true rfl h

theorem append_cr_eq_iff {A B : Str} : A ++ ['\r'] = A ++ '\r' :: B ↔ B = [] := by
  constructor
  · intro e
    have h1 := List.append_cancel_left e
    exact (List.cons.inj h1).2.symm
  · rintro rfl
    rfl

theorem cr_agree_iff {A B : Str} (hnA : '\n' ∉ A) (hnB : '\n' ∉ B) :
    decision false (A ++ ['\r']) = decision true (A ++ '\r' :: B) ↔
      isCd (A ++ '\r' :: B) = false ∧ (B = [] ∨
        (A ++ '\r' :: B).head? = some '!' ∧ (A ++ '\r' :: B).getLast? ≠ some '&') := by
  have hcd : isCd (A ++ ['\r']) = isCd (A ++ '\r' :: B) := by
    rw [isCd_append (Or.inr rfl), isCd_append (Or.inr rfl)]
  have hlast : ¬ (A ++ ['\r']).getLast? = some '&' := by
    rw [List.getLast?_concat]
    decide
  by_cases h : isCd (A ++ '\r' :: B) = true
  · -- the prompt chops the `'\r'`, the script keeps it
    refine iff_of_false ?_ (fun hn => absurd (h.symm.trans hn.1) (by simp))
    rw [decision_cd false (hcd.trans h), decision_cd true h, Option.some_inj, if_neg hlast]
    by_cases ha : (A ++ '\r' :: B).getLast? = some '&'
    · rw [if_pos ha, cdDecision_inj]
      simp
    · rw [if_neg ha, cdDecision_inj]
      rintro ⟨-, e⟩
      have h1 : isCd A = true := by rwa [isCd_append (Or.inr rfl)] at h
      obtain ⟨p, rfl⟩ := isCd_iff.mp h1
      have h2 : ((("cd ".toList ++ p) ++ ['\r']).dropLast.drop 3).length
          = ((("cd ".toList ++ p) ++ '\r' :: B).drop 3).length := congrArg List.length e
      have h3 : "cd ".toList.length = 3 := rfl
      rw [List.dropLast_concat] at h2
      simp only [List.length_drop, List.length_append, List.length_cons] at h2
      omega
  · have h0 : isCd (A ++ '\r' :: B) = false := by simpa using h
    have hposP : ¬ (A ++ ['\r']).length = 0 := by simp
    have hposV : ¬ (A ++ '\r' :: B).length = 0 := by simp
    obtain ⟨e1, e2⟩ := builtIn_append_cr A B
    have hne := builtIn_ne_cd (A ++ '\r' :: B)
    have hcP : chopNewline (A ++ ['\r']) = A ++ ['\r'] :=
      chopNewline_of_not_mem (by simpa using hnA)
    have hcV : chopNewline (A ++ '\r' :: B) = A ++ '\r' :: B :=
      chopNewline_of_not_mem (by simpa using ⟨hnA, hnB⟩)
    have hP : decision false (A ++ ['\r']) = some ⟨builtIn (A ++ '\r' :: B), false,
        if builtIn (A ++ '\r' :: B) = some .program then some (A ++ ['\r']) else none⟩ := by
      unfold decision
      rw [chooseHead_of_not_cd (hcd.trans h0), hcP, if_neg hposP, if_neg hlast, ← e1]
      exact congrArg some (dispatch_of_ne false _ _ hne)
    rw [hP]
    unfold decision
    rw [chooseHead_of_not_cd h0, hcV, if_neg hposV]
    by_cases ha : (A ++ '\r' :: B).getLast? = some '&'
    · rw [if_pos ha]
      refine iff_of_false ?_ ?_
      · rw [Option.map_some, dispatch_of_ne true _ _ hne]
        simp
      · rintro ⟨-, rfl | ⟨-, hn⟩⟩
        · exact hlast ha
        · exact hn ha
    · rw [if_neg ha, Option.map_some, dispatch_of_ne true _ _ hne, Option.some_inj,
        Decision.mk.injEq]
      by_cases hp : builtIn (A ++ '\r' :: B) = some .program
      · have hx := e2.mp hp
        rw [if_pos hp, if_pos hp, Option.some_inj, append_cr_eq_iff]
        exact ⟨fun e => ⟨h0, Or.inl e.2.2⟩, fun e => ⟨rfl, rfl, e.2.resolve_right
          (fun hh => hx hh.1)⟩⟩
      · have hx : (A ++ '\r' :: B).head? = some '!' := by
          by_contra hc
          exact hp (e2.mpr hc)
        rw [if_neg hp, if_neg hp]
        exact iff_of_true ⟨rfl, rfl, rfl⟩ ⟨h0, Or.inr ⟨hx, ha⟩⟩

/-! ## the two modes -/

/-- the decisions on what the prompt and a script pass for a line -/
theorem decisions_iff (rest : Str) {L : Str} (hlen : L.length + 2 ≤ bufferSize) (hn : '\n' ∉ L)
    (h0 : '\x00' ∉ L) : decision false (promptLine (L ++ '\n' :: rest)) =
      decision true (checkComment L) ↔ ModesAgree L := by
  unfold ModesAgree
  dsimp only
  have hnV : '\n' ∉ checkComment L := fun h => hn (mem_takeWhile h)
  by_cases hr : '\r' ∈ checkComment L
  · -- the line ends for the prompt at the first `'\r'`, which no comment has cut off
    rw [if_pos hr]
    obtain ⟨A, B, rfl, hA⟩ := List.eq_append_cons_of_mem (mem_takeWhile hr)
    have hhash : '#' ∉ A := by
      intro h
      rw [checkComment_append_of_mem h] at hr
      exact hA (mem_takeWhile hr)
    simp only [List.mem_append, not_or] at hn h0
    have hV : checkComment (A ++ '\r' :: B) = A ++ '\r' :: checkComment B :=
      checkComment_append_of_not_mem hhash
    have hP : promptLine (A ++ '\r' :: B ++ '\n' :: rest) = A ++ ['\r'] := by
      rw [promptLine_of_cr hlen hn.1 h0.1 hA]
      exact checkComment_append_of_not_mem hhash
    rw [hV] at hnV ⊢
    simp only [List.mem_append, List.mem_cons, not_or] at hnV
    rw [hP, cr_agree_iff hnV.1 hnV.2.2]
    have hend : '\r' ∉ (A ++ '\r' :: checkComment B).dropLast ↔ checkComment B = [] := by
      cases checkComment B with
      | nil => simp [hA]
      | cons c C => simp
    rw [hend]
  · rw [if_neg hr]
    by_cases hhash : '#' ∈ L
    · -- both modes see the text before the comment
      have hP : promptLine (L ++ '\n' :: rest) = checkComment L := by
        by_cases hcr : '\r' ∈ L
        · obtain ⟨A, B, rfl, hA⟩ := List.eq_append_cons_of_mem hcr
          have hh : '#' ∈ A := by
            by_contra hno
            rw [checkComment_append_of_not_mem hno] at hr
            exact hr (by simp [checkComment])
          simp only [List.mem_append, not_or] at hn h0
          rw [promptLine_of_cr hlen hn.1 h0.1 hA, checkComment_append_of_mem hh,
            checkComment_append_of_mem hh]
        · rw [promptLine_of_no_cr hlen hn h0 hcr, checkComment_append_of_mem hhash]
      rw [hP]
      by_cases hcd : isCd (checkComment L) = true
      · rw [if_pos hcd, if_pos hhash]
        exact cd_comment_agree_iff hcd
      · rw [if_neg hcd]
        exact iff_of_true (decision_of_not_cd (by simpa using hcd)) trivial
    · -- the prompt sees the newline, the script does not
      have hV : checkComment L = L := checkComment_of_not_mem hhash
      rw [hV] at hr ⊢
      have hP : promptLine (L ++ '\n' :: rest) = L ++ ['\n'] := by
        rw [promptLine_of_no_cr hlen hn h0 hr, checkComment_append_of_not_mem hhash]
        rfl
      rw [hP]
      by_cases hcd : isCd L = true
      · rw [if_pos hcd, if_neg hhash]
        exact cd_newline_agree_iff hcd
      · rw [if_neg hcd]
        exact iff_of_true (decision_newline (by simpa using hcd) hn) trivial

theorem serves_plenty {L : Str} {d : Nat} (hd : doublings bufferSize L = d)
    (hlt : bufferSize * 2 ^ d < 2 ^ 32) : (LineBuf.start .plenty).Serves L :=
  ⟨fun _ => nofun, by decide, by subst hd; exact hlt, Heap.not_refuses_plenty _ _⟩

end Boogsh
