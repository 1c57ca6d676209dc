import Mathlib.Tactic.TFAE
import Xv6.Sh.Accepts

/-!
# A line for every command

`print` writes a command down, with brackets where the grammar needs them.  `sh` reads it back, so
that the commands that a line can give are those with words, at most nine arguments and the modes of
the three operators.
-/

namespace Sh
open Ulib (Str cstr)

section
variable {α : Type} {c : Cmd α} {l : Level} {ts : List (Lexeme α)} {op : Op} {w : α}

/-! ## printing -/

def Level.rank : Level → Nat
  | .command => 0
  | .pipe => 1
  | .line => 2

def Cmd.level : Cmd α → Level
  | .exec _ => .command
  | .redir _ _ _ _ => .command
  | .pipe _ _ => .pipe
  | .list _ _ => .line
  | .back _ => .line

/-- at level `l`, what is at level `m` stands in brackets if it has to -/
def within (l m : Level) (ts : List (Lexeme α)) : List (Lexeme α) :=
  if m.rank ≤ l.rank then ts else .sym '(' :: (ts ++ [.sym ')'])

def opLexeme (mode fd : Nat) : Lexeme α :=
  if fd = 0 then .sym '<' else if mode = truncating then .sym '>' else .append

def Cmd.print : Cmd α → List (Lexeme α)
  | .exec argv => argv.map .word
  | .redir cmd file mode fd =>
    within .command cmd.level cmd.print ++ [opLexeme mode fd, .word file]
  | .pipe left right =>
    within .command left.level left.print ++ .sym '|' :: within .pipe right.level right.print
  | .list left right =>
    within .pipe left.level left.print ++ .sym ';' :: within .line right.level right.print
  | .back cmd => within .pipe cmd.level cmd.print ++ [.sym '&']

/-- few arguments, and redirections as `parseredirs` makes them -/
def Cmd.Shaped : Cmd α → Prop
  | .exec argv => argv.length < maxargs
  | .redir cmd _ mode fd => cmd.Shaped ∧ ∃ op : Op, mode = op.mode ∧ fd = op.fd
  | .pipe left right => left.Shaped ∧ right.Shaped
  | .list left right => left.Shaped ∧ right.Shaped
  | .back cmd => cmd.Shaped

theorem opLexeme_eq : (opLexeme op.mode op.fd : Lexeme α) = op.lexeme := by
  cases op <;> rfl

/-! ## the grammar has what is printed -/

theorem Parses.up (h : Parses l ts c) {m : Level} (hm : l.rank ≤ m.rank) : Parses m ts c := by
  have hpipe : ∀ {ts : List (Lexeme α)} {c : Cmd α}, Parses .pipe ts c → Parses .line ts c := by
    intro ts c h
    have h1 := Parses.last 0 h
    rw [show ampersands 0 = ([] : List (Lexeme α)) from rfl, List.append_nil] at h1
    exact h1
  cases l with
  | command =>
    cases m with
    | command => exact h
    | pipe => exact .stage h
    | line => exact hpipe (.stage h)
  | pipe =>
    cases m with
    | command => exact absurd hm (by decide)
    | pipe => exact h
    | line => exact hpipe h
  | line =>
    cases m with
    | command => exact absurd hm (by decide)
    | pipe => exact absurd hm (by decide)
    | line => exact h

theorem Parses.within {m : Level} (h : Parses m ts c) : Parses l (within l m ts) c := by
  unfold Sh.within
  split
  · exact h.up ‹_›
  · have h1 := Parses.block [] (h.up (m := .line) (by cases m <;> decide))
    exact Parses.up h1 (Nat.zero_le _)

theorem argLexemes_append {as bs : List (α × List (Op × α))} :
    argLexemes (as ++ bs) = argLexemes as ++ argLexemes bs := List.flatMap_append

theorem redirLexemes_append {rs rs' : List (Op × α)} :
    redirLexemes (rs ++ rs') = redirLexemes rs ++ redirLexemes rs' := List.flatMap_append

theorem Parses.redir (h : Parses .command ts c) :
    Parses .command (ts ++ [op.lexeme, .word w]) (op.redir c w) := by
  have hone : redirLexemes [(op, w)] = [op.lexeme, .word w] := rfl
  cases h with
  | simple rs as hmax =>
    obtain rfl | ⟨as, ⟨v, rs'⟩, rfl⟩ := List.eq_nil_or_concat as
    · have h1 := Parses.simple (rs ++ [(op, w)]) [] hmax
      rw [redirLexemes_append, hone] at h1
      simpa [argLexemes, Sh.simple, redirect_append, redirect_cons, redirect] using h1
    · rw [List.concat_eq_append] at hmax ⊢
      have h1 := Parses.simple rs (as ++ [(v, rs' ++ [(op, w)])]) (by simpa using hmax)
      rw [argLexemes_append, argLexemes_cons, redirLexemes_append, hone] at h1
      have h2 : Sh.simple rs (as ++ [(v, rs' ++ [(op, w)])]) =
          op.redir (Sh.simple rs (as ++ [(v, rs')])) w := by
        simp [Sh.simple, redirect]
      rw [← h2]
      simpa [argLexemes_append, argLexemes_cons, argLexemes] using h1
  | block rs hc =>
    have h1 := Parses.block (rs ++ [(op, w)]) hc
    rw [redirLexemes_append, redirect_append, hone] at h1
    rw [List.cons_append, List.append_assoc, List.cons_append]
    exact h1

theorem argLexemes_words {argv : List α} :
    argLexemes (argv.map fun w => (w, ([] : List (Op × α)))) = argv.map .word := by
  induction argv with
  | nil => rfl
  | cons w argv ih => exact congrArg (Lexeme.word w :: ·) ih

theorem simple_words {argv : List α} : simple [] (argv.map fun w => (w, [])) = .exec argv := by
  have h : (argv.map fun w => (w, ([] : List (Op × α)))).flatMap Prod.snd = [] := by
    rw [List.flatMap_eq_nil_iff]
    intro a ha
    obtain ⟨w, -, rfl⟩ := List.mem_map.mp ha
    rfl
  unfold simple
  rw [h, List.map_map]
  exact congrArg Cmd.exec (List.map_id _)

theorem parses_exec {argv : List α} (h : argv.length < maxargs) :
    Parses .command (argv.map .word) (.exec argv) := by
  have h1 := Parses.simple [] (argv.map fun w => (w, ([] : List (Op × α)))) (by simpa using h)
  rwa [argLexemes_words, simple_words] at h1

theorem parses_print (h : c.Shaped) : Parses c.level c.print c := by
  induction c with
  | exec argv => exact parses_exec h
  | redir c f mode fd ih =>
    obtain ⟨hc, op, rfl, rfl⟩ := h
    show Parses .command (_ ++ [opLexeme op.mode op.fd, _]) _
    rw [opLexeme_eq]
    exact Parses.redir (ih hc).within
  | pipe c d ih ih' => exact .pipe (ih h.1).within (ih' h.2).within
  | list c d ih ih' =>
    have h1 := Parses.list 0 ((ih h.1).within (l := .pipe)) ((ih' h.2).within (l := .line))
    exact h1
  | back c ih => exact .last 1 (ih h).within

/-! ## what the grammar has is shaped -/

theorem shaped_redirect {rs : List (Op × α)} (h : c.Shaped) : (redirect c rs).Shaped := by
  induction rs generalizing c with
  | nil => exact h
  | cons r rs ih => exact ih ⟨h, r.1, rfl, rfl⟩

theorem shaped_background {n : Nat} (h : c.Shaped) : (background n c).Shaped := by
  induction n generalizing c with
  | zero => exact h
  | succ n ih => exact ih h

theorem parses_shaped (h : Parses l ts c) : c.Shaped := by
  induction h with
  | simple rs as hmax => exact shaped_redirect (by rwa [← List.length_map (f := Prod.fst)] at hmax)
  | block rs _ ih => exact shaped_redirect ih
  | stage _ ih => exact ih
  | pipe _ _ ih ih' => exact ⟨ih, ih'⟩
  | last n _ ih => exact shaped_background ih
  | list n _ _ ih ih' => exact ⟨shaped_background ih, ih'⟩

end

/-! ## the text -/

/-- what the user types for the tokens -/
def spell (ts : List (Lexeme Str)) : Str := ts.flatMap fun x => x.text ++ [' ']

/-- a word that can be typed -/
def IsWord (w : Str) : Prop := w ≠ [] ∧ ∀ a ∈ w, letter a = true ∧ a ≠ '\x00'

def Lexeme.Typed : Lexeme Str → Prop
  | .sym a => a ∈ symbols
  | .append => True
  | .word w => IsWord w

/-- a command that can be typed -/
structure Cmd.Typed (c : Cmd Str) : Prop where
  shaped : c.Shaped
  words : ∀ w ∈ c.words, IsWord w

section
variable {c : Cmd Str} {s : Str} {x : Lexeme Str} {ts us : List (Lexeme Str)} {l m : Level}

theorem Lexeme.Typed.ends (h : x.Typed) : x.Ends (' ' :: s) := by
  cases x with
  | sym a => exact ⟨h, fun _ e => absurd (Option.some.inj e) (by decide)⟩
  | append => trivial
  | word w =>
    refine ⟨h.1, fun a ha => (h.2 a ha).1, fun a e => ?_⟩
    obtain rfl := Option.some.inj e
    decide

theorem Spells.space (h : Spells ts s) : Spells ts (' ' :: s) := by
  have hgap : ∀ {g}, Gap g → Gap (' ' :: g) := by
    intro g hg a ha
    obtain rfl | ha := List.mem_cons.mp ha
    · decide
    · exact hg a ha
  cases h with
  | nil hg => exact .nil (hgap hg)
  | cons hg hx h => exact .cons (g := ' ' :: _) (hgap hg) hx h

theorem spells_spell (h : ∀ x ∈ ts, x.Typed) : Spells ts (spell ts) := by
  induction ts with
  | nil => exact .nil gap_nil
  | cons x ts ih =>
    obtain ⟨hx, hts⟩ := List.forall_mem_cons.mp h
    have h1 : spell (x :: ts) = [] ++ (x.text ++ ' ' :: spell ts) := by
      show (x.text ++ [' ']) ++ spell ts = _
      rw [List.append_assoc]
      rfl
    rw [h1]
    exact .cons gap_nil hx.ends (ih hts).space

theorem nul_notMem_text (h : x.Typed) : '\x00' ∉ x.text := by
  cases x with
  | sym a =>
    intro h1
    obtain rfl := List.mem_singleton.mp h1
    exact absurd h (by show ¬ '\x00' ∈ symbols; decide)
  | append => decide
  | word w => exact fun h1 => (h.2 _ h1).2 rfl

theorem nul_notMem_spell (h : ∀ x ∈ ts, x.Typed) : '\x00' ∉ spell ts := by
  intro h1
  obtain ⟨x, hx, h1⟩ := List.mem_flatMap.mp h1
  obtain h1 | h1 := List.mem_append.mp h1
  · exact nul_notMem_text (h x hx) h1
  · exact absurd (List.mem_singleton.mp h1) (by decide)

theorem typed_sym {a : Char} (h : a ∈ symbols) : Lexeme.Typed (.sym a) := h

theorem typed_opLexeme {mode fd : Nat} : Lexeme.Typed (opLexeme mode fd) := by
  unfold opLexeme
  split
  · exact typed_sym (by decide)
  · split
    · exact typed_sym (by decide)
    · trivial

theorem typed_cons_sym {a : Char} (ha : a ∈ symbols) (h : ∀ x ∈ ts, x.Typed) :
    ∀ x ∈ Lexeme.sym a :: ts, x.Typed :=
  List.forall_mem_cons.mpr ⟨ha, h⟩

theorem within_typed (h : ∀ x ∈ ts, x.Typed) : ∀ x ∈ within l m ts, x.Typed := by
  unfold within
  split
  · exact h
  · exact typed_cons_sym (by decide) (List.forall_mem_append.mpr
      ⟨h, typed_cons_sym (by decide) (List.forall_mem_nil _)⟩)

theorem print_typed (h : ∀ w ∈ c.words, IsWord w) : ∀ x ∈ c.print, x.Typed := by
  induction c with
  | exec argv =>
    intro x hx
    obtain ⟨w, hw, rfl⟩ := List.mem_map.mp hx
    exact h w hw
  | redir c f mode fd ih =>
    obtain ⟨hc, hf⟩ := List.forall_mem_append.mp h
    refine List.forall_mem_append.mpr ⟨within_typed (ih hc), List.forall_mem_cons.mpr
      ⟨typed_opLexeme, List.forall_mem_cons.mpr ⟨?_, List.forall_mem_nil _⟩⟩⟩
    exact hf f (List.mem_singleton.mpr rfl)
  | pipe c d ih ih' =>
    obtain ⟨hc, hd⟩ := List.forall_mem_append.mp h
    exact List.forall_mem_append.mpr
      ⟨within_typed (ih hc), typed_cons_sym (by decide) (within_typed (ih' hd))⟩
  | list c d ih ih' =>
    obtain ⟨hc, hd⟩ := List.forall_mem_append.mp h
    exact List.forall_mem_append.mpr
      ⟨within_typed (ih hc), typed_cons_sym (by decide) (within_typed (ih' hd))⟩
  | back c ih =>
    exact List.forall_mem_append.mpr
      ⟨within_typed (ih h), typed_cons_sym (by decide) (List.forall_mem_nil _)⟩

theorem spells_word {w : Str} (h : Spells ts s) (hw : .word w ∈ ts) :
    w ≠ [] ∧ (∀ a ∈ w, letter a = true) ∧ ∀ a ∈ w, a ∈ s := by
  induction h with
  | nil => cases hw
  | cons _ hx _ ih =>
    obtain rfl | hw := List.mem_cons.mp hw
    · refine ⟨hx.1, hx.2.1, fun a ha => ?_⟩
      exact List.mem_append_right _ (List.mem_append_left _ ha)
    · obtain ⟨h1, h2, h3⟩ := ih hw
      exact ⟨h1, h2, fun a ha => List.mem_append_right _ (List.mem_append_right _ (h3 a ha))⟩

theorem typed_of_parse {buf : Str} (h : parse buf = .ok c) : c.Typed := by
  have hp := parse_grammar.mp h
  refine ⟨parses_shaped hp, fun w hw => ?_⟩
  obtain ⟨h1, h2, h3⟩ := spells_word (spells_lexemes (cstr buf)) (words_parses hp hw)
  refine ⟨h1, fun a ha => ⟨h2 a ha, ?_⟩⟩
  have h4 := List.mem_takeWhile_imp (h3 a ha)
  simpa using h4

theorem Cmd.Typed.roundtrip (h : c.Typed) : parse (spell c.print) = .ok c := by
  have htyped := print_typed h.words
  rw [parse_grammar, Ulib.cstr_eq_self (nul_notMem_spell htyped),
    lexemes_iff.mpr (spells_spell htyped)]
  exact (parses_print h.shaped).up (by cases c.level <;> decide)

/-- the commands that a line can give are the typed ones, and `print` gives such a line -/
theorem parse_print (c : Cmd Str) :
    List.TFAE [c.Typed, ∃ buf, parse buf = .ok c, parse (spell c.print) = .ok c] := by
  tfae_have 1 → 3 := Cmd.Typed.roundtrip
  tfae_have 3 → 2 := fun h => ⟨_, h⟩
  tfae_have 2 → 1 := by
    rintro ⟨buf, h⟩
    exact typed_of_parse h
  tfae_finish

end

end Sh
