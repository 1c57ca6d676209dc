import Xv6.Sh.Words

/-!
# Which commands a line can give

`parse` gives exactly the commands that the grammar derives from the tokens that the line spells,
and it comes to an end on every line (`parse_iff`).
-/

namespace Sh
open Ulib (Str cstr)

/-! ## other words -/

section
variable {α β : Type} {f : α → β} {op : Op} {rs : List (Op × α)} {c : Cmd α} {l m : Level}
  {as : List (α × List (Op × α))} {ts : List (Lexeme α)} {n : Nat}

theorem map_opLexeme : (op.lexeme : Lexeme α).map f = op.lexeme := by
  cases op <;> rfl

theorem map_redirLexemes : (redirLexemes rs).map (Lexeme.map f) =
    redirLexemes (rs.map (Prod.map id f)) := by
  induction rs with
  | nil => rfl
  | cons r rs ih =>
    obtain ⟨op, w⟩ := r
    rw [redirLexemes_cons, List.map_cons, List.map_cons, map_opLexeme, ih]
    rfl

theorem map_argLexemes : (argLexemes as).map (Lexeme.map f) =
    argLexemes (as.map (Prod.map f (List.map (Prod.map id f)))) := by
  induction as with
  | nil => rfl
  | cons a as ih =>
    show Lexeme.word (f a.1) :: (redirLexemes a.2 ++ argLexemes as).map (Lexeme.map f) = _
    rw [List.map_append, map_redirLexemes, ih]
    rfl

theorem map_redirect : (redirect c rs).map f = redirect (c.map f) (rs.map (Prod.map id f)) := by
  induction rs generalizing c with
  | nil => rfl
  | cons r rs ih => exact ih

theorem map_simple : (simple rs as).map f =
    simple (rs.map (Prod.map id f)) (as.map (Prod.map f (List.map (Prod.map id f)))) := by
  unfold simple
  rw [map_redirect]
  simp only [Cmd.map, List.map_map, List.map_append, List.map_flatMap, List.flatMap_map]
  rfl

theorem map_background : (background n c).map f = background n (c.map f) := by
  induction n generalizing c with
  | zero => rfl
  | succ n ih => exact ih

theorem map_ampersands : (ampersands n : List (Lexeme α)).map (Lexeme.map f) = ampersands n := by
  unfold ampersands
  rw [List.map_replicate]
  rfl

theorem parses_map (h : Parses l ts c) : Parses l (ts.map (Lexeme.map f)) (c.map f) := by
  induction h with
  | simple rs as hmax =>
    rw [List.map_append, map_redirLexemes, map_argLexemes, map_simple]
    exact .simple _ _ (by rwa [List.length_map])
  | block rs _ ih =>
    rw [List.map_cons, List.map_append, List.map_cons, map_redirLexemes, map_redirect]
    exact .block _ ih
  | stage _ ih => exact .stage ih
  | pipe _ _ ih ih' =>
    rw [List.map_append, List.map_cons]
    exact .pipe ih ih'
  | last n _ ih =>
    rw [List.map_append, map_ampersands, map_background]
    exact .last n ih
  | list n _ _ ih ih' =>
    rw [List.map_append, List.map_append, List.map_cons, map_ampersands]
    show Parses .line _ (.list ((background n _).map f) _)
    rw [map_background]
    exact .list n ih ih'

theorem map_eq_op {x : Lexeme α} (h : x.map f = op.lexeme) : x = op.lexeme := by
  cases x with
  | sym c => cases op <;> cases h <;> rfl
  | append => cases op <;> cases h; rfl
  | word w => cases op <;> cases h

theorem map_eq_word {x : Lexeme α} {v : β} (h : x.map f = .word v) :
    ∃ w, x = .word w ∧ f w = v := by
  cases x with
  | word w => exact ⟨w, rfl, Lexeme.word.inj h⟩
  | sym c => cases h
  | append => cases h

theorem map_eq_sym {x : Lexeme α} {a : Char} (h : x.map f = .sym a) : x = .sym a := by
  cases x with
  | sym c => exact congrArg Lexeme.sym (Lexeme.sym.inj h)
  | word w => cases h
  | append => cases h

theorem exists_redirs {rs : List (Op × β)} (h : ts.map (Lexeme.map f) = redirLexemes rs) :
    ∃ rs', ts = redirLexemes rs' ∧ rs'.map (Prod.map id f) = rs := by
  induction rs generalizing ts with
  | nil => exact ⟨[], List.map_eq_nil_iff.mp h, rfl⟩
  | cons r rs ih =>
    obtain ⟨op, v⟩ := r
    obtain ⟨x, ts₁, rfl, hx, h₁⟩ := List.map_eq_cons_iff.mp h
    obtain ⟨y, ts₂, rfl, hy, h₂⟩ := List.map_eq_cons_iff.mp h₁
    obtain rfl := map_eq_op hx
    obtain ⟨w, rfl, rfl⟩ := map_eq_word hy
    obtain ⟨rs', rfl, rfl⟩ := ih h₂
    exact ⟨(op, w) :: rs', rfl, rfl⟩

theorem exists_args {as : List (β × List (Op × β))} (h : ts.map (Lexeme.map f) = argLexemes as) :
    ∃ as', ts = argLexemes as' ∧ as'.map (Prod.map f (List.map (Prod.map id f))) = as := by
  induction as generalizing ts with
  | nil => exact ⟨[], List.map_eq_nil_iff.mp h, rfl⟩
  | cons a as ih =>
    obtain ⟨v, rs⟩ := a
    rw [argLexemes_cons] at h
    obtain ⟨x, ts₁, rfl, hx, h₁⟩ := List.map_eq_cons_iff.mp h
    obtain ⟨w, rfl, rfl⟩ := map_eq_word hx
    obtain ⟨ts₂, us, rfl, h₂, h₃⟩ := List.map_eq_append_iff.mp h₁
    obtain ⟨rs', rfl, rfl⟩ := exists_redirs h₂
    obtain ⟨as', rfl, rfl⟩ := ih h₃
    exact ⟨(w, rs') :: as', rfl, rfl⟩

theorem exists_ampersands (h : ts.map (Lexeme.map f) = ampersands n) : ts = ampersands n := by
  induction n generalizing ts with
  | zero => exact List.map_eq_nil_iff.mp h
  | succ n ih =>
    obtain ⟨x, ts₁, rfl, hx, h₁⟩ := List.map_eq_cons_iff.mp h
    rw [map_eq_sym hx, ih h₁]
    rfl

/-- a derivation for the images is one for the words themselves -/
theorem exists_parses {us : List (Lexeme β)} {d : Cmd β} (h : Parses l us d)
    (hts : ts.map (Lexeme.map f) = us) : ∃ c, Parses l ts c ∧ c.map f = d := by
  induction h generalizing ts with
  | simple rs as hmax =>
    obtain ⟨ts₁, ts₂, rfl, h₁, h₂⟩ := List.map_eq_append_iff.mp hts
    obtain ⟨rs, rfl, rfl⟩ := exists_redirs h₁
    obtain ⟨as, rfl, rfl⟩ := exists_args h₂
    exact ⟨_, .simple rs as (by rwa [List.length_map] at hmax), map_simple⟩
  | block rs _ ih =>
    obtain ⟨x, ts₁, rfl, hx, h₁⟩ := List.map_eq_cons_iff.mp hts
    obtain rfl := map_eq_sym hx
    obtain ⟨ts₂, ts₃, rfl, h₂, h₃⟩ := List.map_eq_append_iff.mp h₁
    obtain ⟨y, ts₄, rfl, hy, h₄⟩ := List.map_eq_cons_iff.mp h₃
    obtain rfl := map_eq_sym hy
    obtain ⟨c, hc, rfl⟩ := ih h₂
    obtain ⟨rs, rfl, rfl⟩ := exists_redirs h₄
    exact ⟨_, .block rs hc, map_redirect⟩
  | stage _ ih =>
    obtain ⟨c, hc, rfl⟩ := ih hts
    exact ⟨c, .stage hc, rfl⟩
  | pipe _ _ ih ih' =>
    obtain ⟨ts₁, ts₂, rfl, h₁, h₂⟩ := List.map_eq_append_iff.mp hts
    obtain ⟨y, ts₃, rfl, hy, h₃⟩ := List.map_eq_cons_iff.mp h₂
    obtain rfl := map_eq_sym hy
    obtain ⟨c, hc, rfl⟩ := ih h₁
    obtain ⟨d, hd, rfl⟩ := ih' h₃
    exact ⟨_, .pipe hc hd, rfl⟩
  | last n _ ih =>
    obtain ⟨ts₁, ts₂, rfl, h₁, h₂⟩ := List.map_eq_append_iff.mp hts
    obtain rfl := exists_ampersands h₂
    obtain ⟨c, hc, rfl⟩ := ih h₁
    exact ⟨_, .last n hc, map_background⟩
  | list n _ _ ih ih' =>
    obtain ⟨ts₁, ts₂, rfl, h₁, h₂⟩ := List.map_eq_append_iff.mp hts
    obtain ⟨ts₃, ts₄, rfl, h₃, h₄⟩ := List.map_eq_append_iff.mp h₂
    obtain ⟨y, ts₅, rfl, hy, h₅⟩ := List.map_eq_cons_iff.mp h₄
    obtain rfl := map_eq_sym hy
    obtain rfl := exists_ampersands h₃
    obtain ⟨c, hc, rfl⟩ := ih h₁
    obtain ⟨d, hd, rfl⟩ := ih' h₅
    exact ⟨_, .list n hc hd, congrArg (Cmd.list · _) map_background⟩

end

/-! ## the lines -/

section
variable {buf : Str} {c : Cmd Str} {e : Stop}

theorem parse_grammar : parse buf = .ok c ↔ Parses .line (lexemes (cstr buf)) c := by
  rw [parse_ok]
  constructor
  · rintro ⟨d, hd, rfl⟩
    exact parses_map hd
  · intro h
    exact exists_parses h rfl

theorem parse_ends (h : parse buf = .error e) : Finishes e := by
  unfold parse at h
  cases hr : parsecmd buf with
  | error e' =>
    rw [hr] at h
    obtain rfl := Except.error.inj h
    exact parsecmd_ends hr
  | ok r =>
    rw [hr] at h
    cases h

/-- `sh` accepts the lines of the grammar, with the command that they mean; on every other line it
panics, but not in `parseblock` -/
theorem parse_iff (buf : Str) :
    (∀ c, parse buf = .ok c ↔ ∃ ts, Spells ts (cstr buf) ∧ Parses .line ts c) ∧
      ∀ e, parse buf = .error e → ∃ p, e = .panic p ∧ p ≠ .parseblock := by
  refine ⟨fun c => ?_, fun e he => ?_⟩
  · rw [parse_grammar]
    constructor
    · exact fun h => ⟨_, lexemes_iff.mp rfl, h⟩
    · rintro ⟨ts, hts, h⟩
      rwa [lexemes_iff.mpr hts]
  · obtain ⟨hfuel, hblock⟩ := parse_ends he
    cases e with
    | panic p => exact ⟨p, rfl, fun e => hblock (congrArg Stop.panic e)⟩
    | fuel => exact absurd rfl hfuel

end

end Sh
