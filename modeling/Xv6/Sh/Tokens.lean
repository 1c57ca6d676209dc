import Xv6.Sh.Model

/-!
# The tokens of a line

`tokens` collects what `gettoken` returns.  `Spells ts s` says what text that is: gaps, symbols and
words, where a word goes on as far as it can and so does `>`.  The two agree (`tokens_iff`).
-/

namespace Sh
open Ulib (Str)

section
variable {α β : Type}

inductive Lexeme (α : Type) where
  /-- a symbol, but not `>>` -/
  | sym (c : Char)
  /-- `>>` -/
  | append
  | word (w : α)
  deriving DecidableEq, Repr

def Lexeme.map (f : α → β) : Lexeme α → Lexeme β
  | .sym c => .sym c
  | .append => .append
  | .word w => .word (f w)

/-- what `gettoken` returns for it -/
def Lexeme.ret : Lexeme α → Char
  | .sym c => c
  | .append => '+'
  | .word _ => 'a'

def first : List (Lexeme α) → Option Char
  | .sym c :: _ => some c
  | .append :: _ => some '>'
  | _ => none

end

def lexeme (t : Token) : Lexeme Word :=
  if t.ret = 'a' then .word t.word else if t.ret = '+' then .append else .sym t.ret

def Lexeme.text : Lexeme Str → Str
  | .sym c => [c]
  | .append => ['>', '>']
  | .word w => w

/-- the lexeme ends where `rest` starts -/
def Lexeme.Ends (rest : Str) : Lexeme Str → Prop
  | .sym c => c ∈ symbols ∧ (c = '>' → rest.head? ≠ some '>')
  | .append => True
  | .word w => w ≠ [] ∧ (∀ c ∈ w, letter c = true) ∧ ∀ c, rest.head? = some c → letter c = false

def Gap (g : Str) : Prop := ∀ c ∈ g, c ∈ whitespace

inductive Spells : List (Lexeme Str) → Str → Prop
  | nil {g : Str} : Gap g → Spells [] g
  | cons {g rest : Str} {x : Lexeme Str} {ts : List (Lexeme Str)} : Gap g → x.Ends rest →
      Spells ts rest → Spells (x :: ts) (g ++ (x.text ++ rest))

/-! ## one token -/

section
variable {s t u g rest toks : Str} {c : Char} {x : Lexeme Word} {ts : List (Lexeme Word)}

theorem letter_symbol (h : c ∈ symbols) : letter c = false := by
  unfold letter
  simp [h]

theorem letter_space (h : c ∈ whitespace) : letter c = false := by
  unfold letter
  simp [h]

theorem skip_cons (h : skip s = c :: t) : c ∉ whitespace := by
  have h1 := List.head?_dropWhile_not (fun c => decide (c ∈ whitespace)) s
  rw [show s.dropWhile (fun c => decide (c ∈ whitespace)) = c :: t from h] at h1
  simpa using h1

theorem letter_of_skip (h : skip s = c :: t) : letter c = true ↔ c ∉ symbols := by
  have h1 := skip_cons h
  unfold letter
  simp [h1]

theorem skip_of_not (h : c ∉ whitespace) : skip (c :: t) = c :: t := by
  unfold skip
  rw [List.dropWhile_cons_of_neg (by simpa using h)]

theorem gap_nil : Gap [] := fun _ h => absurd h List.not_mem_nil

theorem skip_gap (h : Gap g) : skip (g ++ s) = skip s := by
  unfold skip
  rw [List.dropWhile_append, if_pos]
  rw [List.isEmpty_iff, List.dropWhile_eq_nil_iff]
  intro c hc
  simpa using h c hc

theorem skip_skip : skip (skip s) = skip s := by
  cases h : skip s with
  | nil => rfl
  | cons c t => exact skip_of_not (skip_cons h)

theorem exists_gap (s : Str) : ∃ g, Gap g ∧ s = g ++ skip s :=
  ⟨s.takeWhile (· ∈ whitespace), fun c hc => by simpa using List.mem_takeWhile_imp hc,
    (List.takeWhile_append_dropWhile ..).symm⟩

theorem length_skip_le : (skip s).length ≤ s.length :=
  (List.dropWhile_sublist _).length_le

/-- the four cases of `gettoken` -/
inductive Reads : Str → Token → Prop
  | nul : Reads [] ⟨'\x00', ⟨[], []⟩, []⟩
  | append {t : Str} : Reads ('>' :: '>' :: t) ⟨'+', ⟨'>' :: '>' :: t, t⟩, skip t⟩
  | sym {c : Char} {t : Str} : c ∈ symbols → (c = '>' → t.head? ≠ some '>') →
      Reads (c :: t) ⟨c, ⟨c :: t, t⟩, skip t⟩
  | word {c : Char} {t : Str} : letter c = true →
      Reads (c :: t) ⟨'a', ⟨c :: t, t.dropWhile letter⟩, skip (t.dropWhile letter)⟩

theorem gettoken_reads (s : Str) : Reads (skip s) (gettoken s) := by
  unfold gettoken
  dsimp only
  split
  · rename_i h
    rw [h]
    exact .nul
  · rename_i t h
    rw [h]
    exact .append
  · rename_i c t hne h
    rw [h]
    split
    · rename_i hc
      refine .sym hc fun e1 e2 => ?_
      cases t with
      | nil => exact absurd e2 (by simp)
      | cons d t =>
        obtain rfl := Option.some.inj e2
        exact hne t e1 rfl
    · rename_i hc
      have hl := (letter_of_skip h).mpr hc
      rw [List.dropWhile_cons_of_pos hl]
      exact .word hl

theorem gettoken_skip : gettoken (skip s) = gettoken s := by
  unfold gettoken
  rw [skip_skip]

theorem length_gettoken (h : skip s ≠ []) : (gettoken s).rest.length < s.length := by
  refine Nat.lt_of_lt_of_le ?_ (length_skip_le (s := s))
  have h1 := gettoken_reads s
  generalize skip s = t at h h1
  generalize gettoken s = k at h1
  cases h1 with
  | nul => exact absurd rfl h
  | append =>
    show (skip _).length < _
    exact Nat.lt_succ_of_le (Nat.le_succ_of_le length_skip_le)
  | sym => exact Nat.lt_succ_of_le length_skip_le
  | word =>
    exact Nat.lt_succ_of_le (length_skip_le.trans (List.dropWhile_sublist _).length_le)

/-! ## all tokens -/

def tokens (s : Str) : List (Lexeme Word) :=
  if skip s = [] then [] else lexeme (gettoken s) :: tokens (gettoken s).rest
termination_by s.length
decreasing_by exact length_gettoken ‹_›

theorem tokens_nil (h : skip s = []) : tokens s = [] := by
  rw [tokens, if_pos h]

theorem tokens_cons (h : skip s ≠ []) :
    tokens s = lexeme (gettoken s) :: tokens (gettoken s).rest := by
  rw [tokens, if_neg h]

theorem tokens_skip : tokens (skip s) = tokens s := by
  by_cases h : skip s = []
  · rw [tokens_nil h, tokens_nil (by rw [skip_skip, h])]
  · rw [tokens_cons h, tokens_cons (by rw [skip_skip]; exact h), gettoken_skip]

theorem ret_lexeme (k : Token) : (lexeme k).ret = k.ret := by
  unfold lexeme
  split
  · rename_i e
    exact e.symm
  · split
    · rename_i e
      exact e.symm
    · rfl

theorem gettoken_spec (h : tokens s = x :: ts) : (gettoken s).ret = x.ret ∧
    lexeme (gettoken s) = x ∧ tokens (gettoken s).rest = ts ∧
      (gettoken s).rest.length < s.length := by
  by_cases hs : skip s = []
  · rw [tokens_nil hs] at h
    cases h
  · rw [tokens_cons hs] at h
    obtain ⟨rfl, rfl⟩ := List.cons.inj h
    exact ⟨(ret_lexeme _).symm, rfl, rfl, length_gettoken hs⟩

theorem tokens_eq_nil_iff : tokens s = [] ↔ skip s = [] := by
  refine ⟨fun h => ?_, tokens_nil⟩
  by_contra hs
  rw [tokens_cons hs] at h
  cases h

theorem gettoken_nul (h : tokens s = []) : (gettoken s).ret = '\x00' ∧ (gettoken s).rest = [] := by
  have h1 := gettoken_reads s
  rw [tokens_eq_nil_iff.mp h] at h1
  generalize gettoken s = k at h1
  cases h1
  exact ⟨rfl, rfl⟩

theorem ret_eq_zero_iff : (gettoken s).ret = '\x00' ↔ tokens s = [] := by
  refine ⟨fun h => tokens_nil ?_, fun h => (gettoken_nul h).1⟩
  have h1 := gettoken_reads s
  generalize skip s = t at h1
  generalize gettoken s = k at h h1
  cases h1 with
  | nul => rfl
  | append => exact absurd (show '+' = '\x00' from h) (by decide)
  | sym hc =>
    dsimp only at h
    exact absurd (h ▸ hc) (by decide)
  | word => exact absurd (show 'a' = '\x00' from h) (by decide)

theorem ret_eq_a (h : (gettoken s).ret = 'a') :
    tokens s = .word (gettoken s).word :: tokens (gettoken s).rest := by
  have hs : skip s ≠ [] := by
    intro e
    rw [(ret_eq_zero_iff.mpr (tokens_nil e))] at h
    exact absurd h (by decide)
  rw [tokens_cons hs]
  unfold lexeme
  rw [if_pos h]

theorem peek_skip : (peek s toks).2 = skip s := by
  unfold peek
  dsimp only
  split <;> rfl

theorem peek_iff (hsub : toks ⊆ symbols) :
    (peek s toks).1 = true ↔ ∃ c ∈ toks, first (tokens s) = some c := by
  have h1 := gettoken_reads s
  have h2 : (peek s toks).1 = true ↔ ∃ c t, skip s = c :: t ∧ c ∈ toks := by
    unfold peek
    dsimp only
    split
    · rename_i h
      simp [h]
    · rename_i h
      simp [h]
  rw [h2]
  by_cases hs : skip s = []
  · rw [tokens_nil hs, hs]
    simp [first]
  · rw [tokens_cons hs]
    generalize skip s = t at h1 hs
    generalize gettoken s = k at h1
    cases h1 with
    | nul => exact absurd rfl hs
    | append => simp [lexeme, first]
    | sym hc =>
      rename_i c t _
      have ha : c ≠ 'a' := fun e => absurd (e ▸ hc) (by decide)
      have hp : c ≠ '+' := fun e => absurd (e ▸ hc) (by decide)
      simp [lexeme, first, ha, hp]
    | word hc =>
      rename_i c t
      have hno : c ∉ toks := fun h => by
        rw [letter_symbol (hsub h)] at hc
        cases hc
      simp [lexeme, first, hno]

/-! ## the text of the tokens -/

theorem text_append (w : Str) : Word.text ⟨w ++ rest, rest⟩ = w := by
  unfold Word.text
  simp

theorem dropWhile_letter {w : Str} (hw : ∀ c ∈ w, letter c = true)
    (hr : ∀ c, rest.head? = some c → letter c = false) :
    (w ++ rest).dropWhile letter = rest := by
  rw [List.dropWhile_append, if_pos (by
    rw [List.isEmpty_iff, List.dropWhile_eq_nil_iff]
    exact hw)]
  cases rest with
  | nil => rfl
  | cons c rest => rw [List.dropWhile_cons_of_neg (by rw [hr c rfl]; exact Bool.false_ne_true)]

def lexemes (s : Str) : List (Lexeme Str) := (tokens s).map (Lexeme.map Word.text)

theorem lexemes_skip : lexemes (skip s) = lexemes s := by
  unfold lexemes
  rw [tokens_skip]

theorem Lexeme.Ends.skip {y : Lexeme Str} (h : y.Ends rest) :
    skip (y.text ++ rest) = y.text ++ rest := by
  cases y with
  | sym c =>
    have hc : ∀ d ∈ symbols, d ∉ whitespace := by simp [symbols, whitespace]
    exact skip_of_not (hc c h.1)
  | append => exact skip_of_not (by decide)
  | word w =>
    obtain ⟨hne, hw, -⟩ := h
    cases w with
    | nil => exact absurd rfl hne
    | cons c w =>
      refine skip_of_not fun hc => ?_
      have h1 := hw c List.mem_cons_self
      rw [letter_space hc] at h1
      cases h1

theorem Lexeme.Ends.gettoken {y : Lexeme Str} (h : y.Ends rest) :
    (lexeme (gettoken (y.text ++ rest))).map Word.text = y ∧
      (gettoken (y.text ++ rest)).rest = Sh.skip rest := by
  have h1 := gettoken_reads (y.text ++ rest)
  rw [h.skip] at h1
  generalize Sh.gettoken (y.text ++ rest) = k at h1
  cases y with
  | sym c =>
    have ha : c ≠ 'a' := fun e => absurd (e ▸ h.1) (by decide)
    have hp : c ≠ '+' := fun e => absurd (e ▸ h.1) (by decide)
    generalize ht : Lexeme.text (.sym c) ++ rest = t at h1
    cases h1 with
    | nul => cases ht
    | append =>
      obtain ⟨rfl, rfl⟩ := List.cons.inj ht
      exact absurd rfl (h.2 rfl)
    | sym hc hn =>
      obtain ⟨rfl, rfl⟩ := List.cons.inj ht
      simp [lexeme, Lexeme.map, ha, hp]
    | word hc =>
      obtain ⟨rfl, rfl⟩ := List.cons.inj ht
      rw [letter_symbol h.1] at hc
      cases hc
  | append =>
    generalize ht : Lexeme.text .append ++ rest = t at h1
    cases h1 with
    | nul => cases ht
    | append =>
      obtain ⟨-, ht⟩ := List.cons.inj ht
      obtain ⟨-, rfl⟩ := List.cons.inj ht
      exact ⟨rfl, rfl⟩
    | sym hc hn =>
      obtain ⟨rfl, rfl⟩ := List.cons.inj ht
      exact absurd rfl (hn rfl)
    | word hc =>
      obtain ⟨rfl, rfl⟩ := List.cons.inj ht
      exact absurd hc (by decide)
  | word w =>
    obtain ⟨hne, hw, hr⟩ := h
    cases w with
    | nil => exact absurd rfl hne
    | cons c w =>
      have hc' := hw c List.mem_cons_self
      have hd := dropWhile_letter (fun d hd => hw d (List.mem_cons_of_mem _ hd)) hr
      generalize ht : Lexeme.text (.word (c :: w)) ++ rest = t at h1
      cases h1 with
      | nul => cases ht
      | append =>
        obtain ⟨rfl, -⟩ := List.cons.inj ht
        exact absurd hc' (by decide)
      | sym hc hn =>
        obtain ⟨rfl, -⟩ := List.cons.inj ht
        rw [letter_symbol hc] at hc'
        cases hc'
      | word hc =>
        obtain ⟨rfl, rfl⟩ := List.cons.inj ht
        rw [show (w.append rest).dropWhile letter = rest from hd]
        refine ⟨?_, rfl⟩
        show Lexeme.word (Word.text ⟨c :: w ++ rest, rest⟩) = _
        rw [text_append]

theorem lexemes_text {y : Lexeme Str} (hg : Gap g) (h : y.Ends rest) :
    lexemes (g ++ (y.text ++ rest)) = y :: lexemes rest := by
  obtain ⟨h1, h2⟩ := h.gettoken
  have hs : skip (y.text ++ rest) ≠ [] := by
    rw [h.skip]
    cases y with
    | sym => exact List.cons_ne_nil _ _
    | append => exact List.cons_ne_nil _ _
    | word w => exact fun e => h.1 (List.append_eq_nil_iff.mp e).1
  rw [← lexemes_skip, skip_gap hg, lexemes_skip]
  unfold lexemes
  rw [tokens_cons hs, List.map_cons, h1, h2, tokens_skip]

theorem Lexeme.Ends.length {y : Lexeme Str} (h : y.Ends rest) : 0 < y.text.length := by
  cases y with
  | sym => exact Nat.one_pos
  | append => exact Nat.two_pos
  | word w => exact List.length_pos_iff.mpr h.1

theorem exists_lexeme (h : skip s ≠ []) :
    ∃ (y : Lexeme Str) (rest : Str), skip s = y.text ++ rest ∧ y.Ends rest := by
  have h1 := gettoken_reads s
  generalize skip s = t at h h1
  generalize gettoken s = k at h1
  cases h1 with
  | nul => exact absurd rfl h
  | append => exact ⟨.append, _, rfl, trivial⟩
  | sym hc hn => exact ⟨.sym _, _, rfl, hc, hn⟩
  | word hc =>
    rename_i c t
    refine ⟨.word (c :: t.takeWhile letter), t.dropWhile letter, ?_, List.cons_ne_nil _ _, ?_, ?_⟩
    · exact congrArg (c :: ·) (List.takeWhile_append_dropWhile ..).symm
    · intro d hd
      obtain rfl | hd := List.mem_cons.mp hd
      · exact hc
      · exact List.mem_takeWhile_imp hd
    · intro d hd
      have h2 := List.head?_dropWhile_not letter t
      rw [hd] at h2
      exact h2

theorem spells_lexemes (s : Str) : Spells (lexemes s) s := by
  induction h : s.length using Nat.strongRecOn generalizing s with
  | ind n ih =>
    obtain ⟨g, hg, hs⟩ := exists_gap s
    by_cases hne : skip s = []
    · rw [hne, List.append_nil] at hs
      unfold lexemes
      rw [tokens_nil hne, hs]
      exact .nil hg
    · obtain ⟨y, rest, hy, hends⟩ := exists_lexeme hne
      rw [hy] at hs
      rw [hs, lexemes_text hg hends]
      refine .cons hg hends (ih rest.length ?_ rest rfl)
      have hpos := hends.length
      rw [← h, hs, List.length_append, List.length_append]
      omega

/-- `tokens` finds what the line spells -/
theorem lexemes_iff {ys : List (Lexeme Str)} : lexemes s = ys ↔ Spells ys s := by
  constructor
  · rintro rfl
    exact spells_lexemes s
  · intro h
    induction h with
    | nil hg =>
      have hs := skip_gap (s := []) hg
      rw [List.append_nil] at hs
      unfold lexemes
      rw [tokens_nil hs, List.map_nil]
    | cons hg hx _ ih => rw [lexemes_text hg hx, ih]

end

end Sh
