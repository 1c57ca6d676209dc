import Mathlib.Algebra.Group.Int.Defs
import Mathlib.Algebra.Group.Nat.Defs
import Mathlib.Data.List.TakeWhile

/-!
# Strings and line input (`user/ulib.c`)

A C string is the list of its characters before the NUL.  A descriptor that is read from is the
list of characters that it still delivers.
-/

namespace Ulib

abbrev Str := List Char

/-- the string that starts a buffer -/
def cstr (buf : Str) : Str := buf.takeWhile (· ≠ '\x00')

/-- the loop of `fgets` with room for `room` more characters: what it reads and what stays -/
def fgetsLoop : Nat → Str → Str × Str
  | 0, input => ([], input)
  | _ + 1, [] => ([], [])
  | room + 1, c :: input =>
    if c = '\n' ∨ c = '\r' then ([c], input)
    else (c :: (fgetsLoop room input).1, (fgetsLoop room input).2)

def fgets (max : Nat) (input : Str) : Str × Str := fgetsLoop (max - 1) input

def isDigit (c : Char) : Bool := '0' ≤ c && c ≤ '9'

/-- the value is an `int` -/
def atoi (s : Str) : Nat :=
  (s.takeWhile isDigit).foldl (fun n c => (n * 10 + (c.toNat - '0'.toNat)) % 2 ^ 32) 0

/-- `next_token(&p, delim)`: the token, and the new value of the pointer -/
def nextToken (p : Option Str) (delim : Str) : Option Str × Option Str :=
  match p with
  | none => (none, none)
  | some s =>
    let start := s.dropWhile (· ∈ delim)
    let tok := start.takeWhile (· ∉ delim)
    if tok = [] then (none, none)
    else match start.drop tok.length with
    | [] => (some tok, none)
    | _ :: rest => (some tok, some rest)

/-! ## reading a line -/

theorem cstr_eq_self {s : Str} (h : '\x00' ∉ s) : cstr s = s := by
  unfold cstr
  rw [List.takeWhile_eq_self_iff]
  intro c hc
  simpa using fun e : c = '\x00' => h (e ▸ hc)

/-- a string ends at its first NUL -/
theorem cstr_append (s t : Str) : cstr (s ++ '\x00' :: t) = cstr s := by
  induction s with
  | nil => rfl
  | cons c s ih =>
    unfold cstr at ih ⊢
    rw [List.cons_append, List.takeWhile_cons, List.takeWhile_cons, ih]

/-- a line is read up to and with the first character that ends one -/
theorem fgetsLoop_stop {room : Nat} {e : Char} {s rest : Str} (he : e = '\n' ∨ e = '\r')
    (hn : '\n' ∉ s) (hr : '\r' ∉ s) (hroom : s.length < room) :
    fgetsLoop room (s ++ e :: rest) = (s ++ [e], rest) := by
  induction s generalizing room with
  | nil =>
    cases room with
    | zero => exact absurd hroom (Nat.not_lt_zero _)
    | succ room =>
      show (if e = '\n' ∨ e = '\r' then _ else _) = _
      rw [if_pos he]
      rfl
  | cons c s ih =>
    cases room with
    | zero => exact absurd hroom (Nat.not_lt_zero _)
    | succ room =>
      rw [List.mem_cons, not_or] at hn hr
      have h1 := ih hn.2 hr.2 (by simpa using hroom)
      show (if c = '\n' ∨ c = '\r' then _ else (c :: (fgetsLoop room (s ++ e :: rest)).1,
        (fgetsLoop room (s ++ e :: rest)).2)) = _
      rw [if_neg (fun h => h.elim (Ne.symm hn.1) (Ne.symm hr.1)), h1]
      rfl

/-! ## a token -/

theorem dropWhile_head {p : Char → Bool} {s w : Str} {c : Char} (h : s.dropWhile p = c :: w) :
    p c = false := by
  have hh := List.head?_dropWhile_not p s
  rw [h] at hh
  exact hh

theorem nextToken_none {s delim : Str} (h : (nextToken (some s) delim).1 = none) :
    ∀ c ∈ s, c ∈ delim := by
  unfold nextToken at h
  dsimp only at h
  split at h
  · rename_i h0
    cases hs : s.dropWhile (· ∈ delim) with
    | nil =>
      intro c hc
      exact of_decide_eq_true (List.dropWhile_eq_nil_iff.mp hs c hc)
    | cons x w =>
      have hx := of_decide_eq_false (dropWhile_head hs)
      rw [hs, List.takeWhile_cons_of_pos (by simpa using hx)] at h0
      exact absurd h0 (List.cons_ne_nil _ _)
  · split at h
    · exact absurd h (by simp)
    · exact absurd h (by simp)

/-- the delimiters in front, the token, and what stands behind it -/
theorem nextToken_some {s t delim : Str} {r : Option Str}
    (h : nextToken (some s) delim = (some t, r)) : t ≠ [] ∧ (∀ c ∈ t, c ∉ delim) ∧
      ∃ a, (∀ c ∈ a, c ∈ delim) ∧ (r = none ∧ s = a ++ t ∨
        ∃ c w, c ∈ delim ∧ r = some w ∧ s = a ++ (t ++ c :: w)) := by
  have hs : s.takeWhile (· ∈ delim) ++ s.dropWhile (· ∈ delim) = s :=
    List.takeWhile_append_dropWhile
  unfold nextToken at h
  dsimp only at h
  generalize s.dropWhile (· ∈ delim) = start at h hs
  have hstart : start.takeWhile (· ∉ delim) ++ start.dropWhile (· ∉ delim) = start :=
    List.takeWhile_append_dropWhile
  have hdrop : start.drop (start.takeWhile (· ∉ delim)).length = start.dropWhile (· ∉ delim) :=
    (congrArg (List.drop _) hstart).symm.trans List.drop_left
  rw [hdrop] at h
  have htok : ∀ c ∈ start.takeWhile (· ∉ delim), c ∉ delim := by
    intro c hc
    simpa using List.mem_takeWhile_imp hc
  have hfront : ∀ c ∈ s.takeWhile (· ∈ delim), c ∈ delim := by
    intro c hc
    simpa using List.mem_takeWhile_imp hc
  split at h
  · exact absurd (congrArg Prod.fst h) (by simp)
  · rename_i hne
    split at h
    · rename_i hrest
      obtain ⟨e1, rfl⟩ := Prod.mk.inj h
      rw [hrest, List.append_nil, Option.some.inj e1] at hstart
      rw [Option.some.inj e1] at hne htok
      refine ⟨hne, htok, _, hfront, Or.inl ⟨rfl, ?_⟩⟩
      rw [hstart, hs]
    · rename_i c w hrest
      obtain ⟨e1, rfl⟩ := Prod.mk.inj h
      have hc := dropWhile_head hrest
      rw [hrest, Option.some.inj e1] at hstart
      rw [Option.some.inj e1] at hne htok
      refine ⟨hne, htok, _, hfront, Or.inr ⟨c, w, ?_, rfl, ?_⟩⟩
      · exact not_not.mp (of_decide_eq_false hc)
      · rw [hstart, hs]

end Ulib
