import Xv6.Lib.Occurs

/-!
# Find and replace (`user/fnr.c`)

A string is the list of its bytes up to the NUL.  A line is far shorter than `2^31`, so neither
`int j` nor the `uint` lengths wrap, and since the length of `line` is not below `find_len`, the
bound of the scan is a difference of numbers.
-/

namespace Fnr
open Lib

/-! ## the model -/

/-- `for (k = 0; *p && *p == *q && k < find_len; ++k)`, from `p` and `q` on: the last `k`; the end of
`find` is where `q` has no byte -/
def matchLoop : List UInt8 → List UInt8 → Nat
  | a :: p, b :: q => if a = b then matchLoop p q + 1 else 0
  | _, _ => 0

/-- `memcpy(line + j, src, n)`; `line` and `src` do not overlap -/
def memcpy (line : List UInt8) (j : Nat) (src : List UInt8) (n : Nat) : List UInt8 :=
  line.take j ++ src.take n ++ line.drop (j + n)

/-- one round of the loop over `j` -/
def scanAt (find repl : List UInt8) (j : Nat) (line : List UInt8) : List UInt8 :=
  if matchLoop (line.drop j) find = find.length then memcpy line j repl find.length else line

/-- the loop over `j`, with the rounds that are left -/
def scanLoop (find repl : List UInt8) : Nat → Nat → List UInt8 → List UInt8
  | 0, _, line => line
  | k + 1, j, line =>
    if j < line.length - find.length then scanLoop find repl k (j + 1) (scanAt find repl j line)
    else line

/-- what is done with `line` for one pair of arguments -/
def replacePair (find repl line : List UInt8) : List UInt8 :=
  if line.length < find.length then line else scanLoop find repl line.length 0 line

/-! ## one round -/

section
variable {find repl line t : List UInt8} {j k : Nat}

/-- the inner loop counts to `find_len` exactly where `find` stands -/
theorem matchLoop_eq_iff (p q : List UInt8) : matchLoop p q = q.length ↔ Occurs q p 0 := by
  induction p generalizing q with
  | nil =>
    cases q with
    | nil => exact ⟨fun _ k hk => absurd hk (Nat.not_lt_zero k), fun _ => rfl⟩
    | cons b q =>
      constructor
      · intro h
        exact absurd h nofun
      · intro h
        exact absurd (h.le (by simp)) (by simp)
  | cons a p ih =>
    cases q with
    | nil => exact ⟨fun _ k hk => absurd hk (Nat.not_lt_zero k), fun _ => rfl⟩
    | cons b q =>
      have hcons : Occurs (b :: q) (a :: p) 0 ↔ a = b ∧ Occurs q p 0 := by
        constructor
        · intro h
          refine ⟨Option.some.inj (h 0 (by simp)), fun k hk => ?_⟩
          have hs := h (k + 1) (by simpa using hk)
          rw [Nat.zero_add] at hs ⊢
          exact hs
        · rintro ⟨rfl, h⟩ k hk
          rw [Nat.zero_add]
          cases k with
          | zero => rfl
          | succ k =>
            have hs := h k (by simpa using hk)
            rw [Nat.zero_add] at hs
            exact hs
      rw [hcons, ← ih q]
      show (if a = b then matchLoop p q + 1 else 0) = q.length + 1 ↔ _
      by_cases hab : a = b
      · rw [if_pos hab]
        simp [hab]
      · rw [if_neg hab]
        simp [hab]

theorem matchLoop_drop : matchLoop (line.drop j) find = find.length ↔ Occurs find line j := by
  rw [matchLoop_eq_iff]
  unfold Occurs
  simp only [Nat.zero_add, List.getElem?_drop]

theorem scanAt_eq (hlen : repl.length = find.length) :
    scanAt find repl j line = if Occurs find line j then overwrite line repl j else line := by
  unfold scanAt
  by_cases ho : Occurs find line j
  · rw [if_pos (matchLoop_drop.mpr ho), if_pos ho]
    unfold memcpy overwrite
    rw [← hlen, List.take_length]
  · rw [if_neg (fun hm => ho (matchLoop_drop.mp hm)), if_neg ho]

variable (hlen : repl.length = find.length) (hpos : 0 < find.length) (hno : Unused find repl)
include hlen hpos hno

theorem scanAt_replaced (h : Replaced find repl line t (hits find line j)) :
    Replaced find repl line (scanAt find repl j t) (hits find line (j + 1)) := by
  rw [scanAt_eq hlen]
  by_cases ho : Occurs find t j
  · have hit := mem_hits_succ.mp ((h.occurs_iff_hit hlen hpos hno).mp ho)
    rw [if_pos ho, hits_succ, if_pos hit]
    exact h.replace hlen hpos hno ho
  · have hmiss := fun hm => ho ((h.occurs_iff_hit hlen hpos hno).mpr (mem_hits_succ.mpr hm))
    rw [if_neg ho, hits_succ, if_neg hmiss]
    exact h

/-- the scan ends one position short of the last where `find` fits -/
theorem scanLoop_replaced (h : Replaced find repl line t (hits find line j))
    (hj : j ≤ line.length - find.length) (hk : line.length - find.length ≤ j + k) :
    Replaced find repl line (scanLoop find repl k j t)
      (hits find line (line.length - find.length)) := by
  induction k generalizing j t with
  | zero =>
    obtain rfl : j = line.length - find.length := by omega
    exact h
  | succ k ih =>
    unfold scanLoop
    rw [h.length]
    split
    · exact ih (scanAt_replaced hlen hpos hno h) (by omega) (by omega)
    · obtain rfl : j = line.length - find.length := by omega
      exact h

theorem replacePair_replaced : Replaced find repl line (replacePair find repl line)
    (hits find line (line.length - find.length)) := by
  unfold replacePair
  split
  · have hz : line.length - find.length = 0 := by omega
    rw [hz]
    exact Replaced.refl
  · exact scanLoop_replaced hlen hpos hno Replaced.refl (Nat.zero_le _) (by omega)

end

/-! ## what is left -/

/-- the last of the occurrences of `find`, taken from left to right without overlap, ends where the
line ends -/
def EndsInHit (find line : List UInt8) : Prop :=
  line.length - find.length ∈ hits find line (line.length - find.length + 1)

instance (find line : List UInt8) : Decidable (EndsInHit find line) :=
  inferInstanceAs (Decidable (_ ∈ _))

/-- for words of equal length, with no occurrence of `find` on a byte of `repl`: the occurrences are
all gone, and what changed are occurrences that have become `repl`, exactly when the line does not
end in one -/
theorem find_replaced_iff (find repl line : List UInt8) (hlen : repl.length = find.length)
    (hpos : 0 < find.length) (hno : Unused find repl) :
    ((∀ i, ¬ Occurs find (replacePair find repl line) i) ∧
      ∃ P, Replaced find repl line (replacePair find repl line) P) ↔ ¬ EndsInHit find line := by
  have h : Replaced find repl line (replacePair find repl line) _ :=
    replacePair_replaced hlen hpos hno
  have hend := h.occurs_iff_hit hlen hpos hno
  constructor
  · rintro ⟨hnone, -⟩ he
    exact hnone _ (hend.mpr he)
  · intro he
    refine ⟨fun i ho => ?_, _, h⟩
    have hle := ho.le hpos
    rw [h.length] at hle
    rcases Nat.lt_or_ge i (line.length - find.length) with hlt | hge
    · exact h.not_occurs hlen hpos hno hlt ho
    · obtain rfl : i = line.length - find.length := by omega
      exact he (hend.mp ho)

/-- `"xab"` with `ab` for `cd` stays as it is -/
theorem find_left_at_end : ∃ find repl line : List UInt8, repl.length = find.length ∧
    0 < find.length ∧ Unused find repl ∧ ¬ ((∀ i, ¬ Occurs find (replacePair find repl line) i) ∧
      ∃ P, Replaced find repl line (replacePair find repl line) P) := by
  refine ⟨[97, 98], [99, 100], [120, 97, 98], by decide, by decide,
    unused_of_disjoint (by simp) (by decide) (by decide), ?_⟩
  rintro ⟨hnone, -⟩
  exact hnone 1 (by decide)

/-- `"abxab\n"` -/
theorem find_replaced_line : ((∀ i, ¬ Occurs [97, 98]
      (replacePair [97, 98] [99, 100] [97, 98, 120, 97, 98, 10]) i) ∧
      ∃ P, Replaced [97, 98] [99, 100] [97, 98, 120, 97, 98, 10]
        (replacePair [97, 98] [99, 100] [97, 98, 120, 97, 98, 10]) P) ∧
    replacePair [97, 98] [99, 100] [97, 98, 120, 97, 98, 10] = [99, 100, 120, 99, 100, 10] :=
  ⟨(find_replaced_iff _ _ _ (by decide) (by decide)
    (unused_of_disjoint (by simp) (by decide) (by decide))).mpr (by decide), by decide⟩

end Fnr
