import Mathlib.Data.List.DropRight

/-!
# A window over a growing list

A bounded buffer that gives up its oldest element for each new one holds, after any number of
insertions, the last elements of everything that was ever inserted.
-/

namespace Lib

section
variable {α β : Type*} {n : Nat}

/-- one insertion into a buffer of at most `n` elements -/
def slide (n : Nat) (l : List α) (x : α) : List α :=
  (if l.length = n then l.drop 1 else l) ++ [x]

theorem rtake_length (n : Nat) (L : List α) : (L.rtake n).length = min n L.length := by
  unfold List.rtake
  rw [List.length_drop]
  omega

theorem rtake_getElem? (n : Nat) (L : List α) (i : Nat) :
    (L.rtake n)[i]? = L[L.length - n + i]? := by
  unfold List.rtake
  rw [List.getElem?_drop]

theorem slide_rtake (hn : 0 < n) (L : List α) (x : α) :
    slide n (L.rtake n) x = (L ++ [x]).rtake n := by
  obtain ⟨m, rfl⟩ : ∃ m, n = m + 1 := ⟨n - 1, by omega⟩
  rw [List.rtake_concat_succ]
  unfold slide
  rw [rtake_length]
  congr 1
  unfold List.rtake
  by_cases h : m + 1 ≤ L.length
  · rw [if_pos (by omega), List.drop_drop]
    congr 1
    omega
  · rw [if_neg (by omega)]
    congr 1
    omega

theorem map_slide (f : α → β) (l : List α) (x : α) :
    (slide n l x).map f = slide n (l.map f) (f x) := by
  unfold slide
  rw [List.map_append, List.length_map]
  split
  · rw [List.map_drop]
    rfl
  · rfl

end

end Lib
