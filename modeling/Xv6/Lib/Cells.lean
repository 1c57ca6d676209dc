import Mathlib.Data.List.Basic

/-!
# Buffers with unwritten cells

A buffer whose cells hold nothing until they are written.  A string can be built in front of what
is there, ending at a fixed cell, and be moved to the start of the buffer afterwards.
-/

namespace Lib

/-- a buffer; `none` is a cell that was not written -/
abbrev Cells (α : Type*) := Nat → Option α

section
variable {α : Type*} {m : Cells α} {i k n pos : Nat} {s t : List α}

/-- `s` at position `pos` -/
def Cells.write (m : Cells α) (pos : Nat) (s : List α) : Cells α :=
  fun i => if pos ≤ i ∧ i < pos + s.length then s[i - pos]? else m i

def Cells.slide (m : Cells α) (src n : Nat) : Cells α :=
  fun i => if i < n then m (src + i) else m i

def Cells.blank : Cells α := fun _ => none

def Cells.ending (k : Nat) (t : List α) : Cells α := Cells.blank.write (k - t.length) t

theorem Cells.write_of_inside (h1 : pos ≤ i) (h2 : i < pos + s.length) :
    m.write pos s i = s[i - pos]? := if_pos ⟨h1, h2⟩

theorem Cells.write_of_outside (h : i < pos ∨ pos + s.length ≤ i) : m.write pos s i = m i :=
  if_neg (by omega)

theorem Cells.slide_of_lt (h : i < n) : m.slide k n i = m (k + i) := if_pos h

theorem Cells.write_nil : m.write pos [] = m := by
  funext i
  exact write_of_outside (by rw [List.length_nil]; omega)

theorem Cells.write_write (s t : List α) :
    (m.write (pos + s.length) t).write pos s = m.write pos (s ++ t) := by
  funext i
  by_cases h1 : i < pos
  · rw [write_of_outside (Or.inl h1), write_of_outside (Or.inl (by omega)),
      write_of_outside (Or.inl h1)]
  by_cases h2 : i < pos + s.length
  · rw [write_of_inside (by omega) h2, write_of_inside (by omega) (by rw [List.length_append]; omega),
      List.getElem?_append_left (by omega)]
  rw [write_of_outside (Or.inr (by omega))]
  by_cases h3 : i < pos + s.length + t.length
  · rw [write_of_inside (by omega) h3, write_of_inside (by omega) (by rw [List.length_append]; omega),
      List.getElem?_append_right (by omega), Nat.sub_sub]
  · rw [write_of_outside (Or.inr (by omega)),
      write_of_outside (Or.inr (by rw [List.length_append]; omega))]

theorem Cells.write_comm (h : pos + s.length ≤ k) :
    (m.write k t).write pos s = (m.write pos s).write k t := by
  funext i
  by_cases hs : pos ≤ i ∧ i < pos + s.length
  · rw [write_of_inside hs.1 hs.2, write_of_outside (by omega), write_of_inside hs.1 hs.2]
  · rw [write_of_outside (by omega)]
    by_cases ht : k ≤ i ∧ i < k + t.length
    · rw [write_of_inside ht.1 ht.2, write_of_inside ht.1 ht.2]
    · rw [write_of_outside (by omega), write_of_outside (by omega), write_of_outside (by omega)]

theorem Cells.ending_nil (k : Nat) : Cells.ending k ([] : List α) = Cells.blank := write_nil

theorem Cells.write_ending (s t : List α) (h : s.length + t.length ≤ k) :
    (Cells.ending k t).write (k - t.length - s.length) s = Cells.ending k (s ++ t) := by
  have hpos : k - t.length = k - (s ++ t).length + s.length := by
    rw [List.length_append]
    omega
  unfold ending
  rw [hpos, Nat.add_sub_cancel, write_write]

/-- from the start of the string on, it is followed by a cell that was not written -/
theorem Cells.ending_of_lt (h : t.length ≤ k) (hi : i < t.length) :
    Cells.ending k t (k - t.length + i) = t[i]? := by
  unfold ending
  rw [write_of_inside (by omega) (by omega), Nat.add_sub_cancel_left]

theorem Cells.ending_end (h : t.length ≤ k) : Cells.ending k t k = none :=
  write_of_outside (by omega)

end

end Lib
