import Mathlib.Data.Fintype.Basic
import Mathlib.Data.Finset.Card

/-!
# Counting references

`refs m a` is the number of places of `m` that point to `a`.
-/

namespace Lib

section
variable {ι α : Type*} [Fintype ι] [DecidableEq α]

def refs (m : ι → Option α) (a : α) : Nat := (Finset.univ.filter (fun i => m i = some a)).card

variable {m : ι → Option α} {i : ι} {a b : α}

theorem refs_empty (a : α) : refs (fun _ : ι => none) a = 0 := by
  unfold refs
  rw [Finset.card_eq_zero, Finset.filter_eq_empty_iff]
  exact fun _ _ => nofun

theorem refs_eq_zero_iff : refs m a = 0 ↔ ∀ i, m i ≠ some a := by
  unfold refs
  rw [Finset.card_eq_zero, Finset.filter_eq_empty_iff]
  exact ⟨fun h i => h (Finset.mem_univ i), fun h i _ => h i⟩

variable [DecidableEq ι]

theorem refs_add (hi : m i = none) (b : α) :
    refs (Function.update m i (some b)) a = refs m a + if a = b then 1 else 0 := by
  unfold refs
  by_cases e : a = b
  · subst e
    have hset : Finset.univ.filter (fun j => Function.update m i (some a) j = some a)
        = insert i (Finset.univ.filter (fun j => m j = some a)) := by
      ext j
      by_cases hj : j = i
      · subst hj
        simp
      · simp [hj]
    rw [hset, Finset.card_insert_of_notMem (by simp [hi]), if_pos rfl]
  · rw [if_neg e, Nat.add_zero]
    congr 1
    ext j
    by_cases hj : j = i
    · subst hj
      simp [hi, Ne.symm e]
    · simp [hj]

theorem refs_drop (hi : m i = some b) :
    refs (Function.update m i none) a + (if a = b then 1 else 0) = refs m a := by
  have h : Function.update m i none i = none := Function.update_self ..
  have e : Function.update (Function.update m i none) i (some b) = m := by
    rw [Function.update_idem, ← hi, Function.update_eq_self]
  rw [← refs_add h b, e]

end

end Lib
