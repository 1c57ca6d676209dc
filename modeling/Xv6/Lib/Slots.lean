import Mathlib.Data.Fintype.Card
import Mathlib.Data.Fintype.Basic
import Mathlib.Data.Fin.Tuple.Basic

/-!
# Tables of slots

A table of `n` slots, each free or taken.  `alloc` takes the lowest free slot, `release` frees one.
`free` counts the free slots; each operation changes it by one.
-/

namespace Lib

section
variable {n : Nat} {α : Type*}

abbrev Slots (n : Nat) (α : Type*) := Fin n → Option α

namespace Slots

/-- put `a` into the lowest free slot -/
def alloc (t : Slots n α) (a : α) : Option (Slots n α × Fin n) :=
  (Fin.find? (fun i => (t i).isNone)).map (fun i => (Function.update t i (some a), i))

def release (t : Slots n α) (i : Fin n) : Slots n α := Function.update t i none

def free (t : Slots n α) : Nat := (Finset.univ.filter (fun i => (t i).isNone = true)).card

variable {t t' : Slots n α} {a b : α} {i j : Fin n}

theorem alloc_of_lowest (hi : t i = none) (hlow : ∀ j < i, t j ≠ none) :
    alloc t a = some (Function.update t i (some a), i) := by
  have h : Fin.find? (fun i => (t i).isNone) = some i := by
    rw [Fin.find?_eq_some_iff]
    refine ⟨by simp [hi], fun j hj => ?_⟩
    simpa [Option.isSome_iff_ne_none] using hlow j hj
  unfold alloc
  rw [h]
  rfl

theorem alloc_spec (h : alloc t a = some (t', i)) :
    t i = none ∧ (∀ j < i, t j ≠ none) ∧ t' = Function.update t i (some a) := by
  unfold alloc at h
  obtain ⟨k, hk, e⟩ := Option.map_eq_some_iff.mp h
  obtain ⟨rfl, rfl⟩ := Prod.mk.inj e
  rw [Fin.find?_eq_some_iff] at hk
  refine ⟨by simpa using hk.1, fun j hj e => ?_, rfl⟩
  have h1 := hk.2 j hj
  rw [e] at h1
  exact absurd h1 (by simp)

theorem alloc_eq_none_iff : alloc t a = none ↔ free t = 0 := by
  unfold alloc free
  rw [Option.map_eq_none_iff, Fin.find?_eq_none_iff, Finset.card_eq_zero,
    Finset.filter_eq_empty_iff]
  simp [Option.isSome_iff_ne_none]

theorem free_update_some (hi : t i = none) : free (Function.update t i (some a)) + 1 = free t := by
  have e : Finset.univ.filter (fun j => (Function.update t i (some a) j).isNone = true)
      = (Finset.univ.filter (fun j => (t j).isNone = true)).erase i := by
    ext j
    by_cases hj : j = i
    · simp [hj]
    · simp [hj]
  unfold free
  rw [e]
  exact Finset.card_erase_add_one (by simp [hi])

theorem free_release (hi : t i ≠ none) : free (release t i) = free t + 1 := by
  obtain ⟨a, ha⟩ := Option.ne_none_iff_exists'.mp hi
  have h : release t i i = none := by simp [release]
  have e : Function.update (release t i) i (some a) = t := by
    unfold release
    rw [Function.update_idem, ← ha, Function.update_eq_self]
  rw [← free_update_some (a := a) h, e]

theorem exists_alloc (h : 0 < free t) (a : α) : ∃ t' i, alloc t a = some (t', i) := by
  cases e : alloc t a with
  | none =>
    rw [alloc_eq_none_iff] at e
    omega
  | some p => exact ⟨p.1, p.2, rfl⟩

theorem update_release : Function.update (release t i) i (some a) = Function.update t i (some a) :=
  Function.update_idem ..

theorem update_eq_some (h : Function.update t i (some a) j = some b) :
    j = i ∧ a = b ∨ t j = some b := by
  by_cases e : j = i
  · rw [e, Function.update_self] at h
    exact Or.inl ⟨e, Option.some.inj h⟩
  · rw [Function.update_of_ne e] at h
    exact Or.inr h

theorem free_update_taken (hi : t i ≠ none) : free (Function.update t i (some a)) = free t := by
  have h : release t i i = none := by simp [release]
  have h1 := free_update_some (a := a) h
  have h2 := free_release hi
  rw [update_release] at h1
  omega

theorem release_update (hi : t i = none) : release (Function.update t i (some a)) i = t := by
  unfold release
  rw [Function.update_idem, ← hi, Function.update_eq_self]

end Slots

end

end Lib
