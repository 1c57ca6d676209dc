import Mathlib.Algebra.BigOperators.Group.Finset.Piecewise
import Mathlib.Algebra.Order.BigOperators.Group.Finset

/-!
# Counting through a table of lists

`tally n f P` is the number of elements with property `P` in the lists `f 0`, ..., `f (n - 1)`.  When
one list is exchanged the number changes by what that list has more or less (`tally_update`).
-/

namespace Lib

section
variable {α : Type*} {n d k : Nat} {f : Nat → List α} {l : List α} {P : α → Bool} {a b : α}

def tally (n : Nat) (f : Nat → List α) (P : α → Bool) : Nat :=
  ∑ d ∈ Finset.range n, (f d).countP P

theorem tally_update (hd : d < n) :
    tally n (Function.update f d l) P + (f d).countP P = tally n f P + l.countP P := by
  have hmem := Finset.mem_range.mpr hd
  have hcomp : (fun j => (Function.update f d l j).countP P) =
      Function.update (fun j => (f j).countP P) d (l.countP P) := by
    funext j
    by_cases h : j = d
    · rw [h, Function.update_self, Function.update_self]
    · rw [Function.update_of_ne h, Function.update_of_ne h]
  have hold := Finset.sum_update_of_mem hmem (fun j => (f j).countP P) ((f d).countP P)
  rw [Function.update_eq_self] at hold
  unfold tally
  rw [hcomp, Finset.sum_update_of_mem hmem, hold]
  omega

theorem countP_le_tally (hd : d < n) : (f d).countP P ≤ tally n f P :=
  Finset.single_le_sum (f := fun j => (f j).countP P) (fun _ _ => Nat.zero_le _)
    (Finset.mem_range.mpr hd)

theorem tally_pos (hd : d < n) (ha : a ∈ f d) (hp : P a = true) : 0 < tally n f P :=
  (List.countP_pos_iff.mpr ⟨a, ha, hp⟩).trans_le (countP_le_tally hd)

theorem countP_set (h : l[k]? = some a) :
    (l.set k b).countP P + (if P a then 1 else 0) = l.countP P + if P b then 1 else 0 := by
  induction l generalizing k with
  | nil => exact absurd h nofun
  | cons c l ih =>
    cases k with
    | zero =>
      obtain rfl := Option.some.inj h
      rw [List.set_cons_zero, List.countP_cons, List.countP_cons]
      omega
    | succ k =>
      rw [List.set_cons_succ, List.countP_cons, List.countP_cons]
      have := ih (k := k) h
      omega

end

end Lib
