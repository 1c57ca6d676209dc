import Mathlib.Logic.Function.Basic

/-!
# Merges of many lists

`Merge p out`: `out` takes the lists `p i` apart, each from first to last, in any order between
them.  Nothing is left and nothing is added.
-/

namespace Lib

section
variable {ι β : Type*} [DecidableEq ι]

inductive Merge : (ι → List β) → List β → Prop
  | nil : Merge (fun _ => []) []
  | cons {p : ι → List β} {out : List β} (i : ι) (b : β) :
      Merge p out → Merge (Function.update p i (b :: p i)) (b :: out)

variable {p q : ι → List β} {out rest : List β} {b : β} {i : ι}

theorem Merge.eq_nil (h : Merge p []) : p i = [] := by
  cases h
  rfl

theorem Merge.head (h : Merge q (b :: rest)) :
    ∃ i tail, q i = b :: tail ∧ Merge (Function.update q i tail) rest := by
  cases h with
  | @cons p _ i _ h =>
    refine ⟨i, p i, Function.update_self .., ?_⟩
    rwa [Function.update_idem, Function.update_eq_self]

/-- the lists grow at their ends, too -/
theorem Merge.snoc (h : Merge p out) (i : ι) (b : β) :
    Merge (Function.update p i (p i ++ [b])) (out ++ [b]) := by
  induction h with
  | nil => exact Merge.cons i b .nil
  | @cons p out j c _ ih =>
    have e : Function.update (Function.update p j (c :: p j)) i
        (Function.update p j (c :: p j) i ++ [b]) =
        Function.update (Function.update p i (p i ++ [b])) j
          (c :: Function.update p i (p i ++ [b]) j) := by
      by_cases hij : i = j
      · subst hij
        rw [Function.update_self, Function.update_self, Function.update_idem, Function.update_idem]
        rfl
      · rw [Function.update_of_ne hij, Function.update_of_ne (Ne.symm hij),
          Function.update_comm hij]
    rw [e]
    exact .cons j c ih

/-- what comes first takes its part of every list -/
theorem Merge.split : ∀ {out : List β} {p : ι → List β}, Merge p (out ++ rest) →
    ∃ p' p'', Merge p' out ∧ Merge p'' rest ∧ ∀ i, p i = p' i ++ p'' i
  | [], p, h => ⟨fun _ => [], p, .nil, h, fun _ => rfl⟩
  | b :: out, p, h => by
    obtain ⟨i, tail, hi, htail⟩ := h.head
    obtain ⟨p', p'', hout, hrest, hp⟩ := htail.split
    refine ⟨_, p'', hout.cons i b, hrest, fun j => ?_⟩
    by_cases hj : j = i
    · subst hj
      rw [Function.update_self, hi, List.cons_append, ← hp j, Function.update_self]
    · rw [Function.update_of_ne hj, ← hp j, Function.update_of_ne hj]

/-- the first element of one merge goes behind the other -/
theorem Merge.move (hp : Merge p out) (hq : Merge q (b :: rest)) :
    ∃ p' q', Merge p' (out ++ [b]) ∧ Merge q' rest ∧
      ∀ i, p' i ++ q' i = p i ++ q i ∧ (q i = [] → q' i = []) := by
  obtain ⟨i, tail, hi, hrest⟩ := hq.head
  refine ⟨_, _, hp.snoc i b, hrest, fun j => ?_⟩
  by_cases hj : j = i
  · subst hj
    rw [Function.update_self, Function.update_self, hi, List.append_assoc]
    exact ⟨rfl, fun h => absurd h (List.cons_ne_nil _ _)⟩
  · rw [Function.update_of_ne hj, Function.update_of_ne hj]
    exact ⟨rfl, id⟩

end

end Lib
