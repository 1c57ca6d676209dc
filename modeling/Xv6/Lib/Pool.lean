import Mathlib.Algebra.BigOperators.Group.Finset.Piecewise
import Mathlib.Algebra.Order.Group.Multiset
import Mathlib.Algebra.BigOperators.Group.Multiset.Basic

/-!
# What places hold

`held s f` is the multiset of the things in the places `s` of `f`, each of which is empty or holds
one.  To say that a thing is in exactly one place is to say that such a multiset has no duplicates.
-/

namespace Lib

section
variable {ι α : Type*}

/-- the thing in a place, if there is one -/
def single : Option α → Multiset α
  | none => 0
  | some a => {a}

/-- all things in the places of `s` -/
@[irreducible] def held (s : Finset ι) (f : ι → Option α) : Multiset α := ∑ i ∈ s, single (f i)

variable {s : Finset ι} {f g : ι → Option α} {i : ι} {a : α}

theorem mem_held : a ∈ held s f ↔ ∃ i ∈ s, f i = some a := by
  unfold held
  rw [Multiset.mem_sum]
  refine exists_congr fun i => and_congr_right fun _ => ?_
  cases f i with
  | none => exact iff_of_false (Multiset.notMem_zero a) nofun
  | some b =>
    show a ∈ ({b} : Multiset α) ↔ _
    rw [Multiset.mem_singleton, Option.some_inj]
    exact eq_comm

theorem held_congr (h : ∀ i ∈ s, f i = g i) : held s f = held s g := by
  unfold held
  exact Finset.sum_congr rfl (fun i hi => by rw [h i hi])

theorem held_none (h : ∀ i ∈ s, f i = none) : held s f = 0 := by
  unfold held
  refine Finset.sum_eq_zero (fun i hi => ?_)
  rw [h i hi]
  rfl

theorem card_held : (held s f).card = (s.filter (fun i => (f i).isSome = true)).card := by
  have hcard : (held s f).card = ∑ i ∈ s, (single (f i)).card := by
    unfold held
    exact map_sum (Multiset.cardHom : Multiset α →+ ℕ) _ s
  rw [hcard, Finset.card_filter]
  refine Finset.sum_congr rfl (fun i _ => ?_)
  cases f i with
  | none => rfl
  | some a => rfl

variable [DecidableEq ι]

theorem held_split (hi : i ∈ s) : held s f = single (f i) + held (s.erase i) f := by
  unfold held
  exact (Finset.add_sum_erase s _ hi).symm

theorem held_erase_update {x : Option α} :
    held (s.erase i) (Function.update f i x) = held (s.erase i) f :=
  held_congr (fun _ hj => Function.update_of_ne (Finset.ne_of_mem_erase hj) _ _)

theorem held_fill (hi : i ∈ s) (hf : f i = none) :
    held s (Function.update f i (some a)) = a ::ₘ held s f := by
  rw [held_split hi, held_split (f := f) hi, held_erase_update, Function.update_self, hf]
  show {a} + _ = a ::ₘ (0 + _)
  rw [zero_add, Multiset.singleton_add]

theorem held_clear (hi : i ∈ s) (hf : f i = some a) :
    a ::ₘ held s (Function.update f i none) = held s f := by
  rw [held_split hi, held_split (f := f) hi, held_erase_update, Function.update_self, hf]
  show a ::ₘ (0 + _) = {a} + _
  rw [zero_add, Multiset.singleton_add]

/-- places in rows of `n` -/
theorem held_rows (f : Nat → Option α) (n k : Nat) : held (Finset.range (n * k)) f =
    ∑ i ∈ Finset.range k, held (Finset.range n) (fun j => f (n * i + j)) := by
  induction k with
  | zero => exact held_none (fun i hi => absurd (Finset.mem_range.mp hi) (Nat.not_lt_zero i))
  | succ k ih =>
    rw [Finset.sum_range_succ, ← ih, Nat.mul_succ]
    unfold held
    exact Finset.sum_range_add (fun i => single (f i)) (n * k) n

/-- a loop over places that puts into a list what each holds -/
theorem foldlM_held {f : List α → Nat → Option (List α)} {w : Nat → Multiset α} (n : Nat)
    (l : List α) (h : ∀ i < n, ∀ l, ∃ l', f l i = some l' ∧ (l' : Multiset α) = l + w i) :
    ∃ l', (List.range n).foldlM f l = some l' ∧
      (l' : Multiset α) = l + ∑ i ∈ Finset.range n, w i := by
  induction n with
  | zero => exact ⟨l, rfl, (add_zero _).symm⟩
  | succ n ih =>
    obtain ⟨l', h1, e1⟩ := ih (fun i hi => h i (hi.trans (Nat.lt_succ_self n)))
    obtain ⟨l'', h2, e2⟩ := h n (Nat.lt_succ_self n) l'
    refine ⟨l'', ?_, ?_⟩
    · rw [List.range_succ, List.foldlM_append, h1]
      show (List.foldlM f l' [n]) = _
      rw [List.foldlM_cons, h2]
      rfl
    · rw [e2, e1, Finset.sum_range_succ, add_assoc]

end

end Lib
