import Mathlib.Logic.Function.Basic
import Mathlib.Logic.Relation

/-!
# Ancestors

`up a` is the element above `a`, where there is one; `Above up a b` says that `b` is reached from
`a` by going up any number of times.
-/

namespace Lib

section
variable {α : Type*} {up up' : α → Option α} {a b c : α}

def Above (up : α → Option α) : α → α → Prop := Relation.ReflTransGen (fun x y => up x = some y)

theorem Above.refl (a : α) : Above up a a := Relation.ReflTransGen.refl

theorem Above.step (h : Above up a b) (hb : up b = some c) : Above up a c := h.tail hb

theorem Above.head (ha : up a = some b) (h : Above up b c) : Above up a c :=
  Relation.ReflTransGen.head ha h

theorem Above.mono (he : ∀ x y, up' x = some y → up x = some y) (h : Above up' a b) :
    Above up a b := Relation.ReflTransGen.mono he _ _ h

theorem Above.eq_of_loop (ha : up a = some a) (h : Above up a b) : b = a := by
  induction h with
  | refl => rfl
  | tail _ hb ih =>
    rw [ih, ha] at hb
    exact (Option.some.inj hb).symm

/-- the same, where the elements above `a` in the new order are asked -/
theorem Above.congr_of (h : Above up' a b) (he : ∀ x, Above up a x → up' x = up x) :
    Above up a b := by
  induction h with
  | refl => exact .refl a
  | tail _ hb ih => exact ih.step ((he _ ih).symm.trans hb)

end

end Lib
