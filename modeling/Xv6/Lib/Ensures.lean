import Mathlib.Control.Basic

/-!
# What a computation with state and exceptions ensures

`Ensures E r Q`: the result `r` is a value and a state for which `Q` holds, or an exception that `E`
allows.  One rule for each way to put computations together.
-/

namespace Lib

section
variable {σ ε α β : Type} {E : ε → Prop} {Q : α → σ → Prop} {R : β → σ → Prop}

def Ensures (E : ε → Prop) (r : Except ε (α × σ)) (Q : α → σ → Prop) : Prop :=
  match r with
  | .ok (a, s) => Q a s
  | .error e => E e

variable {m : StateT σ (Except ε) α} {f : α → StateT σ (Except ε) β} {r : Except ε (α × σ)}
  {a : α} {s t : σ} {e : ε}

theorem Ensures.pure (h : Q a s) : Ensures E ((Pure.pure a : StateT σ (Except ε) α) s) Q := h

theorem Ensures.throw (h : E e) : Ensures E ((throw e : StateT σ (Except ε) α) s) Q := h

theorem Ensures.mono {Q' : α → σ → Prop} (h : Ensures E r Q) (hQ : ∀ a s, Q a s → Q' a s) :
    Ensures E r Q' := by
  unfold Ensures at h ⊢
  cases r with
  | ok x => exact hQ x.1 x.2 h
  | error e => exact h

theorem Ensures.bind (h : Ensures E (m s) Q) (hf : ∀ a s', Q a s' → Ensures E (f a s') R) :
    Ensures E ((m >>= f) s) R := by
  show Ensures E (Except.bind (m s) (fun x => f x.1 x.2)) R
  unfold Ensures at h
  cases hm : m s with
  | ok x =>
    rw [hm] at h
    exact hf x.1 x.2 h
  | error e =>
    rw [hm] at h
    exact h

theorem Ensures.bind_eq (e : m s = .ok (a, t)) (h : Ensures E (f a t) R) :
    Ensures E ((m >>= f) s) R := by
  show Ensures E (Except.bind (m s) (fun x => f x.1 x.2)) R
  rw [e]
  exact h

theorem Ensures.get {f : σ → StateT σ (Except ε) β} (h : Ensures E (f s s) R) :
    Ensures E (((MonadState.get : StateT σ (Except ε) σ) >>= f) s) R := h

theorem Ensures.set {f : PUnit → StateT σ (Except ε) β} (h : Ensures E (f ⟨⟩ t) R) :
    Ensures E (((MonadStateOf.set t : StateT σ (Except ε) PUnit) >>= f) s) R := h

theorem Ensures.elim (h : Ensures E r Q) (e : r = .ok (a, s)) : Q a s := by
  rw [e] at h
  exact h

theorem Ensures.error (h : Ensures E r Q) (he : r = .error e) : E e := by
  rw [he] at h
  exact h

end

end Lib
