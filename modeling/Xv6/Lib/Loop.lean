import Mathlib.Data.Nat.Init

/-!
# A loop whose rounds can fail

A round gives the next state, ends the loop, or fails.  Rounds are numbered, so that each may get
answers of its own from outside.
-/

namespace Lib

section
variable {σ ε : Type*} (round : Nat → σ → Except ε (Option σ)) (s : σ)

/-- what there is after `k` rounds: a state, the end of the loop (`none`), or a failure; the last two
stay -/
def loop : Nat → Except ε (Option σ)
  | 0 => .ok (some s)
  | k + 1 =>
    match loop k with
    | .ok (some t) => round k t
    | r => r

/-- round `k` begins in state `t` -/
def Reaches (k : Nat) (t : σ) : Prop := loop round s k = .ok (some t)

def Fails : Prop := ∃ k e, loop round s k = .error e

def Halts : Prop := ∃ k, loop round s k = .ok none

end

section
variable {σ ε : Type*} {round : Nat → σ → Except ε (Option σ)} {s t : σ} {k j : Nat}

theorem loop_succ (h : Reaches round s k t) : loop round s (k + 1) = round k t := by
  rw [loop, show loop round s k = .ok (some t) from h]

theorem Reaches.zero : Reaches round s 0 s := rfl

theorem Reaches.succ {u : σ} (h : Reaches round s k t) (hr : round k t = .ok (some u)) :
    Reaches round s (k + 1) u := (loop_succ h).trans hr

theorem Reaches.pred {u : σ} (h : Reaches round s (k + 1) u) :
    ∃ t, Reaches round s k t ∧ round k t = .ok (some u) := by
  unfold Reaches at h
  rw [loop] at h
  split at h
  next t ht => exact ⟨t, ht, h⟩
  next r hr => exact absurd h (hr u)

theorem Reaches.unique {u : σ} (h : Reaches round s k t) (h' : Reaches round s k u) : t = u :=
  Option.some.inj (Except.ok.inj (h.symm.trans h'))

theorem Reaches.before (h : Reaches round s (k + j) t) : ∃ u, Reaches round s k u := by
  induction j generalizing t with
  | zero => exact ⟨t, h⟩
  | succ j ih =>
    obtain ⟨u, hu, -⟩ := Reaches.pred (k := k + j) h
    exact ih hu

/-- what every round keeps holds from a state on -/
theorem Reaches.onward {I : σ → Prop} {u : σ} (hk : Reaches round s k t) (ht : I t)
    (hstep : ∀ k t u, I t → round k t = .ok (some u) → I u) (h : Reaches round s (k + j) u) :
    I u := by
  induction j generalizing u with
  | zero => exact hk.unique h ▸ ht
  | succ j ih =>
    obtain ⟨v, hv, hr⟩ := Reaches.pred (k := k + j) h
    exact hstep (k + j) v u (ih hv) hr

/-- what every round keeps holds of every state that is reached -/
theorem Reaches.invariant {I : σ → Prop} (hs : I s)
    (hstep : ∀ k t u, I t → round k t = .ok (some u) → I u) (h : Reaches round s k t) : I t := by
  rw [← Nat.zero_add k] at h
  exact Reaches.zero.onward hs hstep h

theorem fails_iff : Fails round s ↔ ∃ k t e, Reaches round s k t ∧ round k t = .error e := by
  constructor
  · rintro ⟨k, e, h⟩
    induction k with
    | zero => exact absurd h nofun
    | succ k ih =>
      rw [loop] at h
      split at h
      next t ht => exact ⟨k, t, e, ht, h⟩
      next => exact ih h
  · rintro ⟨k, t, e, ht, h⟩
    exact ⟨k + 1, e, (loop_succ ht).trans h⟩

theorem halts_iff : Halts round s ↔ ∃ k t, Reaches round s k t ∧ round k t = .ok none := by
  constructor
  · rintro ⟨k, h⟩
    induction k with
    | zero => exact absurd h nofun
    | succ k ih =>
      rw [loop] at h
      split at h
      next t ht => exact ⟨k, t, ht, h⟩
      next => exact ih h
  · rintro ⟨k, t, ht, h⟩
    exact ⟨k + 1, (loop_succ ht).trans h⟩

/-- the rounds behind the end, or behind a failure, change nothing -/
theorem loop_stays {r : Except ε (Option σ)} (hr : ∀ t, r ≠ .ok (some t)) (h : loop round s k = r) :
    loop round s (k + j) = r := by
  induction j with
  | zero => exact h
  | succ j ih =>
    rw [← Nat.add_assoc, loop, ih]
    cases r with
    | error e => rfl
    | ok o =>
      cases o with
      | none => rfl
      | some t => exact absurd rfl (hr t)

theorem Reaches.lt_end (h : Reaches round s j t) (hk : loop round s k = .ok none) : j < k := by
  apply Nat.lt_of_not_le
  intro hle
  obtain ⟨i, rfl⟩ := Nat.exists_eq_add_of_le hle
  have hstay := loop_stays (j := i) nofun hk
  rw [show loop round s (k + i) = .ok (some t) from h] at hstay
  exact absurd hstay nofun

theorem Halts.not_fails (h : Halts round s) : ¬ Fails round s := by
  rintro ⟨j, e, hj⟩
  obtain ⟨k, hk⟩ := h
  have h1 := loop_stays (j := j) nofun hk
  have h2 := loop_stays (j := k) nofun hj
  rw [Nat.add_comm, h2] at h1
  exact absurd h1 nofun

/-- a loop that does not fail and makes a number smaller ends -/
theorem Halts.of_measure (m : σ → Nat) (hok : ¬ Fails round s)
    (hdec : ∀ k t u, Reaches round s k t → round k t = .ok (some u) → m u < m t) :
    Halts round s := by
  have hgo : ∀ n k t, m t < n → Reaches round s k t → Halts round s := by
    intro n
    induction n with
    | zero => exact fun k t hlt => absurd hlt (Nat.not_lt_zero _)
    | succ n ih =>
      intro k t hlt ht
      cases hr : round k t with
      | error e => exact absurd (fails_iff.mpr ⟨k, t, e, ht, hr⟩) hok
      | ok o =>
        cases o with
        | none => exact halts_iff.mpr ⟨k, t, ht, hr⟩
        | some u =>
          have := hdec k t u ht hr
          exact ih (k + 1) u (by omega) (ht.succ hr)
  exact hgo (m s + 1) 0 s (Nat.lt_succ_self _) .zero

end

end Lib
