import Mathlib.Data.List.Basic

/-!
# Occurrences of a word in a list

`Occurs w s i`: the word `w` stands in `s` at `i`.  `hits w s j` are the occurrences that start
before `j`, taken from left to right without overlap.  `Replaced w r s t P`: `t` is `s` with `r`
in place of the occurrences `P` of `w`.  Where no occurrence of `w` can use an element of `r`
(`Unused w r`), `t` has those occurrences that `s` has apart from `P`.
-/

namespace Lib

section
variable {α : Type*}

/-- `w` stands in `s` at `i` -/
def Occurs (w s : List α) (i : Nat) : Prop := ∀ k, k < w.length → s[i + k]? = w[k]?

instance [DecidableEq α] (w s : List α) (i : Nat) : Decidable (Occurs w s i) :=
  inferInstanceAs (Decidable (∀ k, k < w.length → s[i + k]? = w[k]?))

/-- no occurrence of `w`, whatever is around it, uses an element of `r` -/
def Unused (w r : List α) : Prop :=
  ∀ a b i, Occurs w (a ++ r ++ b) i → i + w.length ≤ a.length ∨ a.length + r.length ≤ i

/-- the occurrences of `w` before `j`, from left to right, none overlapping one before it -/
def hits [DecidableEq α] (w s : List α) : Nat → List Nat
  | 0 => []
  | j + 1 =>
    if Occurs w s j ∧ ∀ p ∈ hits w s j, p + w.length ≤ j then hits w s j ++ [j] else hits w s j

/-- `t` is `s` with `r` in place of the occurrences `P` of `w` -/
structure Replaced (w r s t : List α) (P : List Nat) : Prop where
  length : t.length = s.length
  old : ∀ p ∈ P, Occurs w s p
  new : ∀ p ∈ P, Occurs r t p
  kept : ∀ i, (∀ p ∈ P, i < p ∨ p + w.length ≤ i) → t[i]? = s[i]?

/-- `r` over what stands at `j` -/
def overwrite (s r : List α) (j : Nat) : List α := s.take j ++ r ++ s.drop (j + r.length)

variable {w r s t : List α} {P : List Nat} {i j p : Nat}

/-! ## words -/

theorem Occurs.le (h : Occurs w s i) (hw : 0 < w.length) : i + w.length ≤ s.length := by
  have hlast := h (w.length - 1) (by omega)
  rw [List.getElem?_eq_getElem (by omega : w.length - 1 < w.length)] at hlast
  have hlt := (List.getElem?_eq_some_iff.mp hlast).1
  omega

theorem Occurs.congr (h : Occurs w s i)
    (e : ∀ x, i ≤ x → x < i + w.length → t[x]? = s[x]?) : Occurs w t i :=
  fun k hk => (e (i + k) (by omega) (by omega)).trans (h k hk)

/-- a list around a word that stands in it -/
theorem Occurs.split (h : Occurs w s i) (hi : i + w.length ≤ s.length) :
    s = s.take i ++ w ++ s.drop (i + w.length) := by
  have hlen : (s.take i).length = i := by
    rw [List.length_take]
    omega
  apply List.ext_getElem?
  intro x
  by_cases hx : x < i
  · rw [List.append_assoc, List.getElem?_append_left (by omega), List.getElem?_take_of_lt hx]
  · rw [List.append_assoc, List.getElem?_append_right (by omega), hlen]
    by_cases hk : x - i < w.length
    · have hs := h (x - i) hk
      rw [List.getElem?_append_left hk, ← hs]
      congr 1
      omega
    · rw [List.getElem?_append_right (by omega), List.getElem?_drop]
      congr 1
      omega

/-- a word with no element in common with `r` -/
theorem unused_of_disjoint (h : ∀ x ∈ w, x ∉ r) (hw : 0 < w.length) (hr : 0 < r.length) :
    Unused w r := by
  intro a b i ho
  by_contra hc
  obtain ⟨x, h1, h2, h3, h4⟩ : ∃ x, i ≤ x ∧ x < i + w.length ∧ a.length ≤ x ∧
      x < a.length + r.length := by
    by_cases hia : i ≤ a.length
    · exact ⟨a.length, by omega, by omega, by omega, by omega⟩
    · exact ⟨i, by omega, by omega, by omega, by omega⟩
  have hk := ho (x - i) (by omega)
  rw [Nat.add_sub_cancel' h1, List.append_assoc, List.getElem?_append_right h3,
    List.getElem?_append_left (by omega),
    List.getElem?_eq_getElem (by omega : x - a.length < r.length),
    List.getElem?_eq_getElem (by omega : x - i < w.length)] at hk
  refine h _ (List.getElem_mem (by omega : x - i < w.length)) ?_
  rw [← Option.some.inj hk]
  exact List.getElem_mem _

/-! ## overwriting -/

theorem overwrite_length (hj : j + r.length ≤ s.length) :
    (overwrite s r j).length = s.length := by
  unfold overwrite
  rw [List.length_append, List.length_append, List.length_take, List.length_drop]
  omega

theorem overwrite_occurs (hj : j ≤ s.length) : Occurs r (overwrite s r j) j := by
  intro k hk
  have hlen : (s.take j).length = j := by
    rw [List.length_take]
    omega
  unfold overwrite
  rw [List.append_assoc, List.getElem?_append_right (by omega), hlen, Nat.add_sub_cancel_left,
    List.getElem?_append_left hk]

theorem overwrite_kept (hj : j ≤ s.length) (hi : i < j ∨ j + r.length ≤ i) :
    (overwrite s r j)[i]? = s[i]? := by
  have hlen : (s.take j).length = j := by
    rw [List.length_take]
    omega
  unfold overwrite
  rw [List.append_assoc]
  rcases hi with hi | hi
  · rw [List.getElem?_append_left (by omega), List.getElem?_take_of_lt hi]
  · rw [List.getElem?_append_right (by omega), List.getElem?_append_right (by omega),
      List.getElem?_drop, hlen]
    congr 1
    omega

/-! ## replacing -/

theorem Replaced.refl : Replaced w r s s [] :=
  ⟨rfl, fun _ hp => absurd hp List.not_mem_nil, fun _ hp => absurd hp List.not_mem_nil,
    fun _ _ => rfl⟩

theorem Replaced.apart (h : Replaced w r s t P) (hlen : r.length = w.length) (hw : 0 < w.length)
    (hno : Unused w r) (ho : Occurs w t i) (hp : p ∈ P) :
    i + w.length ≤ p ∨ p + w.length ≤ i := by
  have hr := (h.new p hp).le (by omega)
  rw [(h.new p hp).split hr] at ho
  have ha := hno _ _ i ho
  rw [List.length_take] at ha
  omega

/-- the occurrences that are left are old ones -/
theorem Replaced.occurs_iff (h : Replaced w r s t P) (hlen : r.length = w.length)
    (hw : 0 < w.length) (hno : Unused w r) :
    Occurs w t i ↔ Occurs w s i ∧ ∀ p ∈ P, i + w.length ≤ p ∨ p + w.length ≤ i := by
  have hout : (∀ p ∈ P, i + w.length ≤ p ∨ p + w.length ≤ i) →
      ∀ x, i ≤ x → x < i + w.length → t[x]? = s[x]? := by
    intro ha x h1 h2
    refine h.kept x (fun p hp => ?_)
    have hap := ha p hp
    omega
  constructor
  · intro ho
    have ha := fun p (hp : p ∈ P) => h.apart hlen hw hno ho hp
    exact ⟨ho.congr (fun x h1 h2 => (hout ha x h1 h2).symm), ha⟩
  · rintro ⟨ho, ha⟩
    exact ho.congr (hout ha)

/-- one more occurrence is replaced -/
theorem Replaced.replace (h : Replaced w r s t P) (hlen : r.length = w.length)
    (hw : 0 < w.length) (hno : Unused w r) (ho : Occurs w t j) :
    Replaced w r s (overwrite t r j) (P ++ [j]) := by
  have hle := ho.le hw
  have ⟨hold, ha⟩ := (h.occurs_iff hlen hw hno).mp ho
  refine ⟨?_, ?_, ?_, ?_⟩
  · rw [overwrite_length (by omega), h.length]
  · intro p hp
    rcases List.mem_append.mp hp with hp | hp
    · exact h.old p hp
    · rw [List.mem_singleton.mp hp]
      exact hold
  · intro p hp
    rcases List.mem_append.mp hp with hp | hp
    · refine (h.new p hp).congr (fun x h1 h2 => overwrite_kept (by omega) ?_)
      have hap := ha p hp
      omega
    · rw [List.mem_singleton.mp hp]
      exact overwrite_occurs (by omega)
  · intro i hi
    rw [overwrite_kept (by omega) (by
      have hj := hi j (List.mem_append_right _ (List.mem_singleton_self j))
      omega)]
    exact h.kept i (fun p hp => hi p (List.mem_append_left _ hp))

/-! ## the occurrences from left to right -/

section
variable [DecidableEq α]

theorem hits_succ : hits w s (j + 1) =
    if Occurs w s j ∧ ∀ p ∈ hits w s j, p + w.length ≤ j then hits w s j ++ [j]
    else hits w s j := rfl

theorem hits_lt (hp : p ∈ hits w s j) : p < j := by
  induction j with
  | zero => exact absurd hp List.not_mem_nil
  | succ j ih =>
    rw [hits_succ] at hp
    split at hp
    · rcases List.mem_append.mp hp with hp | hp
      · exact Nat.lt_succ_of_lt (ih hp)
      · rw [List.mem_singleton.mp hp]
        exact Nat.lt_succ_self j
    · exact Nat.lt_succ_of_lt (ih hp)

theorem hits_mono (hij : i ≤ j) (hp : p ∈ hits w s i) : p ∈ hits w s j := by
  induction hij with
  | refl => exact hp
  | step _ ih =>
    rw [Nat.succ_eq_add_one, hits_succ]
    split
    · exact List.mem_append_left _ ih
    · exact ih

theorem mem_hits_succ :
    j ∈ hits w s (j + 1) ↔ Occurs w s j ∧ ∀ p ∈ hits w s j, p + w.length ≤ j := by
  rw [hits_succ]
  constructor
  · intro hj
    split at hj
    · assumption
    · exact absurd (hits_lt hj) (Nat.lt_irrefl j)
  · intro hj
    rw [if_pos hj]
    exact List.mem_append_right _ (List.mem_singleton_self j)

/-- with the first hits replaced, the next position has the word exactly when it is a hit -/
theorem Replaced.occurs_iff_hit (h : Replaced w r s t (hits w s j)) (hlen : r.length = w.length)
    (hw : 0 < w.length) (hno : Unused w r) : Occurs w t j ↔ j ∈ hits w s (j + 1) := by
  rw [h.occurs_iff hlen hw hno, mem_hits_succ]
  constructor
  · rintro ⟨ho, ha⟩
    refine ⟨ho, fun p hp => ?_⟩
    have hap := ha p hp
    have hlt := hits_lt hp
    omega
  · rintro ⟨ho, ha⟩
    exact ⟨ho, fun p hp => Or.inr (ha p hp)⟩

/-- with the hits before `j` replaced, no occurrence starts before `j` -/
theorem Replaced.not_occurs (h : Replaced w r s t (hits w s j)) (hlen : r.length = w.length)
    (hw : 0 < w.length) (hno : Unused w r) (hij : i < j) : ¬ Occurs w t i := by
  intro ho
  obtain ⟨hs, ha⟩ := (h.occurs_iff hlen hw hno).mp ho
  have hi : i ∈ hits w s (i + 1) := by
    refine mem_hits_succ.mpr ⟨hs, fun p hp => ?_⟩
    have hap := ha p (hits_mono (by omega) hp)
    have hlt := hits_lt hp
    omega
  have hself := ha i (hits_mono hij hi)
  omega

end

end

end Lib
