import Mathlib.Data.List.Basic
import Mathlib.Data.List.TakeWhile

/-!
# The pieces between separators

A list is cut at every occurrence of one element.  The pieces that are not empty are its maximal
runs of other elements, in order.
-/

namespace Lib

section
variable {α : Type*} [DecidableEq α] {c : α} {s t : List α}

/-- the maximal runs of elements other than `c` -/
def runs (c : α) (s : List α) : List (List α) := (s.splitOn c).filter (· ≠ [])

theorem runs_append_cons (s t : List α) : runs c (s ++ c :: t) = runs c s ++ runs c t := by
  unfold runs
  rw [List.splitOn_append_cons_self, List.filter_append]

theorem runs_nil (c : α) : runs c [] = [] := by
  unfold runs
  rw [List.splitOn_nil]
  rfl

theorem runs_cons (t : List α) : runs c (c :: t) = runs c t := by
  have h := runs_append_cons (c := c) [] t
  rwa [runs_nil, List.nil_append, List.nil_append] at h

theorem runs_append (hs : ∀ x ∈ s, x = c) (t : List α) : runs c (s ++ t) = runs c t := by
  induction s with
  | nil => rfl
  | cons x s ih =>
    rw [hs x List.mem_cons_self, List.cons_append, runs_cons]
    exact ih fun y hy => hs y (List.mem_cons_of_mem _ hy)

theorem runs_eq_singleton (ht : t ≠ []) (hc : c ∉ t) : runs c t = [t] := by
  unfold runs
  rw [List.splitOn_eq_singleton hc]
  exact List.filter_cons_of_pos (decide_eq_true ht)

theorem runs_run (ht : t ≠ []) (hc : c ∉ t) (s : List α) :
    runs c (t ++ c :: s) = t :: runs c s := by
  rw [runs_append_cons, runs_eq_singleton ht hc]
  rfl

theorem runs_eq_nil : runs c s = [] ↔ ∀ x ∈ s, x = c := by
  induction s with
  | nil =>
    exact iff_of_true (runs_nil c) (fun x hx => absurd hx List.not_mem_nil)
  | cons x s ih =>
    rw [List.forall_mem_cons]
    by_cases hx : x = c
    · rw [hx, runs_cons, ih]
      exact (and_iff_right rfl).symm
    · refine iff_of_false (fun h => ?_) (fun h => hx h.1)
      by_cases hc : c ∈ x :: s
      · obtain ⟨t, r, e, ht⟩ := List.eq_append_cons_of_mem hc
        have hne : t ≠ [] := by
          rintro rfl
          exact hx (List.cons.inj e).1
        rw [e, runs_run hne ht] at h
        exact absurd h (List.cons_ne_nil _ _)
      · rw [runs_eq_singleton (List.cons_ne_nil x s) hc] at h
        exact absurd h (List.cons_ne_nil _ _)

theorem runs_dropWhile (s : List α) : runs c (s.dropWhile (· = c)) = runs c s := by
  induction s with
  | nil => rfl
  | cons x s ih =>
    by_cases hx : x = c
    · rw [List.dropWhile_cons_of_pos (by simpa using hx), ih, hx, runs_cons]
    · rw [List.dropWhile_cons_of_neg (by simpa using hx)]

/-- the first run goes up to the first separator -/
theorem runs_cons_of_ne {x : α} (hx : x ≠ c) (s : List α) : runs c (x :: s) =
    (x :: s).takeWhile (· ≠ c) :: runs c ((x :: s).dropWhile (· ≠ c)) := by
  have hall : ∀ t : List α, c ∉ t → ∀ y ∈ x :: t, decide (y ≠ c) = true := by
    intro t ht y hy
    rcases List.mem_cons.mp hy with rfl | hy
    · exact decide_eq_true hx
    · exact decide_eq_true (fun e => ht (e ▸ hy))
  have hnot : ∀ t : List α, c ∉ t → c ∉ x :: t := fun t ht hm =>
    of_decide_eq_true (hall t ht c hm) rfl
  by_cases hc : c ∈ s
  · obtain ⟨t, r, rfl, ht⟩ := List.eq_append_cons_of_mem hc
    rw [← List.cons_append, List.takeWhile_append_of_pos (hall t ht),
      List.dropWhile_append_of_pos (hall t ht), List.takeWhile_cons_of_neg (by simp),
      List.dropWhile_cons_of_neg (by simp), List.append_nil,
      runs_run (List.cons_ne_nil x t) (hnot t ht), runs_cons]
  · rw [List.takeWhile_eq_self_iff.mpr (hall s hc), List.dropWhile_eq_nil_iff.mpr (hall s hc),
      runs_eq_singleton (List.cons_ne_nil x s) (hnot s hc), runs_nil]

end

/-! ## runs and their positions -/

section
variable {α : Type*} {P : α → Prop} {s t u w a : List α} {x : α} {i : Nat}

/-- `t` is a maximal run of elements with `P`, at position `i` of `s` -/
structure IsRun (P : α → Prop) (s : List α) (i : Nat) (t : List α) : Prop where
  ne_nil : t ≠ []
  here : t <+: s.drop i
  all : ∀ x ∈ t, P x
  before : ∀ k x, i = k + 1 → s[k]? = some x → ¬ P x
  after : ∀ x, s[i + t.length]? = some x → ¬ P x

theorem not_isRun_nil : ¬ IsRun P [] i t := by
  intro h
  have here := h.here
  rw [List.drop_nil] at here
  exact h.ne_nil (List.prefix_nil.mp here)

theorem isRun_cons (hx : ¬ P x) : IsRun P (x :: s) i t ↔ ∃ j, i = j + 1 ∧ IsRun P s j t := by
  constructor
  · intro h
    cases i with
    | zero =>
      obtain ⟨y, t, rfl⟩ := List.exists_cons_of_ne_nil h.ne_nil
      have hy := h.all y List.mem_cons_self
      rw [(List.cons_prefix_cons.mp h.here).1] at hy
      exact absurd hy hx
    | succ j =>
      refine ⟨j, rfl, h.ne_nil, h.here, h.all, fun k y hk hy => ?_, fun y hy => ?_⟩
      · exact h.before (k + 1) y (congrArg (· + 1) hk) hy
      · refine h.after y ?_
        rw [Nat.add_right_comm]
        exact hy
  · rintro ⟨j, rfl, h⟩
    refine ⟨h.ne_nil, h.here, h.all, fun k y hk hy => ?_, fun y hy => ?_⟩
    · obtain rfl : j = k := Nat.succ.inj hk
      cases j with
      | zero =>
        rw [← Option.some.inj hy]
        exact hx
      | succ j => exact h.before j y rfl hy
    · rw [Nat.add_right_comm] at hy
      exact h.after y hy

theorem isRun_append (ha : ∀ x ∈ a, ¬ P x) :
    IsRun P (a ++ s) i t ↔ ∃ j, i = a.length + j ∧ IsRun P s j t := by
  induction a generalizing i with
  | nil =>
    constructor
    · intro h
      exact ⟨i, (Nat.zero_add i).symm, h⟩
    · rintro ⟨j, rfl, h⟩
      rwa [List.length_nil, Nat.zero_add]
  | cons x a ih =>
    rw [List.cons_append, isRun_cons (ha x List.mem_cons_self)]
    constructor
    · rintro ⟨k, rfl, h⟩
      obtain ⟨j, rfl, h'⟩ := (ih fun y hy => ha y (List.mem_cons_of_mem x hy)).mp h
      exact ⟨j, by rw [List.length_cons]; omega, h'⟩
    · rintro ⟨j, rfl, h⟩
      refine ⟨a.length + j, by rw [List.length_cons]; omega, ?_⟩
      exact (ih fun y hy => ha y (List.mem_cons_of_mem x hy)).mpr ⟨j, rfl, h⟩

theorem not_isRun (ha : ∀ x ∈ a, ¬ P x) : ¬ IsRun P a i t := by
  intro h
  rw [← List.append_nil a, isRun_append ha] at h
  obtain ⟨j, -, h⟩ := h
  exact not_isRun_nil h

theorem isRun_run (ht : t ≠ []) (hP : ∀ x ∈ t, P x) (hw : ∀ x, w.head? = some x → ¬ P x) :
    IsRun P (t ++ w) i u ↔ (i = 0 ∧ u = t) ∨ ∃ j, i = t.length + j ∧ IsRun P w j u := by
  have hhead : ∀ {b : List α} {y : α} {v : List α}, b = y :: v → b <+: w → ¬ P y := by
    rintro b y v rfl hb
    refine hw y ?_
    obtain ⟨z, rfl⟩ := hb
    rfl
  constructor
  · intro h
    cases i with
    | zero =>
      refine Or.inl ⟨rfl, ?_⟩
      have here : u <+: t ++ w := h.here
      rcases List.prefix_or_prefix_of_prefix here (List.prefix_append t w) with hp | hp
      · obtain ⟨b, rfl⟩ := hp
        cases b with
        | nil => exact (List.append_nil u).symm
        | cons y b =>
          have hy : (u ++ y :: b ++ w)[0 + u.length]? = some y := by
            rw [List.append_assoc, Nat.zero_add, List.getElem?_append_right (Nat.le_refl _),
              Nat.sub_self]
            rfl
          exact absurd (hP y (List.mem_append_right u List.mem_cons_self)) (h.after y hy)
      · obtain ⟨b, rfl⟩ := hp
        cases b with
        | nil => exact List.append_nil t
        | cons y b =>
          have hb : y :: b <+: w := (List.prefix_append_right_inj t).mp here
          exact absurd (h.all y (List.mem_append_right t List.mem_cons_self)) (hhead rfl hb)
    | succ k =>
      right
      by_cases hk : k < t.length
      · have hget : (t ++ w)[k]? = some t[k] := by
          rw [List.getElem?_append_left hk, List.getElem?_eq_getElem hk]
        exact absurd (hP _ (List.getElem_mem hk)) (h.before k _ rfl hget)
      · obtain ⟨j, hj⟩ : ∃ j, k + 1 = t.length + j := ⟨k + 1 - t.length, by omega⟩
        rw [hj] at h ⊢
        refine ⟨j, rfl, h.ne_nil, ?_, h.all, fun m y hm hy => ?_, fun y hy => ?_⟩
        · have here := h.here
          rwa [List.drop_append, List.drop_of_length_le (Nat.le_add_right _ _), List.nil_append,
            Nat.add_sub_cancel_left] at here
        · refine h.before (t.length + m) y (by omega) ?_
          rw [List.getElem?_append_right (Nat.le_add_right _ _), Nat.add_sub_cancel_left]
          exact hy
        · refine h.after y ?_
          rw [List.getElem?_append_right (by omega), ← hy]
          exact congrArg (w[·]?) (by omega)
  · rintro (⟨rfl, rfl⟩ | ⟨j, rfl, h⟩)
    · refine ⟨ht, List.prefix_append u w, hP, nofun, fun x hx => hw x ?_⟩
      rw [Nat.zero_add, List.getElem?_append_right (Nat.le_refl _), Nat.sub_self] at hx
      rw [List.head?_eq_getElem?]
      exact hx
    · refine ⟨h.ne_nil, ?_, h.all, fun k y hk hy => ?_, fun y hy => ?_⟩
      · rw [List.drop_append, List.drop_of_length_le (Nat.le_add_right _ _), List.nil_append,
          Nat.add_sub_cancel_left]
        exact h.here
      · cases j with
        | zero =>
          -- the run begins where the first one ends
          obtain ⟨z, v, rfl⟩ := List.exists_cons_of_ne_nil h.ne_nil
          exact absurd (h.all z List.mem_cons_self) (hhead rfl h.here)
        | succ j =>
          refine h.before j y rfl ?_
          obtain rfl : k = t.length + j := by omega
          rw [List.getElem?_append_right (Nat.le_add_right _ _), Nat.add_sub_cancel_left] at hy
          exact hy
      · rw [Nat.add_assoc, List.getElem?_append_right (Nat.le_add_right _ _),
          Nat.add_sub_cancel_left] at hy
        exact h.after y hy

end

end Lib
