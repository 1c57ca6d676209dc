import Mathlib.Data.List.Basic

/-!
# Runs of a labelled step relation

`Run step s l t`: the labels of `l`, taken in order, lead from `s` to `t`.  A condition that every
step of a run has to meet is put into the step relation (`guarded`), so that "in every run whose
steps all meet the condition" is a statement about `Run (guarded C step)`.
-/

namespace Lib

section
variable {σ ι : Type*}

/-- the labels `l`, taken in order, lead from `s` to `t` -/
inductive Run (step : σ → ι → σ → Prop) : σ → List ι → σ → Prop
  | nil (s : σ) : Run step s [] s
  | cons {s u t : σ} {a : ι} {l : List ι} :
      step s a u → Run step u l t → Run step s (a :: l) t

/-- the steps of `step` that meet the condition `C` on the state before and the label -/
def guarded (C : σ → ι → Prop) (step : σ → ι → σ → Prop) (s : σ) (a : ι) (t : σ) : Prop :=
  C s a ∧ step s a t

variable {step : σ → ι → σ → Prop} {s t u : σ} {l k : List ι}

theorem Run.single {a : ι} (h : step s a t) : Run step s [a] t :=
  .cons h (.nil t)

theorem Run.append (h : Run step s l u) (h' : Run step u k t) : Run step s (l ++ k) t := by
  induction h with
  | nil s => exact h'
  | cons hs _ ih => exact .cons hs (ih h')

theorem Run.snoc {a : ι} (h : Run step s l u) (h' : step u a t) : Run step s (l ++ [a]) t :=
  h.append (.single h')

/-- a property that every step keeps holds at the end of every run that starts in it -/
theorem Run.invariant {I : σ → Prop} (hstep : ∀ s a t, I s → step s a t → I t)
    (h : Run step s l t) (hs : I s) : I t := by
  induction h with
  | nil s => exact hs
  | cons ha _ ih => exact ih (hstep _ _ _ hs ha)

/-- a measure that every step makes smaller bounds the steps of a run -/
theorem Run.length_le {I : σ → Prop} (m : σ → Nat)
    (hstep : ∀ s a t, I s → step s a t → I t ∧ m t < m s) (h : Run step s l t) (hs : I s) :
    l.length + m t ≤ m s := by
  induction h with
  | nil s => exact Nat.le_of_eq (Nat.zero_add _)
  | cons ha _ ih =>
    obtain ⟨hu, hlt⟩ := hstep _ _ _ hs ha
    have hle := ih hu
    rw [List.length_cons]
    omega

theorem Run.mono {step' : σ → ι → σ → Prop} (hsub : ∀ s a t, step s a t → step' s a t)
    (h : Run step s l t) : Run step' s l t := by
  induction h with
  | nil s => exact .nil s
  | cons ha _ ih => exact .cons (hsub _ _ _ ha) ih

/-- a property that every step keeps and a measure that some step makes smaller, as long as the
goal is not reached, lead to the goal -/
theorem Run.exists_of_measure {I G : σ → Prop} (m : σ → Nat)
    (hstep : ∀ s a t, I s → step s a t → I t)
    (hprog : ∀ s, I s → G s ∨ ∃ a t, step s a t ∧ m t < m s) (hs : I s) :
    ∃ l t, Run step s l t ∧ G t := by
  induction h : m s using Nat.strongRecOn generalizing s with
  | ind k ih =>
    rcases hprog s hs with hg | ⟨a, t, ha, hlt⟩
    · exact ⟨[], s, .nil s, hg⟩
    · obtain ⟨l, u, hr, hg⟩ := ih (m t) (h ▸ hlt) (hstep s a t hs ha) rfl
      exact ⟨a :: l, u, .cons ha hr, hg⟩

theorem Run.guard {C : σ → ι → Prop} (h : Run step s l t) (hC : ∀ a ∈ l, ∀ u, C u a) :
    Run (guarded C step) s l t := by
  induction h with
  | nil s => exact .nil s
  | cons ha _ ih =>
    exact .cons ⟨hC _ List.mem_cons_self _, ha⟩ (ih (fun a h => hC a (List.mem_cons_of_mem _ h)))

/-- the labels in order, with a step function -/
def exec (f : σ → ι → Option σ) : σ → List ι → Option σ
  | s, [] => some s
  | s, a :: l => (f s a).bind (fun t => exec f t l)

theorem Run.of_exec {f : σ → ι → Option σ} (hf : ∀ s a t, f s a = some t → step s a t)
    (h : exec f s l = some t) : Run step s l t := by
  induction l generalizing s with
  | nil =>
    obtain rfl := Option.some.inj h
    exact .nil s
  | cons a l ih =>
    obtain ⟨u, hu, ht⟩ := Option.bind_eq_some_iff.mp h
    exact .cons (hf s a u hu) (ih ht)

end

end Lib
