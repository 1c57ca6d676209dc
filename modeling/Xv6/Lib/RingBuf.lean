import Mathlib.Data.Nat.ModEq
import Mathlib.Logic.Function.Basic

/-!
# Ring buffers with wrapping counters

Two counters count what was taken out and what was put in, modulo `M`; the cell of a count is the
count modulo the capacity `K`.  `RingBuf.Holds M K r xs` relates the ring to the queue `xs`, and
`push` and `pop` are the operations of the queue.  `M` is a multiple of `K` and more than it, so the
counters wrap without a jump in the cells, and tell full from empty.
-/

namespace Lib

section
variable {α : Type*} {M K : Nat}

structure RingBuf (α : Type*) where
  data : Nat → α
  nread : Nat
  nwrite : Nat

/-- `x` goes into the cell of `nwrite` -/
def RingBuf.push (M K : Nat) (r : RingBuf α) (x : α) : RingBuf α :=
  { r with data := Function.update r.data (r.nwrite % K) x, nwrite := (r.nwrite + 1) % M }

/-- the cell of `nread` is free again -/
def RingBuf.pop (M : Nat) (r : RingBuf α) : RingBuf α := { r with nread := (r.nread + 1) % M }

/-- the ring holds the queue `xs`, first to last -/
structure RingBuf.Holds (M K : Nat) (r : RingBuf α) (xs : List α) : Prop where
  nread_lt : r.nread < M
  nwrite_eq : r.nwrite = (r.nread + xs.length) % M
  le : xs.length ≤ K
  cell : ∀ (i : Nat) (h : i < xs.length), r.data ((r.nread + i) % K) = xs.get ⟨i, h⟩

variable {r : RingBuf α} {x : α} {xs : List α}

theorem RingBuf.Holds.empty (data : Nat → α) (hM : 0 < M) : RingBuf.Holds M K ⟨data, 0, 0⟩ [] :=
  ⟨hM, (Nat.mod_eq_of_lt hM).symm, Nat.zero_le _, fun i h => absurd h (Nat.not_lt_zero i)⟩

/-- the counters tell how many are in the queue -/
theorem RingBuf.Holds.eq_iff (h : r.Holds M K xs) (hKM : K < M) {k : Nat} (hk : k ≤ K) :
    r.nwrite = (r.nread + k) % M ↔ xs.length = k := by
  have hlt := h.nread_lt
  have hle := h.le
  rw [h.nwrite_eq]
  constructor
  · intro e
    have e' := Nat.ModEq.add_left_cancel' (n := M) r.nread e
    unfold Nat.ModEq at e'
    rwa [Nat.mod_eq_of_lt (by omega), Nat.mod_eq_of_lt (by omega)] at e'
  · intro e
    rw [e]

theorem RingBuf.Holds.empty_iff (h : r.Holds M K xs) (hKM : K < M) :
    r.nread = r.nwrite ↔ xs = [] := by
  have e := h.eq_iff hKM (Nat.zero_le K)
  rw [Nat.add_zero, Nat.mod_eq_of_lt h.nread_lt] at e
  rw [eq_comm, e, List.length_eq_zero_iff]

theorem RingBuf.Holds.full_iff (h : r.Holds M K xs) (hKM : K < M) :
    r.nwrite = (r.nread + K) % M ↔ xs.length = K := h.eq_iff hKM le_rfl

theorem RingBuf.Holds.sub_eq (h : r.Holds M K xs) (hKM : K < M) :
    (r.nwrite + M - r.nread) % M = xs.length := by
  have hlt := h.nread_lt
  have hle := h.le
  rw [h.nwrite_eq]
  by_cases hwrap : r.nread + xs.length < M
  · rw [Nat.mod_eq_of_lt hwrap, show r.nread + xs.length + M - r.nread = xs.length + M by omega,
      Nat.add_mod_right, Nat.mod_eq_of_lt (by omega)]
  · have hmod : (r.nread + xs.length) % M = r.nread + xs.length - M := by
      rw [Nat.mod_eq_sub_mod (by omega), Nat.mod_eq_of_lt (by omega)]
    rw [hmod, show r.nread + xs.length - M + M - r.nread = xs.length by omega,
      Nat.mod_eq_of_lt (by omega)]

theorem RingBuf.Holds.push (h : r.Holds M K xs) (hdvd : K ∣ M) (hroom : xs.length < K) (x : α) :
    (r.push M K x).Holds M K (xs ++ [x]) := by
  have hcell : r.nwrite % K = (r.nread + xs.length) % K := by
    rw [h.nwrite_eq, Nat.mod_mod_of_dvd _ hdvd]
  refine ⟨h.nread_lt, ?_, by rw [List.length_append]; exact hroom, fun i hi => ?_⟩
  · show (r.nwrite + 1) % M = (r.nread + (xs ++ [x]).length) % M
    rw [h.nwrite_eq, List.length_append, Nat.mod_add_mod]
    rfl
  · show Function.update r.data (r.nwrite % K) x ((r.nread + i) % K) = _
    rw [hcell]
    rw [List.length_append, List.length_singleton] at hi
    by_cases e : i = xs.length
    · subst e
      rw [Function.update_self]
      simp
    · have hlt : i < xs.length := by omega
      have hne : (r.nread + i) % K ≠ (r.nread + xs.length) % K := by
        intro he
        have e' := Nat.ModEq.add_left_cancel' (n := K) r.nread he
        unfold Nat.ModEq at e'
        rw [Nat.mod_eq_of_lt (by omega), Nat.mod_eq_of_lt hroom] at e'
        exact e e'
      rw [Function.update_of_ne hne, h.cell i hlt]
      simp [List.getElem_append_left hlt]

theorem RingBuf.Holds.head (h : r.Holds M K (x :: xs)) : r.data (r.nread % K) = x :=
  h.cell 0 (Nat.succ_pos _)

theorem RingBuf.Holds.pop (h : r.Holds M K (x :: xs)) (hdvd : K ∣ M) : (r.pop M).Holds M K xs := by
  have hM : 0 < M := Nat.zero_lt_of_lt h.nread_lt
  refine ⟨Nat.mod_lt _ hM, ?_, Nat.le_of_succ_le h.le, fun i hi => ?_⟩
  · show r.nwrite = ((r.nread + 1) % M + xs.length) % M
    rw [h.nwrite_eq, Nat.mod_add_mod, List.length_cons, Nat.add_assoc, Nat.add_comm 1]
  · show r.data (((r.nread + 1) % M + i) % K) = _
    have hcell := h.cell (i + 1) (Nat.succ_lt_succ hi)
    rw [Nat.add_mod, Nat.mod_mod_of_dvd _ hdvd, ← Nat.add_mod,
      show r.nread + 1 + i = r.nread + (i + 1) by omega, hcell]
    rfl

theorem RingBuf.Holds.unpush (h : r.Holds M K (xs ++ [x])) :
    RingBuf.Holds M K { r with nwrite := (r.nwrite + M - 1) % M } xs := by
  have hM : 0 < M := Nat.zero_lt_of_lt h.nread_lt
  have hlen : (xs ++ [x]).length = xs.length + 1 := List.length_append
  refine ⟨h.nread_lt, ?_, ?_, fun i hi => ?_⟩
  · show (r.nwrite + M - 1) % M = (r.nread + xs.length) % M
    rw [h.nwrite_eq, hlen, Nat.add_sub_assoc hM, Nat.mod_add_mod,
      show r.nread + (xs.length + 1) + (M - 1) = r.nread + xs.length + M by omega, Nat.add_mod_right]
  · have hle := h.le
    omega
  · have hcell := h.cell i (by omega)
    refine hcell.trans ?_
    show (xs ++ [x])[i] = xs[i]
    exact List.getElem_append_left hi

/-- the first elements, read where they are -/
theorem RingBuf.Holds.cells {ys : List α} (h : r.Holds M K (xs ++ ys)) :
    (List.range xs.length).map (fun i => r.data ((r.nread + i) % K)) = xs := by
  apply List.ext_getElem
  · rw [List.length_map, List.length_range]
  · intro i h1 h2
    have hlt : i < (xs ++ ys).length := by
      rw [List.length_append]
      omega
    rw [List.getElem_map, List.getElem_range, h.cell i hlt]
    show (xs ++ ys)[i] = xs[i]
    exact List.getElem_append_left h2

theorem RingBuf.Holds.cells_behind {ys : List α} (h : r.Holds M K (xs ++ ys)) (hdvd : K ∣ M) :
    (List.range ys.length).map (fun i => r.data (((r.nread + xs.length) % M + i) % K)) = ys := by
  apply List.ext_getElem
  · rw [List.length_map, List.length_range]
  · intro i h1 h2
    have hlt : xs.length + i < (xs ++ ys).length := by
      rw [List.length_append]
      omega
    have hcell : ((r.nread + xs.length) % M + i) % K = (r.nread + (xs.length + i)) % K := by
      rw [Nat.add_mod, Nat.mod_mod_of_dvd _ hdvd, ← Nat.add_mod, Nat.add_assoc]
    rw [List.getElem_map, List.getElem_range, hcell, h.cell (xs.length + i) hlt]
    show (xs ++ ys)[xs.length + i] = ys[i]
    rw [List.getElem_append_right (Nat.le_add_right _ _)]
    simp

end

end Lib
