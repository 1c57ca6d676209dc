import Xv6.Lib.Mem

/-!
# Bytes behind a translation

A partial map `tr` takes the addresses of a program, which are less than `W` and wrap, to those of a
memory.  `Paging.store`, `Paging.read` and `Paging.string` go byte by byte and stop at the first
address that has no translation.  Where consecutive addresses have consecutive translations, a
piece of a transfer is one block (`store_block`, `read_block`).
-/

namespace Lib

/-- `n` bytes of `src`, from `k` on, at `pa` -/
def blit (m : Mem) (pa : Nat) (src : Nat → UInt8) (k n : Nat) : Mem :=
  fun x => if pa ≤ x ∧ x < pa + n then src (k + (x - pa)) else m x

def bytesAt (m : Mem) (pa n : Nat) : List UInt8 := (List.range n).map (fun i => m (pa + i))

namespace Paging

section
variable (W : Nat) (tr : Nat → Option Nat)

/-- `n` bytes of `src`, from `k` on, go to `va`; `false` when one of them has nowhere to go -/
def store (src : Nat → UInt8) : Nat → Mem → Nat → Nat → Mem × Bool
  | 0, m, _, _ => (m, true)
  | n + 1, m, va, k =>
    match tr va with
    | none => (m, false)
    | some pa => store src n (Function.update m pa (src k)) ((va + 1) % W) (k + 1)

/-- the `n` bytes at `va` -/
def read (m : Mem) : Nat → Nat → List UInt8 × Bool
  | 0, _ => ([], true)
  | n + 1, va =>
    match tr va with
    | none => ([], false)
    | some pa => (m pa :: (read m n ((va + 1) % W)).1, (read m n ((va + 1) % W)).2)

/-- the bytes at `va` up to the first NUL, which has to be one of the first `n` -/
def string (m : Mem) : Nat → Nat → List UInt8 × Bool
  | 0, _ => ([], false)
  | n + 1, va =>
    match tr va with
    | none => ([], false)
    | some pa =>
      if m pa = 0 then ([0], true)
      else (m pa :: (string m n ((va + 1) % W)).1, (string m n ((va + 1) % W)).2)

end

section
variable {W : Nat} {tr : Nat → Option Nat} {src : Nat → UInt8} {m : Mem} {n k va pa i r : Nat}

/-! ## storing -/

theorem store_ok (hva : va < W) :
    (store W tr src n m va k).2 = true ↔ ∀ i < n, (tr ((va + i) % W)).isSome = true := by
  induction n generalizing m va k with
  | zero => exact ⟨fun _ i hi => absurd hi (Nat.not_lt_zero i), fun _ => rfl⟩
  | succ n ih =>
    have hW : 0 < W := Nat.zero_lt_of_lt hva
    have h0 : (va + 0) % W = va := Nat.mod_eq_of_lt hva
    unfold store
    cases ht : tr va with
    | none =>
      refine iff_of_false nofun (fun h => ?_)
      have h1 := h 0 (Nat.succ_pos n)
      rw [h0, ht] at h1
      exact absurd h1 nofun
    | some pa =>
      dsimp only
      rw [ih (Nat.mod_lt _ hW)]
      constructor
      · intro h i hi
        cases i with
        | zero =>
          rw [h0, ht]
          rfl
        | succ i =>
          have h1 := h i (Nat.lt_of_succ_lt_succ hi)
          rwa [Nat.mod_add_mod, Nat.add_right_comm, Nat.add_assoc] at h1
      · intro h i hi
        have h1 := h (i + 1) (Nat.succ_lt_succ hi)
        rwa [Nat.mod_add_mod, Nat.add_right_comm, Nat.add_assoc]

/-- only the bytes behind the addresses of the range change -/
theorem store_frame (hva : va < W) (h : ∀ i < n, tr ((va + i) % W) ≠ some pa) :
    (store W tr src n m va k).1 pa = m pa := by
  induction n generalizing m va k with
  | zero => rfl
  | succ n ih =>
    have h0 := h 0 (Nat.succ_pos n)
    rw [Nat.add_zero, Nat.mod_eq_of_lt hva] at h0
    unfold store
    cases ht : tr va with
    | none => rfl
    | some pa' =>
      dsimp only
      rw [ih (Nat.mod_lt _ (Nat.zero_lt_of_lt hva)) (fun i hi => ?_), Function.update_of_ne]
      · rintro rfl
        exact h0 ht
      · rw [Nat.mod_add_mod, Nat.add_right_comm, Nat.add_assoc]
        exact h (i + 1) (Nat.succ_lt_succ hi)

/-- each byte arrives, where no later one goes to the same place -/
theorem store_at (hva : va < W) (hok : (store W tr src n m va k).2 = true) (hi : i < n)
    (hpa : tr ((va + i) % W) = some pa)
    (hlast : ∀ j, i < j → j < n → tr ((va + j) % W) ≠ some pa) :
    (store W tr src n m va k).1 pa = src (k + i) := by
  induction n generalizing m va k i with
  | zero => exact absurd hi (Nat.not_lt_zero i)
  | succ n ih =>
    have hW : 0 < W := Nat.zero_lt_of_lt hva
    unfold store at hok ⊢
    cases ht : tr va with
    | none =>
      rw [ht] at hok
      exact absurd hok nofun
    | some pa' =>
      rw [ht] at hok
      dsimp only at hok ⊢
      cases i with
      | zero =>
        rw [Nat.add_zero, Nat.mod_eq_of_lt hva, ht] at hpa
        obtain rfl := Option.some.inj hpa
        rw [store_frame (Nat.mod_lt _ hW) (fun j hj => ?_), Function.update_self]
        · rfl
        · rw [Nat.mod_add_mod, Nat.add_right_comm, Nat.add_assoc]
          exact hlast (j + 1) (Nat.succ_pos j) (Nat.succ_lt_succ hj)
      | succ i =>
        rw [ih (i := i) (Nat.mod_lt _ hW) hok (Nat.lt_of_succ_lt_succ hi), Nat.add_right_comm,
          Nat.add_assoc]
        · rw [Nat.mod_add_mod, Nat.add_right_comm, Nat.add_assoc]
          exact hpa
        · intro j hj hjn
          rw [Nat.mod_add_mod, Nat.add_right_comm, Nat.add_assoc]
          exact hlast (j + 1) (Nat.succ_lt_succ hj) (Nat.succ_lt_succ hjn)

/-- what is stored is the piece before the first address that has no translation -/
theorem store_prefix (hva : va < W) : ∃ r ≤ n, (store W tr src r m va k).2 = true ∧
    (r < n → tr ((va + r) % W) = none) ∧
    (store W tr src n m va k).1 = (store W tr src r m va k).1 := by
  induction n generalizing m va k with
  | zero => exact ⟨0, Nat.le_refl 0, rfl, fun h => absurd h (Nat.lt_irrefl 0), rfl⟩
  | succ n ih =>
    cases ht : tr va with
    | none =>
      refine ⟨0, Nat.zero_le _, rfl, fun _ => ?_, ?_⟩
      · rw [Nat.add_zero, Nat.mod_eq_of_lt hva]
        exact ht
      · unfold store
        rw [ht]
    | some pa =>
      obtain ⟨r, hr, hok, hend, hst⟩ := @ih (Function.update m pa (src k)) (k + 1)
        ((va + 1) % W) (Nat.mod_lt _ (Nat.zero_lt_of_lt hva))
      refine ⟨r + 1, Nat.succ_le_succ hr, ?_, fun hlt => ?_, ?_⟩
      · rw [store, ht]
        exact hok
      · have hnone := hend (Nat.lt_of_succ_lt_succ hlt)
        rwa [Nat.mod_add_mod, Nat.add_right_comm, Nat.add_assoc] at hnone
      · rw [store, ht, store, ht]
        exact hst

theorem blit_zero : blit m pa src k 0 = m := by
  funext x
  exact if_neg (by omega)

theorem blit_succ : blit m pa src k (n + 1) =
    blit (Function.update m pa (src k)) (pa + 1) src (k + 1) n := by
  funext x
  unfold blit
  by_cases hx : x = pa
  · rw [hx, if_pos (by omega), if_neg (by omega), Function.update_self, Nat.sub_self, Nat.add_zero]
  · rw [Function.update_of_ne hx]
    by_cases hin : pa ≤ x ∧ x < pa + (n + 1)
    · rw [if_pos hin, if_pos (by omega), show k + 1 + (x - (pa + 1)) = k + (x - pa) by omega]
    · rw [if_neg hin, if_neg (by omega)]

theorem store_succ (h : tr va = some pa) : store W tr src (n + 1) m va k =
    store W tr src n (Function.update m pa (src k)) ((va + 1) % W) (k + 1) := by
  rw [store, h]

/-- a piece that is contiguous in memory is stored as a block -/
theorem store_block (hva : va < W) (h : ∀ i < n, tr ((va + i) % W) = some (pa + i)) :
    store W tr src (n + r) m va k =
      store W tr src r (blit m pa src k n) ((va + n) % W) (k + n) := by
  induction n generalizing m va k pa with
  | zero => rw [blit_zero, Nat.zero_add, Nat.add_zero, Nat.add_zero, Nat.mod_eq_of_lt hva]
  | succ n ih =>
    have h0 := h 0 (Nat.succ_pos n)
    rw [Nat.add_zero, Nat.mod_eq_of_lt hva] at h0
    have hrest : ∀ i < n, tr (((va + 1) % W + i) % W) = some (pa + 1 + i) := by
      intro i hi
      rw [Nat.mod_add_mod, Nat.add_right_comm va, Nat.add_assoc va, Nat.add_assoc pa,
        Nat.add_comm 1 i]
      exact h (i + 1) (Nat.succ_lt_succ hi)
    rw [show n + 1 + r = (n + r) + 1 by omega, store_succ h0,
      ih (Nat.mod_lt _ (Nat.zero_lt_of_lt hva)) hrest, Nat.mod_add_mod, Nat.add_right_comm va,
      Nat.add_right_comm k, blit_succ]
    rfl

/-! ## reading -/

theorem bytesAt_succ (m : Mem) (pa n : Nat) : bytesAt m pa (n + 1) = m pa :: bytesAt m (pa + 1) n := by
  unfold bytesAt
  rw [List.range_succ_eq_map, List.map_cons, List.map_map, Nat.add_zero]
  congr 1
  apply List.map_congr_left
  intro i _
  show m (pa + (i + 1)) = m (pa + 1 + i)
  rw [Nat.add_assoc, Nat.add_comm 1]

theorem read_succ (h : tr va = some pa) : read W tr m (n + 1) va =
    (m pa :: (read W tr m n ((va + 1) % W)).1, (read W tr m n ((va + 1) % W)).2) := by
  rw [read, h]

theorem length_read_le (n va : Nat) : (read W tr m n va).1.length ≤ n := by
  induction n generalizing va with
  | zero => exact Nat.le_refl 0
  | succ n ih =>
    unfold read
    cases tr va with
    | none => exact Nat.zero_le _
    | some pa => exact Nat.succ_le_succ (ih _)

/-- everything is read, and in order, or some address has no translation -/
theorem read_spec (hva : va < W) :
    ((read W tr m n va).2 = true ↔ ∀ i < n, (tr ((va + i) % W)).isSome = true) ∧
    ((read W tr m n va).2 = true → (read W tr m n va).1 =
      (List.range n).map (fun i => m ((tr ((va + i) % W)).getD 0))) := by
  induction n generalizing va with
  | zero => exact ⟨⟨fun _ i hi => absurd hi (Nat.not_lt_zero i), fun _ => rfl⟩, fun _ => rfl⟩
  | succ n ih =>
    have h0 : (va + 0) % W = va := Nat.mod_eq_of_lt hva
    obtain ⟨hiff, heq⟩ := ih (Nat.mod_lt (va + 1) (Nat.zero_lt_of_lt hva))
    have hnext : ∀ i, ((va + 1) % W + i) % W = (va + (i + 1)) % W := by
      intro i
      rw [Nat.mod_add_mod, Nat.add_right_comm, Nat.add_assoc]
    simp only [hnext] at hiff heq
    cases ht : tr va with
    | none =>
      rw [read, ht]
      refine ⟨iff_of_false nofun (fun h => ?_), nofun⟩
      have h1 := h 0 (Nat.succ_pos n)
      rw [h0, ht] at h1
      exact absurd h1 nofun
    | some pa =>
      rw [read_succ ht]
      dsimp only
      constructor
      · rw [hiff]
        constructor
        · intro h i hi
          cases i with
          | zero =>
            rw [h0, ht]
            rfl
          | succ i => exact h i (Nat.lt_of_succ_lt_succ hi)
        · intro h i hi
          exact h (i + 1) (Nat.succ_lt_succ hi)
      · intro hok
        rw [heq hok, List.range_succ_eq_map, List.map_cons, List.map_map, h0, ht]
        rfl

/-- a piece that is contiguous in memory is read as a block -/
theorem read_block (hva : va < W) (h : ∀ i < n, tr ((va + i) % W) = some (pa + i)) :
    read W tr m (n + r) va =
      (bytesAt m pa n ++ (read W tr m r ((va + n) % W)).1, (read W tr m r ((va + n) % W)).2) := by
  induction n generalizing va pa with
  | zero =>
    rw [Nat.zero_add, Nat.add_zero, Nat.mod_eq_of_lt hva]
    rfl
  | succ n ih =>
    have h0 := h 0 (Nat.succ_pos n)
    rw [Nat.add_zero, Nat.mod_eq_of_lt hva] at h0
    have hrest : ∀ i < n, tr (((va + 1) % W + i) % W) = some (pa + 1 + i) := by
      intro i hi
      rw [Nat.mod_add_mod, Nat.add_right_comm va, Nat.add_assoc va, Nat.add_assoc pa,
        Nat.add_comm 1 i]
      exact h (i + 1) (Nat.succ_lt_succ hi)
    rw [show n + 1 + r = (n + r) + 1 by omega, read_succ h0,
      ih (Nat.mod_lt _ (Nat.zero_lt_of_lt hva)) hrest, Nat.mod_add_mod, Nat.add_right_comm va,
      Nat.add_zero, bytesAt_succ]
    rfl

/-! ## strings -/

theorem string_succ (h : tr va = some pa) : string W tr m (n + 1) va =
    if m pa = 0 then ([0], true)
    else (m pa :: (string W tr m n ((va + 1) % W)).1, (string W tr m n ((va + 1) % W)).2) := by
  rw [string, h]

theorem length_string_le (n va : Nat) : (string W tr m n va).1.length ≤ n := by
  induction n generalizing va with
  | zero => exact Nat.le_refl 0
  | succ n ih =>
    unfold string
    cases tr va with
    | none => exact Nat.zero_le _
    | some pa =>
      dsimp only
      split
      · exact Nat.succ_le_succ (Nat.zero_le n)
      · exact Nat.succ_le_succ (ih _)

def byte (W : Nat) (tr : Nat → Option Nat) (m : Mem) (va i : Nat) : Option UInt8 :=
  (tr ((va + i) % W)).map m

/-- a NUL within `n` bytes, with all bytes up to it there -/
def Ends (W : Nat) (tr : Nat → Option Nat) (m : Mem) (va n i : Nat) : Prop :=
  i < n ∧ byte W tr m va i = some 0 ∧ ∀ j < i, ∃ b, byte W tr m va j = some b ∧ b ≠ 0

theorem byte_succ : byte W tr m ((va + 1) % W) i = byte W tr m va (i + 1) := by
  unfold byte
  rw [Nat.mod_add_mod, Nat.add_right_comm, Nat.add_assoc]

theorem byte_zero (hva : va < W) : byte W tr m va 0 = (tr va).map m := by
  unfold byte
  rw [Nat.add_zero, Nat.mod_eq_of_lt hva]

/-- the string is found when it ends, and is copied with its NUL -/
theorem string_spec (hva : va < W) :
    ((string W tr m n va).2 = true ↔ ∃ i, Ends W tr m va n i) ∧
    (∀ i, Ends W tr m va n i → (string W tr m n va).1 =
      (List.range (i + 1)).map (fun j => (byte W tr m va j).getD 0)) := by
  induction n generalizing va with
  | zero =>
    exact ⟨iff_of_false nofun (fun ⟨i, h⟩ => absurd h.1 (Nat.not_lt_zero i)),
      fun i h => absurd h.1 (Nat.not_lt_zero i)⟩
  | succ n ih =>
    have hfirst : byte W tr m va 0 = (tr va).map m := byte_zero hva
    obtain ⟨hiff, heq⟩ := ih (Nat.mod_lt (va + 1) (Nat.zero_lt_of_lt hva))
    cases ht : tr va with
    | none =>
      rw [ht, Option.map_none] at hfirst
      have hno : ∀ i, ¬ Ends W tr m va (n + 1) i := by
        rintro i ⟨-, hi, hbelow⟩
        cases i with
        | zero =>
          rw [hfirst] at hi
          exact absurd hi nofun
        | succ i =>
          obtain ⟨b, hb, -⟩ := hbelow 0 (Nat.succ_pos i)
          rw [hfirst] at hb
          exact absurd hb nofun
      rw [string, ht]
      exact ⟨iff_of_false nofun (fun ⟨i, h⟩ => hno i h), fun i h => absurd h (hno i)⟩
    | some pa =>
      rw [ht, Option.map_some] at hfirst
      rw [string_succ ht]
      by_cases h0 : m pa = 0
      · rw [if_pos h0]
        rw [h0] at hfirst
        refine ⟨iff_of_true rfl ⟨0, Nat.succ_pos n, hfirst, fun j hj => absurd hj (Nat.not_lt_zero j)⟩,
          fun i h => ?_⟩
        cases i with
        | zero =>
          show [0] = [(byte W tr m va 0).getD 0]
          rw [hfirst]
          rfl
        | succ i =>
          obtain ⟨b, hb, hne⟩ := h.2.2 0 (Nat.succ_pos i)
          rw [hfirst] at hb
          exact absurd (Option.some.inj hb).symm hne
      · rw [if_neg h0]
        -- the string goes on behind its first byte
        have hstep : ∀ i, Ends W tr m va (n + 1) i ↔
            ∃ j, i = j + 1 ∧ Ends W tr m ((va + 1) % W) n j := by
          intro i
          constructor
          · rintro ⟨hlt, hi, hbelow⟩
            cases i with
            | zero =>
              rw [hfirst] at hi
              exact absurd (Option.some.inj hi) h0
            | succ i =>
              refine ⟨i, rfl, Nat.lt_of_succ_lt_succ hlt, byte_succ.trans hi, fun j hj => ?_⟩
              rw [byte_succ]
              exact hbelow (j + 1) (Nat.succ_lt_succ hj)
          · rintro ⟨j, rfl, hlt, hj, hbelow⟩
            refine ⟨Nat.succ_lt_succ hlt, byte_succ.symm.trans hj, fun i hi => ?_⟩
            cases i with
            | zero => exact ⟨_, hfirst, h0⟩
            | succ i =>
              rw [← byte_succ]
              exact hbelow i (Nat.lt_of_succ_lt_succ hi)
        dsimp only
        constructor
        · rw [hiff]
          constructor
          · rintro ⟨j, hj⟩
            exact ⟨j + 1, (hstep _).mpr ⟨j, rfl, hj⟩⟩
          · rintro ⟨i, hi⟩
            obtain ⟨j, -, hj⟩ := (hstep i).mp hi
            exact ⟨j, hj⟩
        · intro i hi
          obtain ⟨j, rfl, hj⟩ := (hstep i).mp hi
          rw [heq j hj, List.range_succ_eq_map (n := j + 1), List.map_cons, List.map_map, hfirst]
          congr 1
          apply List.map_congr_left
          intro i _
          rw [byte_succ]
          rfl

end

end Paging

end Lib
