import Xv6.Lib.Mem

/-!
# Bits in byte memory

Bit `i` of a memory is bit `i % 8` of byte `i / 8`.
-/

namespace Lib

def bit (m : Mem) (i : Nat) : Bool := (m (i / 8)).toBitVec.getLsbD (i % 8)

def setBit (m : Mem) (i : Nat) : Mem :=
  Function.update m (i / 8) ⟨(m (i / 8)).toBitVec ||| BitVec.twoPow 8 (i % 8)⟩

def clearBit (m : Mem) (i : Nat) : Mem :=
  Function.update m (i / 8) ⟨(m (i / 8)).toBitVec &&& ~~~BitVec.twoPow 8 (i % 8)⟩

section
variable {m : Mem} {i j : Nat}

theorem mod_eq_iff (h : j / 8 = i / 8) : i % 8 = j % 8 ↔ j = i := by
  have hi := Nat.div_add_mod i 8
  have hj := Nat.div_add_mod j 8
  constructor
  · intro e
    omega
  · rintro rfl
    rfl

theorem bit_setBit (m : Mem) (i j : Nat) : bit (setBit m i) j = (decide (j = i) || bit m j) := by
  unfold bit setBit
  by_cases h : j / 8 = i / 8
  · have hlt : i % 8 < 8 := Nat.mod_lt _ (by decide)
    rw [h, Function.update_self, BitVec.getLsbD_or, BitVec.getLsbD_twoPow, decide_eq_true hlt,
      Bool.true_and, decide_eq_decide.mpr (mod_eq_iff h), Bool.or_comm]
  · have hne : j ≠ i := by
      rintro rfl
      exact h rfl
    rw [Function.update_of_ne h, decide_eq_false hne, Bool.false_or]

theorem bit_clearBit (m : Mem) (i j : Nat) :
    bit (clearBit m i) j = (!decide (j = i) && bit m j) := by
  unfold bit clearBit
  by_cases h : j / 8 = i / 8
  · have hi : i % 8 < 8 := Nat.mod_lt _ (by decide)
    have hj : j % 8 < 8 := Nat.mod_lt _ (by decide)
    rw [h, Function.update_self, BitVec.getLsbD_and, BitVec.getLsbD_not, BitVec.getLsbD_twoPow,
      decide_eq_true hi, decide_eq_true hj, Bool.true_and, Bool.true_and,
      decide_eq_decide.mpr (mod_eq_iff h), Bool.and_comm]
  · have hne : j ≠ i := by
      rintro rfl
      exact h rfl
    rw [Function.update_of_ne h, decide_eq_false hne, Bool.not_false, Bool.true_and]

end

end Lib
