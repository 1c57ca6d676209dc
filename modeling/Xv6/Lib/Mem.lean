import Mathlib.Logic.Function.Basic
import Mathlib.Tactic.Ring

/-!
# Byte memory with little-endian words

A memory is a function from addresses to bytes.  `load m a k` reads the `k` bytes at `a` as one
little-endian number, `store m a k v` writes them.  The interface is `load_store` (same word),
`load_store_of_disjoint` (another word) and `load_congr` (a word whose bytes did not change).
-/

namespace Lib

abbrev Mem := Nat → UInt8

/-- the `k` bytes at `a`, little-endian -/
def load (m : Mem) (a : Nat) : Nat → Nat
  | 0 => 0
  | k + 1 => (m a).toNat + 256 * load m (a + 1) k

/-- write `v`, little-endian, into the `k` bytes at `a` -/
def store (m : Mem) (a : Nat) : Nat → Nat → Mem
  | 0, _ => m
  | k + 1, v => Function.update (store m (a + 1) k (v / 256)) a (UInt8.ofNat v)

theorem store_of_disjoint (m : Mem) (a k v x : Nat) (h : x < a ∨ a + k ≤ x) :
    store m a k v x = m x := by
  induction k generalizing a v with
  | zero => rfl
  | succ k ih =>
    have hx : x ≠ a := by omega
    show Function.update (store m (a + 1) k (v / 256)) a (UInt8.ofNat v) x = m x
    rw [Function.update_of_ne hx]
    exact ih (a + 1) (v / 256) (by omega)

theorem load_congr {m m' : Mem} {a k : Nat} (h : ∀ x, a ≤ x → x < a + k → m x = m' x) :
    load m a k = load m' a k := by
  induction k generalizing a with
  | zero => rfl
  | succ k ih =>
    show (m a).toNat + 256 * load m (a + 1) k = (m' a).toNat + 256 * load m' (a + 1) k
    rw [h a (Nat.le_refl a) (by omega), ih (fun x h1 h2 => h x (by omega) (by omega))]

theorem load_store_of_disjoint (m : Mem) (a k v b j : Nat) (h : b + j ≤ a ∨ a + k ≤ b) :
    load (store m a k v) b j = load m b j :=
  load_congr (fun x h1 h2 => store_of_disjoint m a k v x (by omega))

theorem load_store (m : Mem) (a k v : Nat) : load (store m a k v) a k = v % 256 ^ k := by
  induction k generalizing a v with
  | zero => simp [load, Nat.mod_one]
  | succ k ih =>
    have hb : (UInt8.ofNat v).toNat = v % 256 := by simp
    have ht : load (Function.update (store m (a + 1) k (v / 256)) a (UInt8.ofNat v)) (a + 1) k
        = load (store m (a + 1) k (v / 256)) (a + 1) k :=
      load_congr (fun x h1 _ => Function.update_of_ne (by omega) _ _)
    show (Function.update (store m (a + 1) k (v / 256)) a (UInt8.ofNat v) a).toNat
      + 256 * load (Function.update (store m (a + 1) k (v / 256)) a (UInt8.ofNat v)) (a + 1) k = _
    rw [Function.update_self, hb, ht, ih, pow_succ, Nat.mul_comm (256 ^ k) 256, Nat.mod_mul]

theorem load_lt (m : Mem) (a k : Nat) : load m a k < 256 ^ k := by
  induction k generalizing a with
  | zero => simp [load]
  | succ k ih =>
    have h1 := ih (a + 1)
    have h2 : (m a).toNat < 256 := (m a).toNat_lt
    show (m a).toNat + 256 * load m (a + 1) k < 256 ^ (k + 1)
    rw [pow_succ]
    omega

/-! ## 64-bit words -/

def load64 (m : Mem) (a : Nat) : Nat := load m a 8

def store64 (m : Mem) (a v : Nat) : Mem := store m a 8 v

theorem load64_lt (m : Mem) (a : Nat) : load64 m a < 2 ^ 64 := load_lt m a 8

theorem load64_store64 (m : Mem) (a v : Nat) : load64 (store64 m a v) a = v % 2 ^ 64 :=
  load_store m a 8 v

@[simp] theorem load64_store64_of_lt (m : Mem) (a v : Nat) (h : v < 2 ^ 64) :
    load64 (store64 m a v) a = v := by
  rw [load64_store64, Nat.mod_eq_of_lt h]

theorem load64_store64_of_disjoint (m : Mem) (a v b : Nat) (h : b + 8 ≤ a ∨ a + 8 ≤ b) :
    load64 (store64 m a v) b = load64 m b :=
  load_store_of_disjoint m a 8 v b 8 h

theorem store64_of_disjoint (m : Mem) (a v x : Nat) (h : x < a ∨ a + 8 ≤ x) :
    store64 m a v x = m x :=
  store_of_disjoint m a 8 v x h

theorem load64_congr {m m' : Mem} {a : Nat} (h : ∀ x, a ≤ x → x < a + 8 → m x = m' x) :
    load64 m a = load64 m' a :=
  load_congr h

/-! ## byte strings -/

/-- write the bytes of `l` from `a` on -/
def storeBytes (m : Mem) (a : Nat) : List UInt8 → Mem
  | [] => m
  | c :: l => storeBytes (Function.update m a c) (a + 1) l

theorem storeBytes_of_disjoint (m : Mem) (a : Nat) (l : List UInt8) (x : Nat)
    (h : x < a ∨ a + l.length ≤ x) : storeBytes m a l x = m x := by
  induction l generalizing m a with
  | nil => rfl
  | cons c l ih =>
    rw [List.length_cons] at h
    have hx : x ≠ a := by omega
    show storeBytes (Function.update m a c) (a + 1) l x = m x
    rw [ih _ _ (by omega), Function.update_of_ne hx]

end Lib
