import Mathlib.Data.List.Forall2
import Xv6.Lib.Mem

/-!
# Argument vectors in memory

`rd` gives the byte at an address, if there is one.  `Argv rd a args`: at `a` there is an array of
pointers of 64 bits to the strings `args`, with a null pointer behind them.  A memory has at most
one vector at an address (`Argv.unique`).
-/

namespace Lib

/-! ## words as bytes -/

/-- the low `k` bytes of `v`, little-endian -/
def leBytes : Nat → Nat → List UInt8
  | 0, _ => []
  | k + 1, v => UInt8.ofNat v :: leBytes k (v / 256)

def leValue : List UInt8 → Nat
  | [] => 0
  | b :: l => b.toNat + 256 * leValue l

section
variable {k v w : Nat} {l : List UInt8}

theorem length_leBytes : (leBytes k v).length = k := by
  induction k generalizing v with
  | zero => rfl
  | succ k ih => exact congrArg Nat.succ ih

theorem leBytes_leValue : leBytes l.length (leValue l) = l := by
  induction l with
  | nil => rfl
  | cons b l ih =>
    have h : b.toNat < 256 := b.toNat_lt
    have h1 : UInt8.ofNat (b.toNat + 256 * leValue l) = b := by
      rw [← UInt8.toNat_inj]
      simp only [UInt8.toNat_ofNat']
      omega
    have h2 : (b.toNat + 256 * leValue l) / 256 = leValue l := by omega
    show UInt8.ofNat (b.toNat + 256 * leValue l) ::
      leBytes l.length ((b.toNat + 256 * leValue l) / 256) = _
    rw [h1, h2, ih]

theorem leValue_leBytes : leValue (leBytes k v) = v % 256 ^ k := by
  induction k generalizing v with
  | zero => exact (Nat.mod_one v).symm
  | succ k ih =>
    have hb : (UInt8.ofNat v).toNat = v % 256 := by simp
    show (UInt8.ofNat v).toNat + 256 * leValue (leBytes k (v / 256)) = _
    rw [ih, hb, pow_succ, Nat.mul_comm (256 ^ k) 256, Nat.mod_mul]

theorem leBytes_inj (hv : v < 2 ^ 64) (hw : w < 2 ^ 64) (h : leBytes 8 v = leBytes 8 w) :
    v = w := by
  have h1 := congrArg leValue h
  rw [leValue_leBytes, leValue_leBytes] at h1
  have h2 : (256 : Nat) ^ 8 = 2 ^ 64 := by norm_num
  rw [h2, Nat.mod_eq_of_lt hv, Nat.mod_eq_of_lt hw] at h1
  exact h1

end

/-! ## bytes at an address -/

section
variable {rd rd' : Nat → Option UInt8} {a p : Nat} {b : UInt8} {l l' s s' : List UInt8}

def Placed (rd : Nat → Option UInt8) (a : Nat) (l : List UInt8) : Prop :=
  ∀ i b, l[i]? = some b → rd (a + i) = some b

theorem placed_append : Placed rd a (l ++ l') ↔ Placed rd a l ∧ Placed rd (a + l.length) l' := by
  constructor
  · intro h
    refine ⟨fun i b hb => h i b ?_, fun i b hb => ?_⟩
    · rw [List.getElem?_append_left (List.getElem?_eq_some_iff.mp hb).1]
      exact hb
    · have h1 := h (l.length + i) b
      rw [List.getElem?_append_right (Nat.le_add_right _ _), Nat.add_sub_cancel_left] at h1
      rw [Nat.add_assoc]
      exact h1 hb
  · rintro ⟨h, h'⟩ i b hb
    by_cases hi : i < l.length
    · rw [List.getElem?_append_left hi] at hb
      exact h i b hb
    · rw [List.getElem?_append_right (Nat.le_of_not_lt hi)] at hb
      have h1 := h' _ b hb
      rwa [show a + l.length + (i - l.length) = a + i by omega] at h1

theorem Placed.congr (h : Placed rd a l) (hrd : ∀ x, a ≤ x → x < a + l.length → rd x = rd' x) :
    Placed rd' a l := by
  intro i b hb
  have hi := (List.getElem?_eq_some_iff.mp hb).1
  rw [← hrd (a + i) (Nat.le_add_right _ _) (by omega)]
  exact h i b hb

theorem Placed.unique (h : Placed rd a l) (h' : Placed rd a l') (hlen : l.length = l'.length) :
    l = l' := by
  refine List.ext_getElem? fun i => ?_
  by_cases hi : i < l.length
  · have hi' : i < l'.length := hlen ▸ hi
    rw [List.getElem?_eq_getElem hi, List.getElem?_eq_getElem hi']
    rw [← h i _ (List.getElem?_eq_getElem hi), ← h' i _ (List.getElem?_eq_getElem hi')]
  · rw [List.getElem?_eq_none (Nat.le_of_not_lt hi),
      List.getElem?_eq_none (hlen ▸ Nat.le_of_not_lt hi)]

/-! ## strings -/

/-- the string at `a`, with its NUL -/
def CStr (rd : Nat → Option UInt8) (a : Nat) (s : List UInt8) : Prop :=
  0 ∉ s ∧ Placed rd a (s ++ [0])

theorem CStr.nul (h : CStr rd a s) : rd (a + s.length) = some 0 := by
  have h1 := (placed_append.mp h.2).2 0 0 rfl
  exact h1

theorem CStr.unique (h : CStr rd a s) (h' : CStr rd a s') : s = s' := by
  have hle : ∀ {s s' : List UInt8}, CStr rd a s → CStr rd a s' → s.length ≤ s'.length := by
    intro s s' h h'
    by_contra hlt
    have hlt' := Nat.lt_of_not_le hlt
    have h1 := (placed_append.mp h.2).1 _ _ (List.getElem?_eq_getElem hlt')
    rw [h'.nul] at h1
    exact h.1 (Option.some.inj h1 ▸ List.getElem_mem hlt')
  exact (placed_append.mp h.2).1.unique (placed_append.mp h'.2).1
    (Nat.le_antisymm (hle h h') (hle h' h))

theorem CStr.congr (h : CStr rd a s) (hrd : ∀ x, a ≤ x → x ≤ a + s.length → rd x = rd' x) :
    CStr rd' a s := by
  refine ⟨h.1, h.2.congr fun x h1 h2 => hrd x h1 ?_⟩
  rw [List.length_append, List.length_singleton] at h2
  omega

/-! ## vectors -/

def Argv (rd : Nat → Option UInt8) : Nat → List (List UInt8) → Prop
  | a, [] => Placed rd a (leBytes 8 0)
  | a, s :: args => ∃ p, p ≠ 0 ∧ p < 2 ^ 64 ∧ Placed rd a (leBytes 8 p) ∧ CStr rd p s ∧
      Argv rd (a + 8) args

theorem Placed.word (h : Placed rd a (leBytes 8 p)) {q : Nat} (h' : Placed rd a (leBytes 8 q))
    (hp : p < 2 ^ 64) (hq : q < 2 ^ 64) : p = q :=
  leBytes_inj hp hq (h.unique h' (length_leBytes.trans length_leBytes.symm))

theorem Argv.head {args : List (List UInt8)} (h : Argv rd a args) :
    ∃ p, p < 2 ^ 64 ∧ Placed rd a (leBytes 8 p) := by
  cases args with
  | nil => exact ⟨0, by norm_num, h⟩
  | cons s args =>
    obtain ⟨p, -, hlt, hp, -⟩ := h
    exact ⟨p, hlt, hp⟩

theorem argv_null_iff {args : List (List UInt8)} (h0 : Placed rd a (leBytes 8 0)) :
    Argv rd a args ↔ args = [] := by
  cases args with
  | nil => exact iff_of_true h0 rfl
  | cons s args =>
    refine iff_of_false ?_ (List.cons_ne_nil _ _)
    rintro ⟨p, hne, hlt, hp, -⟩
    exact hne (hp.word h0 hlt (by norm_num))

/-- any other pointer leads to the first string -/
theorem argv_pointer_iff {args : List (List UInt8)} (hp : Placed rd a (leBytes 8 p))
    (hlt : p < 2 ^ 64) (hne : p ≠ 0) :
    Argv rd a args ↔ ∃ s args', args = s :: args' ∧ CStr rd p s ∧ Argv rd (a + 8) args' := by
  cases args with
  | nil =>
    refine iff_of_false (fun h => hne (hp.word h hlt (by norm_num))) ?_
    rintro ⟨s, args', e, -⟩
    cases e
  | cons s args =>
    constructor
    · rintro ⟨q, -, hq, hp', hs, h⟩
      obtain rfl := hp.word hp' hlt hq
      exact ⟨s, args, rfl, hs, h⟩
    · rintro ⟨s', args', e, hs, h⟩
      obtain ⟨rfl, rfl⟩ := List.cons.inj e
      exact ⟨p, hne, hlt, hp, hs, h⟩

theorem Argv.unique {args args' : List (List UInt8)} (h : Argv rd a args) (h' : Argv rd a args') :
    args = args' := by
  induction args generalizing a args' with
  | nil => exact ((argv_null_iff h).mp h').symm
  | cons s args ih =>
    obtain ⟨p, hne, hlt, hp, hs, htail⟩ := h
    obtain ⟨s', args', rfl, hs', htail'⟩ := (argv_pointer_iff hp hlt hne).mp h'
    rw [hs.unique hs', ih htail htail']

/-- an array of pointers with a null pointer behind them -/
def pointers (ps : List Nat) : List UInt8 := (ps ++ [0]).flatMap (leBytes 8)

theorem length_pointers {ps : List Nat} : (pointers ps).length = 8 * (ps.length + 1) := by
  unfold pointers
  rw [List.length_flatMap, show ps.length + 1 = (ps ++ [0]).length by simp]
  generalize ps ++ [0] = qs
  induction qs with
  | nil => rfl
  | cons q qs ih =>
    rw [List.map_cons, List.sum_cons, ih, length_leBytes, List.length_cons]
    omega

theorem argv_of_pointers {ps : List Nat} {args : List (List UInt8)}
    (hps : Placed rd a (pointers ps))
    (h : List.Forall₂ (fun p s => p ≠ 0 ∧ p < 2 ^ 64 ∧ CStr rd p s) ps args) :
    Argv rd a args := by
  induction h generalizing a with
  | nil => exact hps
  | cons h _ ih =>
    obtain ⟨hne, hlt, hs⟩ := h
    obtain ⟨h1, h2⟩ := placed_append.mp hps
    rw [length_leBytes] at h2
    exact ⟨_, hne, hlt, h1, hs, ih h2⟩

end

end Lib
