import Xv6.Lib.Window
import Xv6.Boogsh.History

/-!
# `struct history` and its allocations

`Table` is the array that `add_history` shifts, fills and frees from.  A command pointer is the
number of `malloc` calls before the one that returned it, so a block that is freed never comes back
under the same name; a `malloc` that fails ends the shell in the `strcpy` after it.

`Loaded` gives the whole table after any number of commands.  `window_iff` says when it is the window
over the last commands that `!n` searches: as long as the numbers fit an `int`, and `atoi`, which
reads on behind the digits in `arg_nums`, finds the number that was typed.
-/

namespace Boogsh
open Ulib Lib

/-! ## the table -/

/-- `struct history_pair` -/
structure Pair where
  command : Nat
  val : BitVec 32
  time : Int

/-- `struct history` with the blocks of its commands: `mallocs` counts the calls of `malloc`, `text`
is what the live blocks hold, `freed` are the blocks that `add_history` has freed, the last first -/
structure Table where
  pairs : Nat → Pair
  count : Nat
  totalCount : BitVec 32
  mallocs : Nat
  text : Nat → Option Str
  freed : List Nat

/-- `init_history`, on whatever the slots and the heap hold -/
def Table.initHistory (pairs : Nat → Pair) (mallocs : Nat) (text : Nat → Option Str) : Table where
  pairs := pairs
  count := 0
  totalCount := 1
  mallocs := mallocs
  text := text
  freed := []

/-- the loop that moves `n` pairs down by one -/
def shift (n : Nat) (pairs : Nat → Pair) : Nat → Pair :=
  (List.range n).foldl (fun p i => Function.update p i (p (i + 1))) pairs

/-- the full window gives up its first command, another one grows -/
def Table.makeRoom (t : Table) : Table :=
  if t.count = 100 then
    { t with
      text := Function.update t.text (t.pairs 0).command none
      freed := (t.pairs 0).command :: t.freed
      pairs := shift 99 t.pairs }
  else { t with count := t.count + 1 }

/-- the new command in the last slot -/
def Table.put (t : Table) (c : Str) (timeTaken : Int) : Table :=
  { t with
    mallocs := t.mallocs + 1
    text := Function.update t.text t.mallocs (some c)
    pairs := Function.update t.pairs (t.count - 1) ⟨t.mallocs, t.totalCount, timeTaken⟩
    totalCount := t.totalCount + 1 }

def Table.addHistory (t : Table) (c : Str) (timeTaken : Int) : Table :=
  if validCmd c then t.makeRoom.put c timeTaken else t

/-- `search_by_num`: the command pointer it finds, `stack` being what is behind the digits -/
def Table.searchByNum (t : Table) (stack buf : Str) : Option Nat :=
  let val := BitVec.ofNat 32 (atoi (((buf.drop 1).takeWhile isDigit).take bufferSize ++ stack))
  (List.range t.count).foldl
    (fun found i => if (t.pairs i).val = val then some (t.pairs i).command else found) none

def Table.addAll (t : Table) (cs : List (Str × Int)) : Table :=
  cs.foldl (fun t c => t.addHistory c.1 c.2) t

/-! ## what it has to be -/

/-- the table is the window over the last commands of `cs` -/
structure Window (cs : List (Str × Int)) (t : Table) : Prop where
  count : t.count = min cs.length 100
  total : t.totalCount.toInt = cs.length + 1
  entry : ∀ i < t.count, ∃ c, cs[cs.length - t.count + i]? = some c ∧
    t.text (t.pairs i).command = some c.1 ∧ (t.pairs i).time = c.2 ∧
    (t.pairs i).val.toInt = cs.length - t.count + i + 1
  distinct : ∀ i < t.count, ∀ j < t.count, (t.pairs i).command = (t.pairs j).command → i = j

def InWindow (cs : List (Str × Int)) (n : Nat) : Prop := cs.length - 100 < n ∧ n ≤ cs.length

/-- the block of every command, from the first on: `m` is what was allocated before -/
structure Owned (m : Nat) (cs : List (Str × Int)) (t : Table) : Prop where
  window : ∀ i < t.count, (t.pairs i).command = m + (cs.length - t.count + i)
  evicted : t.freed.reverse = (List.range (cs.length - t.count)).map (m + ·)
  dead : ∀ b ∈ t.freed, t.text b = none

/-- what `!n` has to find: the `n`-th command, when it is in the window -/
def Finds (m : Nat) (cs : List (Str × Int)) (t : Table) (n : Nat) : Option Nat → Prop
  | none => ¬ InWindow cs n
  | some p => InWindow cs n ∧ p = m + (n - 1) ∧ ∃ c, cs[n - 1]? = some c ∧ t.text p = some c.1

def numeral (s : Str) : Nat := s.foldl (fun n c => n * 10 + (c.toNat - '0'.toNat)) 0

/-- the number that `atoi` reads from `arg_nums`, which is not terminated: the digits that were
typed, and then those on the stack, in an `int` -/
def numberRead (digits stack : Str) : Nat :=
  numeral (digits.take bufferSize ++ stack.takeWhile isDigit) % 2 ^ 32

/-! ## the loops -/

theorem shift_apply (n : Nat) (pairs : Nat → Pair) (i : Nat) :
    shift n pairs i = if i < n then pairs (i + 1) else pairs i := by
  induction n generalizing i with
  | zero => rfl
  | succ n ih =>
    have h1 : shift (n + 1) pairs = Function.update (shift n pairs) n (shift n pairs (n + 1)) := by
      unfold shift
      rw [List.range_succ, List.foldl_append]
      rfl
    rw [h1]
    by_cases hi : i = n
    · obtain rfl := hi
      rw [Function.update_self, ih, if_neg (by omega), if_pos (by omega)]
    · rw [Function.update_of_ne hi, ih]
      by_cases hlt : i < n
      · rw [if_pos hlt, if_pos (by omega)]
      · rw [if_neg hlt, if_neg (by omega)]

/-- a search that keeps the last match, when at most one index matches -/
theorem foldl_match {α : Type*} (p : Nat → Bool) (f : Nat → α) (n : Nat)
    (hu : ∀ i < n, ∀ j < n, p i = true → p j = true → i = j) :
    (∀ i < n, p i = true →
      (List.range n).foldl (fun a i => if p i then some (f i) else a) none = some (f i)) ∧
    ((∀ i < n, p i = false) →
      (List.range n).foldl (fun a i => if p i then some (f i) else a) none = none) := by
  induction n with
  | zero => exact ⟨fun i hi => absurd hi (Nat.not_lt_zero i), fun _ => rfl⟩
  | succ n ih =>
    obtain ⟨h1, h2⟩ := ih (fun i hi j hj => hu i (by omega) j (by omega))
    rw [List.range_succ, List.foldl_append, List.foldl_cons, List.foldl_nil]
    constructor
    · intro i hi hp
      by_cases hn : p n = true
      · rw [if_pos hn, hu i hi n (Nat.lt_succ_self n) hp hn]
      · have hin : i ≠ n := by
          rintro rfl
          exact hn hp
        rw [if_neg hn]
        exact h1 i (by omega) hp
    · intro hno
      rw [if_neg (by simp [hno n (Nat.lt_succ_self n)])]
      exact h2 (fun i hi => hno i (by omega))

theorem foldl_atoi (s : Str) (a : Nat) :
    s.foldl (fun n c => (n * 10 + (c.toNat - '0'.toNat)) % 2 ^ 32) (a % 2 ^ 32)
      = s.foldl (fun n c => n * 10 + (c.toNat - '0'.toNat)) a % 2 ^ 32 := by
  induction s generalizing a with
  | nil => rfl
  | cons c s ih =>
    rw [List.foldl_cons, List.foldl_cons, ← ih]
    congr 1
    rw [Nat.add_mod, Nat.mul_mod, Nat.mod_mod, ← Nat.mul_mod, ← Nat.add_mod]

theorem atoi_eq (s : Str) : atoi s = numeral (s.takeWhile isDigit) % 2 ^ 32 :=
  foldl_atoi (s.takeWhile isDigit) 0

/-! ## the whole table -/

structure Loaded (m : Nat) (cs : List (Str × Int)) (t : Table) : Prop where
  count : t.count = min cs.length 100
  total : t.totalCount = BitVec.ofNat 32 (cs.length + 1)
  mallocs : t.mallocs = m + cs.length
  pair : ∀ i c, i < t.count → cs[cs.length - t.count + i]? = some c →
    t.pairs i = ⟨m + (cs.length - t.count + i), BitVec.ofNat 32 (cs.length - t.count + i + 1), c.2⟩
  live : ∀ j c, cs.length - t.count ≤ j → cs[j]? = some c → t.text (m + j) = some c.1
  dead : ∀ j < cs.length - t.count, t.text (m + j) = none
  freed : t.freed.reverse = (List.range (cs.length - t.count)).map (m + ·)

section
variable {m : Nat} {cs : List (Str × Int)} {t : Table}

theorem Loaded.init (pairs : Nat → Pair) (m : Nat) (text : Nat → Option Str) :
    Loaded m [] (Table.initHistory pairs m text) where
  count := rfl
  total := rfl
  mallocs := rfl
  pair := fun i _ hi => absurd hi (Nat.not_lt_zero i)
  live := fun j c _ hj => absurd hj (by simp)
  dead := fun j hj => absurd hj (Nat.not_lt_zero j)
  freed := rfl

theorem Loaded.some_of_lt (h : Loaded m cs t) {i : Nat} (hi : i < t.count) :
    ∃ c, cs[cs.length - t.count + i]? = some c := by
  have hc := h.count
  exact ⟨_, List.getElem?_eq_getElem (show cs.length - t.count + i < cs.length by omega)⟩

/-- after `makeRoom` the last slot is free, and the others hold the commands they held -/
structure Roomy (m : Nat) (cs : List (Str × Int)) (t : Table) : Prop where
  count : t.count = min (cs.length + 1) 100
  total : t.totalCount = BitVec.ofNat 32 (cs.length + 1)
  mallocs : t.mallocs = m + cs.length
  pair : ∀ i c, i + 1 < t.count → cs[cs.length + 1 - t.count + i]? = some c → t.pairs i =
    ⟨m + (cs.length + 1 - t.count + i), BitVec.ofNat 32 (cs.length + 1 - t.count + i + 1), c.2⟩
  live : ∀ j c, cs.length + 1 - t.count ≤ j → cs[j]? = some c → t.text (m + j) = some c.1
  dead : ∀ j < cs.length + 1 - t.count, t.text (m + j) = none
  freed : t.freed.reverse = (List.range (cs.length + 1 - t.count)).map (m + ·)

theorem Loaded.grow (h : Loaded m cs t) (hlt : cs.length < 100) :
    Roomy m cs { t with count := t.count + 1 } := by
  have hc : t.count = cs.length := h.count.trans (Nat.min_eq_left (by omega))
  have hz : cs.length - t.count = 0 := by omega
  have hz' : cs.length + 1 - (t.count + 1) = 0 := by omega
  have hp := h.pair
  have hl := h.live
  have hf := h.freed
  rw [hz] at hp hl hf
  refine ⟨?_, h.total, h.mallocs, ?_, ?_, ?_, ?_⟩
  · show t.count + 1 = _
    omega
  · show ∀ i c, i + 1 < t.count + 1 → cs[cs.length + 1 - (t.count + 1) + i]? = some c → _
    rw [hz']
    exact fun i c hi => hp i c (by omega)
  · show ∀ j c, cs.length + 1 - (t.count + 1) ≤ j → _
    rw [hz']
    exact hl
  · show ∀ j < cs.length + 1 - (t.count + 1), _
    rw [hz']
    exact fun j hj => absurd hj (Nat.not_lt_zero j)
  · show t.freed.reverse = (List.range (cs.length + 1 - (t.count + 1))).map (m + ·)
    rw [hz']
    exact hf

/-- at the limit it shifts by one and frees the first block -/
theorem Loaded.evict (h : Loaded m cs t) (hle : 100 ≤ cs.length) :
    Roomy m cs { t with
      text := Function.update t.text (t.pairs 0).command none
      freed := (t.pairs 0).command :: t.freed
      pairs := shift 99 t.pairs } := by
  have hc : t.count = 100 := h.count.trans (Nat.min_eq_right hle)
  obtain ⟨c0, hc0⟩ := h.some_of_lt (show 0 < t.count by omega)
  have hfirst : (t.pairs 0).command = m + (cs.length - 100) := by
    rw [h.pair 0 c0 (by omega) hc0, hc]
    rfl
  have hone : cs.length + 1 - 100 = cs.length - 100 + 1 := by omega
  refine ⟨?_, h.total, h.mallocs, ?_, ?_, ?_, ?_⟩
  · show t.count = _
    omega
  · show ∀ i c, i + 1 < t.count → cs[cs.length + 1 - t.count + i]? = some c → shift 99 t.pairs i = _
    intro i c hi hic
    have hnext : cs.length + 1 - t.count + i = cs.length - t.count + (i + 1) := by omega
    rw [shift_apply, if_pos (by omega), hnext]
    rw [hnext] at hic
    exact h.pair (i + 1) c hi hic
  · show ∀ j c, cs.length + 1 - t.count ≤ j → cs[j]? = some c →
      Function.update t.text (t.pairs 0).command none (m + j) = some c.1
    intro j c hj hjc
    rw [hfirst, Function.update_of_ne (by omega)]
    exact h.live j c (by omega) hjc
  · show ∀ j < cs.length + 1 - t.count,
      Function.update t.text (t.pairs 0).command none (m + j) = none
    intro j hj
    rw [hfirst]
    by_cases he : j = cs.length - 100
    · rw [he, Function.update_self]
    · rw [Function.update_of_ne (by omega)]
      exact h.dead j (by omega)
  · show ((t.pairs 0).command :: t.freed).reverse
      = (List.range (cs.length + 1 - t.count)).map (m + ·)
    rw [List.reverse_cons, h.freed, hfirst, hc, hone, List.range_succ, List.map_append]
    rfl

theorem Loaded.makeRoom (h : Loaded m cs t) : Roomy m cs t.makeRoom := by
  have hc := h.count
  unfold Table.makeRoom
  by_cases hfull : t.count = 100
  · rw [if_pos hfull]
    exact h.evict (by omega)
  · rw [if_neg hfull]
    exact h.grow (by omega)

theorem Roomy.put (h : Roomy m cs t) (c : Str) (timeTaken : Int) :
    Loaded m (cs ++ [(c, timeTaken)]) (t.put c timeTaken) := by
  have hlen : (cs ++ [(c, timeTaken)]).length = cs.length + 1 := by simp
  have hc := h.count
  have hget : ∀ j d, (cs ++ [(c, timeTaken)])[j]? = some d →
      j < cs.length ∧ cs[j]? = some d ∨ j = cs.length ∧ d = (c, timeTaken) := by
    intro j d hj
    by_cases hlt : j < cs.length
    · rw [List.getElem?_append_left hlt] at hj
      exact Or.inl ⟨hlt, hj⟩
    · have hj2 := (List.getElem?_eq_some_iff.mp hj).1
      have he : j = cs.length := by omega
      rw [he, List.getElem?_concat_length] at hj
      exact Or.inr ⟨he, (Option.some.inj hj).symm⟩
  refine ⟨?_, ?_, ?_, ?_, ?_, ?_, ?_⟩
  · rw [hlen]
    exact hc
  · rw [hlen]
    show t.totalCount + 1 = _
    rw [h.total]
    exact BitVec.ofNat_add_ofNat _ 1
  · rw [hlen]
    show t.mallocs + 1 = _
    rw [h.mallocs]
    rfl
  · rw [hlen]
    show ∀ i d, i < t.count → (cs ++ [(c, timeTaken)])[cs.length + 1 - t.count + i]? = some d →
      Function.update t.pairs (t.count - 1) ⟨t.mallocs, t.totalCount, timeTaken⟩ i =
        ⟨m + (cs.length + 1 - t.count + i), BitVec.ofNat 32 (cs.length + 1 - t.count + i + 1), d.2⟩
    intro i d hi hid
    rcases hget _ d hid with ⟨hlt, hd⟩ | ⟨heq, rfl⟩
    · rw [Function.update_of_ne (by omega)]
      exact h.pair i d (by omega) hd
    · obtain rfl : i = t.count - 1 := by omega
      rw [Function.update_self, heq, h.mallocs, h.total]
  · rw [hlen]
    show ∀ j d, cs.length + 1 - t.count ≤ j → (cs ++ [(c, timeTaken)])[j]? = some d →
      Function.update t.text t.mallocs (some c) (m + j) = some d.1
    intro j d hj hjd
    rw [h.mallocs]
    rcases hget j d hjd with ⟨hlt, hd⟩ | ⟨rfl, rfl⟩
    · rw [Function.update_of_ne (by omega)]
      exact h.live j d hj hd
    · rw [Function.update_self]
  · rw [hlen]
    show ∀ j < cs.length + 1 - t.count, Function.update t.text t.mallocs (some c) (m + j) = none
    intro j hj
    rw [h.mallocs, Function.update_of_ne (by omega)]
    exact h.dead j hj
  · rw [hlen]
    exact h.freed

theorem Loaded.addHistory (h : Loaded m cs t) {c : Str} (hv : validCmd c = true) (timeTaken : Int) :
    Loaded m (cs ++ [(c, timeTaken)]) (t.addHistory c timeTaken) := by
  unfold Table.addHistory
  rw [if_pos hv]
  exact h.makeRoom.put c timeTaken

theorem Loaded.addAll (h : Loaded m cs t) {ds : List (Str × Int)}
    (hv : ∀ c ∈ ds, validCmd c.1 = true) : Loaded m (cs ++ ds) (t.addAll ds) := by
  induction ds generalizing cs t with
  | nil =>
    rw [List.append_nil]
    exact h
  | cons c ds ih =>
    have h1 := h.addHistory (hv c List.mem_cons_self) c.2
    have h2 := ih h1 (fun d hd => hv d (List.mem_cons_of_mem _ hd))
    rw [List.append_assoc] at h2
    exact h2

/-! ## the window -/

theorem toInt_ofNat_of_lt {x : Nat} (h : x < 2 ^ 31) : (BitVec.ofNat 32 x).toInt = x := by
  have hnat : (BitVec.ofNat 32 x).toNat = x := by
    rw [BitVec.toNat_ofNat, Nat.mod_eq_of_lt (by omega)]
  rw [BitVec.toInt_eq_toNat_of_lt (by rw [hnat]; omega), hnat]

theorem ofNat_eq_iff {x y : Nat} (hx : x < 2 ^ 32) (hy : y < 2 ^ 32) :
    BitVec.ofNat 32 x = BitVec.ofNat 32 y ↔ x = y := by
  constructor
  · intro e
    have h1 := congrArg BitVec.toNat e
    rwa [BitVec.toNat_ofNat, BitVec.toNat_ofNat, Nat.mod_eq_of_lt hx, Nat.mod_eq_of_lt hy] at h1
  · exact congrArg _

theorem Loaded.fits_iff (h : Loaded m cs t) : Window cs t ↔ cs.length + 1 < 2 ^ 31 := by
  have hc := h.count
  constructor
  · intro hw
    have h1 : 2 * t.totalCount.toInt < 2 ^ 32 := BitVec.two_mul_toInt_lt
    rw [hw.total] at h1
    omega
  · intro hlt
    refine ⟨hc, ?_, ?_, ?_⟩
    · rw [h.total, toInt_ofNat_of_lt hlt]
      rfl
    · intro i hi
      obtain ⟨c, hic⟩ := h.some_of_lt hi
      refine ⟨c, hic, ?_, ?_, ?_⟩
      · rw [h.pair i c hi hic]
        exact h.live _ c (by omega) hic
      · rw [h.pair i c hi hic]
      · rw [h.pair i c hi hic, toInt_ofNat_of_lt (by omega)]
        omega
    · intro i hi j hj e
      obtain ⟨c, hic⟩ := h.some_of_lt hi
      obtain ⟨d, hjd⟩ := h.some_of_lt hj
      rw [h.pair i c hi hic, h.pair j d hj hjd] at e
      have e2 : m + (cs.length - t.count + i) = m + (cs.length - t.count + j) := e
      omega

theorem Loaded.owned (h : Loaded m cs t) : Owned m cs t where
  window := by
    intro i hi
    obtain ⟨c, hic⟩ := h.some_of_lt hi
    rw [h.pair i c hi hic]
  evicted := h.freed
  dead := by
    intro b hb
    rw [← List.mem_reverse, h.freed] at hb
    obtain ⟨j, hj, rfl⟩ := List.mem_map.mp hb
    exact h.dead j (List.mem_range.mp hj)

/-- the search compares with `val`; of the numbers in the window it finds the one it looks for -/
theorem Loaded.search (h : Loaded m cs t) (hlt : cs.length + 1 < 2 ^ 31) {stack buf : Str} {v : Nat}
    (hv : atoi (((buf.drop 1).takeWhile isDigit).take bufferSize ++ stack) = v)
    (hv32 : v < 2 ^ 32) : (InWindow cs v → t.searchByNum stack buf = some (m + (v - 1))) ∧
      (¬ InWindow cs v → t.searchByNum stack buf = none) := by
  have hc := h.count
  have hmatch : ∀ i < t.count,
      (decide ((t.pairs i).val = BitVec.ofNat 32 v) = true ↔ cs.length - t.count + i + 1 = v) := by
    intro i hi
    obtain ⟨c, hic⟩ := h.some_of_lt hi
    rw [decide_eq_true_iff, h.pair i c hi hic]
    exact ofNat_eq_iff (by omega) hv32
  have hfold := foldl_match (fun i => decide ((t.pairs i).val = BitVec.ofNat 32 v))
    (fun i => (t.pairs i).command) t.count (by
      intro i hi j hj hpi hpj
      have h1 := (hmatch i hi).mp hpi
      have h2 := (hmatch j hj).mp hpj
      omega)
  unfold Table.searchByNum InWindow
  rw [hv]
  simp only [decide_eq_true_eq] at hfold
  constructor
  · rintro ⟨h1, h2⟩
    have hi : v - 1 - (cs.length - t.count) < t.count := by omega
    obtain ⟨c, hic⟩ := h.some_of_lt hi
    have hval := (hmatch _ hi).mpr (by omega)
    rw [decide_eq_true_iff] at hval
    have hp := congrArg Pair.command (h.pair _ c hi hic)
    have hnum : m + (cs.length - t.count + (v - 1 - (cs.length - t.count))) = m + (v - 1) := by
      omega
    rw [← hnum]
    exact (hfold.1 _ hi hval).trans (congrArg some hp)
  · intro hno
    apply hfold.2
    intro i hi
    rw [← Bool.not_eq_true, hmatch i hi]
    omega

theorem Loaded.finds_iff (h : Loaded m cs t) (hlt : cs.length + 1 < 2 ^ 31) {stack buf : Str}
    {n v : Nat} (hv : atoi (((buf.drop 1).takeWhile isDigit).take bufferSize ++ stack) = v)
    (hv32 : v < 2 ^ 32) : Finds m cs t n (t.searchByNum stack buf) ↔
      (InWindow cs n ∨ InWindow cs v → v = n) := by
  obtain ⟨hin, hout⟩ := h.search hlt hv hv32
  by_cases hw : InWindow cs v
  · rw [hin hw]
    constructor
    · rintro ⟨hn, hp, -⟩ -
      have h1 := hw.1
      have h2 := hn.1
      omega
    · intro he
      obtain rfl := he (Or.inr hw)
      have hidx : v - 1 < cs.length := by
        have h1 := hw.2
        have h2 := hw.1
        omega
      refine ⟨hw, rfl, _, List.getElem?_eq_getElem hidx, ?_⟩
      have hc := h.count
      have h1 := hw.1
      exact h.live _ _ (by omega) (List.getElem?_eq_getElem hidx)
  · rw [hout hw]
    constructor
    · intro hn hor
      exact absurd (hor.resolve_right hw) hn
    · intro he hn
      exact hw (he (Or.inl hn) ▸ hn)

end

theorem atoi_digits {d rest stack : Str} (hd : ∀ c ∈ d, isDigit c = true)
    (hrest : ∀ c, rest.head? = some c → isDigit c = false) :
    atoi (((('!' :: d ++ rest).drop 1).takeWhile isDigit).take bufferSize ++ stack)
      = numberRead d stack := by
  have h1 : (d ++ rest).takeWhile isDigit = d := by
    rw [List.takeWhile_append_of_pos hd]
    cases rest with
    | nil => simp
    | cons c rest => simp [hrest c rfl]
  have h2 : (d.take bufferSize ++ stack).takeWhile isDigit
      = d.take bufferSize ++ stack.takeWhile isDigit :=
    List.takeWhile_append_of_pos (fun c hc => hd c (List.mem_of_mem_take hc))
  show atoi (((d ++ rest).takeWhile isDigit).take bufferSize ++ stack) = _
  rw [h1, atoi_eq, h2]
  rfl

/-- after any valid commands the table is the window over the last 100, and `!` with the digits `d`
finds the command of that number, exactly when the number of commands fits an `int` and the number
that `atoi` reads is the one that was typed, or neither is in the window; the blocks are owned in
any case -/
theorem window_iff (pairs : Nat → Pair) (m : Nat) (text : Nat → Option Str)
    (cs : List (Str × Int)) (hcs : ∀ c ∈ cs, validCmd c.1 = true) (d rest stack : Str)
    (hd : ∀ c ∈ d, isDigit c = true) (hrest : ∀ c, rest.head? = some c → isDigit c = false) :
    let t := (Table.initHistory pairs m text).addAll cs
    Owned m cs t ∧
      (Window cs t ∧ Finds m cs t (numeral d) (t.searchByNum stack ('!' :: d ++ rest)) ↔
        cs.length + 1 < 2 ^ 31 ∧ (InWindow cs (numeral d) ∨ InWindow cs (numberRead d stack) →
          numberRead d stack = numeral d)) := by
  intro t
  have h : Loaded m cs t := (Loaded.init pairs m text).addAll hcs
  refine ⟨h.owned, ?_⟩
  rw [h.fits_iff]
  constructor
  · rintro ⟨hlt, hf⟩
    exact ⟨hlt, (h.finds_iff hlt (atoi_digits hd hrest) (Nat.mod_lt _ (by decide))).mp hf⟩
  · rintro ⟨hlt, hf⟩
    exact ⟨hlt, (h.finds_iff hlt (atoi_digits hd hrest) (Nat.mod_lt _ (by decide))).mpr hf⟩

/-- `ls` and `pwd`, with nothing on the stack: `!2` finds `pwd` -/
theorem window_of_two : Finds 7 [("ls".toList, 0), ("pwd".toList, 0)]
    ((Table.initHistory (fun _ => ⟨0, 0, 0⟩) 7 (fun _ => none)).addAll
      [("ls".toList, 0), ("pwd".toList, 0)]) 2
    (((Table.initHistory (fun _ => ⟨0, 0, 0⟩) 7 (fun _ => none)).addAll
      [("ls".toList, 0), ("pwd".toList, 0)]).searchByNum [] "!2".toList) :=
  ((window_iff (fun _ => ⟨0, 0, 0⟩) 7 (fun _ => none) [("ls".toList, 0), ("pwd".toList, 0)]
    (by decide) ['2'] [] [] (fun _ hc => List.mem_singleton.mp hc ▸ rfl) nofun).2.mpr
      ⟨by decide, fun _ => rfl⟩).2

/-- with a digit behind `arg_nums`, `!1` looks for command 10 -/
theorem stack_is_read : ¬ ∀ (pairs : Nat → Pair) (m : Nat) (text : Nat → Option Str)
    (cs : List (Str × Int)), (∀ c ∈ cs, validCmd c.1 = true) → ∀ d rest stack : Str,
    (∀ c ∈ d, isDigit c = true) → (∀ c, rest.head? = some c → isDigit c = false) →
    let t := (Table.initHistory pairs m text).addAll cs
    Window cs t ∧ Owned m cs t ∧
      Finds m cs t (numeral d) (t.searchByNum stack ('!' :: d ++ rest)) := by
  intro h
  have h1 := (h (fun _ => ⟨0, 0, 0⟩) 0 (fun _ => none) [("ls".toList, 0)] (by decide) ['1'] []
    "0".toList (fun _ hc => List.mem_singleton.mp hc ▸ rfl) nofun).2.2
  have h2 : ((Table.initHistory (fun _ => ⟨0, 0, 0⟩) 0 (fun _ => none)).addAll
      [("ls".toList, 0)]).searchByNum "0".toList "!1".toList = none := by decide +kernel
  rw [show ('!' :: ['1'] ++ [] : Str) = "!1".toList from rfl, h2] at h1
  exact h1 ⟨by decide, by decide⟩

/-! ## the table and the list of entries -/

/-- the table is the array behind the list of entries -/
structure Represents (t : Table) (h : History) : Prop where
  count : t.count = h.pairs.length
  total : t.totalCount = BitVec.ofNat 32 h.totalCount
  entry : ∀ i e, h.pairs[i]? = some e → t.text (t.pairs i).command = some e.command ∧
    (t.pairs i).val = BitVec.ofNat 32 e.val ∧ (t.pairs i).time = e.time

/-- the same commands on the list of entries -/
def History.addAll (h : History) (cs : List (Str × Int)) (a : Action) : History :=
  cs.foldl (fun h c => Boogsh.addHistory h c.1 c.2 a) h

def entries (cs : List (Str × Int)) (a : Action) : List Entry :=
  (cs.zipIdx 1).map (fun p => ⟨p.1.1, p.2, p.1.2, a⟩)

theorem history_addAll (a : Action) {cs : List (Str × Int)}
    (hcs : ∀ c ∈ cs, validCmd c.1 = true) :
    History.addAll ⟨[], 1⟩ cs a = ⟨(entries cs a).rtake 100, cs.length + 1⟩ := by
  induction cs using List.reverseRecOn with
  | nil => rfl
  | append_singleton cs c ih =>
    have h1 := ih (fun d hd => hcs d (List.mem_append_left _ hd))
    have hv : validCmd c.1 = true := hcs c (List.mem_append_right _ List.mem_cons_self)
    have he : entries (cs ++ [c]) a = entries cs a ++ [⟨c.1, cs.length + 1, c.2, a⟩] := by
      unfold entries
      rw [List.zipIdx_append, List.map_append, Nat.add_comm cs.length]
      rfl
    unfold History.addAll at h1 ⊢
    rw [List.foldl_append, h1, he, ← slide_rtake (show 0 < 100 by decide), List.length_append]
    exact if_pos hv

theorem represents_addAll (pairs : Nat → Pair) (m : Nat) (text : Nat → Option Str) (a : Action)
    {cs : List (Str × Int)} (hcs : ∀ c ∈ cs, validCmd c.1 = true) :
    Represents ((Table.initHistory pairs m text).addAll cs) (History.addAll ⟨[], 1⟩ cs a) := by
  have h : Loaded m cs ((Table.initHistory pairs m text).addAll cs) :=
    (Loaded.init pairs m text).addAll hcs
  have hlen : (entries cs a).length = cs.length := by
    unfold entries
    rw [List.length_map, List.length_zipIdx]
  rw [history_addAll a hcs]
  refine ⟨?_, h.total, ?_⟩
  · rw [h.count, rtake_length, hlen, Nat.min_comm]
  · intro i e he
    have hi : i < min 100 cs.length := by
      rw [← hlen, ← rtake_length]
      exact (List.getElem?_eq_some_iff.mp he).1
    have hc := h.count
    obtain ⟨c, hic⟩ := h.some_of_lt (show i < _ by omega)
    have hshift : cs.length - min cs.length 100 = cs.length - 100 := by omega
    rw [hc, hshift] at hic
    have hent : (entries cs a)[cs.length - 100 + i]?
        = some ⟨c.1, 1 + (cs.length - 100 + i), c.2, a⟩ := by
      unfold entries
      rw [List.getElem?_map, List.getElem?_zipIdx, hic]
      rfl
    rw [rtake_getElem?, hlen, hent] at he
    obtain rfl := Option.some.inj he
    rw [h.pair i c (by omega) (by rw [hc, hshift]; exact hic), hc, hshift]
    refine ⟨h.live _ c (by omega) hic, ?_, rfl⟩
    rw [Nat.add_comm 1]

theorem findLast_concat (p : Entry → Bool) (l : List Entry) (e : Entry) (i : Nat)
    (found : Option Nat) : findLast p (l ++ [e]) i found =
      if p e then some (i + l.length) else findLast p l i found := by
  induction l generalizing i found with
  | nil => rfl
  | cons x l ih =>
    show findLast p (l ++ [e]) (i + 1) _ = if p e then some (i + (l.length + 1)) else _
    rw [ih, Nat.add_assoc, Nat.add_comm 1]
    rfl

theorem Represents.search {t : Table} {h : History} (hr : Represents t h) (stack : Str) {buf : Str}
    (hbuf : buf.length ≤ bufferSize) : t.searchByNum stack buf =
      (Boogsh.searchByNum h stack buf).map (fun i => (t.pairs i).command) := by
  have htake : ((buf.drop 1).takeWhile isDigit).take bufferSize = (buf.drop 1).takeWhile isDigit := by
    have h1 := (List.takeWhile_prefix (p := isDigit) (l := buf.drop 1)).length_le
    rw [List.length_drop] at h1
    exact List.take_of_length_le (by omega)
  unfold Table.searchByNum Boogsh.searchByNum
  rw [htake, hr.count]
  dsimp only
  generalize hv : atoi ((buf.drop 1).takeWhile isDigit ++ stack) = v
  have hv32 : v < 2 ^ 32 := by
    rw [← hv, atoi_eq]
    exact Nat.mod_lt _ (by decide)
  have hentry := hr.entry
  generalize h.pairs = l at hentry
  induction l using List.reverseRecOn with
  | nil => rfl
  | append_singleton l e ih =>
    have hlast := hentry l.length e List.getElem?_concat_length
    have hrest := ih (fun i e' he' => hentry i e' (by
      rw [List.getElem?_append_left (List.getElem?_eq_some_iff.mp he').1]
      exact he'))
    have hcmp : (t.pairs l.length).val = BitVec.ofNat 32 v ↔ (e.val % 2 ^ 32 == v) = true := by
      rw [hlast.2.1, beq_iff_eq]
      constructor
      · intro e1
        have e2 := congrArg BitVec.toNat e1
        rwa [BitVec.toNat_ofNat, BitVec.toNat_ofNat, Nat.mod_eq_of_lt hv32] at e2
      · intro e1
        apply BitVec.eq_of_toNat_eq
        rw [BitVec.toNat_ofNat, BitVec.toNat_ofNat, Nat.mod_eq_of_lt hv32]
        exact e1
    rw [List.length_append, List.length_singleton, List.range_succ, List.foldl_append, hrest,
      findLast_concat]
    show (if (t.pairs l.length).val = BitVec.ofNat 32 v then _ else _) = _
    by_cases hm : (t.pairs l.length).val = BitVec.ofNat 32 v
    · rw [if_pos hm, if_pos (hcmp.mp hm), Nat.zero_add]
      rfl
    · rw [if_neg hm, if_neg (fun h1 => hm (hcmp.mpr h1))]

end Boogsh
