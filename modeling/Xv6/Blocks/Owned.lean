import Xv6.Blocks.Model

/-!
# Who owns a block

A block of the data area is marked in the bitmap exactly if an inode refers to it, and then one
inode does, at one place.  `balloc` marks a block that nothing refers to, and `bfree` is for one
that nothing refers to any more.
-/

namespace Blocks
open Lib Fs

/-- a place that an inode has for the address of a block -/
inductive Slot where
  /-- `addrs[k]` -/
  | addr (k : Nat)
  /-- `a[j]` of the indirect block -/
  | entry (j : Nat)
  deriving DecidableEq

/-- the address at a place of inode `i`, or 0 -/
def State.ref (s : State) (i : Nat) : Slot → Nat
  | .addr k => if k ≤ ndirect then (s.inode i).addrs k else 0
  | .entry j =>
    if j < nindirect ∧ (s.inode i).addrs ndirect ≠ 0 then
      Blocks.entry (s.cache ((s.inode i).addrs ndirect)) j
    else 0

def Superblock.Used (sb : Superblock) (s : State) (b : Nat) : Prop :=
  bit (s.cache (sb.bblock b)) (b % bpb) = true

/-- the bitmap is right for the addresses `ref`, and for a block `x` on its way to a place; `x` is 0
when there is none -/
structure Owns (sb : Superblock) (s : State) (ref : Nat → Slot → Nat) (x : Nat) : Prop where
  low : ∀ b < sb.data, sb.Used s b
  region : ∀ i k, ref i k ≠ 0 → sb.data ≤ ref i k ∧ ref i k < sb.size
  inj : ∀ i k j l, ref i k ≠ 0 → ref i k = ref j l → i = j ∧ k = l
  used : ∀ b, sb.data ≤ b → b < sb.size → (sb.Used s b ↔ b = x ∨ ∃ i k, ref i k = b)
  flight : x ≠ 0 → sb.data ≤ x ∧ x < sb.size ∧ ∀ i k, ref i k ≠ x

/-- `Owns` for the addresses that the inodes and the indirect blocks have -/
abbrev Owned (sb : Superblock) (s : State) (x : Nat) : Prop := Owns sb s s.ref x

/-- the addresses `ref`, but with `v` at one place -/
def putRef (ref : Nat → Slot → Nat) (i : Nat) (k : Slot) (v : Nat) : Nat → Slot → Nat :=
  fun j l => if j = i ∧ l = k then v else ref j l

/-- block `b` has a new content, and the log has the block -/
def State.write (s : State) (b : Nat) (x : Block) : State :=
  { s with cache := Function.update s.cache b x, log := b :: s.log }

def State.taken (sb : Superblock) (s : State) (b : Nat) : State :=
  (s.write (sb.bblock b) (setBit (s.cache (sb.bblock b)) (b % bpb))).write b (fun _ => 0)

def State.freed (sb : Superblock) (s : State) (b : Nat) : State :=
  s.write (sb.bblock b) (clearBit (s.cache (sb.bblock b)) (b % bpb))

section
variable {sb : Superblock} {s t : State} {b b' c bi i k x fuel : Nat} {ref : Nat → Slot → Nat}
  {l : Slot}

/-! ## the blocks of the bitmap -/

theorem bpb_eq : bpb = 8192 := by
  unfold bpb
  rfl

theorem Superblock.data_pos (sb : Superblock) : 0 < sb.data :=
  lt_of_lt_of_le (Nat.succ_pos _) sb.bitmap_le

theorem bblock_lt (h : b ≤ sb.size) : sb.bblock b < sb.data := by
  have hle := sb.bitmap_le
  have hdiv : b / bpb ≤ sb.size / bpb := Nat.div_le_div_right h
  unfold Superblock.bblock Superblock.data
  omega

/-- the block of a bit and the place in it -/
theorem bblock_inj : sb.bblock b = sb.bblock b' ∧ b % bpb = b' % bpb ↔ b = b' := by
  unfold Superblock.bblock
  have h := Nat.div_add_mod b bpb
  have h' := Nat.div_add_mod b' bpb
  constructor
  · rintro ⟨e1, e2⟩
    have e3 : b / bpb = b' / bpb := Nat.add_right_cancel e1
    rw [← h, ← h', e2, e3]
  · rintro rfl
    exact ⟨rfl, rfl⟩

theorem mod_bpb_iff (h : sb.bblock b' = sb.bblock b) : b' % bpb = b % bpb ↔ b' = b :=
  ⟨fun e => bblock_inj.mp ⟨h, e⟩, congrArg (· % bpb)⟩

/-- a bit whose block of the bitmap starts at block `c` -/
theorem bblock_add (sb : Superblock) (hc : c % bpb = 0) (hbi : bi < bpb) :
    sb.bblock (c + bi) = sb.bblock c ∧ (c + bi) % bpb = bi := by
  unfold Superblock.bblock
  rw [bpb_eq] at *
  constructor
  · have e : (c + bi) / 8192 = c / 8192 := by omega
    rw [e]
  · omega

/-! ## `balloc` -/

theorem ballocBlock_spec (size b : Nat) (blk : Block) :
    (ballocBlock size b blk = none ∧ ∀ bi < bpb, b + bi < size → bit blk bi = true) ∨
    ∃ bi, ballocBlock size b blk = some bi ∧ bi < bpb ∧ b + bi < size ∧ bit blk bi = false := by
  unfold ballocBlock
  cases h : (List.range bpb).find? (fun bi => b + bi < size && !bit blk bi) with
  | none =>
    refine Or.inl ⟨rfl, fun bi hbi hlt => ?_⟩
    have hno := List.find?_eq_none.mp h bi (List.mem_range.mpr hbi)
    rw [decide_eq_true hlt, Bool.true_and, Bool.not_eq_true', Bool.not_eq_false] at hno
    exact hno
  | some bi =>
    have hmem := List.mem_range.mp (List.mem_of_find?_eq_some h)
    have hyes := List.find?_some h
    simp only [Bool.and_eq_true, decide_eq_true_eq, Bool.not_eq_true'] at hyes
    exact Or.inr ⟨bi, rfl, hmem, hyes.1, hyes.2⟩

theorem ballocLoop_spec (hc : c % bpb = 0) (hfuel : sb.size ≤ c + fuel * bpb) :
    (ballocLoop sb s fuel c = none ∧ ∀ b, c ≤ b → b < sb.size → sb.Used s b) ∨
    ∃ d bi, ballocLoop sb s fuel c = some (d, bi) ∧ d % bpb = 0 ∧ bi < bpb ∧ d + bi < sb.size ∧
      ¬ sb.Used s (d + bi) := by
  induction fuel generalizing c with
  | zero =>
    rw [Nat.zero_mul] at hfuel
    exact Or.inl ⟨rfl, fun b hb hlt => absurd hlt (by omega)⟩
  | succ fuel ih =>
    unfold ballocLoop
    by_cases hlt : c < sb.size
    · rw [if_pos hlt]
      rcases ballocBlock_spec sb.size c (s.cache (sb.bblock c)) with
        ⟨e, hall⟩ | ⟨bi, e, hbi, hs, hb⟩
      · rw [e]
        dsimp only
        have hnext : (c + bpb) % bpb = 0 := by rw [Nat.add_mod_right, hc]
        have hsucc : (fuel + 1) * bpb = fuel * bpb + bpb := Nat.succ_mul fuel bpb
        rw [hsucc, Nat.add_comm (fuel * bpb), ← Nat.add_assoc] at hfuel
        rcases ih hnext hfuel with ⟨e', hall'⟩ | hfound
        · refine Or.inl ⟨e', fun b hb hlt' => ?_⟩
          by_cases hin : b < c + bpb
          · -- a bit of this block
            obtain ⟨e1, e2⟩ := bblock_add sb hc (show b - c < bpb by omega)
            rw [Nat.add_sub_cancel' hb] at e1 e2
            unfold Superblock.Used
            rw [e1, e2]
            exact hall (b - c) (by omega) (by omega)
          · exact hall' b (by omega) hlt'
        · exact Or.inr hfound
      · rw [e]
        refine Or.inr ⟨c, bi, rfl, hc, hbi, hs, ?_⟩
        obtain ⟨e1, e2⟩ := bblock_add sb hc hbi
        unfold Superblock.Used
        rw [e1, e2, hb]
        exact Bool.false_ne_true
    · rw [if_neg hlt]
      exact Or.inl ⟨rfl, fun b hb hlt' => absurd hlt' (by omega)⟩

theorem logWrite_eq (h : s.outstanding ≠ 0) (b : Nat) :
    s.logWrite b = some { s with log := b :: s.log } := if_neg h

theorem write_eq (h : s.outstanding ≠ 0) (b : Nat) (blk : Block) :
    (s.setBlock b blk).logWrite b = some (s.write b blk) := if_neg h

theorem balloc_spec (sb : Superblock) (h : s.outstanding ≠ 0) :
    (balloc sb s = some (s, 0) ∧ ∀ b < sb.size, sb.Used s b) ∨
    ∃ b, balloc sb s = some (s.taken sb b, b) ∧ b < sb.size ∧ ¬ sb.Used s b := by
  unfold balloc
  have hsize : sb.size ≤ 0 + sb.size * bpb := by
    rw [Nat.zero_add]
    exact Nat.le_mul_of_pos_right _ (by rw [bpb_eq]; decide)
  rcases ballocLoop_spec (s := s) (Nat.zero_mod bpb) hsize with
    ⟨e, hall⟩ | ⟨d, bi, e, hd, hbi, hlt, hb⟩
  · rw [e]
    exact Or.inl ⟨rfl, fun b hlt => hall b (Nat.zero_le b) hlt⟩
  · rw [e]
    refine Or.inr ⟨d + bi, ?_, hlt, hb⟩
    obtain ⟨e1, e2⟩ := bblock_add sb hd hbi
    unfold State.taken
    rw [e1, e2]
    dsimp only
    rw [write_eq h]
    dsimp only
    unfold State.bzero
    rw [write_eq (show (s.write _ _).outstanding ≠ 0 from h)]
    rfl

/-! ## marks -/

theorem used_taken (hb : b < sb.size) (hlow : sb.data ≤ b) (hb' : b' < sb.size) :
    sb.Used (s.taken sb b) b' ↔ b' = b ∨ sb.Used s b' := by
  unfold Superblock.Used State.taken State.write
  have hne : sb.bblock b' ≠ b := fun e => absurd (bblock_lt hb'.le) (by omega)
  dsimp only
  rw [Function.update_of_ne hne]
  by_cases hblk : sb.bblock b' = sb.bblock b
  · rw [hblk, Function.update_self, bit_setBit, Bool.or_eq_true, decide_eq_true_eq]
    rw [mod_bpb_iff hblk]
  · rw [Function.update_of_ne hblk]
    refine (or_iff_right ?_).symm
    rintro rfl
    exact hblk rfl

theorem used_freed (b b' : Nat) : sb.Used (s.freed sb b) b' ↔ b' ≠ b ∧ sb.Used s b' := by
  unfold Superblock.Used State.freed State.write
  dsimp only
  by_cases hblk : sb.bblock b' = sb.bblock b
  · rw [hblk, Function.update_self, bit_clearBit, Bool.and_eq_true, Bool.not_eq_true',
      decide_eq_false_iff_not]
    rw [mod_bpb_iff hblk]
  · rw [Function.update_of_ne hblk]
    refine (and_iff_right ?_).symm
    rintro rfl
    exact hblk rfl

theorem bfree_eq (h : s.outstanding ≠ 0) (hb : sb.Used s b) :
    bfree sb s b = some (s.freed sb b) := by
  unfold bfree
  dsimp only
  rw [if_pos (show bit _ _ = true from hb)]
  exact write_eq h _ _

theorem used_congr (h : ∀ c < sb.data, t.cache c = s.cache c) (hb : b < sb.size) :
    sb.Used t b ↔ sb.Used s b := by
  unfold Superblock.Used
  rw [h _ (bblock_lt hb.le)]

/-! ## taking a block, placing it, and giving one back -/

theorem Owns.le_of_not_used (h : Owns sb s ref x) (hb : ¬ sb.Used s b) : sb.data ≤ b := by
  by_contra hlt
  exact hb (h.low b (by omega))

theorem Owns.take (h : Owns sb s ref 0) (hb : b < sb.size) (hfree : ¬ sb.Used s b) :
    Owns sb (s.taken sb b) ref b := by
  have hle := h.le_of_not_used hfree
  have hdata : sb.data ≤ sb.size := Nat.sub_le _ _
  refine ⟨fun b' hb' => ?_, h.region, h.inj, fun b' hlow hlt => ?_, fun _ => ⟨hle, hb, ?_⟩⟩
  · rw [used_taken hb hle (by omega)]
    exact Or.inr (h.low b' hb')
  · have hpos := sb.data_pos
    rw [used_taken hb hle hlt, h.used b' hlow hlt]
    refine or_congr_right (or_iff_right ?_)
    omega
  · intro i k e
    exact hfree ((h.used b hle hb).mpr (Or.inr ⟨i, k, e⟩))

theorem Owns.place (h : Owns sb s ref x) (hx : x ≠ 0) (hempty : ref i l = 0)
    (hused : ∀ b < sb.size, sb.Used t b ↔ sb.Used s b) : Owns sb t (putRef ref i l x) 0 := by
  obtain ⟨hlow, hlt, hno⟩ := h.flight hx
  have hdata : sb.data ≤ sb.size := Nat.sub_le _ _
  refine ⟨fun b hb => (hused b (by omega)).mpr (h.low b hb), ?_, ?_, ?_, fun h0 => absurd rfl h0⟩
  · intro j k hne
    unfold putRef at hne ⊢
    split
    · exact ⟨hlow, hlt⟩
    · next e =>
      rw [if_neg e] at hne
      exact h.region j k hne
  · intro j k j' k' hne e
    unfold putRef at hne e
    by_cases h1 : j = i ∧ k = l
    · by_cases h2 : j' = i ∧ k' = l
      · exact ⟨h1.1.trans h2.1.symm, h1.2.trans h2.2.symm⟩
      · rw [if_pos h1, if_neg h2] at e
        exact absurd e.symm (hno j' k')
    · rw [if_neg h1] at hne e
      by_cases h2 : j' = i ∧ k' = l
      · rw [if_pos h2] at e
        exact absurd e (hno j k)
      · rw [if_neg h2] at e
        exact h.inj j k j' k' hne e
  · intro b hb hbs
    have hpos := sb.data_pos
    rw [hused b hbs, h.used b hb hbs]
    unfold putRef
    constructor
    · rintro (rfl | ⟨j, k, e⟩)
      · exact Or.inr ⟨i, l, if_pos ⟨rfl, rfl⟩⟩
      · refine Or.inr ⟨j, k, ?_⟩
        rw [if_neg ?_, e]
        rintro ⟨rfl, rfl⟩
        omega
    · rintro (rfl | ⟨j, k, e⟩)
      · exact absurd hb (by omega)
      · split at e
        · exact Or.inl e.symm
        · exact Or.inr ⟨j, k, e⟩

/-- the block at a place is freed, and nothing refers to it any more -/
theorem Owns.erase (h : Owns sb s ref 0) (hne : ref i l ≠ 0) :
    Owns sb (s.freed sb (ref i l)) (putRef ref i l 0) 0 := by
  obtain ⟨hlow, hlt⟩ := h.region i l hne
  refine ⟨fun b hb => (used_freed _ b).mpr ⟨by omega, h.low b hb⟩, ?_, ?_, ?_,
    fun h0 => absurd rfl h0⟩
  · intro j k hk
    unfold putRef at hk ⊢
    split
    · next e =>
      rw [if_pos e] at hk
      exact absurd rfl hk
    · next e =>
      rw [if_neg e] at hk
      exact h.region j k hk
  · intro j k j' k' hk e
    unfold putRef at hk e
    by_cases h1 : j = i ∧ k = l
    · rw [if_pos h1] at hk
      exact absurd rfl hk
    · rw [if_neg h1] at hk e
      by_cases h2 : j' = i ∧ k' = l
      · rw [if_pos h2] at e
        exact absurd e hk
      · rw [if_neg h2] at e
        exact h.inj j k j' k' hk e
  · intro b hb hbs
    have hpos := sb.data_pos
    rw [used_freed, h.used b hb hbs]
    unfold putRef
    constructor
    · rintro ⟨hbne, rfl | ⟨j, k, e⟩⟩
      · exact Or.inl rfl
      · refine Or.inr ⟨j, k, ?_⟩
        rw [if_neg ?_, e]
        rintro ⟨rfl, rfl⟩
        exact hbne e.symm
    · rintro (rfl | ⟨j, k, e⟩)
      · exact absurd hb (by omega)
      · split at e
        · exact absurd hb (by omega)
        · next hjk =>
          refine ⟨?_, Or.inr ⟨j, k, e⟩⟩
          rintro rfl
          exact hjk (h.inj j k i l (by rw [e]; exact hne) e)

end

end Blocks
