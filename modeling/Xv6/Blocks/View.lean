import Xv6.Blocks.Bmap

/-!
# A file of the disk

What one inode sees of the disk is the file of `Fs.Inode`: its size, its blocks and the bytes in
them, and the number of free blocks.  A place that gets a block is a block that the file gets there.
-/

namespace Blocks
open Lib Fs

def Superblock.freeCount (sb : Superblock) (s : State) : Nat :=
  ((Finset.range sb.size).filter (fun b => bit (s.cache (sb.bblock b)) (b % bpb) = false)).card

def State.byte (s : State) (i p : Nat) : UInt8 :=
  if s.ref i (slotOf (p / bsize)) = 0 then 0 else s.cache (s.ref i (slotOf (p / bsize))) (p % bsize)

def State.file (sb : Superblock) (s : State) (i : Nat) : Disk where
  size := (s.inode i).size
  mapped bn := decide (s.ref i (slotOf bn) ≠ 0)
  indirect := decide (s.ref i (.addr ndirect) ≠ 0)
  data := s.byte i
  free := sb.freeCount s

section
variable {sb : Superblock} {s t : State} {a b i j k bn : Nat} {l : Slot}

theorem disk_ext {d e : Disk} (hsize : d.size = e.size) (hmapped : d.mapped = e.mapped)
    (hindirect : d.indirect = e.indirect) (hdata : d.data = e.data) (hfree : d.free = e.free) :
    d = e := by
  cases d
  cases e
  obtain rfl : _ = _ := hsize
  obtain rfl : _ = _ := hmapped
  obtain rfl : _ = _ := hindirect
  obtain rfl : _ = _ := hdata
  obtain rfl : _ = _ := hfree
  rfl

/-! ## places of blocks -/

theorem slotOf_inj : slotOf bn = slotOf k ↔ bn = k := by
  constructor
  · intro e
    unfold slotOf at e
    split at e
    · split at e
      · exact Slot.addr.inj e
      · exact Slot.noConfusion e
    · split at e
      · exact Slot.noConfusion e
      · have := Slot.entry.inj e
        omega
  · exact congrArg slotOf

theorem slotOf_ne : slotOf bn ≠ .addr ndirect := by
  unfold slotOf
  split
  · intro e
    have := Slot.addr.inj e
    omega
  · exact nofun

theorem lt_maxfile (h : s.ref i (slotOf bn) ≠ 0) : bn < maxfile := by
  unfold slotOf at h
  unfold maxfile
  split at h
  · omega
  · by_contra hlt
    refine h (if_neg (fun hc => ?_))
    omega

/-! ## free blocks -/

theorem freeCount_eq_zero : sb.freeCount s = 0 ↔ ∀ b < sb.size, sb.Used s b := by
  unfold Superblock.freeCount
  rw [Finset.card_eq_zero, Finset.filter_eq_empty_iff]
  constructor
  · intro h b hb
    have hbit := h (Finset.mem_range.mpr hb)
    rwa [Bool.not_eq_false] at hbit
  · intro h b hb
    rw [Bool.not_eq_false]
    exact h b (Finset.mem_range.mp hb)

theorem freeCount_congr (h : ∀ b < sb.size, sb.Used t b ↔ sb.Used s b) :
    sb.freeCount t = sb.freeCount s := by
  unfold Superblock.freeCount
  refine congrArg Finset.card (Finset.filter_congr (fun b hb => ?_))
  rw [← Bool.not_eq_true, ← Bool.not_eq_true]
  exact not_congr (h b (Finset.mem_range.mp hb))

theorem freeCount_take (hb : b < sb.size) (hfree : ¬ sb.Used s b)
    (h : ∀ c < sb.size, sb.Used t c ↔ c = b ∨ sb.Used s c) :
    sb.freeCount s = sb.freeCount t + 1 := by
  unfold Superblock.freeCount
  have hinsert : (Finset.range sb.size).filter
      (fun c => bit (s.cache (sb.bblock c)) (c % bpb) = false) = insert b
      ((Finset.range sb.size).filter (fun c => bit (t.cache (sb.bblock c)) (c % bpb) = false)) := by
    ext c
    rw [Finset.mem_insert, Finset.mem_filter, Finset.mem_filter, Finset.mem_range,
      ← Bool.not_eq_true, ← Bool.not_eq_true]
    constructor
    · rintro ⟨hc, hns⟩
      by_cases e : c = b
      · exact Or.inl e
      · exact Or.inr ⟨hc, fun ht => ((h c hc).mp ht).elim e hns⟩
    · rintro (rfl | ⟨hc, hnt⟩)
      · exact ⟨hb, hfree⟩
      · exact ⟨hc, fun hs => hnt ((h c hc).mpr (Or.inr hs))⟩
  rw [hinsert, Finset.card_insert_of_notMem]
  rw [Finset.mem_filter, not_and, ← Bool.not_eq_true, not_not]
  exact fun _ => (h b hb).mpr (Or.inl rfl)

theorem Gets.freeCount (h : Owned sb s 0) (hg : Gets sb s t i l b) :
    sb.freeCount s = sb.freeCount t + 1 := by
  refine freeCount_take hg.lt hg.free (fun c hc => ?_)
  rw [hg.used c hc]
  exact used_taken hg.lt (h.le_of_not_used hg.free) hc

/-! ## one place -/

theorem Filled.inode (hf : Filled sb s i l t a) (j : Nat) :
    (t.inode j).type = (s.inode j).type ∧ (t.inode j).size = (s.inode j).size := by
  cases hf with
  | kept h0 => exact ⟨rfl, rfl⟩
  | full h0 hall => exact ⟨rfl, rfl⟩
  | gets h0 hg => exact hg.inode j

theorem Filled.byte (h : Owned sb s 0) (hf : Filled sb s i l t a) {p : Nat}
    (hne : ¬ (j = i ∧ slotOf (p / bsize) = l)) : t.byte j p = s.byte j p := by
  unfold State.byte
  rw [hf.other hne]
  by_cases h0 : s.ref j (slotOf (p / bsize)) = 0
  · rw [if_pos h0, if_pos h0]
  · rw [if_neg h0, if_neg h0, hf.data h h0 slotOf_ne]

theorem Filled.file_data (h : Owned sb s 0) (hf : Filled sb s i (slotOf bn) t a) :
    Fs.mapBlock (s.file sb i) bn = (t.file sb i, decide (a ≠ 0)) := by
  cases hf with
  | kept h0 =>
    unfold Fs.mapBlock
    rw [if_pos (show (s.file sb i).mapped bn = true from decide_eq_true h0), decide_eq_true h0]
  | full h0 hall =>
    have hm : (s.file sb i).mapped bn = false := decide_eq_false (not_not.mpr h0)
    have hfree : (s.file sb i).free = 0 := freeCount_eq_zero.mpr hall
    unfold Fs.mapBlock
    rw [if_neg (by rw [hm]; exact Bool.false_ne_true), if_pos hfree]
    rfl
  | gets h0 hg =>
    have hf : Filled sb s i (slotOf bn) t a := .gets h0 hg
    have ha := hg.ne_zero h
    have hm : (s.file sb i).mapped bn = false := decide_eq_false (not_not.mpr h0)
    have hcount := hg.freeCount h
    have hfree : (s.file sb i).free ≠ 0 := by
      show sb.freeCount s ≠ 0
      omega
    unfold Fs.mapBlock
    rw [if_neg (by rw [hm]; exact Bool.false_ne_true), if_neg hfree, decide_eq_true ha]
    refine Prod.ext (disk_ext (hf.inode i).2.symm ?_ ?_ ?_ ?_) rfl
    · funext k
      show Function.update (s.file sb i).mapped bn true k = decide (t.ref i (slotOf k) ≠ 0)
      by_cases e : k = bn
      · rw [e, Function.update_self, hf.self, decide_eq_true ha]
      · rw [Function.update_of_ne e, hf.other (fun h => e (slotOf_inj.mp h.2))]
        rfl
    · show decide (s.ref i _ ≠ 0) = decide (t.ref i _ ≠ 0)
      rw [hf.other (fun h => slotOf_ne h.2.symm)]
    · funext p
      show (if p / bsize = bn then 0 else s.byte i p) = t.byte i p
      by_cases e : p / bsize = bn
      · rw [if_pos e]
        unfold State.byte
        rw [e, hf.self, if_neg ha, hf.zero h0 ha]
      · rw [if_neg e, hf.byte h (fun h => e (slotOf_inj.mp h.2))]
    · show sb.freeCount s - 1 = sb.freeCount t
      rw [hcount, Nat.add_sub_cancel]

theorem Gets.file_indirect (h : Owned sb s 0) (h0 : s.ref i (.addr ndirect) = 0)
    (hg : Gets sb s t i (.addr ndirect) b) :
    t.file sb i = { s.file sb i with free := (s.file sb i).free - 1, indirect := true } := by
  have hf : Filled sb s i (.addr ndirect) t b := .gets h0 hg
  refine disk_ext (hf.inode i).2 ?_ ?_ ?_ ?_
  · funext bn
    show decide (t.ref i _ ≠ 0) = decide (s.ref i _ ≠ 0)
    rw [hf.other (fun h => slotOf_ne h.2)]
  · show decide (t.ref i _ ≠ 0) = true
    rw [hf.self]
    exact decide_eq_true (hg.ne_zero h)
  · funext p
    exact hf.byte h (fun h => slotOf_ne h.2)
  · show sb.freeCount t = sb.freeCount s - 1
    rw [hg.freeCount h, Nat.add_sub_cancel]

end

end Blocks
