import Xv6.Blocks.Write

/-!
# What a file holds

The content of a file is what `readi` returns of it.  In a file system without holes a read changes
nothing, and a `writei` with enough blocks and a readable source replaces the bytes of its range.
-/

namespace Blocks
open Lib Fs

/-- the blocks of the positions of a file are there -/
def State.NoHoles (s : State) (i : Nat) : Prop :=
  ∀ bn, bn * bsize < (s.inode i).size → s.ref i (slotOf bn) ≠ 0

/-- the bitmap is exact, and the allocated inodes have the blocks of their sizes -/
structure Whole (sb : Superblock) (s : State) : Prop where
  owned : Owned sb s 0
  free : ∀ i, (s.inode i).type = 0 → ∀ k, s.ref i k = 0
  size : ∀ i, (s.inode i).type ≠ 0 → (s.inode i).size ≤ maxfile * bsize
  noHoles : ∀ i, (s.inode i).type ≠ 0 → s.NoHoles i

/-- how many bytes a `readi` of `n` bytes gets; the sum of the two `uint` wraps -/
def available (size off n : Nat) : Nat :=
  if size < off ∨ (off + n) % 2 ^ 32 < off then 0 else min n (size - off)

/-- a `readi` of any part of the file returns the bytes of `content`, and nothing changes -/
structure Holds (sb : Superblock) (s : State) (i size : Nat) (content : Nat → UInt8) : Prop where
  size_eq : (s.inode i).size = size
  readi : ∀ off n, n < 2 ^ 32 → readi sb s i (fun _ => true) off n =
    some (s, (available size off n : Int),
      (List.range (available size off n)).map (fun j => content (off + j)))

/-- the bytes of `content`, with those of `src` from `off` on -/
def overwritten (content : Nat → UInt8) (src : Source) (off n p : Nat) : UInt8 :=
  if off ≤ p ∧ p < off + n then (src (p - off)).getD 0 else content p

section
variable {sb : Superblock} {s t : State} {i j k bn m n off tot fuel p size : Nat} {src : Source}
  {dst : Nat → Bool} {bytes : List UInt8} {content : Nat → UInt8}

/-! ## `readi` -/

theorem bmap_mapped (h : s.ref i (slotOf bn) ≠ 0) :
    bmap sb s i bn = some (s, s.ref i (slotOf bn)) := by
  unfold bmap
  by_cases hdir : bn < ndirect
  · have hslot : slotOf bn = .addr bn := if_pos hdir
    rw [hslot, ref_addr hdir.le] at h ⊢
    rw [if_pos hdir]
    exact if_neg h
  · have hlt := lt_maxfile h
    have hj : bn - ndirect < nindirect := by
      unfold maxfile at hlt
      omega
    have hslot : slotOf bn = .entry (bn - ndirect) := if_neg hdir
    rw [hslot] at h ⊢
    have hp : s.ref i (.addr ndirect) ≠ 0 := fun e => h (ref_entry_none e)
    rw [ref_entry hj hp] at h ⊢
    rw [ref_addr le_rfl] at hp h ⊢
    rw [if_neg hdir]
    dsimp only
    rw [if_pos hj]
    unfold mapSlot
    dsimp only
    rw [if_neg hp]
    dsimp only
    rw [if_neg hp]
    exact if_neg h

theorem mapped_head (hlt : tot < n)
    (hm : ∀ p, off ≤ p → p < off + (n - tot) → s.ref i (slotOf (p / bsize)) ≠ 0) :
    s.ref i (slotOf (off / bsize)) ≠ 0 := hm off le_rfl (by omega)

/-- a read of blocks that are there changes nothing, whatever the user buffer is -/
theorem readiLoop_same
    (hm : ∀ p, off ≤ p → p < off + (n - tot) → s.ref i (slotOf (p / bsize)) ≠ 0) :
    ∃ r bytes', readiLoop sb i dst n fuel s off tot bytes = some (s, r, bytes') := by
  induction fuel generalizing off tot bytes with
  | zero => exact ⟨tot, bytes, rfl⟩
  | succ fuel ih =>
    unfold readiLoop
    by_cases hlt : tot < n
    · have href := mapped_head hlt hm
      rw [if_pos hlt, bmap_mapped href]
      dsimp only
      rw [if_neg href]
      split
      · exact ih (fun p h1 h2 => hm p (by omega) (by omega))
      · exact ⟨-1, bytes, rfl⟩
    · rw [if_neg hlt]
      exact ⟨tot, bytes, rfl⟩

theorem piece_bytes (hm : m ≤ bsize - off % bsize) (h : s.ref i (slotOf (off / bsize)) ≠ 0) :
    (List.range m).map (fun j => s.cache (s.ref i (slotOf (off / bsize))) (off % bsize + j)) =
      (List.range m).map (fun j => s.byte i (off + j)) := by
  refine List.map_congr_left (fun j hj => ?_)
  have hlt := List.mem_range.mp hj
  have hoff := Nat.div_add_mod' off bsize
  have hb : off % bsize < bsize := Nat.mod_lt _ (by decide)
  have hdiv : (off + j) / bsize = off / bsize := div_eq_iff.mpr ⟨by omega, by omega⟩
  have hmod : (off + j) % bsize = off % bsize + j := by
    have hp := Nat.div_add_mod' (off + j) bsize
    rw [hdiv] at hp
    omega
  unfold State.byte
  rw [hdiv, hmod, if_neg h]

theorem readiLoop_bytes (hfuel : n - tot ≤ fuel) (htot : tot ≤ n)
    (hm : ∀ p, off ≤ p → p < off + (n - tot) → s.ref i (slotOf (p / bsize)) ≠ 0) :
    readiLoop sb i (fun _ => true) n fuel s off tot bytes =
      some (s, (n : Int), bytes ++ (List.range (n - tot)).map (fun j => s.byte i (off + j))) := by
  induction fuel generalizing off tot bytes with
  | zero =>
    obtain rfl : tot = n := by omega
    rw [Nat.sub_self, List.range_zero, List.map_nil, List.append_nil]
    rfl
  | succ fuel ih =>
    unfold readiLoop
    by_cases hlt : tot < n
    · have href := mapped_head hlt hm
      rw [if_pos hlt, bmap_mapped href]
      dsimp only
      rw [if_neg href]
      obtain ⟨hpos, hle⟩ := piece_le (n - tot) off (by omega)
      generalize hk : min (n - tot) (bsize - off % bsize) = m at hpos hle ⊢
      have hmb : m ≤ bsize - off % bsize := hk ▸ Nat.min_le_right _ _
      rw [if_pos (List.all_eq_true.mpr (fun _ _ => rfl)), piece_bytes hmb href,
        ih (by omega) (by omega) (fun p h1 h2 => hm p (by omega) (by omega))]
      -- the piece and the rest of the range
      have hsplit : n - tot = m + (n - (tot + m)) := by omega
      rw [List.append_assoc, hsplit, List.range_add, List.map_append, List.map_map]
      refine congrArg (fun l => some (s, (n : Int), bytes ++ (_ ++ l)))
        (List.map_congr_left (fun j _ => ?_))
      show s.byte i (off + m + j) = s.byte i (off + (m + j))
      rw [Nat.add_assoc]
    · obtain rfl : tot = n := by omega
      rw [if_neg hlt, Nat.sub_self, List.range_zero, List.map_nil, List.append_nil]

theorem State.NoHoles.mapped (h : s.NoHoles i) (hp : p < (s.inode i).size) :
    s.ref i (slotOf (p / bsize)) ≠ 0 :=
  h (p / bsize) (lt_of_le_of_lt (Nat.div_mul_le_self p bsize) hp)

theorem readi_range (hsize : size ≤ maxfile * bsize) (hn : n < 2 ^ 32)
    (h : ¬ (size < off ∨ (off + n) % 2 ^ 32 < off)) :
    (if size < (off + n) % 2 ^ 32 then size - off else n) = available size off n ∧
      off + available size off n ≤ size := by
  have hlim : maxfile * bsize < 2 ^ 32 := by decide
  unfold available
  rw [if_neg h]
  rw [not_or, Nat.not_lt, Nat.not_lt] at h
  have hmod : (off + n) % 2 ^ 32 = off + n := Nat.mod_eq_of_lt (by omega)
  rw [hmod]
  constructor
  · split
    · omega
    · omega
  · omega

/-- a read changes nothing, also one to a bad buffer -/
theorem readi_same (sb : Superblock) (hsize : (s.inode i).size ≤ maxfile * bsize) (hh : s.NoHoles i)
    (hn : n < 2 ^ 32) (dst : Nat → Bool) (off : Nat) :
    ∃ r bytes, readi sb s i dst off n = some (s, r, bytes) := by
  unfold readi
  dsimp only
  split
  · exact ⟨0, [], rfl⟩
  · next h =>
    obtain ⟨e, hle⟩ := readi_range hsize hn h
    rw [e]
    exact readiLoop_same (fun p _ hp => hh.mapped (by omega))

theorem holds_of_noHoles (sb : Superblock) (hsize : (s.inode i).size ≤ maxfile * bsize)
    (hh : s.NoHoles i) :
    Holds sb s i (s.inode i).size (s.byte i) := by
  refine ⟨rfl, fun off n hn => ?_⟩
  unfold readi
  dsimp only
  split
  · next h =>
    have h0 : available (s.inode i).size off n = 0 := if_pos h
    rw [h0]
    rfl
  · next h =>
    obtain ⟨e, hle⟩ := readi_range hsize hn h
    rw [e]
    exact readiLoop_bytes (Nat.sub_le _ _) (Nat.zero_le _) (fun p _ hp => hh.mapped (by omega))

theorem Holds.eq {content' : Nat → UInt8} (h : Holds sb s i size content)
    (h' : Holds sb s i size content') (hsize : size < 2 ^ 32) (hp : p < size) :
    content p = content' p := by
  have hone : available size p 1 = 1 := by
    unfold available
    have hmod : (p + 1) % 2 ^ 32 = p + 1 ∨ (p + 1) % 2 ^ 32 < p + 1 := by
      rcases Nat.lt_or_ge (p + 1) (2 ^ 32) with hlt | hge
      · exact Or.inl (Nat.mod_eq_of_lt hlt)
      · exact Or.inr (by omega)
    rw [if_neg (by omega)]
    omega
  have e := (h.readi p 1 (by decide)).symm.trans (h'.readi p 1 (by decide))
  rw [hone] at e
  simp only [List.range_one, List.map_cons, List.map_nil, Nat.add_zero, Option.some.injEq,
    Prod.mk.injEq, List.cons.injEq, and_true, true_and] at e
  exact e

theorem Holds.congr {content' : Nat → UInt8} (h : Holds sb s i size content)
    (he : ∀ p < size, content p = content' p) : Holds sb s i size content' := by
  refine ⟨h.size_eq, fun off n hn => (h.readi off n hn).trans ?_⟩
  refine congrArg (fun l => some (s, (available size off n : Int), l)) (List.map_congr_left ?_)
  intro j hj
  have hlt := List.mem_range.mp hj
  refine he _ ?_
  unfold available at hlt
  split at hlt
  · omega
  · omega

/-! ## `writei` -/

theorem noHoles_file : Fs.NoHoles (s.file sb i) ↔ s.NoHoles i := by
  constructor
  · intro h bn hbn
    have hm := h (bn * bsize) hbn
    rw [Nat.mul_div_cancel bn (by decide)] at hm
    exact of_decide_eq_true hm
  · intro h p hp
    exact decide_eq_true (h.mapped hp)

theorem writei_cases (hw : Whole sb s) (hout : s.outstanding ≠ 0) (hi : (s.inode i).type ≠ 0)
    (hn : n < 2 ^ 32) (src : Source) (off : Nat) :
    writei sb s i src off n = some (s, -1) ∨
    (off ≤ (s.inode i).size ∧ off + n ≤ maxfile * bsize ∧ ∃ (t : State) (r : Nat),
      writei sb s i src off n = some (t, (r : Int)) ∧ Follows sb i s t ∧
      Written (s.file sb i) (t.file sb i) src off n r ∧
      Fs.writei (s.file sb i) src off n = some (t.file sb i, (r : Int)) ∧
      ((∀ j < n, (src j).isSome = true) →
        missing (s.file sb i) (off / bsize) ((off + n - 1) / bsize + 1) ≤ sb.freeCount s →
        r = n)) := by
  have hlim : maxfile * bsize < 2 ^ 32 := by decide
  have hsize := hw.size i hi
  by_cases h : (s.inode i).size < off ∨ (off + n) % 2 ^ 32 < off
  · refine Or.inl ?_
    unfold writei
    rw [if_pos h]
  · have h' := h
    rw [not_or, Nat.not_lt, Nat.not_lt] at h'
    have hmod : (off + n) % 2 ^ 32 = off + n := Nat.mod_eq_of_lt (by omega)
    by_cases hmax : maxfile * bsize < off + n
    · refine Or.inl ?_
      unfold writei
      rw [if_neg h, hmod, if_pos hmax]
    · refine Or.inr ⟨h'.1, Nat.not_lt.mp hmax, ?_⟩
      obtain ⟨t, r, e, e', hf⟩ := writei_spec hw.owned hout hsize hn src off
      obtain ⟨d', r', hd, hwr, hall⟩ := Fs.writei_spec src (noHoles_file.mpr (hw.noHoles i hi)) h'.1
        (Nat.not_lt.mp hmax)
      obtain ⟨rfl, rfl⟩ := Prod.mk.inj (Option.some.inj (e'.symm.trans hd))
      exact ⟨t, r', e, hf, hwr, e', hall⟩

/-- a write keeps the file system whole -/
theorem Follows.whole {r : Nat} (hw : Whole sb s) (hi : (s.inode i).type ≠ 0)
    (hf : Follows sb i s t) (hwr : Written (s.file sb i) (t.file sb i) src off n r)
    (hoff : off ≤ (s.inode i).size)
    (hmax : off + n ≤ maxfile * bsize) : Whole sb t := by
  refine ⟨hf.owned, fun j hj k => ?_, fun j hj => ?_, fun j hj => ?_⟩
  · rw [hf.type] at hj
    have hne : j ≠ i := by
      rintro rfl
      exact hi hj
    rw [hf.other j hne]
    exact hw.free j hj k
  · rw [hf.type] at hj
    by_cases e : j = i
    · have hsize : (t.inode j).size = max (s.inode i).size (off + r) := e ▸ hwr.size
      have hle := hw.size i hi
      have hr := hwr.le
      omega
    · rw [hf.size j e]
      exact hw.size j hj
  · rw [hf.type] at hj
    by_cases e : j = i
    · rw [e]
      exact noHoles_file.mp hwr.noHoles
    · intro bn hbn
      rw [hf.size j e] at hbn
      rw [hf.other j e]
      exact hw.noHoles j hj bn hbn

theorem Whole.congr (hw : Whole sb s) (hi : t.inode = s.inode)
    (hc : ∀ c, sb.Meta s c → t.cache c = s.cache c) : Whole sb t := by
  have href : t.ref = s.ref :=
    ref_congr (fun j _ _ => by rw [hi]) (fun j hj => hc _ (Or.inr ⟨hj, j, rfl⟩))
  have hused : ∀ b < sb.size, sb.Used t b ↔ sb.Used s b := fun b hb =>
    used_congr (fun c hlow => hc c (Or.inl hlow)) hb
  have hdata : sb.data ≤ sb.size := Nat.sub_le _ _
  refine ⟨?_, fun j hj k => ?_, fun j hj => ?_, fun j hj bn hbn => ?_⟩
  · show Owns sb t t.ref 0
    rw [href]
    exact ⟨fun b hb => (hused b (by omega)).mpr (hw.owned.low b hb), hw.owned.region, hw.owned.inj,
      fun b hb hlt => (hused b hlt).trans (hw.owned.used b hb hlt), hw.owned.flight⟩
  · rw [hi] at hj
    rw [href]
    exact hw.free j hj k
  · rw [hi] at hj ⊢
    exact hw.size j hj
  · rw [hi] at hj hbn
    rw [href]
    exact hw.noHoles j hj bn hbn

/-- every call returns, and keeps the file system whole -/
theorem writei_whole (hw : Whole sb s) (hout : s.outstanding ≠ 0) (hi : (s.inode i).type ≠ 0)
    (hn : n < 2 ^ 32) (src : Source) (off : Nat) : ∃ t r, writei sb s i src off n = some (t, r) ∧
      Whole sb t ∧ Follows sb i s t := by
  rcases writei_cases hw hout hi hn src off with e | ⟨hoff, hmax, t, r, e, hf, hwr, -⟩
  · exact ⟨s, -1, e, hw, Follows.refl hw.owned i⟩
  · exact ⟨t, r, e, hf.whole hw hi hwr hoff hmax, hf⟩

theorem Follows.holds (hw : Whole sb s) (hf : Follows sb i s t) (hj : (s.inode j).type ≠ 0)
    (hne : j ≠ i) (ht : Whole sb t) (h : Holds sb s j size content) :
    Holds sb t j size content := by
  have hsize := hw.size j hj
  have hlim : maxfile * bsize < 2 ^ 32 := by decide
  have hold := holds_of_noHoles sb hsize (hw.noHoles j hj)
  rw [h.size_eq] at hold hsize
  have hjt : (t.inode j).type ≠ 0 := by rwa [hf.type]
  have hnew := holds_of_noHoles sb (ht.size j hjt) (ht.noHoles j hjt)
  rw [hf.size j hne, h.size_eq, hf.byte j hne] at hnew
  exact hnew.congr (fun p hp => hold.eq h (by omega) hp)

/-- the blocks that a write takes from the bitmap -/
def State.needed (sb : Superblock) (s : State) (i off n : Nat) : Nat :=
  if n = 0 then 0 else missing (s.file sb i) (off / bsize) ((off + n - 1) / bsize + 1)

/-- with enough blocks and a readable source, `writei` writes all bytes and nothing else -/
theorem writei_content (hw : Whole sb s) (hout : s.outstanding ≠ 0) (hi : (s.inode i).type ≠ 0)
    (hoff : off ≤ (s.inode i).size) (hmax : off + n ≤ maxfile * bsize)
    (hsrc : ∀ j < n, (src j).isSome = true) (hfree : s.needed sb i off n ≤ sb.freeCount s) :
    ∃ t, writei sb s i src off n = some (t, (n : Int)) ∧ Whole sb t ∧
      (∀ size content, Holds sb s i size content →
        Holds sb t i (max size (off + n)) (overwritten content src off n)) ∧
      ∀ j, j ≠ i → (s.inode j).type ≠ 0 → ∀ size content,
        Holds sb s j size content → Holds sb t j size content := by
  have hlim : maxfile * bsize < 2 ^ 32 := by decide
  have hle := hw.size i hi
  have hn : n < 2 ^ 32 := by omega
  rcases writei_cases hw hout hi hn src off with e | ⟨-, -, t, r, e, hf, hwr, -, hall⟩
  · -- the call is not refused
    have hmod : (off + n) % 2 ^ 32 = off + n := Nat.mod_eq_of_lt (by omega)
    obtain ⟨u, r, e', hd, -⟩ := writei_spec hw.owned hout hle hn src off
    obtain ⟨d', r', hd', -⟩ := Fs.writei_spec src (noHoles_file.mpr (hw.noHoles i hi)) hoff hmax
    obtain ⟨-, rfl⟩ := Prod.mk.inj (Option.some.inj (e'.symm.trans e))
    have := (Prod.mk.inj (Option.some.inj (hd.symm.trans hd'))).2
    omega
  · have hr : r = n := by
      unfold State.needed at hfree
      by_cases h0 : n = 0
      · have := hwr.le
        omega
      · rw [if_neg h0] at hfree
        exact hall hsrc hfree
    have ht := hf.whole hw hi hwr hoff hmax
    refine ⟨t, by rw [e, hr], ht, fun size content h => ?_, fun j hne hj size content h =>
      hf.holds hw hj hne ht h⟩
    have hold := holds_of_noHoles sb hle (hw.noHoles i hi)
    have hit : (t.inode i).type ≠ 0 := by rwa [hf.type]
    have hnew := holds_of_noHoles sb (ht.size i hit) (ht.noHoles i hit)
    have hsize : (t.inode i).size = max (s.inode i).size (off + n) := hr ▸ hwr.size
    rw [hsize, h.size_eq] at hnew
    rw [h.size_eq] at hold hle
    refine hnew.congr (fun p hp => ?_)
    unfold overwritten
    by_cases hin : off ≤ p ∧ p < off + n
    · rw [if_pos hin]
      have hsrc := hwr.inside (p - off) (by omega)
      rw [Nat.add_sub_cancel' hin.1] at hsrc
      rw [hsrc]
      rfl
    · have heq := h.size_eq
      have hps : p < size := by omega
      rw [if_neg hin, ← hold.eq h (by omega) hps]
      refine hwr.outside p ?_ (by omega)
      show p < (s.inode i).size
      rw [heq]
      exact hps

end

def smallDisk : Superblock where
  size := 2000
  nblocks := 1954
  ninodes := 200
  inodestart := 32
  bmapstart := 45
  two_le := by decide
  inodes_le := by decide
  bitmap_le := by decide +kernel
  size_lt := by decide

def freshBitmap : Block := fun k => if k < 5 then 255 else if k = 5 then 63 else 0

/-- a root directory and a file, both empty, within a transaction -/
def fresh : State where
  inode i := if i = 1 then ⟨1, 0, fun _ => 0⟩ else if i = 2 then ⟨2, 0, fun _ => 0⟩
    else ⟨0, 0, fun _ => 0⟩
  cache b := if b = 45 then freshBitmap else fun _ => 0
  disk b := if b = 45 then freshBitmap else fun _ => 0
  log := []
  outstanding := 1

theorem fresh_addrs (i : Nat) : (fresh.inode i).addrs = fun _ => 0 := by
  unfold fresh
  dsimp only
  split
  · rfl
  · split
    · rfl
    · rfl

theorem fresh_size (i : Nat) : (fresh.inode i).size = 0 := by
  unfold fresh
  dsimp only
  split
  · rfl
  · split
    · rfl
    · rfl

theorem fresh_ref (i : Nat) (l : Slot) : fresh.ref i l = 0 := by
  have hp : fresh.ref i (.addr ndirect) = 0 := by
    rw [ref_addr le_rfl, fresh_addrs]
  cases l with
  | addr k =>
    show (if k ≤ ndirect then (fresh.inode i).addrs k else 0) = 0
    rw [fresh_addrs]
    exact ite_self 0
  | entry j => exact ref_entry_none hp

theorem fresh_used : ∀ b < 2000, smallDisk.Used fresh b ↔ b < 46 := by
  have h : ∀ b < 2000, bit (fresh.cache (smallDisk.bblock b)) (b % bpb) = decide (b < 46) := by
    decide +kernel
  intro b hb
  unfold Superblock.Used
  rw [h b hb, decide_eq_true_eq]

theorem whole_fresh : Whole smallDisk fresh := by
  have hdata : smallDisk.data = 46 := rfl
  refine ⟨⟨fun b hb => ?_, fun i k h => absurd (fresh_ref i k) h,
    fun i k _ _ h => absurd (fresh_ref i k) h, fun b hb hlt => ?_, fun h => absurd rfl h⟩,
    fun i _ => fresh_ref i, fun i _ => ?_, fun i _ bn hbn => ?_⟩
  · exact (fresh_used b (by omega)).mpr (by omega)
  · rw [fresh_used b hlt]
    refine iff_of_false (by omega) ?_
    rintro (e | ⟨i, k, e⟩)
    · omega
    · rw [fresh_ref] at e
      omega
  · rw [fresh_size]
    exact Nat.zero_le _
  · rw [fresh_size] at hbn
    exact absurd hbn (Nat.not_lt_zero _)

theorem fresh_free : smallDisk.freeCount fresh ≠ 0 := by
  rw [Ne, freeCount_eq_zero]
  intro h
  have hused := (fresh_used 100 (by decide)).mp (h 100 (by decide))
  omega

/-- the first byte of the file -/
theorem writei_content_fresh : ∃ t,
    writei smallDisk fresh 2 (fun _ => some 97) 0 1 = some (t, ((1 : Nat) : Int)) ∧
    Whole smallDisk t ∧
    (∀ size content, Holds smallDisk fresh 2 size content →
      Holds smallDisk t 2 (max size (0 + 1)) (overwritten content (fun _ => some 97) 0 1)) ∧
    ∀ j, j ≠ 2 → (fresh.inode j).type ≠ 0 → ∀ size content,
      Holds smallDisk fresh j size content → Holds smallDisk t j size content := by
  have hneeded : fresh.needed smallDisk 2 0 1 = 1 := by
    have hm : missing (fresh.file smallDisk 2) 0 1 = 1 := by
      unfold missing
      have hno : (fresh.file smallDisk 2).mapped 0 = false :=
        decide_eq_false (not_not.mpr (fresh_ref 2 (slotOf 0)))
      have hico : (Finset.Ico 0 1).filter
          (fun bn => (fresh.file smallDisk 2).mapped bn = false) = {0} := by
        rw [show Finset.Ico 0 1 = {0} from rfl, Finset.filter_singleton, if_pos hno]
      rw [hico]
      rfl
    exact hm
  have hfree := fresh_free
  exact writei_content whole_fresh (by decide) (by decide) (Nat.zero_le _) (by decide)
    (fun _ _ => rfl) (by omega)

end Blocks
