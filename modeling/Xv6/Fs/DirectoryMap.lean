import Xv6.Fs.Directory

/-!
# A directory is a finite map

A record is in one block, so it is read and written as a whole.  The loops of `dirlookup` and
`dirlink` are the searches of `SlotMap`, and a call that succeeds changes one slot.
-/

namespace Dirfile
open Fs Lib

/-- the blocks of the directory are there -/
structure Inv (d : Disk) : Prop where
  size : d.size % direntsz = 0
  max : d.size ≤ maxfile * bsize
  noHoles : NoHoles d
  indirect : ∀ bn, ndirect ≤ bn → d.mapped bn = true → d.indirect = true

def pair (e : Dirent) : Option (Bytes × Nat) := if e.inum = 0 then none else some (key e.name, e.inum)

def slot (d : Disk) (i : Nat) : Option (Bytes × Nat) := pair (entry d i)

def slots (d : Disk) : SlotMap Bytes Nat := (List.range (d.size / direntsz)).map (slot d)

section
variable {d d' : Disk} {i k : Nat} {name : Bytes} {b : Bytes}

theorem max_eq : maxfile * bsize = 274432 := by decide

/-! ## reading a record -/

theorem Inv.slot_le (h : Inv d) (hi : i < d.size / direntsz) : direntsz * i + direntsz ≤ d.size := by
  have hsize := h.size
  unfold direntsz at *
  omega

theorem Inv.bmap_eq (h : Inv d) (hk : k < maxfile) (hm : d.mapped k = true) :
    bmap d k = some (d, true) := by
  have hblock : mapBlock d k = (d, true) := by
    unfold mapBlock
    rw [if_pos hm]
  unfold bmap
  split
  · rw [hblock]
  · rename_i hn
    rw [if_pos (by unfold maxfile at hk; omega), h.indirect k (Nat.le_of_not_lt hn) hm, if_pos rfl,
      hblock]

theorem record_in_block (i : Nat) : bsize - direntsz * i % bsize ≥ direntsz := by
  unfold direntsz bsize
  omega

theorem readi_entry (h : Inv d) (hi : i < d.size / direntsz) :
    readi d (direntsz * i) direntsz =
      some (d, (List.range direntsz).map (fun j => d.data (direntsz * i + j))) := by
  have hle := h.slot_le hi
  have hmax := h.max
  have hblock : direntsz * i / bsize < maxfile := by
    have := max_eq
    unfold direntsz bsize maxfile ndirect nindirect at *
    omega
  have hmap : d.mapped (direntsz * i / bsize) = true := by
    apply h.noHoles
    unfold direntsz at *
    omega
  have hmod : (direntsz * i + direntsz) % 2 ^ 32 = direntsz * i + direntsz := by
    apply Nat.mod_eq_of_lt
    rw [max_eq] at hmax
    omega
  have hm : min (direntsz - 0) (bsize - direntsz * i % bsize) = direntsz :=
    Nat.min_eq_left (record_in_block i)
  have hlen : ((List.range direntsz).map (fun j => d.data (direntsz * i + j))).length = direntsz := by
    rw [List.length_map, List.length_range]
  unfold readi
  rw [hmod, if_neg (by omega), if_neg (by omega)]
  show readiLoop direntsz (14 + 2) d (direntsz * i) [] = _
  unfold readiLoop
  rw [List.length_nil, if_pos (by decide), h.bmap_eq hblock hmap]
  dsimp only
  rw [hm, List.nil_append]
  unfold readiLoop
  rw [hlen, if_neg (by decide)]

/-! ## the searches -/

theorem slots_eq (d : Disk) : slots d = (List.range' 0 (d.size / direntsz)).map (slot d) := by
  unfold slots
  rw [List.range_eq_range']

theorem length_slots : (slots d).length = d.size / direntsz := by
  unfold slots
  rw [List.length_map, List.length_range]

theorem length_entry (d : Disk) (i : Nat) :
    ((List.range direntsz).map (fun j => d.data (direntsz * i + j))).length = direntsz := by
  rw [List.length_map, List.length_range]

theorem Inv.off_lt (h : Inv d) (hk : i + (k + 1) = d.size / direntsz) : direntsz * i < d.size := by
  unfold direntsz at *
  omega

theorem Inv.off_end (h : Inv d) (hk : i + 0 = d.size / direntsz) : direntsz * i = d.size := by
  have hsize := h.size
  unfold direntsz at *
  omega

theorem dirlookupLoop_eq {rounds : Nat} (h : Inv d) (hk : i + k = d.size / direntsz)
    (hr : k < rounds) (name : Bytes) : dirlookupLoop name rounds d (direntsz * i) =
      some (d, (SlotMap.find ((List.range' i k).map (slot d)) (key name)).map
        (fun r => (r.1, direntsz * (i + r.2)))) := by
  induction k generalizing i rounds with
  | zero =>
    cases rounds with
    | zero => exact absurd hr (Nat.not_lt_zero 0)
    | succ rounds =>
      unfold dirlookupLoop
      rw [if_neg (by rw [h.off_end hk]; exact Nat.lt_irrefl _)]
      rfl
  | succ k ih =>
    cases rounds with
    | zero => exact absurd hr (Nat.not_lt_zero _)
    | succ rounds =>
      have hrest : dirlookupLoop name rounds d (direntsz * (i + 1)) = _ := ih (by omega) (by omega)
      have hmap : ∀ o : Option (Nat × Nat), o.map (fun r => (r.1, direntsz * (i + 1 + r.2))) =
          (o.map (fun r => (r.1, r.2 + 1))).map (fun r => (r.1, direntsz * (i + r.2))) := by
        intro o
        rw [Option.map_map]
        congr 1
        funext r
        show (r.1, direntsz * (i + 1 + r.2)) = (r.1, direntsz * (i + (r.2 + 1)))
        rw [Nat.add_assoc, Nat.add_comm 1]
      have hslot : slot d i = pair (decode ((List.range direntsz).map
        (fun j => d.data (direntsz * i + j)))) := rfl
      unfold dirlookupLoop
      rw [if_pos (h.off_lt hk), readi_entry h (by omega)]
      dsimp only
      rw [if_neg (not_not.mpr (length_entry d i)), List.range'_succ, List.map_cons, hslot]
      unfold pair
      by_cases h0 : (decode ((List.range direntsz).map (fun j => d.data (direntsz * i + j)))).inum = 0
      · rw [if_pos h0, if_pos h0]
        unfold SlotMap.find
        rw [← hmap]
        exact hrest
      · rw [if_neg h0, if_neg h0]
        unfold SlotMap.find
        by_cases hn : namecmp name
            (decode ((List.range direntsz).map (fun j => d.data (direntsz * i + j)))).name = 0
        · rw [if_pos hn, if_pos (namecmp_eq_zero.mp hn).symm]
          rfl
        · rw [if_neg hn, if_neg (fun e => hn (namecmp_eq_zero.mpr e.symm)), ← hmap]
          exact hrest

theorem dirlookup_eq (h : Inv d) (name : Bytes) : dirlookup d name =
    some (d, ((slots d).find (key name)).map (fun r => (r.1, direntsz * r.2))) := by
  unfold dirlookup
  have hloop := dirlookupLoop_eq (i := 0) h (Nat.zero_add _) (Nat.lt_succ_self _) name
  rw [Nat.mul_zero, ← slots_eq] at hloop
  rw [hloop]
  simp only [Nat.zero_add]

theorem emptyLoop_eq {rounds : Nat} (h : Inv d) (hk : i + k = d.size / direntsz) (hr : k < rounds) :
    emptyLoop rounds d (direntsz * i) =
      some (d, direntsz * (i + SlotMap.room ((List.range' i k).map (slot d)))) := by
  induction k generalizing i rounds with
  | zero =>
    cases rounds with
    | zero => exact absurd hr (Nat.not_lt_zero 0)
    | succ rounds =>
      unfold emptyLoop
      rw [if_neg (by rw [h.off_end hk]; exact Nat.lt_irrefl _)]
      rfl
  | succ k ih =>
    cases rounds with
    | zero => exact absurd hr (Nat.not_lt_zero _)
    | succ rounds =>
      have hrest : emptyLoop rounds d (direntsz * (i + 1)) = _ := ih (by omega) (by omega)
      have hslot : slot d i = pair (decode ((List.range direntsz).map
        (fun j => d.data (direntsz * i + j)))) := rfl
      unfold emptyLoop
      rw [if_pos (h.off_lt hk), readi_entry h (by omega)]
      dsimp only
      rw [if_neg (not_not.mpr (length_entry d i)), List.range'_succ, List.map_cons, hslot]
      unfold pair
      by_cases h0 : (decode ((List.range direntsz).map (fun j => d.data (direntsz * i + j)))).inum = 0
      · rw [if_pos h0, if_pos h0]
        rfl
      · rw [if_neg h0, if_neg h0]
        unfold SlotMap.room
        rw [Nat.add_comm (SlotMap.room _), ← Nat.add_assoc]
        exact hrest

theorem emptyLoop_room (h : Inv d) : emptyLoop (d.size / direntsz + 1) d 0 =
    some (d, direntsz * SlotMap.room (slots d)) := by
  have hloop := emptyLoop_eq (i := 0) h (Nat.zero_add _) (Nat.lt_succ_self _)
  rwa [Nat.mul_zero, ← slots_eq, Nat.zero_add] at hloop

/-! ## writing a record -/

theorem bmap_indirect {ok : Bool} (hd : ∀ bn, ndirect ≤ bn → d.mapped bn = true → d.indirect = true)
    (h : bmap d k = some (d', ok)) :
    ∀ bn, ndirect ≤ bn → d'.mapped bn = true → d'.indirect = true := by
  have hblock : ∀ e : Disk, (∀ bn, ndirect ≤ bn → e.mapped bn = true → e.indirect = true) →
      (ndirect ≤ k → e.indirect = true) → ∀ bn, ndirect ≤ bn → (mapBlock e k).1.mapped bn = true →
        (mapBlock e k).1.indirect = true := by
    intro e he hk bn hbn
    unfold mapBlock
    split
    · exact he bn hbn
    · split
      · exact he bn hbn
      · intro hm
        by_cases hbk : bn = k
        · exact hk (hbk ▸ hbn)
        · exact he bn hbn ((Function.update_of_ne hbk ..).symm.trans hm)
  unfold bmap at h
  split at h
  · rename_i hlt
    rw [← (Prod.mk.inj (Option.some.inj h)).1]
    exact hblock d hd (fun hk => absurd hlt (Nat.not_lt.mpr hk))
  · split at h
    · split at h
      · rename_i hi
        rw [← (Prod.mk.inj (Option.some.inj h)).1]
        exact hblock d hd (fun _ => hi)
      · split at h
        · rw [← (Prod.mk.inj (Option.some.inj h)).1]
          exact hd
        · rw [← (Prod.mk.inj (Option.some.inj h)).1]
          exact hblock _ (fun _ _ _ => rfl) (fun _ => rfl)
    · exact absurd h nofun

/-- a record is written with one `bmap` -/
theorem writeiLoop_record (b : Bytes) (d : Disk) (i : Nat) :
    writeiLoop (kernelSrc b) direntsz direntsz d (direntsz * i) 0 =
      match bmap d (direntsz * i / bsize) with
      | none => none
      | some (d, false) => some (d, direntsz * i, 0)
      | some (d, true) =>
        some ({ d with data := (copyin (kernelSrc b) direntsz (direntsz * i) 0 d.data).1 },
          direntsz * i + direntsz, direntsz) := by
  have hm : min (direntsz - 0) (bsize - direntsz * i % bsize) = direntsz :=
    Nat.min_eq_left (record_in_block i)
  show writeiLoop (kernelSrc b) direntsz (14 + 2) d (direntsz * i) 0 = _
  unfold writeiLoop
  rw [if_pos (by decide), hm]
  rcases bmap d (direntsz * i / bsize) with - | ⟨d1, ok⟩
  · rfl
  · cases ok with
    | false => rfl
    | true =>
      dsimp only
      have hok : (copyin (kernelSrc b) direntsz (direntsz * i) 0 d1.data).2 = true :=
        copyin_ok (fun j _ => rfl)
      rcases hc : copyin (kernelSrc b) direntsz (direntsz * i) 0 d1.data with ⟨data, ok⟩
      rw [hc] at hok
      obtain rfl : ok = true := hok
      dsimp only
      unfold writeiLoop
      rw [if_neg (by decide), Nat.zero_add]

theorem slot_congr (h : ∀ j < direntsz, d'.data (direntsz * i + j) = d.data (direntsz * i + j)) :
    slot d' i = slot d i := by
  unfold slot entry
  congr 2
  apply List.map_congr_left
  intro j hj
  exact h j (List.mem_range.mp hj)

theorem slots_congr (hs : d'.size = d.size) (h : ∀ p < d.size, d'.data p = d.data p) :
    slots d' = slots d := by
  unfold slots
  rw [hs]
  apply List.map_congr_left
  intro i hi
  rw [List.mem_range] at hi
  apply slot_congr
  intro j hj
  apply h
  unfold direntsz at *
  omega

theorem getElem?_slots (d : Disk) (i : Nat) :
    (slots d)[i]? = if i < d.size / direntsz then some (slot d i) else none := by
  unfold slots
  by_cases hi : i < d.size / direntsz
  · rw [if_pos hi, List.getElem?_map, List.getElem?_range hi]
    rfl
  · rw [if_neg hi, List.getElem?_eq_none]
    rw [List.length_map, List.length_range]
    exact Nat.le_of_not_lt hi

theorem slots_store (hi : i ≤ d.size / direntsz) (h0 : d.size % direntsz = 0)
    (hs : d'.size = max d.size (direntsz * i + direntsz)) (hb : b.length = direntsz)
    (hin : ∀ j < direntsz, d'.data (direntsz * i + j) = b.getD j 0)
    (hout : ∀ p < d.size, p < direntsz * i ∨ direntsz * i + direntsz ≤ p → d'.data p = d.data p) :
    slots d' = (slots d).store i (pair (decode b)) := by
  have hlen : i ≤ (slots d).length := by rw [length_slots]; exact hi
  have hnum : d'.size / direntsz = max (d.size / direntsz) (i + 1) := by
    rw [hs]
    unfold direntsz at *
    omega
  apply List.ext_getElem?
  intro j
  rw [getElem?_slots, hnum]
  by_cases hj : j = i
  · rw [hj, SlotMap.getElem?_store_self hlen, if_pos (by omega)]
    have hbytes : (List.range direntsz).map (fun j => d'.data (direntsz * i + j)) = b := by
      apply List.ext_getElem
      · rw [List.length_map, List.length_range, hb]
      · intro j h1 h2
        rw [List.getElem_map, List.getElem_range, hin j (hb ▸ h2)]
        exact (List.getElem_eq_getD 0).symm
    unfold slot entry
    rw [hbytes]
  · rw [SlotMap.getElem?_store_ne hlen hj, getElem?_slots]
    by_cases hlt : j < d.size / direntsz
    · rw [if_pos (by omega), if_pos hlt]
      congr 1
      apply slot_congr
      intro m hm
      apply hout
      · unfold direntsz at *
        omega
      · unfold direntsz at *
        omega
    · rw [if_neg (by omega), if_neg hlt]

/-- there is a block for record `i` -/
def Room (d : Disk) (i : Nat) : Prop :=
  i < d.size / direntsz ∨ direntsz * i + direntsz ≤ maxfile * bsize ∧
    missing d (direntsz * i / bsize) (direntsz * i / bsize + 1) ≤ d.free

/-- a record is written as a whole or not at all -/
theorem writei_record (h : Inv d) (hi : i ≤ d.size / direntsz) (hb : b.length = direntsz) :
    ∃ d' r, writei d (kernelSrc b) (direntsz * i) direntsz = some (d', r) ∧ Inv d' ∧
      (Room d i → r = direntsz) ∧
      (if r = direntsz then slots d' = (slots d).store i (pair (decode b))
        else slots d' = slots d) := by
  have hsize := h.size
  have hmax := h.max
  have hoff : direntsz * i ≤ d.size := by
    unfold direntsz at *
    omega
  have hmod : (direntsz * i + direntsz) % 2 ^ 32 = direntsz * i + direntsz := by
    rw [max_eq] at hmax
    apply Nat.mod_eq_of_lt
    unfold direntsz at *
    omega
  unfold writei
  rw [hmod, if_neg (by omega), writeiLoop_record]
  by_cases hlim : maxfile * bsize < direntsz * i + direntsz
  · rw [if_pos hlim]
    refine ⟨d, -1, rfl, h, ?_, ?_⟩
    · rintro (hin | ⟨hle, -⟩)
      · have := h.slot_le hin
        omega
      · omega
    · rw [if_neg (by decide)]
  · rw [if_neg hlim]
    have hblock : direntsz * i / bsize < maxfile := by
      have := max_eq
      unfold direntsz bsize maxfile ndirect nindirect at *
      omega
    obtain ⟨d1, ok, hbm, hmapped, hok⟩ := bmap_spec (d := d) hblock
    have hind := bmap_indirect h.indirect hbm
    have hsame : ∀ p < d.size, d1.data p = d.data p := fun p hp => hmapped.data p (h.noHoles p hp)
    have hroom : Room d i → ok = true := by
      rintro (hin | ⟨-, hfree⟩)
      · have hm : d.mapped (direntsz * i / bsize) = true := by
          apply h.noHoles
          have := h.slot_le hin
          unfold direntsz at *
          omega
        rw [h.bmap_eq hblock hm] at hbm
        exact (Prod.mk.inj (Option.some.inj hbm)).2.symm
      · obtain ⟨d2, h2, -⟩ := bmap_enough (Nat.lt_succ_self _) hblock hfree
        rw [h2] at hbm
        exact (Prod.mk.inj (Option.some.inj hbm)).2.symm
    rw [hbm]
    cases ok with
    | false =>
      have hs : (if d1.size < direntsz * i then direntsz * i else d1.size) = d.size := by
        rw [hmapped.size, if_neg (Nat.not_lt.mpr hoff)]
      refine ⟨_, _, rfl, ⟨?_, ?_, ?_, hind⟩, fun hr => absurd (hroom hr) nofun, ?_⟩
      · exact (congrArg (· % direntsz) hs).trans hsize
      · exact hs.trans_le hmax
      · intro p hp
        exact hmapped.mono _ (h.noHoles p (hp.trans_eq hs))
      · rw [if_neg (by decide)]
        exact slots_congr hs hsame
    | true =>
      have hs : (if d1.size < direntsz * i + direntsz then direntsz * i + direntsz else d1.size) =
          max d.size (direntsz * i + direntsz) := by
        rw [hmapped.size]
        split
        · omega
        · omega
      refine ⟨_, _, rfl, ⟨?_, ?_, ?_, hind⟩, fun _ => rfl, ?_⟩
      · refine (congrArg (· % direntsz) hs).trans ?_
        unfold direntsz at *
        omega
      · refine hs.trans_le ?_
        omega
      · intro p hp
        replace hp := hp.trans_eq hs
        show d1.mapped (p / bsize) = true
        by_cases hold : p < d.size
        · exact hmapped.mono _ (h.noHoles p hold)
        · have hdiv : p / bsize = direntsz * i / bsize := by
            have := record_in_block i
            unfold direntsz bsize at *
            omega
          rw [hdiv]
          exact hok rfl
      · rw [if_pos rfl]
        refine slots_store hi hsize hs hb (fun j hj => ?_) (fun p hp hrange => ?_)
        · have hin : kernelSrc b (0 + j) =
              some ((copyin (kernelSrc b) direntsz (direntsz * i) 0 d1.data).1 (direntsz * i + j)) :=
            copyin_inside (copyin_ok (fun j _ => rfl)) hj
          rw [Nat.zero_add] at hin
          exact (Option.some.inj hin).symm
        · have hout : (copyin (kernelSrc b) direntsz (direntsz * i) 0 d1.data).1 p = d1.data p :=
            copyin_outside hrange
          exact hout.trans (hsame p hp)

/-! ## the calls -/

section
variable {m : Bytes → Option Nat}

theorem pair_encode {inum : Nat} (h0 : 0 < inum) (h : inum < 2 ^ 16) (name : Bytes) :
    pair (decode (encode ⟨inum, strncpy dirsiz name⟩)) = some (key name, inum) := by
  unfold pair
  rw [decode_encode h, if_neg h0.ne']
  dsimp only
  rw [key_strncpy]

theorem length_encode (inum : Nat) (name : Bytes) :
    (encode ⟨inum, strncpy dirsiz name⟩).length = direntsz := by
  unfold encode
  rw [List.length_cons, List.length_cons, length_strncpy]
  rfl

/-- what `dirlink` does to the map; it fails for a name that is there -/
theorem dirlink_spec {inum : Nat} (h : Inv d) (hm : (slots d).Holds m) (h0 : 0 < inum)
    (hlt : inum < 2 ^ 16) (name : Bytes) :
    ∃ d' ok, dirlink d name inum = some (d', ok) ∧ Inv d' ∧
      (slots d').Holds (tell m (.dirlink name inum, ok)) ∧
      (m (key name) = none → Room d (SlotMap.room (slots d)) → ok = true) := by
  have hfind := hm.find_eq (key name)
  unfold dirlink
  rw [dirlookup_eq h]
  cases hf : (slots d).find (key name) with
  | some r =>
    rw [hf] at hfind
    refine ⟨d, false, rfl, h, hm, fun hno => ?_⟩
    rw [hno] at hfind
    exact absurd hfind nofun
  | none =>
    rw [hf] at hfind
    have hle : SlotMap.room (slots d) ≤ d.size / direntsz := by
      rw [← length_slots]
      exact SlotMap.room_le _
    obtain ⟨d', r, hw, hi, hr, hs⟩ := writei_record h hle (length_encode inum name)
    dsimp only [Option.map_none]
    rw [emptyLoop_room h]
    dsimp only
    rw [hw]
    refine ⟨d', decide (r = direntsz), rfl, hi, ?_, fun _ hroom => decide_eq_true (hr hroom)⟩
    by_cases hok : r = (direntsz : Int)
    · rw [if_pos hok, pair_encode h0 hlt] at hs
      rw [decide_eq_true hok, hs]
      exact hm.put hfind.symm (SlotMap.room_le _) (fun _ _ => SlotMap.room_free) inum
    · rw [if_neg hok] at hs
      rw [decide_eq_false hok, hs]
      exact hm

/-- what `sys_unlink` does to the map -/
theorem unlink_spec (h : Inv d) (hm : (slots d).Holds m) (name : Bytes) (busy : Bool) :
    ∃ d' ok, unlink d name busy = some (d', ok) ∧ Inv d' ∧
      (slots d').Holds (tell m (.unlink name busy, ok)) := by
  unfold unlink
  split
  · exact ⟨d, false, rfl, h, hm⟩
  · rw [dirlookup_eq h]
    cases hf : (slots d).find (key name) with
    | none => exact ⟨d, false, rfl, h, hm⟩
    | some r =>
      cases busy with
      | true => exact ⟨d, false, rfl, h, hm⟩
      | false =>
        have hat : (slots d)[r.2]? = some (some (key name, r.1)) := SlotMap.find_some hf
        have hlt : r.2 < d.size / direntsz := by
          rw [← length_slots]
          exact (List.getElem?_eq_some_iff.mp hat).1
        obtain ⟨d', n, hw, hi, hn, hs⟩ :=
          writei_record (b := List.replicate direntsz 0) h hlt.le List.length_replicate
        rw [if_pos (hn (Or.inl hlt))] at hs
        dsimp only [Option.map_some]
        rw [if_neg nofun, hw]
        dsimp only
        rw [if_pos (hn (Or.inl hlt))]
        refine ⟨d', true, rfl, hi, ?_⟩
        rw [hs]
        exact hm.erase hat

/-- the inode numbers that an entry can hold -/
def Proper (_ : Disk) (e : Act × Bool) : Prop :=
  match e.1 with
  | .dirlink _ inum => 0 < inum ∧ inum < 2 ^ 16
  | _ => True

theorem act_spec {e : Act × Bool} (h : Inv d) (hm : (slots d).Holds m) (hp : Proper d e) :
    ∃ d' ok, act d e.1 = some (d', ok) ∧ Inv d' ∧ (slots d').Holds (tell m (e.1, ok)) := by
  obtain ⟨a, b⟩ := e
  cases a with
  | dirlink name inum =>
    obtain ⟨d', ok, ha, hi, hs, -⟩ := dirlink_spec h hm hp.1 hp.2 name
    exact ⟨d', ok, ha, hi, hs⟩
  | unlink name busy => exact unlink_spec h hm name busy
  | others free =>
    have hsame : slots { d with free := free } = slots d := rfl
    refine ⟨_, true, rfl, ⟨h.size, h.max, h.noHoles, h.indirect⟩, ?_⟩
    rw [hsame]
    exact hm

theorem inv_newFile (data : Nat → UInt8) (free : Nat) : Inv (newFile data free) :=
  ⟨rfl, Nat.zero_le _, fun p hp => absurd hp (Nat.not_lt_zero p), fun _ _ => nofun⟩

theorem holds_of_run {l : List (Act × Bool)} (h : Run (guarded Proper Step) d l d') (hi : Inv d)
    (hm : (slots d).Holds m) : Inv d' ∧ (slots d').Holds (l.foldl tell m) := by
  induction h generalizing m with
  | nil d => exact ⟨hi, hm⟩
  | cons hs _ ih =>
    obtain ⟨d₁, ok, ha, hi₁, hm₁⟩ := act_spec hi hm hs.1
    obtain ⟨rfl, rfl⟩ := Prod.mk.inj (Option.some.inj (ha.symm.trans hs.2))
    exact ih hi₁ hm₁

end

/-- after any calls, a lookup finds what was linked last and not removed since; no two entries have
the same name, no call panics, and a new name is linked where there is room -/
theorem directory_map (data : Nat → UInt8) (free : Nat) (l : List (Act × Bool)) (d : Disk)
    (h : Run (guarded Proper Step) (newFile data free) l d) :
    (∀ name, ∃ r, dirlookup d name = some (d, r) ∧ r.map Prod.fst = told l (key name)) ∧
    (∀ i j, i < d.size / direntsz → j < d.size / direntsz → (entry d i).inum ≠ 0 →
      (entry d j).inum ≠ 0 → namecmp (entry d i).name (entry d j).name = 0 → i = j) ∧
    (∀ e, Proper d e → ∃ r, act d e.1 = some r) ∧
    ∀ name inum, 0 < inum → inum < 2 ^ 16 → told l (key name) = none →
      Room d (SlotMap.room (slots d)) → ∃ d', dirlink d name inum = some (d', true) := by
  have hnil : slots (newFile data free) = [] := by
    have hnum : (newFile data free).size / direntsz = 0 := Nat.zero_div direntsz
    unfold slots
    rw [hnum, List.range_zero, List.map_nil]
  obtain ⟨hi, hm⟩ := holds_of_run h (inv_newFile data free) (hnil ▸ SlotMap.holds_nil)
  refine ⟨fun name => ⟨_, dirlookup_eq hi name, ?_⟩, fun i j hlt hlt' h0 h0' hn => ?_,
    fun e hp => ?_, fun name inum h0 hlt hno hroom => ?_⟩
  · rw [Option.map_map]
    exact hm.find_eq (key name)
  · have hat : ∀ k, k < d.size / direntsz → (entry d k).inum ≠ 0 →
        (slots d)[k]? = some (some (key (entry d k).name, (entry d k).inum)) := by
      intro k hk hk0
      rw [getElem?_slots, if_pos hk]
      unfold slot pair
      rw [if_neg hk0]
    have hj := hat j hlt' h0'
    rw [← namecmp_eq_zero.mp hn] at hj
    exact hm.one i j _ _ _ (hat i hlt h0) hj
  · obtain ⟨d', ok, ha, -⟩ := act_spec hi hm hp
    exact ⟨_, ha⟩
  · obtain ⟨d', ok, ha, -, -, hok⟩ := dirlink_spec hi hm h0 hlt name
    rw [hok hno hroom] at ha
    exact ⟨d', ha⟩

/-- `a` is linked, removed and linked again -/
theorem directory_map_again : ∃ d, Run (guarded Proper Step) (newFile (fun _ => 7) 1)
      [(.dirlink [97] 5, true), (.unlink [97] false, true), (.dirlink [97] 6, true)] d ∧
    ∃ r, dirlookup d [97] = some (d, r) ∧ r.map Prod.fst = some 6 := by
  have h5 : ∀ d, Proper d (.dirlink [97] 5, true) := fun _ => by unfold Proper; decide
  have h6 : ∀ d, Proper d (.dirlink [97] 6, true) := fun _ => by unfold Proper; decide
  have ha : ∀ d, Proper d (.unlink [97] false, true) := fun _ => trivial
  obtain ⟨d, hrun⟩ : ∃ d, Run (guarded Proper Step) (newFile (fun _ => 7) 1)
      [(.dirlink [97] 5, true), (.unlink [97] false, true), (.dirlink [97] 6, true)] d :=
    ⟨_, .cons ⟨h5 _, rfl⟩ (.cons ⟨ha _, rfl⟩ (.cons ⟨h6 _, rfl⟩ (.nil _)))⟩
  exact ⟨d, hrun, (directory_map (fun _ => 7) 1 _ d hrun).1 [97]⟩

/-! ## the list of entries -/

section
variable {n : Nat} {p q : Bytes}

def toStr (b : Bytes) : Ulib.Str := b.map Char.ofUInt8

/-- the entries as they are where a directory is the list of them -/
def records (d : Disk) : List Fs.Dirent :=
  (List.range (d.size / direntsz)).map (fun i => ⟨(entry d i).inum, toStr (entry d i).name⟩)

theorem ofUInt8_inj {a b : UInt8} : Char.ofUInt8 a = Char.ofUInt8 b ↔ a = b := by
  constructor
  · intro h
    exact UInt8.toUInt32_inj.mp (congrArg Char.val h)
  · intro h
    rw [h]

theorem headD_toStr (p : Bytes) : (toStr p).headD '\x00' = Char.ofUInt8 (p.headD 0) := by
  cases p with
  | nil => rfl
  | cons a p => rfl

theorem strncmpEq_toStr : strncmpEq n (toStr p) (toStr q) = true ↔ strncmp n p q = 0 := by
  induction n generalizing p q with
  | zero => exact ⟨fun _ => rfl, fun _ => rfl⟩
  | succ n ih =>
    have hnul : Char.ofUInt8 (p.headD 0) ≠ '\x00' ↔ p.headD 0 ≠ 0 :=
      not_congr (ofUInt8_inj (b := 0))
    have htail : ∀ p : Bytes, (toStr p).tail = toStr p.tail := fun p => (List.map_tail ..).symm
    unfold strncmpEq strncmp
    rw [headD_toStr, headD_toStr, htail, htail]
    by_cases h : p.headD 0 ≠ 0 ∧ p.headD 0 = q.headD 0
    · rw [if_pos h, if_pos ⟨hnul.mpr h.1, ofUInt8_inj.mpr h.2⟩, ih]
    · rw [if_neg h, if_neg (fun h' => h ⟨hnul.mp h'.1, ofUInt8_inj.mp h'.2⟩), decide_eq_true_iff,
        ofUInt8_inj, Int.sub_eq_zero, Int.natCast_inj, UInt8.toNat_inj]

theorem dirlookup_records (h : Inv d) (name : Bytes) :
    ∃ r, dirlookup d name = some (d, r) ∧
      r.map Prod.fst = Fs.dirlookup (records d) (toStr name) := by
  refine ⟨_, dirlookup_eq h name, ?_⟩
  rw [Option.map_map]
  show ((slots d).find (key name)).map Prod.fst = _
  unfold slots records Fs.dirlookup
  induction List.range (d.size / direntsz) with
  | nil => rfl
  | cons i l ih =>
    have hcmp : namecmpEq (toStr name) (toStr (entry d i).name) = true ↔
        key (entry d i).name = key name := by
      rw [eq_comm (a := key (entry d i).name), ← namecmp_eq_zero]
      exact strncmpEq_toStr
    have hshift : ∀ o : Option (Nat × Nat),
        (o.map (fun r => (r.1, r.2 + 1))).map Prod.fst = o.map Prod.fst := fun o => by
      rw [Option.map_map]
      rfl
    rw [List.map_cons, List.map_cons]
    unfold slot pair
    by_cases h0 : (entry d i).inum = 0
    · rw [if_pos h0, List.find?_cons_of_neg (by simp [h0])]
      unfold SlotMap.find
      rw [hshift]
      exact ih
    · rw [if_neg h0]
      unfold SlotMap.find
      by_cases hk : key (entry d i).name = key name
      · rw [if_pos hk, List.find?_cons_of_pos (by simp [h0, hcmp.mpr hk])]
        rfl
      · rw [if_neg hk, hshift, List.find?_cons_of_neg (by simp [hcmp, hk])]
        exact ih

end

end

end Dirfile
