import Xv6.Umalloc.Inv

/-!
# Growing the heap

A request that no free block serves gets fresh pages: `newBlock_inv` adds the block that `sbrk`
returned, `split_inv` cuts the end off a block of even size, and `growHeap_inv` puts them together.
Sizes here are multiples of 16, so nothing is lost to the free bit.
-/

namespace Umalloc
open Lib

/-! ## rounding -/

theorem align_spec {x a : Nat} (ha : 0 < a) (hx : x + a < 2 ^ 64) :
    x ≤ align x a ∧ align x a < x + a ∧ align x a % a = 0 := by
  have hd : x / a * a + x % a = x := Nat.div_add_mod' x a
  have hm : x % a < a := Nat.mod_lt x ha
  unfold align
  dsimp only
  split
  · rw [Nat.mod_eq_of_lt (by omega)]
    refine ⟨by omega, by omega, ?_⟩
    rw [Nat.add_mod_right, Nat.mul_mod_left]
  · exact ⟨by omega, by omega, Nat.mul_mod_left _ _⟩

theorem totalSizeNeeded_spec {n : Nat} (hn : n < 2 ^ 32) : headerSz + n ≤ totalSizeNeeded n ∧
    totalSizeNeeded n < headerSz + n + 16 ∧ totalSizeNeeded n % 16 = 0 :=
  align_spec (by norm_num) (by unfold headerSz; omega)

theorem totalSize_spec {n : Nat} (hn : n < 2 ^ 32) : totalSizeNeeded n ≤ totalSize n ∧
    totalSize n % 4096 = 0 := by
  have h1 := totalSizeNeeded_spec hn
  have h2 : align (n + headerSz) 16 = totalSizeNeeded n := by
    unfold totalSizeNeeded
    rw [Nat.add_comm]
  unfold headerSz at h1
  have h3 := align_spec (x := totalSizeNeeded n) (a := pageSz) (by unfold pageSz; norm_num)
    (by unfold pageSz; omega)
  unfold totalSize
  rw [h2]
  exact ⟨h3.1, h3.2.2⟩

/-! ## a field whose bytes did not change -/

section
variable {h h' : Heap} {b : Nat}

theorem size_of_frame (e : ∀ x, b + 8 ≤ x → x < b + 16 → h'.mem x = h.mem x) :
    h'.size b = h.size b := load64_congr e

theorem nextBlock_of_frame (e : ∀ x, b + 16 ≤ x → x < b + 24 → h'.mem x = h.mem x) :
    h'.nextBlock b = h.nextBlock b := load64_congr e

end

/-! ## the pieces of `split` and what they write -/

section
variable (h : Heap) (b new v x : Nat)

theorem initSplit_frame (hx : x < new ∨ new + 32 ≤ x) : (initSplit h new v).mem x = h.mem x := by
  show ((((h.setName new splitName).put v (new + 8)).put 0 (new + 16)).put 0 (new + 24)).mem x = _
  rw [put_frame _ _ _ _ (by omega), put_frame _ _ _ _ (by omega), put_frame _ _ _ _ (by omega)]
  exact storeBytes_of_disjoint _ _ _ _ (by show x < new ∨ new + 6 ≤ x; omega)

theorem initSplit_size (hv : v < 2 ^ 64) : (initSplit h new v).size new = v := by
  show load64 (store64 (store64 (store64 _ (new + 8) v) (new + 16) 0) (new + 24) 0) (new + 8) = v
  rw [load64_store64_of_disjoint _ _ _ _ (by omega), load64_store64_of_disjoint _ _ _ _ (by omega),
    load64_store64_of_lt _ _ _ hv]

theorem shrink_eq (hv : v < 2 ^ 64) :
    shrink h b v = (if v % 2 = 1 then h.setSize b v else (h.setSize b v).setSize b (v + 1)) := by
  have e : (h.setSize b v).size b = v := load64_store64_of_lt _ _ _ (by omega)
  unfold shrink
  dsimp only
  rw [isFree_eq, e]
  by_cases hodd : v % 2 = 1
  · simp [hodd]
  · have e2 : v / 2 * 2 + 1 = v + 1 := by omega
    simp only [hodd, decide_false, Bool.not_false, if_true, if_false]
    unfold setFree
    rw [e, or_one, e2]

theorem shrink_frame (hx : x < b + 8 ∨ b + 16 ≤ x) : (shrink h b v).mem x = h.mem x := by
  unfold shrink
  dsimp only
  split
  · exact (put_frame _ _ _ _ (by omega)).trans (put_frame _ _ _ _ (by omega))
  · exact put_frame _ _ _ _ (by omega)

theorem shrink_size (hv : v < 2 ^ 64) : (shrink h b v).size b = v / 2 * 2 + 1 := by
  rw [shrink_eq h b v hv]
  split
  · exact (load64_store64_of_lt _ _ _ (by omega)).trans (by omega)
  · exact (load64_store64_of_lt _ _ _ (by omega)).trans (by omega)

theorem initSplit_globals : ∃ m, initSplit h new v = { h with mem := m } := ⟨_, rfl⟩

theorem shrink_globals : ∃ m, shrink h b v = { h with mem := m } := by
  unfold shrink
  dsimp only
  split <;> exact ⟨_, rfl⟩

theorem insertSplit_globals : ∃ m, insertSplit h b new = { h with mem := m } := by
  unfold insertSplit
  dsimp only
  split <;> exact ⟨_, rfl⟩

end

/-- what `insert_split` writes: `new` stands between `b` and the block behind it -/
structure Spliced (h h' : Heap) (b new : Nat) : Prop where
  next_old : h'.nextBlock b = new
  next_new : h'.nextBlock new = h.nextBlock b
  prev_new : h'.prevBlock new = b
  prev_next : h.nextBlock b ≠ 0 → h'.prevBlock (h.nextBlock b) = new
  frame : ∀ x, (x < b + 16 ∨ b + 24 ≤ x) → (x < new + 16 ∨ new + 32 ≤ x) →
    (h.nextBlock b ≠ 0 → x < h.nextBlock b + 24 ∨ h.nextBlock b + 32 ≤ x) → h'.mem x = h.mem x

/-- the headers that a split of `b` writes to do not overlap -/
structure Separate (h : Heap) (b new : Nat) : Prop where
  old : new + 32 ≤ b + 8 ∨ b + 32 ≤ new
  next : h.nextBlock b ≠ 0 → new + 32 ≤ h.nextBlock b + 8 ∨ h.nextBlock b + 32 ≤ new
  self : h.nextBlock b ≠ 0 → h.nextBlock b = b ∨ h.nextBlock b + 24 ≤ b ∨ b + 24 ≤ h.nextBlock b

theorem Separate.of_last {h : Heap} {b new : Nat} (h0 : h.nextBlock b = 0)
    (hold : new + 32 ≤ b + 8 ∨ b + 32 ≤ new) : Separate h b new :=
  ⟨hold, fun hne => absurd h0 hne, fun hne => absurd h0 hne⟩

theorem insertSplit_spliced {h : Heap} {b new : Nat} (hs : Separate h b new) (hb : b < 2 ^ 64)
    (hn : new < 2 ^ 64) : Spliced h (insertSplit h b new) b new := by
  have htmp : h.nextBlock b < 2 ^ 64 := load64_lt _ _
  have hold := hs.old
  -- the three stores that are always made
  have next_old : load64 (store64 (store64 (store64 h.mem (b + 16) new) (new + 24) b) (new + 16)
      (h.nextBlock b)) (b + 16) = new := by
    rw [load64_store64_of_disjoint _ _ _ _ (by omega),
      load64_store64_of_disjoint _ _ _ _ (by omega), load64_store64_of_lt _ _ _ hn]
  have next_new : load64 (store64 (store64 (store64 h.mem (b + 16) new) (new + 24) b) (new + 16)
      (h.nextBlock b)) (new + 16) = h.nextBlock b := load64_store64_of_lt _ _ _ htmp
  have prev_new : load64 (store64 (store64 (store64 h.mem (b + 16) new) (new + 24) b) (new + 16)
      (h.nextBlock b)) (new + 24) = b := by
    rw [load64_store64_of_disjoint _ _ _ _ (by omega), load64_store64_of_lt _ _ _ hb]
  have frame : ∀ x, (x < b + 16 ∨ b + 24 ≤ x) → (x < new + 16 ∨ new + 32 ≤ x) →
      store64 (store64 (store64 h.mem (b + 16) new) (new + 24) b) (new + 16) (h.nextBlock b) x
        = h.mem x := fun x h1 h2 =>
    (store64_of_disjoint _ _ _ _ (by omega)).trans
      ((store64_of_disjoint _ _ _ _ (by omega)).trans (store64_of_disjoint _ _ _ _ (by omega)))
  by_cases h0 : h.nextBlock b = 0
  · have e : insertSplit h b new
        = ((h.setNextBlock b new).setPrevBlock new b).setNextBlock new (h.nextBlock b) := by
      unfold insertSplit
      dsimp only
      rw [if_neg (not_not.mpr h0)]
    rw [e]
    exact ⟨next_old, next_new, prev_new, fun hne => absurd h0 hne, fun x h1 h2 _ => frame x h1 h2⟩
  · have e : insertSplit h b new = (((h.setNextBlock b new).setPrevBlock new b).setNextBlock new
        (h.nextBlock b)).setPrevBlock (h.nextBlock b) new := by
      unfold insertSplit
      dsimp only
      rw [if_pos h0]
    have hnext := hs.next h0
    have hself := hs.self h0
    rw [e]
    refine ⟨?_, ?_, ?_, fun _ => load64_store64_of_lt _ _ _ hn, fun x h1 h2 h3 => ?_⟩
    · exact (load64_store64_of_disjoint _ _ _ _ (by omega)).trans next_old
    · exact (load64_store64_of_disjoint _ _ _ _ (by omega)).trans next_new
    · exact (load64_store64_of_disjoint _ _ _ _ (by omega)).trans prev_new
    · have h4 := h3 h0
      exact (store64_of_disjoint _ _ _ _ (by omega)).trans (frame x h1 h2)

/-! ## cutting the end off a block -/

/-- the address of the block that `split` makes, and the size it leaves -/
def splitAt (b blockSize nbytes : Nat) : Nat := (b + blockSize + 2 ^ 64 - nbytes) % 2 ^ 64
def restSize (blockSize nbytes : Nat) : Nat := (blockSize + 2 ^ 64 - nbytes) % 2 ^ 64

/-- what a split of the block `b` leaves behind; `new` is the block it makes, of size `v` -/
structure Inserted (h h' : Heap) (b blockSize v new : Nat) : Prop where
  globals : ∃ m, h' = { h with mem := m, created := h.created ++ [new] }
  size_old : h'.size b = restSize blockSize v / 2 * 2 + 1
  size_new : h'.size new = v
  next_old : h'.nextBlock b = new
  next_new : h'.nextBlock new = h.nextBlock b
  prev_new : h'.prevBlock new = b
  prev_next : h.nextBlock b ≠ 0 → h'.prevBlock (h.nextBlock b) = new
  frame : ∀ x, (x < b + 8 ∨ b + 24 ≤ x) → (x < new ∨ new + 32 ≤ x) →
    (h.nextBlock b ≠ 0 → x < h.nextBlock b + 24 ∨ h.nextBlock b + 32 ≤ x) → h'.mem x = h.mem x

theorem split_eq (h : Heap) (b blockSize v : Nat) : ∃ m, split h b blockSize v
    = ({ h with mem := m, created := h.created ++ [splitAt b blockSize v] },
      splitAt b blockSize v) ∧
    m = (insertSplit (shrink (initSplit h (splitAt b blockSize v) v) b (restSize blockSize v)) b
      (splitAt b blockSize v)).mem := by
  unfold split splitAt restSize
  dsimp only
  generalize (b + blockSize + 2 ^ 64 - v) % 2 ^ 64 = new
  generalize (blockSize + 2 ^ 64 - v) % 2 ^ 64 = rest
  obtain ⟨m1, g1⟩ := initSplit_globals h new v
  obtain ⟨m2, g2⟩ := shrink_globals (initSplit h new v) b rest
  obtain ⟨m3, g3⟩ := insertSplit_globals (shrink (initSplit h new v) b rest) b new
  exact ⟨m3, by rw [g3, g2, g1], by rw [g3]⟩

theorem split_snd (h : Heap) (b blockSize v : Nat) :
    (split h b blockSize v).2 = splitAt b blockSize v := rfl

theorem split_inserted {h : Heap} {b blockSize v : Nat} (hb : b < 2 ^ 64) (hv : v < 2 ^ 64)
    (hs : Separate h b (splitAt b blockSize v)) :
    Inserted h (split h b blockSize v).1 b blockSize v (splitAt b blockSize v) := by
  obtain ⟨m, e, hm⟩ := split_eq h b blockSize v
  have hnew : splitAt b blockSize v < 2 ^ 64 := Nat.mod_lt _ (by norm_num)
  have hrest : restSize blockSize v < 2 ^ 64 := Nat.mod_lt _ (by norm_num)
  rw [e]
  generalize splitAt b blockSize v = new at hs hm hnew
  generalize er : restSize blockSize v = rest at hm hrest
  have hold := hs.old
  have f1 := fun x => initSplit_frame h new v x
  have s1 := initSplit_size h new v hv
  generalize initSplit h new v = h1 at f1 s1 hm
  have f2 := fun x => shrink_frame h1 b rest x
  have s2 := shrink_size h1 b rest hrest
  generalize shrink h1 b rest = h2 at f2 s2 hm
  have n2 : h2.nextBlock b = h.nextBlock b :=
    nextBlock_of_frame (fun x h3 h4 => (f2 x (by omega)).trans (f1 x (by omega)))
  have hsp : Spliced h2 (insertSplit h2 b new) b new :=
    insertSplit_spliced ⟨hold, n2.symm ▸ hs.next, n2.symm ▸ hs.self⟩ hb hnew
  have hnext := hs.next
  have hself := hs.self
  generalize insertSplit h2 b new = h3 at hsp hm
  have f3 := hsp.frame
  have pn := hsp.prev_next
  rw [n2] at f3 pn
  rw [hm]
  refine ⟨⟨_, rfl⟩, ?_, ?_, hsp.next_old, hsp.next_new.trans n2, hsp.prev_new, pn, ?_⟩
  · rw [er, ← s2]
    exact size_of_frame (fun x h4 h5 => f3 x (by omega) (by omega) (fun h0 => by
      have h6 := hself h0
      omega))
  · refine Eq.trans ?_ s1
    exact size_of_frame (fun x h4 h5 => (f3 x (by omega) (by omega) (fun h0 => by
      have h6 := hnext h0
      omega)).trans (f2 x (by omega)))
  · intro x hb hn ht
    exact (f3 x (by omega) (by omega) ht).trans ((f2 x (by omega)).trans (f1 x hn))

/-- what a split of the last block `B` of size `S` leaves behind -/
structure Cut (h h' : Heap) (B S T new : Nat) : Prop where
  new_eq : new = B + S - T
  globals : ∃ m, h' = { h with mem := m, created := h.created ++ [new] }
  size_old : h'.size B = (S - T) / 2 * 2 + 1
  size_new : h'.size new = T
  frame : ∀ x, (x < B + 8 ∨ B + 24 ≤ x) → (x < new ∨ new + 32 ≤ x) → h'.mem x = h.mem x

theorem split_cut {h : Heap} {B S T : Nat} (hS : T + 48 ≤ S) (hT : 32 ≤ T) (hB : B + S ≤ maxVa)
    (h0 : h.nextBlock B = 0) :
    Cut h (split h B S T).1 B S T (split h B S T).2 := by
  unfold maxVa at hB
  have e1 : splitAt B S T = B + S - T := by
    unfold splitAt
    omega
  have e2 : restSize S T = S - T := by
    unfold restSize
    omega
  have hi : Inserted h (split h B S T).1 B S T (splitAt B S T) :=
    split_inserted (by omega) (by omega) (Separate.of_last h0 (by omega))
  rw [split_snd, e1]
  rw [e1] at hi
  exact ⟨rfl, hi.globals, e2 ▸ hi.size_old, hi.size_new,
    fun x h1 h2 => hi.frame x h1 h2 (fun hne => absurd h0 hne)⟩

section
variable {base : Nat} {h h' : Heap} {F : List Nat} {live : List (Nat × Nat)} {B S T new : Nat}

/-- a split of a block of even size that is not on the free list keeps the invariant -/
theorem Cut.inv (c : Cut h h' B S T new) (hi : HeapInv base h F live) (hB : B ∈ h.created)
    (hF : B ∉ F) (hl : ∀ q ∈ live, q.1 - headerSz ≠ B) (hsz : h.size B = S) (hS : S % 2 = 0)
    (hT : T % 2 = 0) (hTS : T + 48 ≤ S) (hT32 : 32 ≤ T) :
    HeapInv base h' F live ∧ new ∉ h.created ∧ ∀ d ∈ h.created, d ≠ B → h'.size d = h.size d := by
  obtain ⟨m, g⟩ := c.globals
  have hnew := c.new_eq
  have hS32 : S < 2 ^ 32 := hsz ▸ hi.small B hB
  have hreB : h.real B = S := by
    unfold Heap.real
    rw [hsz, realSize_of_lt hS32]
    omega
  have hreB' : h'.real B = S - T := by
    unfold Heap.real
    rw [c.size_old, realSize_of_lt (by omega)]
    omega
  have hren : h'.real new = T := by
    unfold Heap.real
    rw [c.size_new, realSize_of_lt (by omega)]
    omega
  have hfar : ∀ d ∈ h.created, d ≠ B → d + h.real d ≤ B ∨ B + S ≤ d := fun d hd hne => by
    have h1 := hi.apart d hd B hB hne
    rw [hreB] at h1
    exact h1
  have hroom : ∀ d ∈ h.created, 32 ≤ h.real d := hi.room
  have hsame : ∀ d ∈ h.created, d ≠ B → h'.size d = h.size d := fun d hd hne =>
    size_of_frame (fun x h1 h2 => by
      have h3 := hfar d hd hne
      have h4 := hroom d hd
      exact c.frame x (by omega) (by omega))
  have hre : ∀ d ∈ h.created, d ≠ B → h'.real d = h.real d := fun d hd hne =>
    congrArg realSize (hsame d hd hne)
  have hnotin : new ∉ h.created := fun hm => by
    have h1 := hfar new hm (by omega)
    have h2 := hroom new hm
    omega
  have hBlo := hi.lo B hB
  have hBhi := hi.hi B hB
  rw [hreB] at hBhi
  have ec : h'.created = h.created ++ [new] := by rw [g]
  have eb : h'.brk = h.brk := by rw [g]
  have hlay : Layout base h' := by
    refine ⟨hi.basePos, eb ▸ hi.baseLe, eb ▸ hi.brkLe, ?_, ?_, ?_, ?_, ?_, ?_⟩
    · rw [ec]
      exact nodup_concat hi.nodup hnotin
    · rw [ec]
      exact forall_concat hi.lo (by omega)
    · rw [ec, eb]
      refine forall_concat (fun d hd => ?_) (by rw [hren]; omega)
      by_cases e : d = B
      · rw [e, hreB']
        omega
      · rw [hre d hd e]
        exact hi.hi d hd
    · rw [ec]
      refine forall_concat (fun d hd => ?_) (by rw [c.size_new]; omega)
      by_cases e : d = B
      · rw [e, c.size_old]
        omega
      · rw [hsame d hd e]
        exact hi.small d hd
    · rw [ec]
      unfold headerSz
      refine forall_concat (fun d hd => ?_) (by rw [hren]; exact hT32)
      by_cases e : d = B
      · rw [e, hreB']
        omega
      · rw [hre d hd e]
        exact hi.room d hd
    · -- `B` and `new` share what was `B`, so both lie on the side of `d` where `B` was
      have hpair : ∀ d ∈ h.created, d + h'.real d ≤ new ∨ new + h'.real new ≤ d := by
        intro d hd
        by_cases e : d = B
        · rw [e, hreB']
          omega
        · have h1 := hfar d hd e
          rw [hre d hd e, hren]
          omega
      rw [ec]
      refine apart_concat (fun d h1 e h2 hne => ?_) hpair (fun d hd => (hpair d hd).symm)
      by_cases e1 : d = B
      · have h3 := hfar e h2 (fun h => hne (e1.trans h.symm))
        rw [e1, hreB', hre e h2 (fun h => hne (e1.trans h.symm))]
        omega
      · by_cases e2 : e = B
        · have h3 := hfar d h1 e1
          rw [e2, hreB', hre d h1 e1]
          omega
        · rw [hre d h1 e1, hre e h2 e2]
          exact hi.apart d h1 e h2 hne
  refine ⟨⟨hlay, ?_, ?_, ?_, hi.once, ?_⟩, hnotin, hsame⟩
  · refine hi.freeList.congr (fun x hx => ?_) (by rw [g]) (by rw [g])
    obtain ⟨d, hd, h1, h2⟩ := hx
    obtain ⟨h3, h4⟩ := hi.free d hd
    have h5 := hfar d h3 (fun e => hF (e ▸ hd))
    exact c.frame x (by omega) (by omega)
  · intro d hd
    obtain ⟨h1, h2⟩ := hi.free d hd
    rw [ec, hre d h1 (fun e => hF (e ▸ hd))]
    exact ⟨List.mem_append_left _ h1, h2⟩
  · intro q hq
    obtain ⟨h1, h2, h3, h4⟩ := hi.used q hq
    rw [ec, hre _ h2 (hl q hq)]
    exact ⟨h1, List.mem_append_left _ h2, h3, h4⟩
  · rw [ec, g]
    exact fun hne => List.mem_append_left _ (hi.tail hne)

end

/-! ## a block from the kernel -/

theorem sbrk_of_pos {h : Heap} {S : Nat} (h0 : 0 < S) (hS : S < 2 ^ 31) :
    sbrk h (toInt S) = if h.brk + S ≤ maxVa then
      some ({ h with
        brk := h.brk + S
        mem := fun a => if h.brk ≤ a ∧ a < h.brk + S then 0 else h.mem a }, h.brk) else none := by
  have e : toInt S = (S : Int) := by
    unfold toInt
    rw [Nat.mod_eq_of_lt (by omega), if_pos hS]
  unfold sbrk
  rw [e, if_pos (by omega), Int.toNat_natCast]

/-- the header of a new block at `B` is written and the block is put at the end of the block list -/
structure Fresh (h h' : Heap) (B S : Nat) : Prop where
  globals : ∃ m, h' = { h with
    mem := m
    created := h.created ++ [B]
    blockListHead := if h.blockListHead = 0 then B else h.blockListHead
    blockListTail := B }
  size : h'.size B = S
  next : h'.nextBlock B = 0
  prev : h'.prevBlock B = if h.blockListHead = 0 then 0 else h.blockListTail
  link : h.blockListHead ≠ 0 → h'.nextBlock h.blockListTail = B
  frame : ∀ x < B, (h.blockListHead ≠ 0 → x < h.blockListTail + 16 ∨ h.blockListTail + 24 ≤ x) →
    h'.mem x = h.mem x

theorem addBlock_of_nil {h : Heap} (b : Nat) (e : h.blockListHead = 0) : addBlock h b
    = (({ h with blockListHead := b, blockListTail := b } : Heap).setNextBlock b 0).setPrevBlock b 0 :=
  if_pos e

theorem addBlock_of_cons {h : Heap} (b : Nat) (e : h.blockListHead ≠ 0) : addBlock h b
    = { ((h.setNextBlock h.blockListTail b).setPrevBlock b h.blockListTail).setNextBlock b 0 with
        blockListTail := b } := if_neg e

/-- `add_block` writes the links of `b` and the forward link of the old tail -/
theorem addBlock_fresh {h : Heap} {b : Nat} (hb : b < 2 ^ 64)
    (ht : h.blockListHead ≠ 0 → h.blockListTail + 24 ≤ b) :
    (∃ m, addBlock h b = { h with
      mem := m
      blockListHead := if h.blockListHead = 0 then b else h.blockListHead
      blockListTail := b }) ∧
    (addBlock h b).size b = h.size b ∧ (addBlock h b).nextBlock b = 0 ∧
    (addBlock h b).prevBlock b = (if h.blockListHead = 0 then 0 else h.blockListTail) ∧
    (h.blockListHead ≠ 0 → (addBlock h b).nextBlock h.blockListTail = b) ∧
    ∀ x < b, (h.blockListHead ≠ 0 → x < h.blockListTail + 16 ∨ h.blockListTail + 24 ≤ x) →
      (addBlock h b).mem x = h.mem x := by
  by_cases e : h.blockListHead = 0
  · rw [addBlock_of_nil b e, if_pos e, if_pos e]
    refine ⟨⟨_, rfl⟩, ?_, ?_, ?_, fun hne => absurd e hne, fun x hx _ => ?_⟩
    · exact size_of_frame (fun x h1 h2 =>
        (put_frame _ _ _ _ (by omega)).trans (put_frame _ _ _ _ (by omega)))
    · show load64 (store64 (store64 _ (b + 16) 0) (b + 24) 0) (b + 16) = 0
      rw [load64_store64_of_disjoint _ _ _ _ (by omega), load64_store64_of_lt _ _ _ (by norm_num)]
    · exact load64_store64_of_lt _ _ _ (by norm_num)
    · exact (put_frame _ _ _ _ (by omega)).trans (put_frame _ _ _ _ (by omega))
  · have ht' := ht e
    rw [addBlock_of_cons b e, if_neg e, if_neg e]
    refine ⟨⟨_, rfl⟩, ?_, ?_, ?_, fun _ => ?_, fun x hx h2 => ?_⟩
    · exact size_of_frame (fun x h1 h2 => (put_frame _ _ _ _ (by omega)).trans
        ((put_frame _ _ _ _ (by omega)).trans (put_frame _ _ _ _ (by omega))))
    · show load64 (store64 _ (b + 16) 0) (b + 16) = 0
      rw [load64_store64_of_lt _ _ _ (by norm_num)]
    · show load64 (store64 (store64 _ (b + 24) h.blockListTail) (b + 16) 0) (b + 24) = _
      rw [load64_store64_of_disjoint _ _ _ _ (by omega), load64_store64_of_lt _ _ _ (by omega)]
    · show load64 (store64 (store64 (store64 _ (h.blockListTail + 16) b) (b + 24) _) (b + 16) 0)
        (h.blockListTail + 16) = b
      rw [load64_store64_of_disjoint _ _ _ _ (by omega),
        load64_store64_of_disjoint _ _ _ _ (by omega), load64_store64_of_lt _ _ _ hb]
    · have h3 := h2 e
      exact (put_frame _ _ _ _ (by omega)).trans
        ((put_frame _ _ _ _ (by omega)).trans (put_frame _ _ _ _ (by omega)))

theorem newBlock_fresh {h : Heap} {b S : Nat} (hb : b < 2 ^ 64) (hS : S < 2 ^ 64)
    (ht : h.blockListHead ≠ 0 → h.blockListTail + 24 ≤ b) : Fresh h (newBlock h b S) b S := by
  have s1 : ((((h.setName b []).setSize b S).setNextBlock b 0).setPrevBlock b 0).size b = S := by
    show load64 (store64 (store64 (store64 _ (b + 8) S) (b + 16) 0) (b + 24) 0) (b + 8) = S
    rw [load64_store64_of_disjoint _ _ _ _ (by omega), load64_store64_of_disjoint _ _ _ _ (by omega),
      load64_store64_of_lt _ _ _ hS]
  have f1 : ∀ x < b, ((((h.setName b []).setSize b S).setNextBlock b 0).setPrevBlock b 0).mem x
      = h.mem x := fun x hx =>
    (put_frame _ _ _ _ (by omega)).trans ((put_frame _ _ _ _ (by omega)).trans
      ((put_frame _ _ _ _ (by omega)).trans (storeBytes_of_disjoint _ _ _ _ (by omega))))
  obtain ⟨⟨m, g⟩, s2, n2, p2, l2, f2⟩ := addBlock_fresh
    (h := { (((h.setName b []).setSize b S).setNextBlock b 0).setPrevBlock b 0 with
      created := h.created ++ [b] }) hb ht
  have e : newBlock h b S = addBlock { (((h.setName b []).setSize b S).setNextBlock b 0).setPrevBlock
      b 0 with created := h.created ++ [b] } b := rfl
  rw [e]
  exact ⟨⟨m, g⟩, s2.trans s1, n2, p2, l2, fun x hx h3 => (f2 x hx h3).trans (f1 x hx)⟩

section
variable {base : Nat} {h h' : Heap} {F : List Nat} {live : List (Nat × Nat)} {S : Nat}

/-- a block beyond all others, from memory that the kernel just added -/
theorem Fresh.inv {m : Mem} (hi : HeapInv base h F live) (hm : ∀ x < h.brk, m x = h.mem x)
    (f : Fresh { h with brk := h.brk + S, mem := m } h' h.brk S) (hS : 32 ≤ S) (hS' : S < 2 ^ 31)
    (he : S % 2 = 0) (hle : h.brk + S ≤ maxVa) :
    HeapInv base h' F live ∧ h.brk ∉ h.created ∧ h'.created = h.created ++ [h.brk] ∧
      ∀ d ∈ h.created, h'.size d = h.size d := by
  obtain ⟨m', g⟩ := f.globals
  have ec : h'.created = h.created ++ [h.brk] := by rw [g]
  have eb : h'.brk = h.brk + S := by rw [g]
  have hbelow : ∀ d ∈ h.created, d + h.real d ≤ h.brk := hi.hi
  have hroom : ∀ d ∈ h.created, 32 ≤ h.real d := hi.room
  have hnotin : h.brk ∉ h.created := fun hin => by
    have h1 := hbelow _ hin
    have h2 := hroom _ hin
    omega
  -- the only byte range below the old break that is written is the forward link of the old tail
  have hfr : ∀ x < h.brk, (∀ d ∈ h.created, x < d + 16 ∨ d + 24 ≤ x) → h'.mem x = h.mem x :=
    fun x hx hd => (f.frame x hx (fun e => hd _ (hi.tail e))).trans (hm x hx)
  have hsame : ∀ d ∈ h.created, h'.size d = h.size d := fun d hd =>
    size_of_frame (fun x h1 h2 => by
      have h3 := hbelow d hd
      have h4 := hroom d hd
      refine hfr x (by omega) (fun c hc => ?_)
      by_cases e : c = d
      · omega
      · have h5 := hi.far hc hd e
        omega)
  have hre : ∀ d ∈ h.created, h'.real d = h.real d := fun d hd => congrArg realSize (hsame d hd)
  have hren : h'.real h.brk = S := by
    unfold Heap.real
    rw [f.size, realSize_of_lt (by omega)]
    omega
  have hlay : Layout base h' := by
    refine ⟨hi.basePos, ?_, by rw [eb]; exact hle, ?_, ?_, ?_, ?_, ?_, ?_⟩
    · have := hi.baseLe
      omega
    · rw [ec]
      exact nodup_concat hi.nodup hnotin
    · rw [ec]
      exact forall_concat hi.lo hi.baseLe
    · rw [ec, eb]
      refine forall_concat (fun d hd => ?_) (by rw [hren])
      have h2 := hbelow d hd
      rw [hre d hd]
      omega
    · rw [ec]
      refine forall_concat (fun d hd => ?_) (by rw [f.size]; omega)
      rw [hsame d hd]
      exact hi.small d hd
    · rw [ec]
      refine forall_concat (fun d hd => ?_) (by rw [hren]; exact hS)
      rw [hre d hd]
      exact hi.room d hd
    · have hpair : ∀ d ∈ h.created, d + h'.real d ≤ h.brk := fun d hd => by
        rw [hre d hd]
        exact hbelow d hd
      rw [ec]
      refine apart_concat (fun d h1 c h2 hne => ?_) (fun d hd => Or.inl (hpair d hd))
        (fun d hd => Or.inr (hpair d hd))
      rw [hre d h1, hre c h2]
      exact hi.apart d h1 c h2 hne
  refine ⟨⟨hlay, ?_, ?_, ?_, hi.once, ?_⟩, hnotin, ec, hsame⟩
  · refine hi.freeList.congr (fun x hx => ?_) (by rw [g]) (by rw [g])
    obtain ⟨d, hd, h1, h2⟩ := hx
    obtain ⟨h3, h4⟩ := hi.free d hd
    have h5 := hbelow d h3
    refine hfr x (by omega) (fun c hc => ?_)
    by_cases e : c = d
    · omega
    · have h6 := hi.apart c hc d h3 e
      have h7 := hroom c hc
      omega
  · intro d hd
    obtain ⟨h1, h2⟩ := hi.free d hd
    rw [ec, hre d h1]
    exact ⟨List.mem_append_left _ h1, h2⟩
  · intro q hq
    obtain ⟨h1, h2, h3, h4⟩ := hi.used q hq
    rw [ec, hre _ h2]
    exact ⟨h1, List.mem_append_left _ h2, h3, h4⟩
  · rw [ec, g]
    exact fun _ => by simp

theorem HeapInv.withSafe (hi : HeapInv base h F live) (v : Bool) :
    HeapInv base { h with safe := v } F live :=
  hi.congr (fun _ _ => rfl) (fun _ _ => rfl) rfl rfl rfl rfl rfl rfl

/-- `growHeap` after the kernel gave the memory -/
theorem growHeap_eq {n : Nat} (hn : n < 2 ^ 32) (hS : totalSize n < 2 ^ 31)
    (hle : h.brk + totalSize n ≤ maxVa) : ∃ m : Mem, (∀ x < h.brk, m x = h.mem x) ∧
    growHeap h n = (match checkCanSplit
        (newBlock { h with brk := h.brk + totalSize n, mem := m } h.brk (totalSize n)) h.brk
        (totalSize n) n with
      | (h', splitBlock) =>
        if splitBlock ≠ 0 then some (addFree (setFree h' h.brk) h.brk, splitBlock + headerSz)
        else some (h', h.brk + headerSz)) := by
  have h1 := totalSizeNeeded_spec hn
  have h2 := totalSize_spec hn
  unfold headerSz at h1
  refine ⟨fun a => if h.brk ≤ a ∧ a < h.brk + totalSize n then 0 else h.mem a, fun x hx => ?_, ?_⟩
  · show (if h.brk ≤ x ∧ x < h.brk + totalSize n then 0 else h.mem x) = h.mem x
    rw [if_neg (by omega)]
  · unfold growHeap
    rw [sbrk_of_pos (by omega) hS, if_pos hle, Nat.mod_eq_of_lt (by omega : totalSize n < 2 ^ 32)]

/-- what `malloc` does with the memory that it gets for `n` bytes -/
inductive Grown (h : Heap) (n : Nat) : Heap → Nat → Prop
  /-- the whole block is returned -/
  | whole {m : Mem} {h1 : Heap} (hm : ∀ x < h.brk, m x = h.mem x)
      (hle : h.brk + totalSize n ≤ maxVa)
      (fresh : Fresh { h with brk := h.brk + totalSize n, mem := m } h1 h.brk (totalSize n))
      (small : totalSize n < totalSizeNeeded n + minBlockSz) :
      Grown h n { h1 with safe := false } (h.brk + headerSz)
  /-- the end of the block is returned, the rest goes to the free list -/
  | cut {m : Mem} {h1 : Heap} (hm : ∀ x < h.brk, m x = h.mem x)
      (hle : h.brk + totalSize n ≤ maxVa)
      (fresh : Fresh { h with brk := h.brk + totalSize n, mem := m } h1 h.brk (totalSize n))
      (large : totalSizeNeeded n + minBlockSz ≤ totalSize n) :
      Grown h n (addFree (setFree (split { h1 with safe := true } h.brk (totalSize n)
        (totalSizeNeeded n)).1 h.brk) h.brk) (h.brk + totalSize n - totalSizeNeeded n + headerSz)

theorem growHeap_cases {n p : Nat} (hn : n < 2 ^ 32) (hS : totalSize n < 2 ^ 31) (h0 : 0 < h.brk)
    (ht : h.blockListHead ≠ 0 → h.blockListTail + 24 ≤ h.brk)
    (hg : growHeap h n = some (h', p)) : Grown h n h' p := by
  have hT := totalSizeNeeded_spec hn
  have hTS := totalSize_spec hn
  unfold headerSz at hT
  by_cases hle : h.brk + totalSize n ≤ maxVa
  · obtain ⟨m, hm, e⟩ := growHeap_eq (h := h) hn hS hle
    rw [e] at hg
    unfold maxVa at hle
    have hfresh := newBlock_fresh (h := { h with brk := h.brk + totalSize n, mem := m })
      (b := h.brk) (S := totalSize n) (by omega) (by omega) ht
    generalize newBlock { h with brk := h.brk + totalSize n, mem := m } h.brk (totalSize n) = h1
      at hg hfresh
    have hmod : (totalSize n + 2 ^ 64 - totalSizeNeeded n) % 2 ^ 64
        = totalSize n - totalSizeNeeded n := by omega
    have hT32 : totalSizeNeeded n % 2 ^ 32 = totalSizeNeeded n := Nat.mod_eq_of_lt (by omega)
    unfold checkCanSplit at hg
    dsimp only at hg
    rw [if_neg (by omega : ¬ h.brk = 0), hmod, hT32] at hg
    by_cases hsmall : totalSize n - totalSizeNeeded n < minBlockSz
    · rw [if_pos hsmall] at hg
      have hp : ({ h1 with safe := false }, h.brk + headerSz) = (h', p) := Option.some.inj hg
      obtain ⟨rfl, rfl⟩ := Prod.mk.inj hp
      exact .whole hm hle hfresh (by omega)
    · have hnew : splitAt h.brk (totalSize n) (totalSizeNeeded n)
          = h.brk + totalSize n - totalSizeNeeded n := by
        unfold splitAt
        omega
      rw [if_neg hsmall] at hg
      unfold minBlockSz at hsmall
      rw [if_neg (by omega : ¬ totalSize n = totalSizeNeeded n), split_snd, hnew,
        if_pos (by omega)] at hg
      obtain ⟨rfl, rfl⟩ := Prod.mk.inj (Option.some.inj hg)
      exact .cut hm hle hfresh (by unfold minBlockSz; omega)
  · unfold growHeap at hg
    rw [sbrk_of_pos (by omega) hS, if_neg hle] at hg
    exact absurd hg nofun

/-- the blocks that `malloc` makes of the memory it gets for `n` bytes: one, or two that share it -/
structure Grew (h h' : Heap) (n : Nat) : Prop where
  brk : h'.brk = h.brk + totalSize n
  old : ∀ b ∈ h.created, h'.size b = h.size b
  new : ∀ b ∈ h'.created, b ∈ h.created ∨
    b = h.brk ∧ (h'.real b = totalSize n ∨ h'.real b = totalSize n - totalSizeNeeded n) ∨
    b = h.brk + totalSize n - totalSizeNeeded n ∧ h'.real b = totalSizeNeeded n

/-- a request below 2 GB that the kernel serves -/
theorem growHeap_inv {n p : Nat} (hi : HeapInv base h F live) (ht : Tagged h F live)
    (hn : n < 2 ^ 32) (hS : totalSize n < 2 ^ 31) (hg : growHeap h n = some (h', p)) :
    Grew h h' n ∧
    ∃ F', HeapInv base h' F' ((p, n) :: live) ∧ Tagged h' F' ((p, n) :: live) := by
  have hT := totalSizeNeeded_spec hn
  have hTS := totalSize_spec hn
  have hbrk := hi.basePos.trans_le hi.baseLe
  have htail : h.blockListHead ≠ 0 → h.blockListTail + 24 ≤ h.brk := fun e0 => by
    have h1 := hi.hi _ (hi.tail e0)
    have h2 := hi.room _ (hi.tail e0)
    unfold headerSz at h2
    omega
  unfold headerSz at hT
  cases growHeap_cases hn hS hbrk htail hg with
  | @whole m h1 hm hle fresh small =>
    obtain ⟨hi1, hnot, ec, hsz⟩ := fresh.inv hi hm (by omega) hS (by omega) hle
    have hB : h.brk ∈ h1.created := by rw [ec]; simp
    have hBF : h.brk ∉ F := fun hF => hnot (hi.free _ hF).1
    have hBl : ∀ q ∈ live, q.1 - headerSz ≠ h.brk := fun q hq e => hnot (e ▸ (hi.used q hq).2.1)
    have hS' : h1.size h.brk = totalSize n := fresh.size
    have hreal : headerSz + n ≤ ({ h1 with safe := false } : Heap).real h.brk := by
      show headerSz + n ≤ realSize (h1.size h.brk)
      rw [hS', realSize_of_lt (by omega)]
      unfold headerSz
      omega
    refine ⟨⟨?_, hsz, fun b hb => ?_⟩, F, (hi1.withSafe false).take hB hBF hBl hreal,
      fun b hb => ?_, fun q hq => ?_⟩
    · obtain ⟨m1, g1⟩ := fresh.globals
      show h1.brk = _
      rw [g1]
    · rcases List.mem_append.mp (ec ▸ hb) with h3 | h3
      · exact Or.inl h3
      · rw [List.mem_singleton.mp h3]
        refine Or.inr (Or.inl ⟨rfl, Or.inl ?_⟩)
        show realSize (h1.size h.brk) = _
        rw [hS', realSize_of_lt (by omega)]
        omega
    · exact (congrArg (· % 2) (hsz b (hi.free b hb).1)).trans (ht.free b hb)
    · rcases List.mem_cons.mp hq with rfl | h1
      · show h1.size (h.brk + headerSz - headerSz) % 2 = 0
        rw [Nat.add_sub_cancel, hS']
        omega
      · exact (congrArg (· % 2) (hsz _ (hi.used q h1).2.1)).trans (ht.used q h1)
  | @cut m h1 hm hle fresh large =>
    unfold minBlockSz at large
    obtain ⟨hi1, hnot, ec, hsz⟩ := fresh.inv hi hm (by omega) hS (by omega) hle
    have hB : h.brk ∈ h1.created := by rw [ec]; simp
    have hBF : h.brk ∉ F := fun hF => hnot (hi.free _ hF).1
    have hBl : ∀ q ∈ live, q.1 - headerSz ≠ h.brk := fun q hq e => hnot (e ▸ (hi.used q hq).2.1)
    have hnext : ({ h1 with safe := true } : Heap).nextBlock h.brk = 0 := fresh.next
    have hS' : h1.size h.brk = totalSize n := fresh.size
    have hcut := split_cut (h := { h1 with safe := true }) (B := h.brk) (S := totalSize n)
      (T := totalSizeNeeded n) (by omega) (by omega) hle hnext
    have hnew := hcut.new_eq
    generalize split { h1 with safe := true } h.brk (totalSize n) (totalSizeNeeded n) = r
      at hcut hnew
    obtain ⟨h2, new⟩ := r
    dsimp only at hcut hnew
    rw [← hnew]
    obtain ⟨hi2, hnnot, hsz2⟩ := hcut.inv (hi1.withSafe true) hB hBF hBl hS' (by omega) (by omega)
      (by omega) (by omega)
    have ec2 : h2.created = h1.created ++ [new] := by
      obtain ⟨m2, g2⟩ := hcut.globals
      rw [g2]
    have hB2 : h.brk ∈ h2.created := by rw [ec2]; exact List.mem_append_left _ hB
    have hn2 : new ∈ h2.created := by rw [ec2]; simp
    have hneB : new ≠ h.brk := by omega
    have hi3 := setFree_inv hi2 hB2
    have hszB : (setFree h2 h.brk).size h.brk = (totalSize n - totalSizeNeeded n) / 2 * 2 + 1 := by
      rw [setFree_size hi2 hB2 hB2, if_pos rfl, hcut.size_old]
      omega
    have hrB : 48 ≤ (setFree h2 h.brk).real h.brk := by
      show 48 ≤ realSize ((setFree h2 h.brk).size h.brk)
      rw [hszB, realSize_of_lt (by omega)]
      omega
    have hi4 := addFree_inv hi3 hB2 hBF hBl hrB
    have hsize : ∀ d ∈ h2.created, (addFree (setFree h2 h.brk) h.brk).size d
        = if d = h.brk then (totalSize n - totalSizeNeeded n) / 2 * 2 + 1 else h2.size d := by
      intro d hd
      rw [addFree_size hi3 hB2 hrB hd, setFree_size hi2 hB2 hd, hcut.size_old]
      split
      · omega
      · rfl
    have hsizeNew : (addFree (setFree h2 h.brk) h.brk).size new = totalSizeNeeded n := by
      rw [hsize new hn2, if_neg hneB, hcut.size_new]
    have hsizeOld : ∀ d ∈ h.created, (addFree (setFree h2 h.brk) h.brk).size d = h.size d := by
      intro d hd
      have hd1 : d ∈ h1.created := by rw [ec]; exact List.mem_append_left _ hd
      have hdB : d ≠ h.brk := fun e => hnot (e ▸ hd)
      rw [hsize d (by rw [ec2]; exact List.mem_append_left _ hd1), if_neg hdB]
      exact (hsz2 d hd1 hdB).trans (hsz d hd)
    have hnewF : new ∉ F ++ [h.brk] := by
      intro hmem
      rcases List.mem_append.mp hmem with h3 | h3
      · exact hnnot (hi1.free _ h3).1
      · exact hneB (List.mem_singleton.mp h3)
    have hnewl : ∀ q ∈ live, q.1 - headerSz ≠ new := fun q hq e =>
      hnnot (e ▸ (hi1.used q hq).2.1)
    have hreal : headerSz + n ≤ (addFree (setFree h2 h.brk) h.brk).real new := by
      show headerSz + n ≤ realSize ((addFree (setFree h2 h.brk) h.brk).size new)
      rw [hsizeNew, realSize_of_lt (by omega)]
      unfold headerSz
      omega
    refine ⟨⟨?_, hsizeOld, fun b hb => ?_⟩, F ++ [h.brk],
      hi4.take (by rw [addFree_created]; exact hn2) hnewF hnewl hreal,
      fun b hb => ?_, fun q hq => ?_⟩
    · obtain ⟨m1, g1⟩ := fresh.globals
      obtain ⟨m2, g2⟩ := hcut.globals
      rw [addFree_brk]
      show h2.brk = _
      rw [g2, g1]
    · rw [addFree_created] at hb
      rcases List.mem_append.mp (ec2 ▸ hb : b ∈ h1.created ++ [new]) with h3 | h3
      · rcases List.mem_append.mp (ec ▸ h3) with h4 | h4
        · exact Or.inl h4
        · rw [List.mem_singleton.mp h4]
          refine Or.inr (Or.inl ⟨rfl, Or.inr ?_⟩)
          show realSize ((addFree (setFree h2 h.brk) h.brk).size h.brk) = _
          rw [hsize _ hB2, if_pos rfl, realSize_of_lt (by omega)]
          omega
      · rw [List.mem_singleton.mp h3]
        refine Or.inr (Or.inr ⟨hnew, ?_⟩)
        show realSize ((addFree (setFree h2 h.brk) h.brk).size new) = _
        rw [hsizeNew, realSize_of_lt (by omega)]
        omega
    · rcases List.mem_append.mp hb with h3 | h3
      · rw [hsizeOld b (hi.free b h3).1]
        exact ht.free b h3
      · rw [List.mem_singleton.mp h3, hsize _ hB2, if_pos rfl]
        omega
    · rcases List.mem_cons.mp hq with rfl | h3
      · show (addFree (setFree h2 h.brk) h.brk).size (new + headerSz - headerSz) % 2 = 0
        rw [Nat.add_sub_cancel, hsizeNew]
        omega
      · rw [hsizeOld _ (hi.used q h3).2.1]
        exact ht.used q h3

end

end Umalloc
