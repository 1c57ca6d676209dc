import Xv6.Blocks.Owned

/-!
# `bmap`

What a new block at one place of an inode leaves as it was: all other addresses, the contents of all
other blocks, and the marks of the bitmap.
-/

namespace Blocks
open Lib Fs

def slotOf (bn : Nat) : Slot := if bn < ndirect then .addr bn else .entry (bn - ndirect)

/-- the block `b`, which was free, is at place `l` of inode `i`, and holds zeros -/
structure Gets (sb : Superblock) (s t : State) (i : Nat) (l : Slot) (b : Nat) : Prop where
  lt : b < sb.size
  free : ¬ sb.Used s b
  ref : t.ref = putRef s.ref i l b
  used : ∀ c < sb.size, sb.Used t c ↔ sb.Used (s.taken sb b) c
  zero : t.cache b = fun _ => 0
  cache : ∀ c, sb.data ≤ c → c ≠ b → (∀ j, l = .entry j → c ≠ s.ref i (.addr ndirect)) →
    t.cache c = s.cache c
  inode : ∀ j, (t.inode j).type = (s.inode j).type ∧ (t.inode j).size = (s.inode j).size
  disk : t.disk = s.disk
  outstanding : t.outstanding = s.outstanding
  log : ∃ k, t.log = k ++ b :: sb.bblock b :: s.log ∧ ∀ c ∈ k, c = s.ref i (.addr ndirect)
  written : ∀ c, t.cache c = s.cache c ∨ c ∈ t.log

/-- what a call may do to place `l` of inode `i`, with its result -/
inductive Filled (sb : Superblock) (s : State) (i : Nat) (l : Slot) : State → Nat → Prop
  | kept (h : s.ref i l ≠ 0) : Filled sb s i l s (s.ref i l)
  | full (h : s.ref i l = 0) (hall : ∀ b < sb.size, sb.Used s b) : Filled sb s i l s 0
  | gets {t : State} {b : Nat} (h : s.ref i l = 0) (ht : Gets sb s t i l b) : Filled sb s i l t b

section
variable {sb : Superblock} {s t : State} {a b i j k v : Nat} {l : Slot}

/-! ## indirect blocks -/

theorem entry_setEntry (hv : v < 2 ^ 32) (blk : Block) (j k : Nat) :
    entry (setEntry blk j v) k = if k = j then v else entry blk k := by
  unfold entry setEntry
  by_cases e : k = j
  · rw [if_pos e, e, load_store, Nat.mod_eq_of_lt (by omega)]
  · rw [if_neg e, load_store_of_disjoint]
    omega

theorem entry_zero (j : Nat) : entry (fun _ => 0) j = 0 := rfl

/-! ## addresses -/

theorem ref_addr (h : k ≤ ndirect) : s.ref i (.addr k) = (s.inode i).addrs k := if_pos h

theorem ref_entry (hj : j < nindirect) (h : s.ref i (.addr ndirect) ≠ 0) :
    s.ref i (.entry j) = entry (s.cache (s.ref i (.addr ndirect))) j := by
  rw [ref_addr le_rfl] at h ⊢
  exact if_pos ⟨hj, h⟩

theorem ref_entry_none (h : s.ref i (.addr ndirect) = 0) : s.ref i (.entry j) = 0 := by
  rw [ref_addr le_rfl] at h
  exact if_neg (fun hc => hc.2 h)

theorem ref_congr (hi : ∀ i, ∀ k ≤ ndirect, (t.inode i).addrs k = (s.inode i).addrs k)
    (hc : ∀ i, s.ref i (.addr ndirect) ≠ 0 →
      t.cache (s.ref i (.addr ndirect)) = s.cache (s.ref i (.addr ndirect))) : t.ref = s.ref := by
  funext i l
  cases l with
  | addr k =>
    by_cases hk : k ≤ ndirect
    · rw [ref_addr hk, ref_addr hk, hi i k hk]
    · exact (if_neg hk).trans (if_neg hk).symm
  | entry j =>
    have hp : t.ref i (.addr ndirect) = s.ref i (.addr ndirect) := by
      rw [ref_addr le_rfl, ref_addr le_rfl, hi i ndirect le_rfl]
    by_cases h : s.ref i (.addr ndirect) = 0
    · rw [ref_entry_none h, ref_entry_none (hp.trans h)]
    · by_cases hj : j < nindirect
      · rw [ref_entry hj h, ref_entry hj (by rwa [hp]), hp, hc i h]
      · exact (if_neg (fun hc => hj hc.1)).trans (if_neg (fun hc => hj hc.1)).symm

theorem ref_taken (h : Owns sb s s.ref 0) (hb : b < sb.size) (hfree : ¬ sb.Used s b) :
    (s.taken sb b).ref = s.ref := by
  refine ref_congr (fun _ _ _ => rfl) (fun i hi => ?_)
  obtain ⟨hlow, hlt⟩ := h.region i _ hi
  have hne : s.ref i (.addr ndirect) ≠ b := by
    rintro e
    exact hfree ((h.used b (by omega) hb).mpr (Or.inr ⟨i, _, e⟩))
  have hmap : s.ref i (.addr ndirect) ≠ sb.bblock b := fun e => by
    have := bblock_lt hb.le
    omega
  show Function.update (Function.update _ _ _) _ _ _ = _
  rw [Function.update_of_ne hne, Function.update_of_ne hmap]

theorem setAddr_addrs (j : Nat) : ((s.setAddr i k v).inode j).addrs =
    if j = i then Function.update (s.inode i).addrs k v else (s.inode j).addrs := by
  show (Function.update s.inode i _ j).addrs = _
  by_cases e : j = i
  · rw [if_pos e, e, Function.update_self]
  · rw [if_neg e, Function.update_of_ne e]

theorem ref_setAddr_addr {n : Nat} (hn : n ≤ ndirect) : (s.setAddr i k v).ref j (.addr n) =
    if j = i ∧ n = k then v else s.ref j (.addr n) := by
  rw [ref_addr hn, ref_addr hn, setAddr_addrs]
  by_cases e : j = i
  · rw [if_pos e, e]
    by_cases en : n = k
    · rw [if_pos ⟨rfl, en⟩, en, Function.update_self]
    · rw [if_neg (fun h => en h.2), Function.update_of_ne en]
  · rw [if_neg e, if_neg (fun h => e h.1)]

/-- the entries of an indirect block that is still the one of its inode -/
theorem ref_setAddr_entry {m : Nat} (hne : ¬ (j = i ∧ ndirect = k)) :
    (s.setAddr i k v).ref j (.entry m) = s.ref j (.entry m) := by
  have hp : (s.setAddr i k v).ref j (.addr ndirect) = s.ref j (.addr ndirect) := by
    rw [ref_setAddr_addr le_rfl, if_neg hne]
  by_cases h : s.ref j (.addr ndirect) = 0
  · rw [ref_entry_none h, ref_entry_none (hp.trans h)]
  · by_cases hm : m < nindirect
    · rw [ref_entry hm h, ref_entry hm (by rwa [hp]), hp]
      rfl
    · exact (if_neg (fun h => hm h.1)).trans (if_neg (fun h => hm h.1)).symm

theorem ref_setAddr (hk : k ≤ ndirect)
    (hzero : k = ndirect → s.ref i (.addr ndirect) = 0 ∧ s.cache v = fun _ => 0) :
    (s.setAddr i k v).ref = putRef s.ref i (.addr k) v := by
  funext j l
  unfold putRef
  cases l with
  | addr n =>
    by_cases hn : n ≤ ndirect
    · rw [ref_setAddr_addr hn]
      refine if_congr ?_ rfl rfl
      rw [Slot.addr.injEq]
    · rw [if_neg (fun h => hn ((Slot.addr.inj h.2).trans_le hk))]
      exact (if_neg hn).trans (if_neg hn).symm
  | entry m =>
    rw [if_neg (fun h => Slot.noConfusion h.2)]
    by_cases e : j = i ∧ ndirect = k
    · -- the entries of the new indirect block
      obtain ⟨h0, hz⟩ := hzero e.2.symm
      have hp : (s.setAddr i k v).ref i (.addr ndirect) = v := by
        rw [ref_setAddr_addr le_rfl, if_pos ⟨rfl, e.2⟩]
      rw [e.1, ref_entry_none h0]
      by_cases hv : v = 0
      · exact ref_entry_none (hp.trans hv)
      · by_cases hm : m < nindirect
        · rw [ref_entry hm (by rwa [hp]), hp]
          show entry (s.cache v) m = 0
          rw [hz, entry_zero]
        · exact if_neg (fun h => hm h.1)
    · exact ref_setAddr_entry e

theorem ref_setEntry (hinj : ∀ j, s.ref j (.addr ndirect) = s.ref i (.addr ndirect) → j = i)
    (hp : s.ref i (.addr ndirect) ≠ 0) (hj : j < nindirect) (hv : v < 2 ^ 32)
    (hi : t.inode = s.inode) (hblk : t.cache (s.ref i (.addr ndirect)) =
      setEntry (s.cache (s.ref i (.addr ndirect))) j v)
    (hrest : ∀ c, c ≠ s.ref i (.addr ndirect) → (∃ i, c = s.ref i (.addr ndirect) ∧ c ≠ 0) →
      t.cache c = s.cache c) :
    t.ref = putRef s.ref i (.entry j) v := by
  funext n l
  unfold putRef
  have haddr : ∀ n m, t.ref n (.addr m) = s.ref n (.addr m) := fun n m => by
    show (if m ≤ ndirect then (t.inode n).addrs m else 0) = _
    rw [hi]
    rfl
  cases l with
  | addr m =>
    rw [if_neg (fun h => Slot.noConfusion h.2)]
    exact haddr n m
  | entry m =>
    by_cases hm : m < nindirect
    · by_cases h : s.ref n (.addr ndirect) = 0
      · have hne : ¬ (n = i ∧ Slot.entry m = .entry j) := by
          rintro ⟨rfl, -⟩
          exact hp h
        rw [if_neg hne, ref_entry_none h, ref_entry_none ((haddr _ _).trans h)]
      · rw [ref_entry hm (by rwa [haddr]), haddr]
        by_cases e : s.ref n (.addr ndirect) = s.ref i (.addr ndirect)
        · obtain rfl := hinj n e
          rw [hblk, entry_setEntry hv]
          by_cases em : m = j
          · rw [if_pos em, if_pos ⟨rfl, by rw [em]⟩]
          · rw [if_neg em, if_neg (fun h => em (Slot.entry.inj h.2)), ref_entry hm h]
        · have hne : ¬ (n = i ∧ Slot.entry m = .entry j) := by
            rintro ⟨rfl, -⟩
            exact e rfl
          rw [hrest _ e ⟨n, rfl, h⟩, if_neg hne, ref_entry hm h]
    · have hne : ¬ (n = i ∧ Slot.entry m = .entry j) := by
        rintro ⟨-, e⟩
        exact hm ((Slot.entry.inj e).trans_lt hj)
      rw [if_neg hne]
      exact (if_neg (fun h => hm h.1)).trans (if_neg (fun h => hm h.1)).symm

/-! ## one place -/

theorem taken_cache (hb : b < sb.size) (hc : sb.data ≤ c) (hne : c ≠ b) :
    (s.taken sb b).cache c = s.cache c := by
  have hmap : c ≠ sb.bblock b := fun e => by
    have := bblock_lt hb.le
    omega
  show Function.update (Function.update _ _ _) _ _ _ = _
  rw [Function.update_of_ne hne, Function.update_of_ne hmap]

theorem taken_written (c : Nat) : (s.taken sb b).cache c = s.cache c ∨ c ∈ (s.taken sb b).log := by
  by_cases h1 : c = b
  · exact Or.inr (h1 ▸ List.mem_cons_self)
  · by_cases h2 : c = sb.bblock b
    · exact Or.inr (List.mem_cons_of_mem _ (h2 ▸ List.mem_cons_self))
    · refine Or.inl ?_
      show Function.update (Function.update _ _ _) _ _ _ = _
      rw [Function.update_of_ne h1, Function.update_of_ne h2]

theorem mapSlot_spec (h : Owned sb s 0) (hout : s.outstanding ≠ 0) (i : Nat) (hk : k ≤ ndirect) :
    ∃ t a, mapSlot sb s i k = some (t, a) ∧ Filled sb s i (.addr k) t a := by
  unfold mapSlot
  dsimp only
  have hr : s.ref i (.addr k) = (s.inode i).addrs k := ref_addr hk
  by_cases h0 : (s.inode i).addrs k = 0
  · rw [if_pos h0]
    rcases balloc_spec sb hout with ⟨e, hall⟩ | ⟨b, e, hb, hfree⟩
    · rw [e]
      exact ⟨s, 0, rfl, .full (hr.trans h0) hall⟩
    · have hlow := h.le_of_not_used hfree
      have hpos := sb.data_pos
      rw [e]
      dsimp only
      rw [if_neg (by omega)]
      refine ⟨_, b, rfl, .gets (hr.trans h0) ?_⟩
      have hzero : (s.taken sb b).cache b = fun _ => 0 := Function.update_self ..
      have htaken := ref_taken h hb hfree
      refine ⟨hb, hfree, ?_, fun c _ => Iff.rfl, hzero, fun c hc hne _ => taken_cache hb hc hne,
        fun j => ?_, rfl, rfl, ⟨[], rfl, nofun⟩, taken_written⟩
      · rw [ref_setAddr hk (fun e => ⟨?_, hzero⟩), htaken]
        rw [htaken, ← e]
        exact hr.trans h0
      · show (Function.update s.inode i _ j).type = _ ∧ (Function.update s.inode i _ j).size = _
        by_cases e : j = i
        · rw [e, Function.update_self]
          exact ⟨rfl, rfl⟩
        · rw [Function.update_of_ne e]
          exact ⟨rfl, rfl⟩
  · rw [if_neg h0]
    refine ⟨s, _, rfl, ?_⟩
    rw [← hr]
    exact .kept (by rwa [hr])

theorem mapEntry_spec (h : Owned sb s 0) (hout : s.outstanding ≠ 0)
    (hp : s.ref i (.addr ndirect) ≠ 0) (hj : j < nindirect) :
    ∃ t a, mapEntry sb s (s.ref i (.addr ndirect)) j = some (t, a) ∧
      Filled sb s i (.entry j) t a := by
  have hr := ref_entry hj hp
  obtain ⟨hplow, hplt⟩ := h.region i _ hp
  unfold mapEntry
  dsimp only
  rw [← hr]
  by_cases h0 : s.ref i (.entry j) = 0
  · rw [if_pos h0]
    rcases balloc_spec sb hout with ⟨e, hall⟩ | ⟨b, e, hb, hfree⟩
    · rw [e]
      exact ⟨s, 0, rfl, .full h0 hall⟩
    · have hlow := h.le_of_not_used hfree
      have hpos := sb.data_pos
      have hpb : s.ref i (.addr ndirect) ≠ b := fun e =>
        hfree ((h.used b hlow hb).mpr (Or.inr ⟨i, _, e⟩))
      rw [e]
      dsimp only
      rw [if_neg (by omega), write_eq (show (s.taken sb b).outstanding ≠ 0 from hout)]
      refine ⟨_, b, rfl, .gets h0 ?_⟩
      have htaken := ref_taken h hb hfree
      have hother : ∀ c, c ≠ s.ref i (.addr ndirect) → ∀ x,
          ((s.taken sb b).write (s.ref i (.addr ndirect)) x).cache c = (s.taken sb b).cache c :=
        fun c hc x => Function.update_of_ne hc _ _
      refine ⟨hb, hfree, ?_, fun c hc => ?_, ?_, fun c hc hne hnp => ?_, fun j => ⟨rfl, rfl⟩, rfl,
        rfl, ⟨[s.ref i (.addr ndirect)], rfl, fun c hc => List.mem_singleton.mp hc⟩, fun c => ?_⟩
      · rw [← htaken]
        rw [← htaken] at hp
        refine ref_setEntry (fun n hn => ?_) hp hj (hb.trans sb.size_lt) rfl ?_ (fun c hc _ => ?_)
        · rw [htaken] at hn hp
          exact (h.inj n _ i _ (by rwa [hn]) hn).1
        · rw [htaken]
          exact Function.update_self ..
        · rw [htaken] at hc ⊢
          exact hother c hc _
      · refine used_congr (fun c hc => hother c ?_ _) hc
        omega
      · rw [hother b hpb.symm]
        exact Function.update_self ..
      · rw [hother c (hnp j rfl), taken_cache hb hc hne]
      · by_cases e : c = s.ref i (.addr ndirect)
        · exact Or.inr (e ▸ List.mem_cons_self)
        · rw [hother c e]
          rcases taken_written c with h1 | h1
          · exact Or.inl h1
          · exact Or.inr (List.mem_cons_of_mem _ h1)
  · rw [if_neg h0]
    exact ⟨s, _, rfl, .kept h0⟩

/-! ## what stays -/

theorem Gets.ne_zero (h : Owned sb s 0) (hg : Gets sb s t i l b) : b ≠ 0 := by
  have hlow := h.le_of_not_used hg.free
  have hpos := sb.data_pos
  omega

theorem Gets.ne_ref (h : Owned sb s 0) (hg : Gets sb s t i l b) (j : Nat) (k : Slot) :
    s.ref j k ≠ b := fun e =>
  hg.free ((h.used b (h.le_of_not_used hg.free) hg.lt).mpr (Or.inr ⟨j, k, e⟩))

theorem Gets.owned (h : Owned sb s 0) (h0 : s.ref i l = 0) (hg : Gets sb s t i l b) :
    Owned sb t 0 := by
  have htake := (h.take hg.lt hg.free).place (hg.ne_zero h) h0 hg.used
  rwa [← hg.ref] at htake

theorem Filled.owned (h : Owned sb s 0) (hf : Filled sb s i l t a) : Owned sb t 0 := by
  cases hf with
  | kept h0 => exact h
  | full h0 hall => exact h
  | gets h0 hg => exact hg.owned h h0

theorem Filled.self (hf : Filled sb s i l t a) : t.ref i l = a := by
  cases hf with
  | kept h0 => rfl
  | full h0 hall => exact h0
  | gets h0 hg =>
    rw [hg.ref]
    exact if_pos ⟨rfl, rfl⟩

theorem Filled.other (hf : Filled sb s i l t a) {k : Slot} (hne : ¬ (j = i ∧ k = l)) :
    t.ref j k = s.ref j k := by
  cases hf with
  | kept h0 => rfl
  | full h0 hall => rfl
  | gets h0 hg =>
    rw [hg.ref]
    exact if_neg hne

theorem Filled.keep (hf : Filled sb s i l t a) {k : Slot} (hk : s.ref j k ≠ 0) :
    t.ref j k = s.ref j k := by
  by_cases e : j = i ∧ k = l
  · obtain ⟨rfl, rfl⟩ := e
    rw [hf.self]
    cases hf with
    | kept h0 => rfl
    | full h0 hall => exact absurd h0 hk
    | gets h0 hg => exact absurd h0 hk
  · exact hf.other e

/-- the contents of the blocks that are there, indirect blocks apart -/
theorem Filled.data (h : Owned sb s 0) (hf : Filled sb s i l t a) {k : Slot} (hk : s.ref j k ≠ 0)
    (hne : k ≠ .addr ndirect) : t.cache (s.ref j k) = s.cache (s.ref j k) := by
  cases hf with
  | kept h0 => rfl
  | full h0 hall => rfl
  | gets h0 hg =>
    refine hg.cache _ (h.region j k hk).1 (hg.ne_ref h j k) (fun m _ e => ?_)
    exact hne (h.inj j k i _ hk e).2

theorem Filled.zero (hf : Filled sb s i l t a) (h0 : s.ref i l = 0) (ha : a ≠ 0) :
    t.cache a = fun _ => 0 := by
  cases hf with
  | kept h => exact absurd h0 h
  | full h hall => exact absurd rfl ha
  | gets h hg => exact hg.zero

end

end Blocks
