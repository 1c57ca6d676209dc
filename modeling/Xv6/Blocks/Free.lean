import Xv6.Blocks.Content

/-!
# Freeing blocks and inodes

`itrunc` frees each block of one inode, and `ialloc` and `iput` give an inode away and take it back.
Nothing of this changes what another inode has, and what it changes of the bitmap is in the log.
-/

namespace Blocks
open Lib Fs

/-- the addresses `ref`, but with 0 at the places `l` of inode `i` -/
def dropRefs (ref : Nat → Slot → Nat) (i : Nat) (l : List Slot) : Nat → Slot → Nat :=
  fun j k => if j = i ∧ k ∈ l then 0 else ref j k

/-- only blocks of the bitmap change, and the log has them -/
structure Frees (sb : Superblock) (s t : State) : Prop where
  cache : ∀ c, sb.data ≤ c → t.cache c = s.cache c
  written : ∀ c, t.cache c = s.cache c ∨ c ∈ t.log
  inode : ∀ j, (t.inode j).type = (s.inode j).type ∧ (t.inode j).size = (s.inode j).size
  disk : t.disk = s.disk
  outstanding : t.outstanding = s.outstanding
  log : ∃ k, t.log = k ++ s.log

/-- what says which blocks are free and where blocks are is in the log, or on the disk as in the
cache -/
def Coherent (sb : Superblock) (s : State) : Prop :=
  ∀ c, sb.Meta s c → c ∈ s.log ∨ s.cache c = s.disk c

/-- from `s` to `t` by a call for inode `i` -/
structure Changes (sb : Superblock) (i : Nat) (s t : State) : Prop where
  owned : Owned sb t 0
  other : ∀ j, j ≠ i → t.ref j = s.ref j
  byte : ∀ j, j ≠ i → t.byte j = s.byte j
  inode : ∀ j, j ≠ i → (t.inode j).type = (s.inode j).type ∧ (t.inode j).size = (s.inode j).size
  coherent : Coherent sb s → Coherent sb t
  disk : t.disk = s.disk
  outstanding : t.outstanding = s.outstanding
  log : ∃ k, t.log = k ++ s.log

section
variable {sb : Superblock} {s t u : State} {b c i j k addr : Nat} {ref : Nat → Slot → Nat}
  {l : List Nat}

theorem dropRefs_nil (ref : Nat → Slot → Nat) (i : Nat) : dropRefs ref i [] = ref := by
  funext j k
  exact if_neg (fun h => List.not_mem_nil h.2)

theorem dropRefs_cons (ref : Nat → Slot → Nat) (i : Nat) (k : Slot) (l : List Slot) :
    dropRefs (putRef ref i k 0) i l = dropRefs ref i (k :: l) := by
  funext j m
  unfold dropRefs putRef
  by_cases hl : j = i ∧ m ∈ l
  · rw [if_pos hl, if_pos ⟨hl.1, List.mem_cons_of_mem _ hl.2⟩]
  · rw [if_neg hl]
    refine if_congr ?_ rfl rfl
    rw [List.mem_cons, and_or_left]
    exact (or_iff_left hl).symm

/-! ## a block that is freed -/

theorem Frees.refl (sb : Superblock) (s : State) : Frees sb s s :=
  ⟨fun _ _ => rfl, fun _ => Or.inl rfl, fun _ => ⟨rfl, rfl⟩, rfl, rfl, ⟨[], rfl⟩⟩

theorem Frees.trans (h : Frees sb s u) (h' : Frees sb u t) : Frees sb s t := by
  obtain ⟨k, hk⟩ := h.log
  obtain ⟨k', hk'⟩ := h'.log
  refine ⟨fun c hc => (h'.cache c hc).trans (h.cache c hc), fun c => ?_, fun j => ?_,
    h'.disk.trans h.disk, h'.outstanding.trans h.outstanding, ⟨k' ++ k, ?_⟩⟩
  · rcases h'.written c with e | hin
    · rcases h.written c with e' | hin
      · exact Or.inl (e.trans e')
      · rw [hk']
        exact Or.inr (List.mem_append_right k' hin)
    · exact Or.inr hin
  · exact ⟨(h'.inode j).1.trans (h.inode j).1, (h'.inode j).2.trans (h.inode j).2⟩
  · rw [hk', hk, List.append_assoc]

theorem bfree_frees {l : Slot} (h : Owns sb s ref 0) (hout : s.outstanding ≠ 0)
    (hne : ref i l ≠ 0) :
    bfree sb s (ref i l) = some (s.freed sb (ref i l)) ∧
      Owns sb (s.freed sb (ref i l)) (putRef ref i l 0) 0 ∧ Frees sb s (s.freed sb (ref i l)) := by
  obtain ⟨hlow, hlt⟩ := h.region i l hne
  have hbit := bblock_lt hlt.le
  refine ⟨bfree_eq hout ((h.used _ hlow hlt).mpr (Or.inr ⟨i, l, rfl⟩)), h.erase hne, fun c hc => ?_,
    fun c => ?_, fun _ => ⟨rfl, rfl⟩, rfl, rfl, ⟨[_], rfl⟩⟩
  · exact Function.update_of_ne (by omega) _ _
  · by_cases e : c = sb.bblock (ref i l)
    · exact Or.inr (e ▸ List.mem_cons_self)
    · exact Or.inl (Function.update_of_ne e _ _)

theorem Frees.ref_eq (h : Owned sb s 0) (hf : Frees sb s t) (hi : t.inode = s.inode) :
    t.ref = s.ref :=
  ref_congr (fun j _ _ => by rw [hi]) (fun j hj => hf.cache _ (h.region j _ hj).1)

theorem setAddr_inode (k v j : Nat) : ((s.setAddr i k v).inode j).type = (s.inode j).type ∧
    ((s.setAddr i k v).inode j).size = (s.inode j).size := by
  show (Function.update s.inode i _ j).type = _ ∧ (Function.update s.inode i _ j).size = _
  by_cases e : j = i
  · rw [e, Function.update_self]
    exact ⟨rfl, rfl⟩
  · rw [Function.update_of_ne e]
    exact ⟨rfl, rfl⟩

theorem frees_setAddr (hf : Frees sb s t) (i k v : Nat) : Frees sb s (t.setAddr i k v) := by
  refine ⟨hf.cache, hf.written, fun j => ?_, hf.disk, hf.outstanding, hf.log⟩
  obtain ⟨h1, h2⟩ := setAddr_inode (s := t) (i := i) k v j
  exact ⟨h1.trans (hf.inode j).1, h2.trans (hf.inode j).2⟩

/-! ## `itrunc` -/

theorem freeSlot_spec (h : Owned sb s 0) (hout : s.outstanding ≠ 0) (hk : k < ndirect) :
    ∃ t, freeSlot sb i s k = some t ∧ Owned sb t 0 ∧ t.ref = putRef s.ref i (.addr k) 0 ∧
      Frees sb s t := by
  unfold freeSlot
  dsimp only
  rw [← ref_addr (s := s) (i := i) hk.le]
  by_cases h0 : s.ref i (.addr k) = 0
  · rw [if_pos h0]
    refine ⟨s, rfl, h, ?_, Frees.refl sb s⟩
    funext j m
    unfold putRef
    split
    · next e => rw [e.1, e.2, h0]
    · rfl
  · obtain ⟨e, ho, hf⟩ := bfree_frees h hout h0
    rw [if_neg h0, e]
    have href : ((s.freed sb (s.ref i (.addr k))).setAddr i k 0).ref =
        putRef s.ref i (.addr k) 0 := by
      rw [ref_setAddr hk.le (fun e => absurd e hk.ne), hf.ref_eq h rfl]
    refine ⟨_, rfl, ?_, href, frees_setAddr hf i k 0⟩
    show Owns sb _ ((s.freed sb (s.ref i (.addr k))).setAddr i k 0).ref 0
    rw [href]
    exact ⟨ho.low, ho.region, ho.inj, ho.used, ho.flight⟩

theorem freeSlots_spec (h : Owned sb s 0) (hout : s.outstanding ≠ 0) (hl : ∀ k ∈ l, k < ndirect) :
    ∃ t, l.foldlM (freeSlot sb i) s = some t ∧ Owned sb t 0 ∧
      t.ref = dropRefs s.ref i (l.map .addr) ∧ Frees sb s t := by
  induction l generalizing s with
  | nil => exact ⟨s, rfl, h, (dropRefs_nil s.ref i).symm, Frees.refl sb s⟩
  | cons k l ih =>
    obtain ⟨u, e, hu, href, hf⟩ := freeSlot_spec (i := i) h hout (hl k List.mem_cons_self)
    have houtu : u.outstanding ≠ 0 := by
      rw [hf.outstanding]
      exact hout
    obtain ⟨t, e', ht, href', hf'⟩ := ih hu houtu (fun m hm => hl m (List.mem_cons_of_mem _ hm))
    rw [href, dropRefs_cons] at href'
    refine ⟨t, ?_, ht, href', hf.trans hf'⟩
    rw [List.foldlM_cons, e]
    exact e'

/-- the second loop; the entries stay in the indirect block -/
theorem freeEntries_spec (h : Owns sb s ref 0) (hout : s.outstanding ≠ 0) (haddr : sb.data ≤ addr)
    (hl : l.Nodup) (hr : ∀ j ∈ l, ref i (.entry j) = entry (s.cache addr) j) :
    ∃ t, l.foldlM (freeEntry sb addr) s = some t ∧ Owns sb t (dropRefs ref i (l.map .entry)) 0 ∧
      Frees sb s t ∧ t.inode = s.inode := by
  induction l generalizing s ref with
  | nil =>
    refine ⟨s, rfl, ?_, Frees.refl sb s, rfl⟩
    rw [List.map_nil, dropRefs_nil]
    exact h
  | cons j l ih =>
    obtain ⟨hnot, hl'⟩ := List.nodup_cons.mp hl
    have hj := hr j List.mem_cons_self
    -- the rest of the loop, from a state in which entry `j` counts as empty
    have hrest : ∀ u, freeEntry sb addr s j = some u → Owns sb u (putRef ref i (.entry j) 0) 0 →
        Frees sb s u → u.inode = s.inode →
        ∃ t, (j :: l).foldlM (freeEntry sb addr) s = some t ∧
          Owns sb t (dropRefs ref i ((j :: l).map .entry)) 0 ∧ Frees sb s t ∧
          t.inode = s.inode := by
      intro u e hu hf hi
      have houtu : u.outstanding ≠ 0 := by
        rw [hf.outstanding]
        exact hout
      have hru : ∀ m ∈ l, putRef ref i (.entry j) 0 i (.entry m) = entry (u.cache addr) m := by
        intro m hm
        have hne : ¬ (i = i ∧ Slot.entry m = .entry j) := by
          rintro ⟨-, e⟩
          exact hnot (Slot.entry.inj e ▸ hm)
        unfold putRef
        rw [if_neg hne, hf.cache addr haddr]
        exact hr m (List.mem_cons_of_mem _ hm)
      obtain ⟨t, e', ht, hf', hi'⟩ := ih hu houtu hl' hru
      rw [dropRefs_cons] at ht
      refine ⟨t, ?_, ht, hf.trans hf', hi'.trans hi⟩
      rw [List.foldlM_cons, e]
      exact e'
    by_cases h0 : ref i (.entry j) = 0
    · refine hrest s ?_ ?_ (Frees.refl sb s) rfl
      · unfold freeEntry
        dsimp only
        rw [if_pos (hj.symm.trans h0)]
      · have hsame : putRef ref i (.entry j) 0 = ref := by
          funext m n
          unfold putRef
          split
          · next e => rw [e.1, e.2, h0]
          · rfl
        rw [hsame]
        exact h
    · obtain ⟨e, ho, hf⟩ := bfree_frees h hout h0
      refine hrest _ ?_ ho hf rfl
      unfold freeEntry
      dsimp only
      rw [← hj, if_neg h0]
      exact e

def indirectSlots : List Slot := .addr ndirect :: (List.range nindirect).map .entry

theorem entry_mem_indirectSlots : Slot.entry j ∈ indirectSlots ↔ j < nindirect := by
  unfold indirectSlots
  rw [List.mem_cons, List.mem_map]
  constructor
  · rintro (e | ⟨k, hk, e⟩)
    · exact absurd e nofun
    · obtain rfl := Slot.entry.inj e
      exact List.mem_range.mp hk
  · intro hj
    exact Or.inr ⟨j, List.mem_range.mpr hj, rfl⟩

theorem addr_mem_indirectSlots : Slot.addr k ∈ indirectSlots ↔ k = ndirect := by
  unfold indirectSlots
  rw [List.mem_cons, Slot.addr.injEq]
  refine or_iff_left ?_
  intro hm
  obtain ⟨m, -, e⟩ := List.mem_map.mp hm
  exact Slot.noConfusion e

theorem ref_setAddr_indirect (s : State) (i : Nat) :
    (s.setAddr i ndirect 0).ref = dropRefs s.ref i indirectSlots := by
  funext j l
  unfold dropRefs
  cases l with
  | addr n =>
    simp only [addr_mem_indirectSlots]
    by_cases hn : n ≤ ndirect
    · exact ref_setAddr_addr hn
    · rw [if_neg (fun h => hn h.2.le)]
      exact (if_neg hn).trans (if_neg hn).symm
  | entry m =>
    simp only [entry_mem_indirectSlots]
    by_cases e : j = i
    · have hp : (s.setAddr i ndirect 0).ref i (.addr ndirect) = 0 := by
        rw [ref_setAddr_addr le_rfl, if_pos ⟨rfl, rfl⟩]
      rw [e, ref_entry_none hp]
      split
      · rfl
      · next h => exact (if_neg (fun hc => h ⟨rfl, hc.1⟩)).symm
    · rw [if_neg (fun h => e h.1)]
      exact ref_setAddr_entry (fun h => e h.1)

theorem freeIndirect_spec (h : Owned sb s 0) (hout : s.outstanding ≠ 0) (i : Nat) :
    ∃ t, freeIndirect sb s i = some t ∧ Owned sb t 0 ∧ t.ref = dropRefs s.ref i indirectSlots ∧
      Frees sb s t := by
  unfold freeIndirect
  dsimp only
  have hp : s.ref i (.addr ndirect) = (s.inode i).addrs ndirect := ref_addr le_rfl
  rw [← hp]
  by_cases h0 : s.ref i (.addr ndirect) = 0
  · -- there is no indirect block, and no entry
    rw [if_pos h0]
    refine ⟨s, rfl, h, ?_, Frees.refl sb s⟩
    funext j k
    unfold dropRefs
    split
    · next e =>
      rw [e.1]
      rcases List.mem_cons.mp e.2 with rfl | hk
      · exact h0
      · obtain ⟨m, -, rfl⟩ := List.mem_map.mp hk
        exact ref_entry_none h0
    · rfl
  · rw [if_neg h0]
    obtain ⟨hlow, -⟩ := h.region i _ h0
    have hentry : ∀ m ∈ List.range nindirect,
        s.ref i (.entry m) = entry (s.cache (s.ref i (.addr ndirect))) m :=
      fun m hm => ref_entry (List.mem_range.mp hm) h0
    obtain ⟨u, e, hu, hf, hi⟩ := freeEntries_spec h hout hlow (List.nodup_range) hentry
    have houtu : u.outstanding ≠ 0 := by
      rw [hf.outstanding]
      exact hout
    -- the indirect block itself is still there
    have hstill : dropRefs s.ref i ((List.range nindirect).map .entry) i (.addr ndirect) =
        s.ref i (.addr ndirect) := by
      refine if_neg ?_
      rintro ⟨-, hm⟩
      obtain ⟨m, -, em⟩ := List.mem_map.mp hm
      exact Slot.noConfusion em
    obtain ⟨e', ho, hf'⟩ := bfree_frees (i := i) (l := .addr ndirect) hu houtu (by rwa [hstill])
    rw [hstill] at e' ho hf'
    rw [e]
    dsimp only
    rw [e']
    have hfree := hf.trans hf'
    have hdrop : putRef (dropRefs s.ref i ((List.range nindirect).map .entry)) i (.addr ndirect) 0 =
        dropRefs s.ref i indirectSlots := by
      funext j k
      unfold putRef dropRefs indirectSlots
      by_cases hj : j = i
      · by_cases hk : k = .addr ndirect
        · rw [if_pos ⟨hj, hk⟩, if_pos ⟨hj, hk ▸ List.mem_cons_self⟩]
        · rw [if_neg (fun e => hk e.2)]
          refine if_congr (and_congr_right (fun _ => ?_)) rfl rfl
          rw [List.mem_cons]
          exact (or_iff_right hk).symm
      · rw [if_neg (fun e => hj e.1), if_neg (fun e => hj e.1), if_neg (fun e => hj e.1)]
    rw [hdrop] at ho
    have href : ((u.freed sb (s.ref i (.addr ndirect))).setAddr i ndirect 0).ref =
        dropRefs s.ref i indirectSlots := by
      rw [ref_setAddr_indirect, hfree.ref_eq h hi]
    refine ⟨_, rfl, ?_, href, frees_setAddr hfree i ndirect 0⟩
    show Owns sb _ ((u.freed sb (s.ref i (.addr ndirect))).setAddr i ndirect 0).ref 0
    rw [href]
    exact ⟨ho.low, ho.region, ho.inj, ho.used, ho.flight⟩

theorem Frees.changes (h : Owned sb s 0) (hf : Frees sb s t) (ht : Owned sb t 0)
    (hother : ∀ j, j ≠ i → t.ref j = s.ref j)
    (hsub : ∀ j, t.ref j (.addr ndirect) ≠ 0 → s.ref j (.addr ndirect) = t.ref j (.addr ndirect)) :
    Changes sb i s t := by
  refine ⟨ht, hother, fun j hj => ?_, fun j _ => hf.inode j, fun hc c hm => ?_, hf.disk,
    hf.outstanding, hf.log⟩
  · funext p
    unfold State.byte
    rw [hother j hj]
    by_cases h0 : s.ref j (slotOf (p / bsize)) = 0
    · rw [if_pos h0, if_pos h0]
    · rw [if_neg h0, if_neg h0, hf.cache _ (h.region j _ h0).1]
  · have hs : sb.Meta s c := by
      rcases hm with hlow | ⟨h0, j, rfl⟩
      · exact Or.inl hlow
      · exact Or.inr ⟨h0, j, hsub j h0⟩
    rcases hf.written c with e | hin
    · rcases hc c hs with hin | hd
      · obtain ⟨k, hk⟩ := hf.log
        rw [hk]
        exact Or.inl (List.mem_append_right k hin)
      · exact Or.inr ((e.trans hd).trans (congrFun hf.disk c).symm)
    · exact Or.inl hin

/-! ## calls for one inode -/

theorem Changes.trans (h : Changes sb i s u) (h' : Changes sb i u t) : Changes sb i s t := by
  obtain ⟨k, hk⟩ := h.log
  obtain ⟨k', hk'⟩ := h'.log
  exact ⟨h'.owned, fun j hj => (h'.other j hj).trans (h.other j hj),
    fun j hj => (h'.byte j hj).trans (h.byte j hj),
    fun j hj => ⟨(h'.inode j hj).1.trans (h.inode j hj).1,
      (h'.inode j hj).2.trans (h.inode j hj).2⟩,
    fun hc => h'.coherent (h.coherent hc), h'.disk.trans h.disk, h'.outstanding.trans h.outstanding,
    ⟨k' ++ k, by rw [hk', hk, List.append_assoc]⟩⟩

theorem Follows.changes (hf : Follows sb i s t) : Changes sb i s t := by
  refine ⟨hf.owned, hf.other, hf.byte, fun j hj => ⟨hf.type j, hf.size j hj⟩, fun hc c hm => ?_,
    hf.disk, hf.outstanding, hf.log⟩
  rcases hf.written c hm with e | hin
  · -- the block was there for the same purpose, or it is new and in the log
    have hs : sb.Meta s c ∨ c ∈ t.log := by
      rcases hm with hlow | ⟨h0, j, rfl⟩
      · exact Or.inl (Or.inl hlow)
      · rcases hf.pointer j h0 with hj | hin
        · exact Or.inl (Or.inr ⟨h0, j, (hf.keep j _ hj).symm⟩)
        · exact Or.inr hin
    rcases hs with hs | hin
    · rcases hc c hs with hin | hd
      · exact Or.inl (hf.mem_log hin)
      · exact Or.inr ((e.trans hd).trans (congrFun hf.disk c).symm)
    · exact Or.inl hin
  · exact Or.inl hin

theorem changes_inode (h : Owned sb s 0) (hi : ∀ j, j ≠ i → t.inode j = s.inode j)
    (href : t.ref = s.ref) (hcache : t.cache = s.cache) (hdisk : t.disk = s.disk)
    (hout : t.outstanding = s.outstanding) (hlog : ∃ k, t.log = k ++ s.log) : Changes sb i s t := by
  have hused : ∀ b, sb.Used t b ↔ sb.Used s b := fun b => by
    unfold Superblock.Used
    rw [hcache]
  have hbyte : t.byte = s.byte := by
    funext j p
    unfold State.byte
    rw [href, hcache]
  refine ⟨?_, fun _ _ => by rw [href], fun _ _ => by rw [hbyte], fun j hj => ?_, fun hc c hm => ?_,
    hdisk, hout, hlog⟩
  · show Owns sb t t.ref 0
    rw [href]
    exact ⟨fun b hb => (hused b).mpr (h.low b hb), h.region, h.inj,
      fun b hb hlt => (hused b).trans (h.used b hb hlt), h.flight⟩
  · rw [hi j hj]
    exact ⟨rfl, rfl⟩
  · have hs : sb.Meta s c := by
      unfold Superblock.Meta at hm ⊢
      rwa [href] at hm
    rw [hcache, hdisk]
    obtain ⟨k, hk⟩ := hlog
    rw [hk]
    exact (hc c hs).imp_left (List.mem_append_right k)

/-- `itrunc` empties one inode -/
theorem itrunc_spec (h : Owned sb s 0) (hout : s.outstanding ≠ 0) (i : Nat) :
    ∃ t, itrunc sb s i = some t ∧ Changes sb i s t ∧ (∀ k, t.ref i k = 0) ∧
      (t.inode i).size = 0 ∧ (t.inode i).type = (s.inode i).type := by
  unfold itrunc
  obtain ⟨u, e, hu, href, hf⟩ := freeSlots_spec (i := i) (l := List.range ndirect) h hout
    (fun k hk => List.mem_range.mp hk)
  have houtu : u.outstanding ≠ 0 := by
    rw [hf.outstanding]
    exact hout
  obtain ⟨v, e', hv, href', hf'⟩ := freeIndirect_spec hu houtu i
  have houtv : v.outstanding ≠ 0 := by
    rw [hf'.outstanding]
    exact houtu
  have hfree := hf.trans hf'
  have hother : ∀ j, j ≠ i → v.ref j = s.ref j := by
    intro j hj
    funext k
    rw [href', href]
    exact (if_neg (fun e => hj e.1)).trans (if_neg (fun e => hj e.1))
  have hempty : ∀ k, v.ref i k = 0 := by
    intro k
    rw [href']
    unfold dropRefs
    by_cases hk : k ∈ indirectSlots
    · exact if_pos ⟨rfl, hk⟩
    · rw [if_neg (fun e => hk e.2), href]
      unfold dropRefs
      cases k with
      | addr n =>
        rw [addr_mem_indirectSlots] at hk
        split
        · rfl
        · next hn =>
          refine if_neg (fun hle => hn ⟨rfl, List.mem_map_of_mem (List.mem_range.mpr ?_)⟩)
          omega
      | entry m =>
        rw [entry_mem_indirectSlots] at hk
        split
        · rfl
        · exact if_neg (fun hc => hk hc.1)
  have hsub : ∀ j, v.ref j (.addr ndirect) ≠ 0 →
      s.ref j (.addr ndirect) = v.ref j (.addr ndirect) := by
    intro j hj
    by_cases e : j = i
    · rw [e] at hj
      exact absurd (hempty _) hj
    · rw [hother j e]
  obtain ⟨hres, -⟩ := follows_resize (i := i) hv 0
  rw [e]
  dsimp only
  rw [e']
  dsimp only
  unfold State.iupdate
  rw [logWrite_eq (show (v.setInode _ _).outstanding ≠ 0 from houtv)]
  refine ⟨v.resize sb i 0, rfl, (hfree.changes h hv hother hsub).trans hres.changes,
    fun k => ?_, ?_, ?_⟩
  · rw [resize_ref]
    exact hempty k
  · rw [resize_inode, if_pos rfl]
  · rw [resize_inode, if_pos rfl]
    exact (hfree.inode i).1

end

end Blocks
