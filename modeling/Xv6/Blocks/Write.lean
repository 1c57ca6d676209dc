import Xv6.Blocks.View

/-!
# Writing to a file of the disk

`bmap` and `writei` are those of `Fs.Inode` on the file of the inode.  `Follows` says what they
leave alone elsewhere, and that what they change of the bitmap and of indirect blocks is in the log.
-/

namespace Blocks
open Lib Fs

/-- the blocks that say which blocks are free and where the blocks of a file are -/
def Superblock.Meta (sb : Superblock) (s : State) (c : Nat) : Prop :=
  c < sb.data ∨ c ≠ 0 ∧ ∃ j, s.ref j (.addr ndirect) = c

/-- from `s` to `t` by calls for inode `i` -/
structure Follows (sb : Superblock) (i : Nat) (s t : State) : Prop where
  owned : Owned sb t 0
  keep : ∀ j k, s.ref j k ≠ 0 → t.ref j k = s.ref j k
  other : ∀ j, j ≠ i → t.ref j = s.ref j
  byte : ∀ j, j ≠ i → t.byte j = s.byte j
  type : ∀ j, (t.inode j).type = (s.inode j).type
  size : ∀ j, j ≠ i → (t.inode j).size = (s.inode j).size
  disk : t.disk = s.disk
  outstanding : t.outstanding = s.outstanding
  log : ∃ k, t.log = k ++ s.log
  written : ∀ c, sb.Meta t c → t.cache c = s.cache c ∨ c ∈ t.log
  pointer : ∀ j, t.ref j (.addr ndirect) ≠ 0 → s.ref j (.addr ndirect) ≠ 0 ∨
    t.ref j (.addr ndirect) ∈ t.log

section
variable {sb : Superblock} {s t u : State} {a c i bn m n off tot : Nat} {l : Slot}
  {src : Source}

/-! ## what is left alone -/

theorem Follows.refl (h : Owned sb s 0) (i : Nat) : Follows sb i s s :=
  ⟨h, fun _ _ _ => rfl, fun _ _ => rfl, fun _ _ => rfl, fun _ => rfl, fun _ _ => rfl, rfl, rfl,
    ⟨[], rfl⟩, fun _ _ => Or.inl rfl, fun _ hj => Or.inl hj⟩

theorem Follows.mem_log (h : Follows sb i s t) (hc : c ∈ s.log) : c ∈ t.log := by
  obtain ⟨k, hk⟩ := h.log
  rw [hk]
  exact List.mem_append_right k hc

theorem Follows.trans (h : Follows sb i s u) (h' : Follows sb i u t) : Follows sb i s t := by
  refine ⟨h'.owned, fun j k hk => ?_, fun j hj => (h'.other j hj).trans (h.other j hj),
    fun j hj => (h'.byte j hj).trans (h.byte j hj), fun j => (h'.type j).trans (h.type j),
    fun j hj => (h'.size j hj).trans (h.size j hj), h'.disk.trans h.disk,
    h'.outstanding.trans h.outstanding, ?_, fun c hc => ?_, fun j hj => ?_⟩
  · have e := h.keep j k hk
    rw [h'.keep j k (by rwa [e]), e]
  · obtain ⟨k, hk⟩ := h.log
    obtain ⟨k', hk'⟩ := h'.log
    exact ⟨k' ++ k, by rw [hk', hk, List.append_assoc]⟩
  · rcases h'.written c hc with e | hin
    · -- the block was there for the same purpose, or it is new and in the log
      have hu : sb.Meta u c ∨ c ∈ t.log := by
        rcases hc with hlow | ⟨h0, j, rfl⟩
        · exact Or.inl (Or.inl hlow)
        · rcases h'.pointer j h0 with hj | hin
          · exact Or.inl (Or.inr ⟨h0, j, (h'.keep j _ hj).symm⟩)
          · exact Or.inr hin
      rcases hu with hu | hin
      · rcases h.written c hu with e' | hin
        · exact Or.inl (e.trans e')
        · exact Or.inr (h'.mem_log hin)
      · exact Or.inr hin
    · exact Or.inr hin
  · rcases h'.pointer j hj with hu | hin
    · rcases h.pointer j hu with hs | hin
      · exact Or.inl hs
      · refine Or.inr ?_
        rw [h'.keep j _ hu]
        exact h'.mem_log hin
    · exact Or.inr hin

theorem Filled.follows (h : Owned sb s 0) (hf : Filled sb s i l t a) : Follows sb i s t := by
  have hinode := hf.inode
  refine ⟨hf.owned h, fun j k hk => hf.keep hk,
    fun j hj => funext (fun k => hf.other (fun e => hj e.1)),
    fun j hj => funext (fun p => hf.byte h (fun e => hj e.1)), fun j => (hinode j).1,
    fun j _ => (hinode j).2, ?_, ?_, ?_, fun c _ => ?_, fun j hj => ?_⟩
  · cases hf with
    | kept | full => rfl
    | gets h0 hg => exact hg.disk
  · cases hf with
    | kept | full => rfl
    | gets h0 hg => exact hg.outstanding
  · cases hf with
    | kept | full => exact ⟨[], rfl⟩
    | gets h0 hg =>
      obtain ⟨k, hk, -⟩ := hg.log
      exact ⟨k ++ [a, sb.bblock a], by rw [hk, List.append_assoc]; rfl⟩
  · cases hf with
    | kept | full => exact Or.inl rfl
    | gets h0 hg => exact hg.written c
  · by_cases e : j = i ∧ .addr ndirect = l
    · obtain ⟨rfl, rfl⟩ := e
      cases hf with
      | kept | full => exact Or.inl hj
      | gets h0 hg =>
        obtain ⟨k, hk, -⟩ := hg.log
        rw [(Filled.gets h0 hg).self, hk]
        exact Or.inr (List.mem_append_right k List.mem_cons_self)
    · rw [hf.other e] at hj
      exact Or.inl hj

/-! ## `bmap` -/

theorem bmap_spec (h : Owned sb s 0) (hout : s.outstanding ≠ 0) (i : Nat) (hbn : bn < maxfile) :
    ∃ t a, bmap sb s i bn = some (t, a) ∧
      Fs.bmap (s.file sb i) bn = some (t.file sb i, decide (a ≠ 0)) ∧ Follows sb i s t ∧
      t.ref i (slotOf bn) = a := by
  unfold bmap Fs.bmap
  by_cases hdir : bn < ndirect
  · rw [if_pos hdir, if_pos hdir]
    have hslot : slotOf bn = .addr bn := if_pos hdir
    obtain ⟨t, a, e, hf⟩ := mapSlot_spec h hout i hdir.le
    rw [← hslot] at hf
    exact ⟨t, a, e, congrArg some (hf.file_data h), hf.follows h, hf.self⟩
  · have hj : bn - ndirect < nindirect := by
      unfold maxfile at hbn
      omega
    have hslot : slotOf bn = .entry (bn - ndirect) := if_neg hdir
    rw [if_neg hdir, if_neg hdir]
    dsimp only
    rw [if_pos hj, if_pos hj]
    obtain ⟨u, addr, e, hf⟩ := mapSlot_spec h hout i (le_refl ndirect)
    have hu := hf.owned h
    rw [e]
    dsimp only
    by_cases h0 : addr = 0
    · -- there is no block for the indirect block
      rw [if_pos h0]
      cases hf with
      | kept hne => exact absurd h0 hne
      | full hs hall =>
        have hind : (s.file sb i).indirect = false := decide_eq_false (not_not.mpr hs)
        have hfree : (s.file sb i).free = 0 := freeCount_eq_zero.mpr hall
        refine ⟨s, 0, rfl, ?_, Follows.refl h i, ?_⟩
        · rw [hind, if_neg Bool.false_ne_true, if_pos hfree]
          rfl
        · rw [hslot]
          exact ref_entry_none hs
      | gets hs hg => exact absurd h0 (hg.ne_zero h)
    · rw [if_neg h0]
      have hp : u.ref i (.addr ndirect) = addr := hf.self
      have houtu : u.outstanding ≠ 0 := by
        rw [(hf.follows h).outstanding]
        exact hout
      obtain ⟨t, a, e', hf'⟩ := mapEntry_spec hu houtu (by rwa [hp]) hj
      rw [hp] at e'
      rw [← hslot] at hf'
      refine ⟨t, a, e', ?_, (hf.follows h).trans (hf'.follows hu), hf'.self⟩
      cases hf with
      | kept hne =>
        have hind : (s.file sb i).indirect = true := decide_eq_true hne
        rw [hind, if_pos rfl]
        exact congrArg some (hf'.file_data h)
      | full hs hall => exact absurd rfl h0
      | gets hs hg =>
        have hind : (s.file sb i).indirect = false := decide_eq_false (not_not.mpr hs)
        have hcount := hg.freeCount h
        have hfree : (s.file sb i).free ≠ 0 := by
          show sb.freeCount s ≠ 0
          omega
        rw [hind, if_neg Bool.false_ne_true, if_neg hfree, ← hg.file_indirect h hs]
        exact congrArg some (hf'.file_data hu)

/-! ## a block of data -/

/-- block `bn` of the file gets the bytes of `blk`, and nothing else changes -/
theorem follows_data (h : Owned sb s 0) (ha : s.ref i (slotOf bn) ≠ 0)
    (hinode : t.inode = s.inode) (hcache : ∀ c, c ≠ s.ref i (slotOf bn) → t.cache c = s.cache c)
    (hdisk : t.disk = s.disk) (hout : t.outstanding = s.outstanding)
    (hlog : ∃ k, t.log = k ++ s.log) :
    Follows sb i s t ∧ t.ref = s.ref ∧ t.file sb i = { s.file sb i with
      data := fun p => if p / bsize = bn then t.cache (s.ref i (slotOf bn)) (p % bsize)
        else s.byte i p } := by
  obtain ⟨hlow, hlt⟩ := h.region i _ ha
  -- no other place has the block
  have hne : ∀ j k, s.ref j k ≠ 0 → ¬ (j = i ∧ k = slotOf bn) → s.ref j k ≠ s.ref i (slotOf bn) :=
    fun j k hk hno e => hno (h.inj j k i _ hk e)
  have href : t.ref = s.ref := by
    refine ref_congr (fun j _ _ => by rw [hinode]) (fun j hj => hcache _ (hne j _ hj ?_))
    rintro ⟨-, e⟩
    exact slotOf_ne e.symm
  have hused : ∀ c < sb.size, sb.Used t c ↔ sb.Used s c := fun c hc =>
    used_congr (fun d hd => hcache d (by omega)) hc
  have hbyte : ∀ j p, ¬ (j = i ∧ p / bsize = bn) → t.byte j p = s.byte j p := by
    intro j p hno
    unfold State.byte
    rw [href]
    by_cases h0 : s.ref j (slotOf (p / bsize)) = 0
    · rw [if_pos h0, if_pos h0]
    · rw [if_neg h0, if_neg h0, hcache _ (hne j _ h0 (fun e => hno ⟨e.1, slotOf_inj.mp e.2⟩))]
  refine ⟨⟨?_, fun _ _ _ => by rw [href], fun _ _ => by rw [href],
    fun j hj => funext (fun p => hbyte j p (fun e => hj e.1)), fun _ => by rw [hinode],
    fun _ _ => by rw [hinode], hdisk, hout, hlog, fun c hc => Or.inl ?_,
    fun j hj => Or.inl (by rwa [href] at hj)⟩,
    href, disk_ext ?_ ?_ ?_ ?_ (freeCount_congr hused)⟩
  · have hdata : sb.data ≤ sb.size := Nat.sub_le _ _
    show Owns sb t t.ref 0
    rw [href]
    exact ⟨fun c hc => (hused c (by omega)).mpr (h.low c hc), h.region, h.inj,
      fun c hc hcs => (hused c hcs).trans (h.used c hc hcs), h.flight⟩
  · -- the block is no indirect block, and not in the bitmap
    refine hcache c ?_
    rcases hc with hc | ⟨h0, j, rfl⟩
    · omega
    · rw [href] at h0 ⊢
      exact hne j _ h0 (fun e => slotOf_ne e.2.symm)
  · show (t.inode i).size = (s.inode i).size
    rw [hinode]
  · funext k
    show decide (t.ref i _ ≠ 0) = decide (s.ref i _ ≠ 0)
    rw [href]
  · show decide (t.ref i _ ≠ 0) = decide (s.ref i _ ≠ 0)
    rw [href]
  · funext p
    show t.byte i p = if p / bsize = bn then _ else _
    by_cases e : p / bsize = bn
    · rw [if_pos e]
      unfold State.byte
      rw [href, e, if_neg ha]
    · rw [if_neg e, hbyte i p (fun hc => e hc.2)]

/-! ## `copyin` -/

/-- how many of the `m` bytes from `src + tot` on can be read -/
def reach (src : Source) : Nat → Nat → Nat
  | _, 0 => 0
  | tot, m + 1 =>
    match src tot with
    | none => 0
    | some _ => reach src (tot + 1) m + 1

theorem reach_le (src : Source) (tot m : Nat) : reach src tot m ≤ m := by
  induction m generalizing tot with
  | zero => exact le_rfl
  | succ m ih =>
    unfold reach
    cases src tot with
    | none => exact Nat.zero_le _
    | some b => exact Nat.succ_le_succ (ih (tot + 1))

/-- the bytes up to the first that cannot be read -/
theorem copyin_eq (src : Source) (m pos tot : Nat) (data : Nat → UInt8) :
    copyin src m pos tot data =
      (fun p => if pos ≤ p ∧ p < pos + reach src tot m then (src (tot + (p - pos))).getD 0
          else data p,
        decide (reach src tot m = m)) := by
  induction m generalizing pos tot data with
  | zero =>
    refine Prod.ext (funext (fun p => (if_neg ?_).symm)) rfl
    unfold reach
    omega
  | succ m ih =>
    unfold copyin reach
    cases hs : src tot with
    | none =>
      refine Prod.ext (funext (fun p => (if_neg ?_).symm)) rfl
      dsimp only
      omega
    | some b =>
      dsimp only
      rw [ih]
      refine Prod.ext (funext (fun p => ?_)) (decide_eq_decide.mpr Nat.succ_inj.symm)
      dsimp only
      by_cases e : p = pos
      · rw [if_neg (by omega), if_pos (by omega), e, Function.update_self, Nat.sub_self,
          Nat.add_zero, hs]
        rfl
      · rw [Function.update_of_ne e]
        by_cases hin : pos + 1 ≤ p ∧ p < pos + 1 + reach src (tot + 1) m
        · have hoff : tot + 1 + (p - (pos + 1)) = tot + (p - pos) := by omega
          rw [if_pos hin, if_pos (by omega), hoff]
        · rw [if_neg hin, if_neg (by omega)]

/-! ## `writei` -/

theorem div_eq_iff {p q : Nat} : p / bsize = q ↔ q * bsize ≤ p ∧ p < q * bsize + bsize := by
  unfold bsize
  omega

/-- a copy into the buffer of a block, as one into the file -/
theorem copyin_block (src : Source) (tot : Nat) (hm : m ≤ bsize - off % bsize)
    (ha : s.ref i (slotOf (off / bsize)) ≠ 0) :
    copyin src m off tot (s.byte i) =
      (fun p => if p / bsize = off / bsize then
          (copyin src m (off % bsize) tot (s.cache (s.ref i (slotOf (off / bsize))))).1 (p % bsize)
        else s.byte i p,
        (copyin src m (off % bsize) tot (s.cache (s.ref i (slotOf (off / bsize))))).2) := by
  have hle := reach_le src tot m
  have hb : off % bsize < bsize := Nat.mod_lt _ (by decide)
  have hoff := Nat.div_add_mod' off bsize
  rw [copyin_eq, copyin_eq]
  refine Prod.ext (funext (fun p => ?_)) rfl
  dsimp only
  by_cases e : p / bsize = off / bsize
  · have hp := Nat.div_add_mod' p bsize
    rw [e] at hp
    rw [if_pos e]
    by_cases hin : off ≤ p ∧ p < off + reach src tot m
    · have hsub : p - off = p % bsize - off % bsize := by omega
      rw [if_pos hin, if_pos (by omega), hsub]
    · rw [if_neg hin, if_neg (by omega)]
      unfold State.byte
      rw [e, if_neg ha]
  · rw [if_neg e, if_neg]
    rintro ⟨h1, h2⟩
    exact e (div_eq_iff.mpr ⟨by omega, by omega⟩)

/-- the loop is the one on the file -/
theorem writeiLoop_spec (src : Source) (fuel : Nat) (h : Owned sb s 0) (hout : s.outstanding ≠ 0)
    (hmax : off + (n - tot) ≤ maxfile * bsize) : ∃ t off' tot',
    writeiLoop sb i src n fuel s off tot = some (t, off', tot') ∧
      Fs.writeiLoop src n fuel (s.file sb i) off tot = some (t.file sb i, off', tot') ∧
      Follows sb i s t := by
  induction fuel generalizing s off tot with
  | zero => exact ⟨s, off, tot, rfl, rfl, Follows.refl h i⟩
  | succ fuel ih =>
    unfold writeiLoop Fs.writeiLoop
    by_cases hlt : tot < n
    · rw [if_pos hlt, if_pos hlt]
      have hbn : off / bsize < maxfile := by
        rw [Nat.div_lt_iff_lt_mul (by decide)]
        omega
      obtain ⟨u, a, e, e', hfol, hself⟩ := bmap_spec h hout i hbn
      have hu := hfol.owned
      rw [e, e']
      dsimp only
      by_cases ha : a = 0
      · rw [if_pos ha, decide_eq_false (not_not.mpr ha)]
        exact ⟨u, off, tot, rfl, rfl, hfol⟩
      · rw [if_neg ha, decide_eq_true ha]
        dsimp only
        have href : u.ref i (slotOf (off / bsize)) ≠ 0 := by rwa [hself]
        have hcopy := copyin_block src tot (Nat.min_le_right (n - tot) (bsize - off % bsize)) href
        have hdata : (u.file sb i).data = u.byte i := rfl
        rw [hdata, hcopy, hself]
        generalize hc : copyin src (min (n - tot) (bsize - off % bsize)) (off % bsize) tot
          (u.cache a) = c
        obtain ⟨blk, b⟩ := c
        have hblk : Function.update u.cache a blk a = blk := Function.update_self ..
        have hother : ∀ c, c ≠ u.ref i (slotOf (off / bsize)) →
            Function.update u.cache a blk c = u.cache c := fun c hc =>
          Function.update_of_ne (by rwa [hself] at hc) _ _
        cases b with
        | false =>
          -- the buffer has changed, the log has not
          obtain ⟨hf, -, hfile⟩ := follows_data (t := u.setBlock a blk) hu href rfl hother rfl rfl
            ⟨[], rfl⟩
          refine ⟨_, off, tot, rfl, ?_, hfol.trans hf⟩
          rw [hfile, hself]
          dsimp only
          rw [show (u.setBlock a blk).cache a = blk from hblk]
        | true =>
          have houtu : u.outstanding ≠ 0 := by
            rw [hfol.outstanding]
            exact hout
          obtain ⟨hf, -, hfile⟩ := follows_data (t := u.write a blk) hu href rfl hother rfl rfl
            ⟨[a], rfl⟩
          have hnext : off + min (n - tot) (bsize - off % bsize) +
              (n - (tot + min (n - tot) (bsize - off % bsize))) ≤ maxfile * bsize := by omega
          obtain ⟨t, off', tot', e2, e3, hf2⟩ := ih (s := u.write a blk) hf.owned houtu hnext
          dsimp only
          rw [write_eq houtu]
          dsimp only
          refine ⟨t, off', tot', e2, ?_, (hfol.trans hf).trans hf2⟩
          rw [← e3, hfile, hself]
          dsimp only
          rw [show (u.write a blk).cache a = blk from hblk]
    · rw [if_neg hlt, if_neg hlt]
      exact ⟨s, off, tot, rfl, rfl, Follows.refl h i⟩

def State.resize (sb : Superblock) (s : State) (i size : Nat) : State :=
  { s.setInode i { s.inode i with size := size } with log := sb.iblock i :: s.log }

theorem resize_inode (size j : Nat) : (s.resize sb i size).inode j =
    if j = i then { s.inode i with size := size } else s.inode j := by
  show Function.update s.inode i _ j = _
  by_cases e : j = i
  · rw [if_pos e, e, Function.update_self]
  · rw [if_neg e, Function.update_of_ne e]

theorem resize_ref (sb : Superblock) (s : State) (i size : Nat) :
    (s.resize sb i size).ref = s.ref := by
  refine ref_congr (fun j _ _ => ?_) (fun _ _ => rfl)
  rw [resize_inode]
  split
  · next e => rw [e]
  · rfl

theorem follows_resize (h : Owned sb s 0) (size : Nat) : Follows sb i s (s.resize sb i size) ∧
    (s.resize sb i size).file sb i = { s.file sb i with size := size } := by
  have href := resize_ref sb s i size
  have hbyte : (s.resize sb i size).byte = s.byte := by
    funext j p
    unfold State.byte
    rw [href]
    rfl
  refine ⟨⟨?_, fun _ _ _ => by rw [href], fun _ _ => by rw [href], fun _ _ => by rw [hbyte],
    fun j => ?_, fun j hj => ?_, rfl, rfl, ⟨[_], rfl⟩, fun _ _ => Or.inl rfl,
    fun j hj => Or.inl (by rwa [href] at hj)⟩, disk_ext ?_ ?_ ?_ (congrFun hbyte i) rfl⟩
  · show Owns sb _ (s.resize sb i size).ref 0
    rw [href]
    exact ⟨h.low, h.region, h.inj, h.used, h.flight⟩
  · rw [resize_inode]
    split
    · next e => rw [e]
    · rfl
  · rw [resize_inode, if_neg hj]
  · show ((s.resize sb i size).inode i).size = size
    rw [resize_inode, if_pos rfl]
  · funext bn
    show decide ((s.resize sb i size).ref i _ ≠ 0) = decide (s.ref i _ ≠ 0)
    rw [href]
  · show decide ((s.resize sb i size).ref i _ ≠ 0) = decide (s.ref i _ ≠ 0)
    rw [href]

/-- `writei` is the one on the file; the size of a file fits a `uint` -/
theorem writei_spec (h : Owned sb s 0) (hout : s.outstanding ≠ 0)
    (hsize : (s.inode i).size ≤ maxfile * bsize) (hn : n < 2 ^ 32) (src : Source) (off : Nat) :
    ∃ t r, writei sb s i src off n = some (t, r) ∧
      Fs.writei (s.file sb i) src off n = some (t.file sb i, r) ∧ Follows sb i s t := by
  have hlim : maxfile * bsize < 2 ^ 32 := by decide
  unfold writei Fs.writei
  have hs : (s.file sb i).size = (s.inode i).size := rfl
  rw [hs]
  by_cases h1 : (s.inode i).size < off ∨ (off + n) % 2 ^ 32 < off
  · rw [if_pos h1, if_pos h1]
    exact ⟨s, -1, rfl, rfl, Follows.refl h i⟩
  · rw [if_neg h1, if_neg h1]
    by_cases h2 : maxfile * bsize < (off + n) % 2 ^ 32
    · rw [if_pos h2, if_pos h2]
      exact ⟨s, -1, rfl, rfl, Follows.refl h i⟩
    · rw [if_neg h2, if_neg h2]
      have hmax : off + (n - 0) ≤ maxfile * bsize := by
        rw [not_or, Nat.not_lt, Nat.not_lt] at h1
        omega
      obtain ⟨t, off', tot', e, e', hf⟩ := writeiLoop_spec src n h hout hmax
      rw [e, e']
      dsimp only
      have houtt : t.outstanding ≠ 0 := by
        rw [hf.outstanding]
        exact hout
      obtain ⟨hres, hfile⟩ := follows_resize (i := i) hf.owned
        (if (t.inode i).size < off' then off' else (t.inode i).size)
      refine ⟨_, tot', ?_, ?_, hf.trans hres⟩
      · unfold State.iupdate
        rw [logWrite_eq (show (t.setInode _ _).outstanding ≠ 0 from houtt)]
        rfl
      · rw [hfile]
        rfl

end

end Blocks
