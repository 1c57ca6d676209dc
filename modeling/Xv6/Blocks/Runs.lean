import Xv6.Blocks.Free
import Xv6.Blocks.Transaction
import Xv6.Lib.Run

/-!
# Runs of the file system

Every call that allocates or frees blocks or inodes is made of the functions of `Blocks.Model`, one
after the other, with commits between them and buffers that are read again.  `Good` holds behind
each of them: the bitmap is exact, no file has a hole, and what says where blocks are is in the log
or on the disk as in the cache.
-/

namespace Blocks
open Lib Fs

structure Good (sb : Superblock) (s : State) : Prop where
  whole : Whole sb s
  coherent : Coherent sb s

inductive Act where
  | beginOp
  | endOp
  | evict (b : Nat)
  | readi (i : Nat) (dst : Nat → Bool) (off n : Nat)
  | writei (i : Nat) (src : Source) (off n : Nat)
  | itrunc (i : Nat)
  | ialloc (type : Nat)
  | iput (i : Nat)
  | iupdate (i : Nat)

/-- `none` for a panic -/
def step (sb : Superblock) (s : State) : Act → Option State
  | .beginOp => some s.beginOp
  | .endOp => some s.endOp
  | .evict b => s.evict b
  | .readi i dst off n => (Blocks.readi sb s i dst off n).map (·.1)
  | .writei i src off n => (Blocks.writei sb s i src off n).map (·.1)
  | .itrunc i => Blocks.itrunc sb s i
  | .ialloc type => (Blocks.ialloc sb s type).map (·.1)
  | .iput i => Blocks.iput sb s i
  | .iupdate i => s.iupdate sb i

/-- what the callers keep to: `ilock` is for an inode that is allocated, a count is a `uint`,
changes are made in a transaction, and the log pins its buffers -/
def Allowed (s : State) : Act → Prop
  | .beginOp => True
  | .endOp => s.outstanding ≠ 0
  | .evict b => b ∉ s.log
  | .readi i _ _ n => (s.inode i).type ≠ 0 ∧ n < 2 ^ 32
  | .writei i _ _ n => (s.inode i).type ≠ 0 ∧ n < 2 ^ 32 ∧ s.outstanding ≠ 0
  | .itrunc i => (s.inode i).type ≠ 0 ∧ s.outstanding ≠ 0
  | .ialloc _ => s.outstanding ≠ 0
  | .iput i => (s.inode i).type ≠ 0 ∧ s.outstanding ≠ 0
  | .iupdate _ => s.outstanding ≠ 0

def Step (sb : Superblock) (s : State) (a : Act) (t : State) : Prop :=
  Allowed s a ∧ step sb s a = some t

def State.stored (sb : Superblock) (s : State) (i : Nat) (x : Inode) : State :=
  { s.setInode i x with log := sb.iblock i :: s.log }

/-- `fileread` of an inode, with `f->off` behind it; the `int` becomes a `uint` -/
def fileread (sb : Superblock) (s : State) (i : Nat) (dst : Nat → Bool) (off : Nat) (n : Int) :
    Option (State × Nat × Int) :=
  match readi sb s i dst off (n % 2 ^ 32).toNat with
  | none => none
  | some (s, r, _) => some (s, if 0 < r then off + r.toNat else off, r)

section
variable {sb : Superblock} {s t u : State} {a : Act} {b c i j k type : Nat} {l : List Act}

/-! ## one call -/

theorem Changes.good (hg : Good sb s) (hc : Changes sb i s t)
    (hfree : (t.inode i).type = 0 → ∀ k, t.ref i k = 0)
    (hsize : (t.inode i).type ≠ 0 → (t.inode i).size ≤ maxfile * bsize)
    (hno : (t.inode i).type ≠ 0 → t.NoHoles i) : Good sb t := by
  obtain ⟨hw, hcoh⟩ := hg
  refine ⟨⟨hc.owned, fun j hj => ?_, fun j hj => ?_, fun j hj => ?_⟩, hc.coherent hcoh⟩
  · by_cases e : j = i
    · rw [e] at hj ⊢
      exact hfree hj
    · rw [(hc.inode j e).1] at hj
      rw [hc.other j e]
      exact hw.free j hj
  · by_cases e : j = i
    · rw [e] at hj ⊢
      exact hsize hj
    · rw [(hc.inode j e).1] at hj
      rw [(hc.inode j e).2]
      exact hw.size j hj
  · by_cases e : j = i
    · rw [e] at hj ⊢
      exact hno hj
    · rw [(hc.inode j e).1] at hj
      intro bn hbn
      rw [(hc.inode j e).2] at hbn
      rw [hc.other j e]
      exact hw.noHoles j hj bn hbn

theorem noHoles_of_size (h : (s.inode i).size = 0) : s.NoHoles i := by
  intro bn hbn
  rw [h] at hbn
  exact absurd hbn (Nat.not_lt_zero _)

theorem itrunc_good (hg : Good sb s) (hout : s.outstanding ≠ 0) (i : Nat) :
    ∃ t, itrunc sb s i = some t ∧ Changes sb i s t ∧ Good sb t ∧ (∀ k, t.ref i k = 0) ∧
      (t.inode i).size = 0 := by
  obtain ⟨t, e, hc, href, hsize, -⟩ := itrunc_spec hg.whole.owned hout i
  refine ⟨t, e, hc, hc.good hg (fun _ => href) (fun _ => ?_) (fun _ => noHoles_of_size hsize),
    href, hsize⟩
  rw [hsize]
  exact Nat.zero_le _

theorem stored_inode (x : Inode) (j : Nat) :
    (s.stored sb i x).inode j = if j = i then x else s.inode j := by
  show Function.update s.inode i x j = _
  by_cases e : j = i
  · rw [if_pos e, e, Function.update_self]
  · rw [if_neg e, Function.update_of_ne e]

theorem setInode_iupdate (sb : Superblock) (hout : s.outstanding ≠ 0) (i : Nat) (x : Inode) :
    (s.setInode i x).iupdate sb i = some (s.stored sb i x) := if_neg hout

theorem stored_good (hg : Good sb s) (x : Inode) (hx : ∀ k ≤ ndirect, x.addrs k = s.ref i (.addr k))
    (hfree : x.type = 0 → ∀ k, s.ref i k = 0) (hsize : x.size = 0) :
    Good sb (s.stored sb i x) ∧ Changes sb i s (s.stored sb i x) := by
  have href : (s.stored sb i x).ref = s.ref := by
    refine ref_congr (fun j k hk => ?_) (fun _ _ => rfl)
    rw [stored_inode]
    split
    · next e => rw [hx k hk, e, ref_addr hk]
    · rfl
  have hself : (s.stored sb i x).inode i = x := by
    rw [stored_inode, if_pos rfl]
  have hc : Changes sb i s (s.stored sb i x) := by
    refine changes_inode hg.whole.owned (fun j hj => ?_) href rfl rfl rfl ⟨[_], rfl⟩
    rw [stored_inode, if_neg hj]
  refine ⟨hc.good hg (fun h0 k => ?_) (fun _ => ?_) (fun _ => noHoles_of_size ?_), hc⟩
  · rw [hself] at h0
    rw [href]
    exact hfree h0 k
  · rw [hself, hsize]
    exact Nat.zero_le _
  · rw [hself, hsize]

theorem ialloc_good (hg : Good sb s) (hout : s.outstanding ≠ 0) (type : Nat) :
    ∃ t i, ialloc sb s type = some (t, i) ∧ Good sb t ∧
      (t = s ∨ (s.inode i).type = 0 ∧ Changes sb i s t) := by
  unfold ialloc
  cases e : (List.range' 1 (sb.ninodes - 1)).find? (fun i => (s.inode i).type == 0) with
  | none => exact ⟨s, 0, rfl, hg, Or.inl rfl⟩
  | some i =>
    have hfound := List.find?_some e
    have h0 : (s.inode i).type = 0 := eq_of_beq hfound
    have hempty := hg.whole.free i h0
    obtain ⟨ht, hc⟩ := stored_good (i := i) hg ⟨type, 0, fun _ => 0⟩
      (fun k _ => (hempty (.addr k)).symm) (fun _ => hempty) rfl
    refine ⟨_, i, ?_, ht, Or.inr ⟨h0, hc⟩⟩
    have hstore := setInode_iupdate sb hout i ⟨type, 0, fun _ => 0⟩
    unfold State.iupdate at hstore
    dsimp only
    rw [hstore]
    rfl

theorem iput_good (hg : Good sb s) (hout : s.outstanding ≠ 0) (i : Nat) :
    ∃ t, iput sb s i = some t ∧ Good sb t ∧ Changes sb i s t := by
  unfold iput
  obtain ⟨u, e, hc, hu, href, hsize⟩ := itrunc_good hg hout i
  have houtu : u.outstanding ≠ 0 := by
    rw [hc.outstanding]
    exact hout
  obtain ⟨ht, hc'⟩ := stored_good (i := i) hu { u.inode i with type := 0 }
    (fun k hk => (ref_addr hk).symm) (fun _ => href) hsize
  rw [e]
  dsimp only
  rw [setInode_iupdate sb houtu]
  exact ⟨_, rfl, ht, hc.trans hc'⟩

theorem logged_good (hg : Good sb s) (b i : Nat) : Good sb { s with log := b :: s.log } ∧
    Changes sb i s { s with log := b :: s.log } := by
  have hc : Changes sb i s { s with log := b :: s.log } :=
    changes_inode hg.whole.owned (fun _ _ => rfl) rfl rfl rfl rfl ⟨[_], rfl⟩
  exact ⟨⟨hg.whole.congr rfl (fun _ _ => rfl), hc.coherent hg.coherent⟩, hc⟩

/-! ## the log and the buffers -/

theorem meta_congr (hi : t.inode = s.inode) : sb.Meta t c ↔ sb.Meta s c := by
  have hp : ∀ j, t.ref j (.addr ndirect) = s.ref j (.addr ndirect) := fun j => by
    rw [ref_addr le_rfl, ref_addr le_rfl, hi]
  unfold Superblock.Meta
  refine or_congr_right (and_congr_right (fun _ => exists_congr (fun j => ?_)))
  rw [hp]

theorem beginOp_good (hg : Good sb s) : Good sb s.beginOp :=
  ⟨hg.whole.congr rfl (fun _ _ => rfl), fun c hc => hg.coherent c ((meta_congr rfl).mp hc)⟩

theorem endOp_good (hg : Good sb s) : Good sb s.endOp := by
  refine ⟨hg.whole.congr (endOp_inode s) (fun c _ => congrFun (endOp_cache s) c), fun c hc => ?_⟩
  have hs := hg.coherent c ((meta_congr (endOp_inode s)).mp hc)
  unfold State.endOp
  dsimp only
  split
  · -- a commit writes what is in the log
    refine Or.inr ?_
    show s.cache c = if c ∈ s.log then s.cache c else s.disk c
    split
    · rfl
    · next hno => exact hs.resolve_left hno
  · exact hs

theorem evict_meta (hg : Good sb s) (hb : b ∉ s.log) (hc : sb.Meta s c) :
    (s.setBlock b (s.disk b)).cache c = s.cache c := by
  show Function.update s.cache b (s.disk b) c = _
  by_cases e : c = b
  · rw [e] at hc ⊢
    rw [Function.update_self]
    exact ((hg.coherent b hc).resolve_left hb).symm
  · rw [Function.update_of_ne e]

theorem evict_good (hg : Good sb s) (hb : b ∉ s.log) : Good sb (s.setBlock b (s.disk b)) := by
  have hsame : ∀ c, sb.Meta s c → (s.setBlock b (s.disk b)).cache c = s.cache c :=
    fun c hc => evict_meta hg hb hc
  refine ⟨hg.whole.congr rfl hsame, fun c hc => ?_⟩
  have hs := (meta_congr rfl).mp hc
  rw [hsame c hs]
  exact hg.coherent c hs

/-! ## runs -/

/-- every call returns -/
theorem step_good (hg : Good sb s) (ha : Allowed s a) : ∃ t, step sb s a = some t ∧ Good sb t := by
  cases a with
  | beginOp => exact ⟨_, rfl, beginOp_good hg⟩
  | endOp => exact ⟨_, rfl, endOp_good hg⟩
  | evict b => exact ⟨_, if_neg ha, evict_good hg ha⟩
  | readi i dst off n =>
    obtain ⟨r, bytes, e⟩ := readi_same sb (hg.whole.size i ha.1) (hg.whole.noHoles i ha.1)
      ha.2 dst off
    exact ⟨s, congrArg (Option.map Prod.fst) e, hg⟩
  | writei i src off n =>
    obtain ⟨hi, hn, hout⟩ := ha
    obtain ⟨t, r, e, ht, hf⟩ := writei_whole hg.whole hout hi hn src off
    exact ⟨t, congrArg (Option.map Prod.fst) e, ht, hf.changes.coherent hg.coherent⟩
  | itrunc i =>
    obtain ⟨t, e, -, ht, -⟩ := itrunc_good hg ha.2 i
    exact ⟨t, e, ht⟩
  | ialloc type =>
    obtain ⟨t, i, e, ht, -⟩ := ialloc_good hg ha type
    exact ⟨t, congrArg (Option.map Prod.fst) e, ht⟩
  | iput i =>
    obtain ⟨t, e, ht, -⟩ := iput_good hg ha.2 i
    exact ⟨t, e, ht⟩
  | iupdate i => exact ⟨_, logWrite_eq ha _, (logged_good hg _ i).1⟩

theorem Step.good (hg : Good sb s) (h : Step sb s a t) : Good sb t := by
  obtain ⟨u, e, hu⟩ := step_good hg h.1
  obtain rfl := Option.some.inj (e.symm.trans h.2)
  exact hu

theorem run_good (hg : Good sb s) (hr : Run (Step sb) s l t) : Good sb t :=
  hr.invariant (I := Good sb) (fun _ _ _ hg h => h.good hg) hg

/-- a read of a file takes no block and writes nothing, inside of a transaction or not -/
theorem fileread_same (hg : Good sb s) (hi : (s.inode i).type ≠ 0) (dst : Nat → Bool) (off : Nat)
    (n : Int) : ∃ off' r, fileread sb s i dst off n = some (s, off', r) := by
  have hn : (n % 2 ^ 32).toNat < 2 ^ 32 := by omega
  obtain ⟨r, bytes, e⟩ := readi_same sb (hg.whole.size i hi) (hg.whole.noHoles i hi) hn dst off
  unfold fileread
  rw [e]
  exact ⟨_, r, rfl⟩

theorem good_fresh : Good smallDisk fresh :=
  ⟨whole_fresh, fun _ _ => Or.inr rfl⟩

theorem run_fresh : ∃ t, Run (Step smallDisk) fresh [.writei 2 (fun _ => some 97) 0 1, .endOp] t ∧
    (t.inode 2).type ≠ 0 := by
  have hi : (fresh.inode 2).type ≠ 0 := by decide
  have hn : 1 < 2 ^ 32 := by decide
  have hout : fresh.outstanding ≠ 0 := by decide
  obtain ⟨t, r, e, -, hf⟩ := writei_whole whole_fresh hout hi hn (fun _ => some 97) 0
  refine ⟨t.endOp, ?_, ?_⟩
  · refine .cons ⟨⟨hi, hn, hout⟩, congrArg (Option.map Prod.fst) e⟩ (.single ⟨?_, rfl⟩)
    show t.outstanding ≠ 0
    rw [hf.outstanding]
    exact hout
  · rw [endOp_inode, hf.type]
    exact hi

/-- in every state of every run the files have no holes, and reading changes nothing -/
theorem runs_noHoles (hg : Good sb s) (hr : Run (Step sb) s l t) (hi : (t.inode i).type ≠ 0) :
    t.NoHoles i ∧
    (∀ dst off n, n < 2 ^ 32 → ∃ r bytes, readi sb t i dst off n = some (t, r, bytes)) ∧
    ∀ dst off n, ∃ off' r, fileread sb t i dst off n = some (t, off', r) := by
  have ht := run_good hg hr
  exact ⟨ht.whole.noHoles i hi,
    fun dst off n hn => readi_same sb (ht.whole.size i hi) (ht.whole.noHoles i hi) hn dst off,
    fun dst off n => fileread_same ht hi dst off n⟩

theorem runs_noHoles_fresh : ∃ t, (t.NoHoles 2 ∧
    (∀ dst off n, n < 2 ^ 32 → ∃ r bytes, readi smallDisk t 2 dst off n = some (t, r, bytes)) ∧
    ∀ dst off n, ∃ off' r, fileread smallDisk t 2 dst off n = some (t, off', r)) := by
  obtain ⟨t, hr, hi⟩ := run_fresh
  exact ⟨t, runs_noHoles good_fresh hr hi⟩

/-- in every state of every run a block has one owner, and exactly the blocks with an owner are
marked -/
theorem runs_owned (hg : Good sb s) (hr : Run (Step sb) s l t) :
    (∀ i k j m, t.ref i k ≠ 0 → t.ref i k = t.ref j m → i = j ∧ k = m) ∧
    (∀ i k, t.ref i k ≠ 0 → (t.inode i).type ≠ 0 ∧ sb.data ≤ t.ref i k ∧ t.ref i k < sb.size ∧
      sb.Used t (t.ref i k)) ∧
    ∀ b, sb.data ≤ b → b < sb.size → sb.Used t b → ∃ i k, (t.inode i).type ≠ 0 ∧ t.ref i k = b := by
  obtain ⟨hw, -⟩ := run_good hg hr
  have hpos := sb.data_pos
  -- a free inode refers to nothing
  have htype : ∀ i k, t.ref i k ≠ 0 → (t.inode i).type ≠ 0 := fun i k h h0 => h (hw.free i h0 k)
  refine ⟨hw.owned.inj, fun i k h => ?_, fun b hb hlt hused => ?_⟩
  · obtain ⟨hlow, hlt⟩ := hw.owned.region i k h
    exact ⟨htype i k h, hlow, hlt, (hw.owned.used _ hlow hlt).mpr (Or.inr ⟨i, k, rfl⟩)⟩
  · rcases (hw.owned.used b hb hlt).mp hused with h0 | ⟨i, k, e⟩
    · exact absurd hb (by omega)
    · refine ⟨i, k, htype i k ?_, e⟩
      omega

theorem runs_owned_fresh : ∃ t, (∀ i k j m, t.ref i k ≠ 0 → t.ref i k = t.ref j m → i = j ∧ k = m) ∧
    (∀ i k, t.ref i k ≠ 0 → (t.inode i).type ≠ 0 ∧ smallDisk.data ≤ t.ref i k ∧
      t.ref i k < smallDisk.size ∧ smallDisk.Used t (t.ref i k)) ∧
    ∀ b, smallDisk.data ≤ b → b < smallDisk.size → smallDisk.Used t b →
      ∃ i k, (t.inode i).type ≠ 0 ∧ t.ref i k = b := by
  obtain ⟨t, hr, -⟩ := run_fresh
  exact ⟨t, runs_owned good_fresh hr⟩

end

end Blocks
