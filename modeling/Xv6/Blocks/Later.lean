import Xv6.Blocks.Runs

/-!
# What later reads see

A file that nobody writes to can still change: a buffer that the log does not have is read again
from the disk.  A file shows one content for good if each of its bytes is in a block of the log, or
is the same on the disk.
-/

namespace Blocks
open Lib Fs

/-- the call may change what the file of `i` holds -/
def Act.Touches (i : Nat) : Act → Prop
  | .writei j _ _ _ => j = i
  | .itrunc j => j = i
  | .iput j => j = i
  | _ => False

/-- behind any calls, commits and buffers that are read again, but no call for the file of `i` -/
def Later (sb : Superblock) (i : Nat) (s t : State) : Prop :=
  ∃ l, Run (guarded (fun _ a => ¬ a.Touches i) (Step sb)) s l t

def Shows (sb : Superblock) (s : State) (i size : Nat) (content : Nat → UInt8) : Prop :=
  ∀ t, Later sb i s t → Holds sb t i size content

/-- the cache has the bytes of `content`, and so has the disk, now or with the next commit -/
structure Settled (s : State) (i size : Nat) (content : Nat → UInt8) : Prop where
  type : (s.inode i).type ≠ 0
  size_eq : (s.inode i).size = size
  byte : ∀ p < size, s.byte i p = content p
  disk : ∀ p < size, s.ref i (slotOf (p / bsize)) ∈ s.log ∨
    s.disk (s.ref i (slotOf (p / bsize))) (p % bsize) = content p

section
variable {sb : Superblock} {s t u : State} {a : Act} {b i j size : Nat} {content : Nat → UInt8}

theorem Later.refl (sb : Superblock) (i : Nat) (s : State) : Later sb i s s := ⟨[], .nil s⟩

theorem Later.single (ha : ¬ a.Touches i) (h : Step sb s a t) : Later sb i s t :=
  ⟨[a], .single ⟨ha, h⟩⟩

/-! ## one call -/

theorem Changes.settled (hc : Changes sb j s t) (hne : i ≠ j) (h : Settled s i size content) :
    Settled t i size content := by
  obtain ⟨htype, hsize⟩ := hc.inode i hne
  refine ⟨htype.trans_ne h.type, hsize.trans h.size_eq, fun p hp => ?_, fun p hp => ?_⟩
  · rw [hc.byte i hne]
    exact h.byte p hp
  · rw [hc.other i hne, hc.disk]
    obtain ⟨k, hk⟩ := hc.log
    rw [hk]
    exact (h.disk p hp).imp_left (List.mem_append_right k)

/-- the address of a block, when a buffer is read again -/
theorem evict_ref (hg : Good sb s) (hb : b ∉ s.log) : (s.setBlock b (s.disk b)).ref = s.ref := by
  refine ref_congr (fun _ _ _ => rfl) (fun j hj => ?_)
  exact evict_meta hg hb (Or.inr ⟨hj, j, rfl⟩)

theorem evict_settled (hg : Good sb s) (hb : b ∉ s.log) (h : Settled s i size content) :
    Settled (s.setBlock b (s.disk b)) i size content := by
  have href := evict_ref hg hb
  refine ⟨h.type, h.size_eq, fun p hp => ?_, fun p hp => ?_⟩
  · have hbyte := h.byte p hp
    have hdisk := h.disk p hp
    unfold State.byte at hbyte ⊢
    rw [href]
    by_cases h0 : s.ref i (slotOf (p / bsize)) = 0
    · rw [if_pos h0] at hbyte ⊢
      exact hbyte
    · rw [if_neg h0] at hbyte ⊢
      show Function.update s.cache b (s.disk b) _ _ = _
      by_cases e : s.ref i (slotOf (p / bsize)) = b
      · -- the byte comes from the disk now
        rw [e, Function.update_self]
        rw [e] at hdisk
        exact hdisk.resolve_left hb
      · rw [Function.update_of_ne e]
        exact hbyte
  · rw [href]
    exact h.disk p hp

theorem endOp_settled (hg : Good sb s) (h : Settled s i size content) :
    Settled s.endOp i size content := by
  have href : s.endOp.ref = s.ref := by
    refine ref_congr (fun j k _ => ?_) (fun _ _ => congrFun (endOp_cache s) _)
    rw [endOp_inode]
  have hbyte : s.endOp.byte = s.byte := by
    funext j p
    unfold State.byte
    rw [href, endOp_cache]
  refine ⟨?_, ?_, fun p hp => ?_, fun p hp => ?_⟩
  · rw [endOp_inode]
    exact h.type
  · rw [endOp_inode]
    exact h.size_eq
  · rw [hbyte]
    exact h.byte p hp
  · rw [href]
    have hdisk := h.disk p hp
    have hb := h.byte p hp
    have href0 : s.ref i (slotOf (p / bsize)) ≠ 0 :=
      (hg.whole.noHoles i h.type).mapped (by rwa [h.size_eq])
    unfold State.byte at hb
    rw [if_neg href0] at hb
    unfold State.endOp
    dsimp only
    split
    · -- a commit writes what is in the log
      refine Or.inr ?_
      show (if _ ∈ s.log then _ else _ : Block) _ = _
      split
      · exact hb
      · next hno => exact hdisk.resolve_left hno
    · exact hdisk

theorem Step.settled (hg : Good sb s) (ha : ¬ a.Touches i) (hs : Step sb s a t)
    (h : Settled s i size content) : Settled t i size content := by
  obtain ⟨hallow, e⟩ := hs
  cases a with
  | beginOp =>
    obtain rfl := Option.some.inj e
    exact ⟨h.type, h.size_eq, h.byte, h.disk⟩
  | endOp =>
    obtain rfl := Option.some.inj e
    exact endOp_settled hg h
  | evict b =>
    obtain rfl := Option.some.inj ((if_neg hallow).symm.trans e)
    exact evict_settled hg hallow h
  | readi j dst off n =>
    obtain ⟨r, bytes, e'⟩ := readi_same sb (hg.whole.size j hallow.1) (hg.whole.noHoles j hallow.1)
      hallow.2 dst off
    obtain rfl := Option.some.inj ((congrArg (Option.map Prod.fst) e').symm.trans e)
    exact h
  | writei j src off n =>
    obtain ⟨hj, hn, hout⟩ := hallow
    obtain ⟨u, r, e', -, hf⟩ := writei_whole hg.whole hout hj hn src off
    obtain rfl := Option.some.inj ((congrArg (Option.map Prod.fst) e').symm.trans e)
    exact hf.changes.settled (fun e => ha e.symm) h
  | itrunc j =>
    obtain ⟨u, e', hc, -⟩ := itrunc_good hg hallow.2 j
    obtain rfl := Option.some.inj (e'.symm.trans e)
    exact hc.settled (fun e => ha e.symm) h
  | ialloc type =>
    obtain ⟨u, j, e', -, hu⟩ := ialloc_good hg hallow type
    obtain rfl := Option.some.inj ((congrArg (Option.map Prod.fst) e').symm.trans e)
    rcases hu with rfl | ⟨h0, hc⟩
    · exact h
    · refine hc.settled ?_ h
      rintro rfl
      exact h.type h0
  | iput j =>
    obtain ⟨u, e', -, hc⟩ := iput_good hg hallow.2 j
    obtain rfl := Option.some.inj (e'.symm.trans e)
    exact hc.settled (fun e => ha e.symm) h
  | iupdate j =>
    obtain rfl := Option.some.inj ((logWrite_eq hallow _).symm.trans e)
    exact (logged_good hg _ (i + 1)).2.settled (Nat.succ_ne_self i).symm h

/-! ## runs -/

theorem Later.settled (hg : Good sb s) (hl : Later sb i s t) (h : Settled s i size content) :
    Good sb t ∧ Settled t i size content := by
  obtain ⟨l, hr⟩ := hl
  refine hr.invariant (I := fun s => Good sb s ∧ Settled s i size content) ?_ ⟨hg, h⟩
  rintro s a t ⟨hg, h⟩ ⟨ha, hs⟩
  exact ⟨hs.good hg, hs.settled hg ha h⟩

theorem Settled.holds (hg : Good sb s) (h : Settled s i size content) :
    Holds sb s i size content := by
  have hold := holds_of_noHoles sb (hg.whole.size i h.type) (hg.whole.noHoles i h.type)
  rw [h.size_eq] at hold
  exact hold.congr h.byte

theorem Holds.byte (hg : Good sb s) (hi : (s.inode i).type ≠ 0) (h : Holds sb s i size content)
    {p : Nat} (hp : p < size) : s.byte i p = content p := by
  have hlim : maxfile * bsize < 2 ^ 32 := by decide
  have hsize := hg.whole.size i hi
  have hold := holds_of_noHoles sb hsize (hg.whole.noHoles i hi)
  rw [h.size_eq] at hold hsize
  exact hold.eq h (by omega) hp

theorem shows_iff (hg : Good sb s) (hi : (s.inode i).type ≠ 0) :
    Shows sb s i size content ↔ Settled s i size content := by
  constructor
  · intro h
    have hnow := h s (Later.refl sb i s)
    refine ⟨hi, hnow.size_eq, fun p hp => hnow.byte hg hi hp, fun p hp => ?_⟩
    by_cases hin : s.ref i (slotOf (p / bsize)) ∈ s.log
    · exact Or.inl hin
    · -- the buffer is read again
      refine Or.inr ?_
      have hlater := h _ (Later.single (a := .evict (s.ref i (slotOf (p / bsize)))) nofun
        ⟨hin, if_neg hin⟩)
      have hb := hlater.byte (evict_good hg hin) hi hp
      have href0 : s.ref i (slotOf (p / bsize)) ≠ 0 :=
        (hg.whole.noHoles i hi).mapped (by rwa [hnow.size_eq])
      unfold State.byte at hb
      rw [evict_ref hg hin, if_neg href0] at hb
      rw [← hb]
      show _ = Function.update s.cache _ _ _ _
      rw [Function.update_self]
  · intro h t hl
    obtain ⟨ht, hs⟩ := hl.settled hg h
    exact hs.holds ht

end

end Blocks
