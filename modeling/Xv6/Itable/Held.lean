import Xv6.Itable.Shape
import Xv6.Lib.Ensures
import Xv6.Lib.Refs

/-!
# References to inodes

`Held n w held loose`: the counts of the table are right when the call has a reference to each inode
of `held`, and an inode without links is some process's current directory or one of `loose`.  Each
function on inodes has one lemma that says what it does to them, and that it does not lock an inode
that is free.
-/

namespace Itable
open Fs Ulib Lib

/-- a failure that is not about an inode that is free, or no directory -/
def Tame (e : Stop) : Prop := e ≠ .ilockNoType ∧ e ≠ .dirinameNotDir

structure Held (n : Nat) (w : World) (held loose : List Nat) : Prop where
  shape : Shape n w.disk
  sound : Sound w.disk w.cwd
  ref : ∀ i, i ≠ rootIno → w.ref i = refs w.cwd i + held.count i
  /-- `getcwd` does not give all its references to the root back -/
  root : refs w.cwd rootIno + held.count rootIno ≤ w.ref rootIno
  idle : ∀ i, i ∉ loose → (w.disk i).type ≠ .free → (w.disk i).nlink = 0 →
    w.valid i = true ∧ ∃ q, w.cwd q = some i

/-- at most the entry of the table for inode `i` is changed -/
structure Only (i : Nat) (w w' : World) : Prop where
  disk : w'.disk = w.disk
  cwd : w'.cwd = w.cwd
  valid : ∀ j, j ≠ i → w'.valid j = w.valid j

/-- paths that start here lead to inodes that are allocated -/
def Good (D : Disk) (i : Nat) : Prop :=
  (D i).type ≠ .free ∧ (IsDir D i → ∀ y, Above (parent D) i y → IsDir D y)

section
variable {n i d k : Nat} {D : Disk} {w w' : World} {held loose : List Nat} {e : Dirent}
  {name : Str} {q : Fin nproc} {es : List Dirent}

theorem Held.le (h : Held n w held loose) (i : Nat) : refs w.cwd i + held.count i ≤ w.ref i := by
  by_cases hi : i = rootIno
  · rw [hi]
    exact h.root
  · exact (h.ref i hi).ge

theorem Held.pos (h : Held n w held loose) (hi : i ∈ held) : 0 < w.ref i := by
  have h1 := h.le i
  have h2 := List.count_pos_iff.mpr hi
  omega

theorem Held.perm {held' : List Nat} (h : Held n w held loose) (hp : held.Perm held') :
    Held n w held' loose := by
  refine ⟨h.shape, h.sound, fun i hi => ?_, ?_, h.idle⟩
  · rw [← hp.count_eq]
    exact h.ref i hi
  · rw [← hp.count_eq]
    exact h.root

theorem refs_pos (hq : w.cwd q = some i) : 0 < refs w.cwd i :=
  Nat.pos_of_ne_zero (fun h0 => refs_eq_zero_iff.mp h0 q hq)

theorem Held.ref_pos (h : Held n w held loose) (hq : w.cwd q = some i) : 0 < w.ref i := by
  have h1 := h.le i
  have h2 := refs_pos hq
  omega

theorem Shape.root_nlink (h : Shape n D) : (D rootIno).nlink ≠ 0 := by
  have h1 := h.count rootIno h.root.ne_free
  rw [if_pos rfl] at h1
  omega

/-! ## `iget`, `idup`, `ilock` -/

theorem Held.take (h : Held n w held loose) (hv : ∀ j, j ≠ i → w'.valid j = w.valid j)
    (hi : w'.valid i = w.valid i ∨ w.ref i = 0) (hd : w'.disk = w.disk) (hc : w'.cwd = w.cwd)
    (hr : w'.ref = Function.update w.ref i (w.ref i + 1)) : Held n w' (i :: held) loose := by
  refine ⟨?_, ?_, fun j hj => ?_, ?_, fun j hj ht hn => ?_⟩
  · rw [hd]
    exact h.shape
  · rw [hd, hc]
    exact h.sound
  · rw [hr, hc]
    by_cases hji : j = i
    · rw [hji, Function.update_self, List.count_cons_self, h.ref i (hji ▸ hj)]
      rfl
    · rw [Function.update_of_ne hji, List.count_cons_of_ne (Ne.symm hji)]
      exact h.ref j hj
  · rw [hr, hc]
    have h1 := h.root
    by_cases hji : rootIno = i
    · rw [← hji, Function.update_self, List.count_cons_self]
      omega
    · rw [Function.update_of_ne hji, List.count_cons_of_ne (Ne.symm hji)]
      exact h1
  · rw [hd] at ht hn
    obtain ⟨hval, hq⟩ := h.idle j hj ht hn
    rw [hc]
    refine ⟨?_, hq⟩
    by_cases hji : j = i
    · rcases hi with hi | hi
      · rw [hji, hi, ← hji]
        exact hval
      · obtain ⟨q, hq⟩ := hq
        exact absurd (hji ▸ hi) (h.ref_pos hq).ne'
    · rw [hv j hji]
      exact hval

theorem iget_spec (h : Held n w held loose) (i : Nat) :
    Ensures Tame (iget n i w) (fun _ w' => Held n w' (i :: held) loose ∧ Only i w w') := by
  unfold iget
  by_cases hpos : 0 < w.ref i
  · rw [if_pos hpos]
    exact ⟨h.take (fun _ _ => rfl) (Or.inl rfl) rfl rfl rfl, rfl, rfl, fun _ _ => rfl⟩
  · rw [if_neg hpos]
    have h0 : w.ref i = 0 := Nat.eq_zero_of_not_pos hpos
    split
    · exact ⟨nofun, nofun⟩
    · have hv : ∀ j, j ≠ i → Function.update w.valid i false j = w.valid j :=
        fun j hj => Function.update_of_ne hj ..
      refine ⟨h.take hv (Or.inr h0) rfl rfl ?_, rfl, rfl, hv⟩
      rw [h0]

theorem idup_spec (h : Held n w held loose) (i : Nat) :
    Ensures Tame (idup i w) (fun _ w' => Held n w' (i :: held) loose ∧ Only i w w') :=
  ⟨h.take (fun _ _ => rfl) (Or.inl rfl) rfl rfl rfl, rfl, rfl, fun _ _ => rfl⟩

theorem ilock_spec (h : Held n w held loose) (hi : 0 < w.ref i) (ht : (w.disk i).type ≠ .free) :
    Ensures Tame (ilock i w)
      (fun _ w' => Held n w' held loose ∧ Only i w w' ∧ w'.valid i = true) := by
  unfold ilock
  rw [if_neg (Nat.not_lt.mpr hi)]
  by_cases hv : w.valid i = true
  · rw [if_pos hv]
    exact ⟨h, ⟨rfl, rfl, fun _ _ => rfl⟩, hv⟩
  · rw [if_neg hv, if_neg ht]
    refine ⟨⟨h.shape, h.sound, h.ref, h.root, fun j hj htj hn => ?_⟩,
      ⟨rfl, rfl, fun j hj => Function.update_of_ne hj ..⟩, Function.update_self ..⟩
    obtain ⟨hval, hq⟩ := h.idle j hj htj hn
    have hji : j ≠ i := by
      rintro rfl
      exact hv hval
    exact ⟨(Function.update_of_ne hji ..).trans hval, hq⟩

/-! ## `iput` -/

/-- the state after `iput` -/
def World.put (w : World) (i : Nat) : World :=
  { w.reclaim i with ref := Function.update w.ref i (w.ref i - 1) }

theorem iput_eq (i : Nat) (w : World) : iput i w = .ok ((), w.put i) := rfl

theorem put_cwd (w : World) (i : Nat) : (w.put i).cwd = w.cwd := by
  unfold World.put World.reclaim
  split <;> rfl

theorem put_of_not (hno : ¬ (w.ref i = 1 ∧ w.valid i = true ∧ (w.disk i).nlink = 0)) :
    w.put i = { w with ref := Function.update w.ref i (w.ref i - 1) } := by
  unfold World.put World.reclaim
  rw [if_neg hno]

theorem put_of_last (hc : w.ref i = 1 ∧ w.valid i = true ∧ (w.disk i).nlink = 0) :
    w.put i = { w with
      disk := Function.update w.disk i ⟨.free, 0, []⟩
      ref := Function.update w.ref i (w.ref i - 1)
      valid := Function.update w.valid i false } := by
  unfold World.put World.reclaim
  rw [if_pos hc]
  rfl

theorem put_disk_or (w : World) (i : Nat) :
    (w.put i).disk = w.disk ∨ (w.put i).disk = Function.update w.disk i ⟨.free, 0, []⟩ := by
  unfold World.put World.reclaim
  split
  · exact Or.inr rfl
  · exact Or.inl rfl

theorem put_disk_of_ne (h : k ≠ i) : (w.put i).disk k = w.disk k := by
  rcases put_disk_or w i with hd | hd
  · rw [hd]
  · rw [hd, Function.update_of_ne h]

theorem put_valid_of_ne (h : k ≠ i) : (w.put i).valid k = w.valid k := by
  unfold World.put World.reclaim
  split
  · exact Function.update_of_ne h ..
  · rfl

theorem put_isDir (h : IsDir (w.put i).disk k) : (w.put i).disk k = w.disk k := by
  rcases put_disk_or w i with hd | hd
  · rw [hd]
  · by_cases hk : k = i
    · unfold IsDir at h
      rw [hd, hk, Function.update_self] at h
      exact absurd h nofun
    · exact put_disk_of_ne hk

theorem put_parent (h : parent (w.put i).disk k = some d) : parent w.disk k = some d := by
  rcases put_disk_or w i with hd | hd
  · rwa [hd] at h
  · by_cases hk : k = i
    · unfold parent at h
      rw [hd, hk, Function.update_self] at h
      exact absurd h nofun
    · rwa [hd, parent_update_of_ne hk] at h

theorem Held.drop_ref (h : Held n w (i :: held) loose) (j : Nat) (hj : j ≠ rootIno) :
    Function.update w.ref i (w.ref i - 1) j = refs w.cwd j + held.count j := by
  by_cases hji : j = i
  · have h1 := h.ref i (hji ▸ hj)
    rw [List.count_cons_self] at h1
    rw [hji, Function.update_self]
    omega
  · rw [Function.update_of_ne hji, h.ref j hj, List.count_cons_of_ne (Ne.symm hji)]

theorem Held.drop_root (h : Held n w (i :: held) loose) :
    refs w.cwd rootIno + held.count rootIno ≤
      Function.update w.ref i (w.ref i - 1) rootIno := by
  have h1 := h.root
  by_cases hji : rootIno = i
  · rw [← hji, List.count_cons_self] at h1
    rw [← hji, Function.update_self]
    omega
  · rw [List.count_cons_of_ne (Ne.symm hji)] at h1
    rw [Function.update_of_ne hji]
    exact h1

theorem put_keep (h : Held n w (i :: held) loose) (hi : i ∉ loose)
    (ht : (w.disk i).type ≠ .free) : Held n (w.put i) held loose ∧ Only i w (w.put i) := by
  have hno : ¬ (w.ref i = 1 ∧ w.valid i = true ∧ (w.disk i).nlink = 0) := by
    rintro ⟨h1, -, hn⟩
    obtain ⟨-, q, hq⟩ := h.idle i hi ht hn
    have h2 := h.le i
    have h3 := refs_pos hq
    rw [List.count_cons_self] at h2
    omega
  rw [put_of_not hno]
  exact ⟨⟨h.shape, h.sound, h.drop_ref, h.drop_root, h.idle⟩, rfl, rfl, fun _ _ => rfl⟩

theorem put_disk (hr : i ≠ rootIno → w.ref i = refs w.cwd i + 1)
    (hroot : (w.disk rootIno).nlink ≠ 0) (hv : (w.disk i).nlink = 0 → w.valid i = true) :
    (w.put i).disk = if (w.disk i).nlink = 0 ∧ ∀ q, w.cwd q ≠ some i then
      Function.update w.disk i ⟨.free, 0, []⟩ else w.disk := by
  unfold World.put World.reclaim
  by_cases hn : (w.disk i).nlink = 0
  · have hi : i ≠ rootIno := by
      rintro rfl
      exact hroot hn
    have h1 : w.ref i = 1 ↔ ∀ q, w.cwd q ≠ some i := by
      rw [hr hi, ← refs_eq_zero_iff]
      omega
    by_cases hq : ∀ q, w.cwd q ≠ some i
    · rw [if_pos ⟨h1.mpr hq, hv hn, hn⟩, if_pos ⟨hn, hq⟩]
      rfl
    · rw [if_neg (fun hc => hq (h1.mp hc.1)), if_neg (fun hc => hq hc.2)]
  · rw [if_neg (fun hc => hn hc.2.2), if_neg (fun hc => hn hc.1)]

/-- an inode of `loose` is freed, if no process is in it and it has no links -/
theorem put_loose (h : Held n w (i :: held) (i :: loose)) (hi : i ∉ held) (hl : i ∉ loose)
    (hv : (w.disk i).nlink = 0 → w.valid i = true) (ht : (w.disk i).type ≠ .free)
    (hno : (w.disk i).nlink = 0 → (∀ q, w.cwd q ≠ some i) →
      ∀ q c, w.cwd q = some c → ¬ Above (parent w.disk) c i) :
    Held n (w.put i) held loose := by
  have hcount : held.count i = 0 := List.count_eq_zero.mpr hi
  have hr : i ≠ rootIno → w.ref i = refs w.cwd i + 1 := by
    intro hroot
    have h1 := h.ref i hroot
    rwa [List.count_cons_self, hcount] at h1
  have hrootn := h.shape.root_nlink
  have hcwd := put_cwd w i
  have href : ∀ j, (w.put i).ref j = Function.update w.ref i (w.ref i - 1) j := fun _ => rfl
  by_cases hfree : (w.disk i).nlink = 0 ∧ ∀ q, w.cwd q ≠ some i
  · obtain ⟨hn, hq⟩ := hfree
    have hroot : i ≠ rootIno := by
      rintro rfl
      exact hrootn hn
    have hlinks : links n w.disk i = 0 := by
      have h1 := h.shape.count i ht
      omega
    have hdisk := put_disk hr hrootn hv
    rw [if_pos ⟨hn, hq⟩] at hdisk
    have hvalid : ∀ j, j ≠ i → (w.put i).valid j = w.valid j := by
      intro j hj
      unfold World.put World.reclaim
      split
      · exact Function.update_of_ne hj ..
      · rfl
    refine ⟨?_, ?_, fun j hj => ?_, ?_, fun j hj htj hnj => ?_⟩
    · rw [hdisk]
      exact h.shape.erase (h.shape.pos ht) hroot hlinks
    · rw [hdisk, hcwd]
      exact h.sound.erase (hno hn hq)
    · rw [href, hcwd]
      exact h.drop_ref j hj
    · rw [href, hcwd]
      exact h.drop_root
    · rw [hdisk] at htj hnj
      have hji : j ≠ i := by
        rintro rfl
        rw [Function.update_self] at htj
        exact htj rfl
      rw [Function.update_of_ne hji] at htj hnj
      rw [hvalid j hji, hcwd]
      exact h.idle j (fun hmem => (List.mem_cons.mp hmem).elim hji hj) htj hnj
  · have hnot : ¬ (w.ref i = 1 ∧ w.valid i = true ∧ (w.disk i).nlink = 0) := by
      rintro ⟨h1, -, hn⟩
      have hroot : i ≠ rootIno := by
        rintro rfl
        exact hrootn hn
      refine hfree ⟨hn, ?_⟩
      rw [← refs_eq_zero_iff]
      have h2 := hr hroot
      omega
    rw [put_of_not hnot]
    refine ⟨h.shape, h.sound, h.drop_ref, h.drop_root, fun j hj htj hnj => ?_⟩
    by_cases hji : j = i
    · rw [hji] at hnj ⊢
      refine ⟨hv hnj, ?_⟩
      by_contra hno'
      exact hfree ⟨hnj, fun q hq => hno' ⟨q, hq⟩⟩
    · exact h.idle j (fun hmem => (List.mem_cons.mp hmem).elim hji hj) htj hnj

end

end Itable
