import Xv6.Itable.Remove
import Xv6.Nlink.Cwd
import Xv6.Nlink.Exact

/-!
# What has a link is reached

`Tree`: the directories with links form a tree below the root, files have as many links as there are
entries for them, and a directory without links has no entry but `.` and `..`.  With it, everything
that has a link is reached from the root (`Tree.reached`).
-/

namespace Nlink
open Fs Ulib Lib
open Itable (InodeType lookup rest_getElem? two_le_of_dots)

/-- the entries behind `.` and `..` -/
def Inode.rest (x : Inode) : List Dirent := x.entries.drop 2

/-- the entries for inode `i` behind `.` and `..`, in the directories of a disk with `n` inodes -/
def named (n : Nat) (D : Disk) (i : Nat) : Nat :=
  tally n (fun d => (D d).rest) (fun e => e.inum = i)

/-- the directories in directory `x` -/
def kids (D : Disk) (x : Inode) : Nat := x.rest.countP (fun e => (D e.inum).type = .dir)

structure Formed (n i : Nat) (x : Inode) : Prop where
  bound : x.type ≠ .free → 0 < i ∧ i < n
  plain : x.type ≠ .dir → x.entries = []
  clear : x.type = .free → x.nlink = 0
  dots : x.type = .dir → ∃ p r, p ≠ 0 ∧
    x.entries = ⟨i, padded ['.']⟩ :: ⟨p, padded ['.', '.']⟩ :: r
  size : x.entries.length ≤ maxEntries

/-- an inode with `k` entries for it and `m` directories in it; only the root has a link without an
entry -/
def Suits (i : Nat) (x : Inode) (k m : Nat) : Prop :=
  match x.type with
  | .free => k = 0
  | .dir => x.nlink.toInt = k + m + (if i = rootIno then 1 else 0) ∧ k ≤ 1 ∧
      (i = rootIno → k = 0) ∧ (k = 0 → i ≠ rootIno → ∀ e ∈ x.rest, e.inum = 0)
  | .file => x.nlink.toInt = k
  | .device => x.nlink.toInt = k

/-- a directory is below the one that has an entry for it -/
def Ranked (D : Disk) (r : Nat → Nat) : Prop :=
  ∀ d, ∀ e ∈ (D d).rest, e.inum ≠ 0 → (D e.inum).type = .dir → r d < r e.inum

structure Tree (n : Nat) (D : Disk) : Prop where
  root : (D rootIno).type = .dir
  formed : ∀ i, Formed n i (D i)
  suits : ∀ i, i ≠ 0 → Suits i (D i) (named n D i) (kids D (D i))
  ranked : ∃ r, Ranked D r

section
variable {n i j d dp ip off k m : Nat} {D D' : Disk} {x : Inode} {e : Dirent}

/-! ## what suits an inode -/

theorem Suits.dir (h : Suits i x k m) (hd : x.type = .dir) :
    x.nlink.toInt = k + m + (if i = rootIno then 1 else 0) ∧ k ≤ 1 ∧ (i = rootIno → k = 0) ∧
      (k = 0 → i ≠ rootIno → ∀ e ∈ x.rest, e.inum = 0) := by
  unfold Suits at h
  rwa [hd] at h

theorem Suits.free (h : Suits i x k m) (hf : x.type = .free) : k = 0 := by
  unfold Suits at h
  rwa [hf] at h

theorem Suits.count (h : Suits i x k m) (hf : x.type ≠ .free) (hd : x.type ≠ .dir) :
    x.nlink.toInt = k := by
  unfold Suits at h
  cases ht : x.type with
  | free => exact absurd ht hf
  | dir => exact absurd ht hd
  | file => rwa [ht] at h
  | device => rwa [ht] at h

theorem Suits.of_count (hf : x.type ≠ .free) (hd : x.type ≠ .dir) (h : x.nlink.toInt = k) :
    Suits i x k m := by
  unfold Suits
  cases ht : x.type with
  | free => exact absurd ht hf
  | dir => exact absurd ht hd
  | file => exact h
  | device => exact h

theorem Suits.of_dir (hd : x.type = .dir)
    (h : x.nlink.toInt = k + m + (if i = rootIno then 1 else 0) ∧ k ≤ 1 ∧ (i = rootIno → k = 0) ∧
      (k = 0 → i ≠ rootIno → ∀ e ∈ x.rest, e.inum = 0)) : Suits i x k m := by
  unfold Suits
  rw [hd]
  exact h

theorem Suits.of_free (hf : x.type = .free) (hk : k = 0) : Suits i x k m := by
  unfold Suits
  rw [hf]
  exact hk

/-! ## entries behind `.` and `..` -/

theorem rest_mem (hoff : 2 ≤ off) (hk : x.entries[off]? = some e) : e ∈ x.rest :=
  List.mem_of_getElem? (rest_getElem? hoff hk)

theorem two_le_of_lookup {name : Str} (h : Formed n d x) (hd : x.type = .dir)
    (hl : lookup x.entries name = some (ip, off))
    (hdots : ¬ (namecmpEq name ['.'] = true ∨ namecmpEq name ['.', '.'] = true)) : 2 ≤ off := by
  obtain ⟨p, r, -, he⟩ := h.dots hd
  rw [he] at hl
  exact two_le_of_dots hl hdots

/-! ## counting -/

theorem rest_update (D : Disk) (d : Nat) (x : Inode) :
    (fun j => (Function.update D d x j).rest) = Function.update (fun j => (D j).rest) d x.rest := by
  funext j
  exact Function.apply_update (fun _ => Inode.rest) D d x j

theorem named_update (hd : d < n) (i : Nat) : named n (Function.update D d x) i +
    names (D d).rest i = named n D i + names x.rest i := by
  unfold named
  rw [rest_update]
  exact tally_update hd

theorem named_pos (hd : d < n) (he : e ∈ (D d).rest) : 0 < named n D e.inum :=
  tally_pos hd he (decide_eq_true rfl)

theorem exists_of_named (h : 0 < named n D i) : ∃ d, ∃ e ∈ (D d).rest, e.inum = i := by
  unfold named tally at h
  obtain ⟨d, -, hd⟩ := Finset.exists_ne_zero_of_sum_ne_zero (Nat.pos_iff_ne_zero.mp h)
  obtain ⟨e, he, hi⟩ := List.countP_pos_iff.mp (Nat.pos_of_ne_zero hd)
  exact ⟨d, e, he, of_decide_eq_true hi⟩

theorem kids_congr (h : ∀ e ∈ x.rest, (D' e.inum).type = .dir ↔ (D e.inum).type = .dir) :
    kids D' x = kids D x := by
  unfold kids
  apply List.countP_congr
  intro e he
  rw [decide_eq_true_iff, decide_eq_true_iff]
  exact h e he

/-! ## the tree -/

/-- entries that go, and directories that do -/
theorem Ranked.of_subset {r : Nat → Nat} (h : Ranked D r) (hsub : ∀ d, ∀ e ∈ (D' d).rest,
    e.inum ≠ 0 → (D' e.inum).type = .dir → e ∈ (D d).rest ∧ (D e.inum).type = .dir) :
    Ranked D' r := by
  intro d e he h0 htd
  obtain ⟨hold, hdir⟩ := hsub d e he h0 htd
  exact h d e hold h0 hdir

theorem Tree.isDir (h : Tree n D) (he : e ∈ (D d).rest) : (D d).type = .dir := by
  by_contra hno
  unfold Inode.rest at he
  rw [(h.formed d).plain hno] at he
  exact absurd he List.not_mem_nil

theorem Tree.lt (h : Tree n D) (ht : (D i).type ≠ .free) : i < n := ((h.formed i).bound ht).2

theorem Tree.ne_zero (h : Tree n D) (ht : (D i).type ≠ .free) : i ≠ 0 :=
  ((h.formed i).bound ht).1.ne'

theorem dir_ne_free (hd : x.type = .dir) : x.type ≠ .free := by
  rw [hd]
  nofun

theorem Tree.type_zero (h : Tree n D) : (D 0).type = .free := by
  by_contra hno
  exact h.ne_zero hno rfl

theorem Tree.named_type (h : Tree n D) (he : e ∈ (D d).rest) (h0 : e.inum ≠ 0) :
    (D e.inum).type ≠ .free := by
  intro ht
  have hpos := named_pos (h.lt (dir_ne_free (h.isDir he))) he
  exact hpos.ne' ((h.suits e.inum h0).free ht)

/-- a directory with an entry has a link -/
theorem Tree.live (h : Tree n D) (he : e ∈ (D d).rest) (h0 : e.inum ≠ 0) :
    1 ≤ (D d).nlink.toInt := by
  have hd := h.isDir he
  obtain ⟨hlink, -, -, hgone⟩ := (h.suits d (h.ne_zero (dir_ne_free hd))).dir hd
  by_cases hroot : d = rootIno
  · rw [if_pos hroot] at hlink
    omega
  · have hk : named n D d ≠ 0 := fun hk => h0 (hgone hk hroot e he)
    omega

theorem Tree.live_dir (h : Tree n D) (he : e ∈ (D d).rest) (h0 : e.inum ≠ 0)
    (hdir : (D e.inum).type = .dir) : 2 ≤ (D d).nlink.toInt := by
  have hd := h.isDir he
  obtain ⟨hlink, -, -, hgone⟩ := (h.suits d (h.ne_zero (dir_ne_free hd))).dir hd
  have hkid : 0 < kids D (D d) := List.countP_pos_iff.mpr ⟨e, he, decide_eq_true hdir⟩
  by_cases hroot : d = rootIno
  · rw [if_pos hroot] at hlink
    omega
  · have hk : named n D d ≠ 0 := fun hk => h0 (hgone hk hroot e he)
    omega

/-- a directory with links has an entry, unless it is the root -/
theorem Tree.named_of_link (h : Tree n D) (hd : (D d).type = .dir) (hroot : d ≠ rootIno)
    (hlink : (D d).nlink ≠ 0) : 0 < named n D d := by
  obtain ⟨hcount, -, -, hgone⟩ := (h.suits d (h.ne_zero (dir_ne_free hd))).dir hd
  by_contra hno
  have hk : named n D d = 0 := by omega
  have hkids : kids D (D d) = 0 := by
    unfold kids
    rw [List.countP_eq_zero]
    intro e he hdir
    have hzero := h.type_zero
    rw [← hgone hk hroot e he, of_decide_eq_true hdir] at hzero
    exact absurd hzero nofun
  rw [hk, hkids, if_neg hroot] at hcount
  exact hlink (Int16.toInt_inj.mp hcount)

theorem Tree.ne_self (h : Tree n D) (he : e ∈ (D d).rest) (h0 : e.inum ≠ 0) : d ≠ e.inum := by
  intro hde
  obtain ⟨r, hr⟩ := h.ranked
  have hlt := hr d e he h0 (hde ▸ h.isDir he)
  rw [← hde] at hlt
  exact absurd hlt (Nat.lt_irrefl _)

theorem Tree.live_of_link (h : Tree n D) (hd : (D d).type = .dir) (hlink : (D d).nlink ≠ 0) :
    1 ≤ (D d).nlink.toInt := by
  obtain ⟨hcount, -, -, -⟩ := (h.suits d (h.ne_zero (dir_ne_free hd))).dir hd
  have hzero : (D d).nlink.toInt ≠ 0 := fun hz => hlink (Int16.toInt_inj.mp hz)
  split at hcount <;> omega

theorem Reached.entry (hd : Reached D d) (he : e ∈ (D d).rest) (h0 : e.inum ≠ 0) :
    Reached D e.inum :=
  hd.tail ⟨h0, e, List.mem_of_mem_drop he, rfl⟩

theorem Tree.reached_dir (h : Tree n D) (hd : (D d).type = .dir)
    (hlink : (D d).nlink ≠ 0) : Reached D d := by
  obtain ⟨r, hr⟩ := h.ranked
  induction hk : r d using Nat.strongRecOn generalizing d with
  | ind k ih =>
    by_cases hroot : d = rootIno
    · rw [hroot]
      exact Relation.ReflTransGen.refl
    · obtain ⟨p, e, he, rfl⟩ := exists_of_named (h.named_of_link hd hroot hlink)
      have h0 := h.ne_zero (dir_ne_free hd)
      have hlive := h.live he h0
      refine (ih (r p) (hk ▸ hr p e he h0 hd) (h.isDir he) (fun hz => ?_) rfl).entry he h0
      rw [hz] at hlive
      exact absurd hlive (by decide)

/-- everything that has a link is reached -/
theorem Tree.reached (h : Tree n D) (ht : (D i).type ≠ .free)
    (hlink : (D i).nlink ≠ 0) : Reached D i := by
  by_cases hd : (D i).type = .dir
  · exact h.reached_dir hd hlink
  · have h0 := h.ne_zero ht
    have hcount := (h.suits i h0).count ht hd
    have hpos : 0 < named n D i := by
      by_contra hno
      rw [Nat.le_zero.mp (Nat.not_lt.mp hno)] at hcount
      exact hlink (Int16.toInt_inj.mp hcount)
    obtain ⟨d, e, he, rfl⟩ := exists_of_named hpos
    have hlive := h.live he h0
    refine (h.reached_dir (h.isDir he) fun hz => ?_).entry he h0
    rw [hz] at hlive
    exact absurd hlive (by decide)

/-- no directory has an entry for an inode without entries for it -/
theorem Tree.ne_of_named (h : Tree n D) (hk : named n D i = 0) (he : e ∈ (D d).rest) :
    e.inum ≠ i := by
  rintro rfl
  exact (named_pos (h.lt (dir_ne_free (h.isDir he))) he).ne' hk

/-! ## changes -/

/-- two inodes change, and of the entries for other ones no one comes or goes -/
theorem Tree.change (h : Tree n D) (ip dp : Nat) (hsame : ∀ j, j ≠ ip → j ≠ dp → D' j = D j)
    (hdir : dp ≠ ip → (D' dp).type = (D dp).type)
    (hip : (D' ip).type = (D ip).type ∨ named n D ip = 0 ∧ ip ≠ rootIno)
    (hnamed : ∀ j, j ≠ 0 → j ≠ ip → named n D' j = named n D j)
    (hform : Formed n ip (D' ip) ∧ Formed n dp (D' dp))
    (hsuit : ip ≠ 0 → Suits ip (D' ip) (named n D' ip) (kids D' (D' ip)))
    (hsuitd : dp ≠ 0 → dp ≠ ip → Suits dp (D' dp) (named n D' dp) (kids D' (D' dp)))
    (hranked : ∃ r, Ranked D' r) : Tree n D' := by
  have htype : ∀ j, j ≠ ip → (D' j).type = (D j).type := by
    intro j hj
    by_cases hjd : j = dp
    · subst hjd
      exact hdir hj
    · rw [hsame j hj hjd]
  refine ⟨?_, fun j => ?_, fun j h0 => ?_, hranked⟩
  · by_cases hri : rootIno = ip
    · subst hri
      exact (hip.resolve_right fun hno => hno.2 rfl).trans h.root
    · rw [htype _ hri]
      exact h.root
  · by_cases hji : j = ip
    · rw [hji]
      exact hform.1
    · by_cases hjd : j = dp
      · rw [hjd]
        exact hform.2
      · rw [hsame j hji hjd]
        exact h.formed j
  · by_cases hji : j = ip
    · subst hji
      exact hsuit h0
    · by_cases hjd : j = dp
      · subst hjd
        exact hsuitd h0 hji
      · rw [hsame j hji hjd, hnamed j h0 hji]
        have hkids : kids D' (D j) = kids D (D j) := by
          apply kids_congr
          intro e he
          by_cases hei : e.inum = ip
          · rw [hei, hip.resolve_right fun hno => h.ne_of_named hno.1 he hei]
          · rw [htype _ hei]
        rw [hkids]
        exact h.suits j h0

/-- there is no entry for the inode, and none in it -/
structure Bare (n : Nat) (D : Disk) (i : Nat) : Prop where
  named : named n D i = 0
  root : i ≠ rootIno
  rest : ∀ e ∈ (D i).rest, e.inum = 0

theorem Tree.bare (h : Tree n D) (ht : (D i).type ≠ .free) (hz : (D i).nlink = 0) :
    Bare n D i := by
  have hzero : (D i).nlink.toInt = 0 := by
    rw [hz]
    rfl
  by_cases hd : (D i).type = .dir
  · obtain ⟨hcount, -, -, hgone⟩ := (h.suits i (h.ne_zero ht)).dir hd
    have hroot : i ≠ rootIno := by
      intro hr
      rw [if_pos hr] at hcount
      omega
    have hk : Nlink.named n D i = 0 := by omega
    exact ⟨hk, hroot, hgone hk hroot⟩
  · have hcount := (h.suits i (h.ne_zero ht)).count ht hd
    exact ⟨by omega, fun hr => hd (hr ▸ h.root), fun e he => absurd (h.isDir he) hd⟩

theorem Tree.bare_free (h : Tree n D) (h0 : i ≠ 0) (ht : (D i).type = .free) : Bare n D i := by
  have hd : (D i).type ≠ .dir := by
    rw [ht]
    nofun
  exact ⟨(h.suits i h0).free ht, fun hr => hd (hr ▸ h.root), fun e he => absurd (h.isDir he) hd⟩

/-- such an inode may be freed -/
theorem Tree.erase (h : Tree n D) (hi : i < n) (hb : Bare n D i) :
    Tree n (Function.update D i ⟨.free, 0, []⟩) := by
  have hself : Function.update D i ⟨.free, 0, []⟩ i = ⟨.free, 0, []⟩ := Function.update_self ..
  have hnamed : ∀ j, j ≠ 0 → named n (Function.update D i ⟨.free, 0, []⟩) j = named n D j := by
    intro j h0
    have hu := @named_update n i D ⟨.free, 0, []⟩ hi j
    have hnone : names (D i).rest j = 0 := by
      unfold names
      rw [List.countP_eq_zero]
      intro e he hj
      exact h0 ((of_decide_eq_true hj).symm.trans (hb.rest e he))
    rw [hnone] at hu
    exact hu
  have hform : Formed n i (Function.update D i ⟨.free, 0, []⟩ i) := by
    rw [hself]
    exact ⟨fun hno => absurd rfl hno, fun _ => rfl, fun _ => rfl, nofun, Nat.zero_le _⟩
  refine h.change i i (fun j hj _ => Function.update_of_ne hj ..) (fun hno => absurd rfl hno)
    (Or.inr ⟨hb.named, hb.root⟩) (fun j h0 _ => hnamed j h0) ⟨hform, hform⟩ (fun h0 => ?_)
    (fun _ hno => absurd rfl hno) ?_
  · rw [hself, hnamed i h0]
    exact .of_free rfl hb.named
  · obtain ⟨r, hr⟩ := h.ranked
    refine ⟨r, hr.of_subset fun d e he _ hdir => ?_⟩
    have hei : e.inum ≠ i := by
      intro hei
      rw [hei, hself] at hdir
      exact absurd hdir nofun
    rw [Function.update_of_ne hei] at hdir
    refine ⟨?_, hdir⟩
    by_cases hd : d = i
    · rw [hd, hself] at he
      exact absurd he List.not_mem_nil
    · rwa [Function.update_of_ne hd] at he

end

end Nlink
