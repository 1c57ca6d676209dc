import Xv6.Itable.Model
import Xv6.Lib.Ancestry
import Xv6.Lib.Tally

/-!
# The directories on the disk

`Shape n D`: the directories of a disk with `n` inodes are well formed, every entry denotes an inode
that is allocated, and each inode has at least the links that are counted.  That an entry `..`
denotes a directory is not part of it.
-/

namespace Itable
open Fs Ulib Lib

abbrev IsDir (D : Disk) (i : Nat) : Prop := (D i).type = .dir

def parent (D : Disk) (i : Nat) : Option Nat := ((D i).entries[1]?).map Dirent.inum

/-- the entries behind `.` and `..` -/
def Inode.rest (x : Inode) : List Dirent := x.entries.drop 2

/-- how many of them are for inode `i` -/
def Inode.names (x : Inode) (i : Nat) : Nat := x.rest.countP (fun e => e.inum = i)

def kids (D : Disk) (x : Inode) : Nat := x.rest.countP (fun e => (D e.inum).type = .dir)

def links (n : Nat) (D : Disk) (i : Nat) : Nat := ∑ d ∈ Finset.range n, (D d).names i

structure Shape (n : Nat) (D : Disk) : Prop where
  root : IsDir D rootIno
  top : parent D rootIno = some rootIno
  bound : ∀ i, (D i).type ≠ .free → 0 < i ∧ i < n
  plain : ∀ i, ¬ IsDir D i → (D i).entries = []
  dots : ∀ d, IsDir D d → ∃ p r, p ≠ 0 ∧
    (D d).entries = ⟨d, padded ['.']⟩ :: ⟨p, padded ['.', '.']⟩ :: r
  named : ∀ d, ∀ e ∈ (D d).rest, e.inum ≠ 0 → (D e.inum).type ≠ .free ∧ e.inum ≠ rootIno ∧
    (IsDir D e.inum → parent D e.inum = some d)
  loop : ∀ d, parent D d = some d → d = rootIno
  count : ∀ i, (D i).type ≠ .free →
    links n D i + kids D (D i) + (if i = rootIno then 1 else 0) ≤ (D i).nlink

/-- what is reached from a current directory by `..` is a directory -/
def Sound (D : Disk) (cwd : Fin nproc → Option Nat) : Prop :=
  ∀ q c, cwd q = some c → ∀ y, Above (parent D) c y → IsDir D y

section
variable {n i d k dp ip : Nat} {D D' : Disk} {x : Inode} {e new : Dirent} {r r' : List Dirent}
  {cwd : Fin nproc → Option Nat}

/-! ## counting entries -/

theorem links_eq (n : Nat) (D : Disk) (i : Nat) :
    links n D i = tally n (fun d => (D d).rest) (fun e => e.inum = i) := rfl

theorem rest_update (D : Disk) (d : Nat) (x : Inode) :
    (fun j => (Function.update D d x j).rest) = Function.update (fun j => (D j).rest) d x.rest := by
  funext j
  exact Function.apply_update (fun _ => Inode.rest) D d x j

theorem links_update (hd : d < n) (i : Nat) :
    links n (Function.update D d x) i + (D d).names i = links n D i + x.names i := by
  rw [links_eq, links_eq, rest_update]
  exact tally_update hd

theorem names_le_links (hd : d < n) (i : Nat) : (D d).names i ≤ links n D i :=
  countP_le_tally (f := fun d => (D d).rest) hd

theorem names_pos (h : e ∈ x.rest) : 0 < x.names e.inum := by
  unfold Inode.names
  rw [List.countP_pos_iff]
  exact ⟨e, h, decide_eq_true rfl⟩

theorem kids_congr (h : ∀ e ∈ x.rest, (D' e.inum).type = .dir ↔ (D e.inum).type = .dir) :
    kids D' x = kids D x := by
  unfold kids
  apply List.countP_congr
  intro e he
  rw [decide_eq_true_iff, decide_eq_true_iff]
  exact h e he

theorem kids_mono (h : ∀ j, (D' j).type = .dir → (D j).type = .dir) : kids D' x ≤ kids D x := by
  unfold kids
  apply List.countP_mono_left
  intro e _ he
  exact decide_eq_true (h _ (of_decide_eq_true he))

/-! ## entries -/

theorem Shape.lt (h : Shape n D) (hi : (D i).type ≠ .free) : i < n := (h.bound i hi).2

theorem Shape.pos (h : Shape n D) (hi : (D i).type ≠ .free) : i ≠ 0 := (h.bound i hi).1.ne'

theorem IsDir.ne_free (h : IsDir D i) : (D i).type ≠ .free := by
  rw [h]
  nofun

theorem Shape.isDir (h : Shape n D) (he : e ∈ (D d).rest) : IsDir D d := by
  by_contra hno
  unfold Inode.rest at he
  rw [h.plain d hno] at he
  exact absurd he List.not_mem_nil

theorem Shape.entries (h : Shape n D) (hd : IsDir D d) : ∃ p, p ≠ 0 ∧ parent D d = some p ∧
    (D d).entries = ⟨d, padded ['.']⟩ :: ⟨p, padded ['.', '.']⟩ :: (D d).rest := by
  obtain ⟨p, r, hp, he⟩ := h.dots d hd
  refine ⟨p, hp, ?_, ?_⟩
  · unfold parent
    rw [he]
    rfl
  · unfold Inode.rest
    rw [he]
    rfl

theorem Shape.names_free (h : Shape n D) (hi : (D i).type = .free) (h0 : i ≠ 0) (d : Nat) :
    (D d).names i = 0 := by
  unfold Inode.names
  rw [List.countP_eq_zero]
  intro e he hno
  have hei := of_decide_eq_true hno
  exact (h.named d e he (hei ▸ h0)).1 (hei ▸ hi)

theorem Shape.links_free (h : Shape n D) (hi : (D i).type = .free) (h0 : i ≠ 0) :
    links n D i = 0 := Finset.sum_eq_zero (fun d _ => h.names_free hi h0 d)

theorem Shape.names_zero (h : Shape n D) (hl : links n D i = 0) (d : Nat) : (D d).names i = 0 := by
  by_cases hd : IsDir D d
  · exact Nat.le_zero.mp (hl ▸ names_le_links (h.lt hd.ne_free) i)
  · unfold Inode.names Inode.rest
    rw [h.plain d hd]
    rfl

theorem parent_update_of_ne (h : d ≠ i) : parent (Function.update D i x) d = parent D d := by
  unfold parent
  rw [Function.update_of_ne h]

/-! ## an inode is freed -/

theorem Shape.erase (h : Shape n D) (h0 : i ≠ 0) (hroot : i ≠ rootIno) (hl : links n D i = 0) :
    Shape n (Function.update D i ⟨.free, 0, []⟩) := by
  have hne : ∀ j, IsDir (Function.update D i ⟨.free, 0, []⟩) j → j ≠ i := by
    rintro j hj rfl
    unfold IsDir at hj
    rw [Function.update_self] at hj
    exact absurd hj nofun
  have hmono : ∀ j, (Function.update D i ⟨.free, 0, []⟩ j).type = .dir → (D j).type = .dir := by
    intro j hj
    have hji := hne j hj
    rwa [Function.update_of_ne hji] at hj
  have hlinks : ∀ j, links n (Function.update D i ⟨.free, 0, []⟩) j ≤ links n D j := by
    intro j
    unfold links
    refine Finset.sum_le_sum (fun d _ => ?_)
    by_cases hd : d = i
    · rw [hd, Function.update_self]
      exact Nat.zero_le _
    · rw [Function.update_of_ne hd]
  refine ⟨?_, ?_, fun j hj => ?_, fun j hj => ?_, fun d hd => ?_, fun d e he h0e => ?_,
    fun d hd => ?_, fun j hj => ?_⟩
  · unfold IsDir
    rw [Function.update_of_ne (Ne.symm hroot)]
    exact h.root
  · rw [parent_update_of_ne (Ne.symm hroot)]
    exact h.top
  · by_cases hji : j = i
    · rw [hji, Function.update_self] at hj
      exact absurd rfl hj
    · rw [Function.update_of_ne hji] at hj
      exact h.bound j hj
  · by_cases hji : j = i
    · rw [hji, Function.update_self]
    · unfold IsDir at hj
      rw [Function.update_of_ne hji] at hj ⊢
      exact h.plain j hj
  · rw [Function.update_of_ne (hne d hd)]
    exact h.dots d (hmono d hd)
  · have hdi : d ≠ i := by
      rintro rfl
      rw [Function.update_self] at he
      exact absurd he List.not_mem_nil
    rw [Function.update_of_ne hdi] at he
    have hei : e.inum ≠ i := by
      intro hei
      have hpos := names_pos he
      rw [hei, h.names_zero hl d] at hpos
      exact absurd hpos (Nat.lt_irrefl 0)
    unfold IsDir
    rw [Function.update_of_ne hei, parent_update_of_ne hei]
    exact h.named d e he h0e
  · have hdi : d ≠ i := by
      rintro rfl
      unfold parent at hd
      rw [Function.update_self] at hd
      exact absurd hd nofun
    rw [parent_update_of_ne hdi] at hd
    exact h.loop d hd
  · have hji : j ≠ i := by
      rintro rfl
      rw [Function.update_self] at hj
      exact hj rfl
    rw [Function.update_of_ne hji] at hj ⊢
    have h1 := h.count j hj
    have h2 := hlinks j
    have h3 : kids (Function.update D i ⟨.free, 0, []⟩) (D j) ≤ kids D (D j) := kids_mono hmono
    omega

theorem Sound.erase (h : Sound D cwd) (hno : ∀ q c, cwd q = some c → ¬ Above (parent D) c i) :
    Sound (Function.update D i ⟨.free, 0, []⟩) cwd := by
  intro q c hc y hy
  have hne : ∀ z, Above (parent D) c z → z ≠ i := by
    rintro z hz rfl
    exact hno q c hc hz
  have hy' : Above (parent D) c y :=
    hy.congr_of (fun z hz => parent_update_of_ne (hne z hz))
  unfold IsDir
  rw [Function.update_of_ne (hne y hy')]
  exact h q c hc y hy'

theorem Sound.update (h : Sound D cwd) (hi : ¬ IsDir D i) : Sound (Function.update D i x) cwd := by
  intro q c hc y hy
  have hne : ∀ z, Above (parent D) c z → z ≠ i := by
    rintro z hz rfl
    exact hi (h q c hc z hz)
  have hy' : Above (parent D) c y := hy.congr_of (fun z hz => parent_update_of_ne (hne z hz))
  unfold IsDir
  rw [Function.update_of_ne (hne y hy')]
  exact h q c hc y hy'

/-- where the directories that are left have their `..`, those that are gone were not reached -/
theorem Sound.isDir_of (h : Sound D' cwd) (he : ∀ j, IsDir D' j → parent D' j = parent D j)
    {q : Fin nproc} {c y : Nat} (hc : cwd q = some c) (hy : Above (parent D) c y) :
    IsDir D' y := by
  have hy' : Above (parent D') c y := by
    induction hy with
    | refl => exact .refl c
    | tail _ hb ih => exact ih.step ((he _ (h q c hc _ ih)).trans hb)
  exact h q c hc y hy'

/-! ## entries change -/

/-- no inode changes its type, and `.` and `..` stay where they are -/
structure Edit (D D' : Disk) : Prop where
  type : ∀ j, (D' j).type = (D j).type
  head : ∀ j, (D' j).entries.take 2 = (D j).entries.take 2
  plain : ∀ j, ¬ IsDir D j → (D' j).entries = []

theorem Edit.isDir (h : Edit D D') : IsDir D' i ↔ IsDir D i := by
  unfold IsDir
  rw [h.type]

theorem Edit.parent (h : Edit D D') : parent D' = parent D := by
  funext d
  have h1 : ∀ es : List Dirent, es[1]? = (es.take 2)[1]? :=
    fun es => (List.getElem?_take_of_lt (by decide)).symm
  unfold Itable.parent
  rw [h1, h.head, ← h1]

theorem Edit.kids (h : Edit D D') : kids D' x = kids D x :=
  kids_congr (fun e _ => by rw [h.type])

theorem Edit.sound (h : Edit D D') (hs : Sound D cwd) : Sound D' cwd := by
  intro q c hc y hy
  rw [h.parent] at hy
  exact h.isDir.mpr (hs q c hc y hy)

theorem Shape.edit (h : Shape n D) (he : Edit D D')
    (hrest : ∀ d, ∀ e ∈ (D' d).rest, e.inum ≠ 0 → e ∈ (D d).rest ∨
      (D e.inum).type ≠ .free ∧ e.inum ≠ rootIno ∧ (IsDir D e.inum → parent D e.inum = some d))
    (hcount : ∀ i, (D i).type ≠ .free →
      links n D' i + kids D (D' i) + (if i = rootIno then 1 else 0) ≤ (D' i).nlink) :
    Shape n D' := by
  refine ⟨he.isDir.mpr h.root, ?_, fun j hj => ?_, fun j hj => ?_, fun d hd => ?_,
    fun d e hmem h0 => ?_, fun d hd => ?_, fun j hj => ?_⟩
  · rw [he.parent]
    exact h.top
  · rw [he.type] at hj
    exact h.bound j hj
  · exact he.plain j (fun hno => hj (he.isDir.mpr hno))
  · obtain ⟨p, r, hp, heq⟩ := h.dots d (he.isDir.mp hd)
    refine ⟨p, (D' d).rest, hp, ?_⟩
    have hhead := he.head d
    rw [heq] at hhead
    rw [← List.take_append_drop 2 (D' d).entries, hhead]
    rfl
  · rw [he.type, he.parent]
    unfold IsDir
    rw [he.type]
    exact (hrest d e hmem h0).elim (fun hold => h.named d e hold h0) id
  · rw [he.parent] at hd
    exact h.loop d hd
  · rw [he.type] at hj
    rw [he.kids]
    exact hcount j hj

theorem take_two_set {es : List Dirent} (hk : 2 ≤ k) : (es.set k e).take 2 = es.take 2 := by
  rw [List.take_set_of_le hk]

theorem rest_getElem? {es : List Dirent} (hk : 2 ≤ k) (he : es[k]? = some e) :
    (es.drop 2)[k - 2]? = some e := by
  rw [List.getElem?_drop, Nat.add_sub_cancel' hk]
  exact he

theorem rest_set (hk : 2 ≤ k) (es : List Dirent) : (es.set k e).drop 2 = (es.drop 2).set (k - 2) e := by
  rw [List.drop_set, if_neg (not_lt.mpr hk)]

/-- the disk without entry `k` of `dp`, and with the links that are left -/
def cut (D : Disk) (dp k ip : Nat) : Disk :=
  Function.update (Function.update D dp
    ⟨(D dp).type, if (D ip).type = .dir then (D dp).nlink - 1 else (D dp).nlink,
      (D dp).entries.set k ⟨0, nameField []⟩⟩) ip { D ip with nlink := (D ip).nlink - 1 }

theorem Shape.ne_self (h : Shape n D) (he : e ∈ (D dp).rest) (h0 : e.inum ≠ 0) : e.inum ≠ dp := by
  intro heq
  obtain ⟨-, h2, h3⟩ := h.named dp e he h0
  have hp := h3 (heq ▸ h.isDir he)
  rw [heq] at hp h2
  exact h2 (h.loop dp hp)

theorem cut_edit (h : Shape n D) (hd : IsDir D dp) (hk : 2 ≤ k) :
    Edit D (cut D dp k ip) := by
  unfold cut
  refine ⟨fun j => ?_, fun j => ?_, fun j hj => ?_⟩
  · by_cases hi : j = ip
    · rw [hi, Function.update_self]
    · rw [Function.update_of_ne hi]
      by_cases hjd : j = dp
      · rw [hjd, Function.update_self]
      · rw [Function.update_of_ne hjd]
  · by_cases hi : j = ip
    · rw [hi, Function.update_self]
    · rw [Function.update_of_ne hi]
      by_cases hjd : j = dp
      · rw [hjd, Function.update_self]
        exact take_two_set hk
      · rw [Function.update_of_ne hjd]
  · by_cases hi : j = ip
    · rw [hi, Function.update_self]
      exact h.plain ip (hi ▸ hj)
    · have hjd : j ≠ dp := fun hjd => hj (hjd ▸ hd)
      rw [Function.update_of_ne hi, Function.update_of_ne hjd]
      exact h.plain j hj

theorem shape_cut (h : Shape n D) (hd : IsDir D dp) (hk : 2 ≤ k)
    (he : (D dp).entries[k]? = some e) (h0 : e.inum ≠ 0) : Shape n (cut D dp k e.inum) := by
  have hget : (D dp).rest[k - 2]? = some e := rest_getElem? hk he
  have hmem := List.mem_of_getElem? hget
  have hne := h.ne_self hmem h0
  have hrest : (cut D dp k e.inum dp).rest = (D dp).rest.set (k - 2) ⟨0, nameField []⟩ := by
    unfold cut
    rw [Function.update_of_ne (Ne.symm hne), Function.update_self]
    exact rest_set hk _
  have hsame : ∀ j, j ≠ dp → (cut D dp k e.inum j).rest = (D j).rest := by
    intro j hj
    unfold cut
    by_cases hi : j = e.inum
    · rw [hi, Function.update_self]
      rfl
    · rw [Function.update_of_ne hi, Function.update_of_ne hj]
  have hkids : kids D (cut D dp k e.inum dp) + (if IsDir D e.inum then 1 else 0) =
      kids D (D dp) := by
    have h1 := countP_set (P := fun e => decide ((D e.inum).type = .dir)) (b := ⟨0, nameField []⟩)
      hget
    have hz : (D 0).type ≠ .dir := fun hz => h.pos (hz ▸ nofun) rfl
    simp only [decide_eq_true_eq] at h1
    rw [if_neg hz] at h1
    unfold kids
    rw [hrest]
    exact h1
  have hlinks : ∀ i, i ≠ 0 →
      links n (cut D dp k e.inum) i + (if e.inum = i then 1 else 0) = links n D i := by
    intro i hi
    have h1 := countP_set (P := fun e => decide (e.inum = i)) (b := ⟨0, nameField []⟩)
      hget
    simp only [decide_eq_true_eq] at h1
    rw [if_neg (Ne.symm hi)] at h1
    have h2 := links_update (n := n) (D := D) (x := (cut D dp k e.inum dp)) (h.lt hd.ne_free) i
    have h3 : links n (cut D dp k e.inum) i =
        links n (Function.update D dp (cut D dp k e.inum dp)) i := by
      unfold links
      refine Finset.sum_congr rfl (fun j _ => ?_)
      unfold Inode.names
      by_cases hj : j = dp
      · rw [hj, Function.update_self]
      · rw [Function.update_of_ne hj, hsame j hj]
    unfold Inode.names at h2
    rw [hrest] at h2
    rw [h3]
    omega
  have hnip : (cut D dp k e.inum e.inum).nlink = (D e.inum).nlink - 1 := by
    unfold cut
    rw [Function.update_self]
  have hndp : (cut D dp k e.inum dp).nlink =
      if IsDir D e.inum then (D dp).nlink - 1 else (D dp).nlink := by
    unfold cut
    rw [Function.update_of_ne (Ne.symm hne), Function.update_self]
  have hnother : ∀ j, j ≠ e.inum → j ≠ dp → cut D dp k e.inum j = D j := by
    intro j hj hjd
    unfold cut
    rw [Function.update_of_ne hj, Function.update_of_ne hjd]
  refine h.edit (cut_edit h hd hk) (fun d e' hmem' h0' => Or.inl ?_) (fun i hi => ?_)
  · by_cases hdd : d = dp
    · rw [hdd, hrest] at hmem'
      rcases List.mem_or_eq_of_mem_set hmem' with hold | rfl
      · exact hdd ▸ hold
      · exact absurd rfl h0'
    · rw [hsame d hdd] at hmem'
      exact hmem'
  · have h1 := h.count i hi
    have h2 := hlinks i (h.pos hi)
    by_cases hei : i = e.inum
    · subst hei
      have hk' : kids D (cut D dp k e.inum e.inum) = kids D (D e.inum) := by
        unfold kids
        rw [hsame _ hne]
      rw [if_pos rfl] at h2
      rw [hnip, hk']
      omega
    · rw [if_neg (Ne.symm hei)] at h2
      by_cases hdp : i = dp
      · rw [hdp] at h1 h2 ⊢
        rw [hndp]
        by_cases hdir : IsDir D e.inum
        · rw [if_pos hdir] at hkids ⊢
          omega
        · rw [if_neg hdir] at hkids ⊢
          omega
      · rw [hnother i hei hdp]
        omega

/-! ## a new directory -/

/-- a directory with nothing in it, in `dp` -/
def Inode.newDir (ip dp : Nat) : Inode := ⟨.dir, 1, [⟨ip, padded ['.']⟩, ⟨dp, padded ['.', '.']⟩]⟩

theorem Shape.newDir (h : Shape n D) (hip : (D ip).type = .free) (h0 : ip ≠ 0) (hn : ip < n)
    (hd : IsDir D dp) : Shape n (Function.update D ip (Inode.newDir ip dp)) := by
  have hroot : ip ≠ rootIno := by
    rintro rfl
    exact absurd (hip.symm.trans h.root) nofun
  have hdp : dp ≠ ip := by
    rintro rfl
    exact absurd (hip.symm.trans hd) nofun
  have hplain : (D ip).entries = [] := h.plain ip (fun hno => absurd (hip.symm.trans hno) nofun)
  have hself : Function.update D ip (Inode.newDir ip dp) ip = Inode.newDir ip dp :=
    Function.update_self ..
  have hother : ∀ j, j ≠ ip → Function.update D ip (Inode.newDir ip dp) j = D j :=
    fun j hj => Function.update_of_ne hj ..
  -- the new inode is in no entry
  have hnot : ∀ d, ∀ e ∈ (D d).rest, e.inum ≠ ip := by
    intro d e he heq
    exact (h.named d e he (heq ▸ h0)).1 (heq ▸ hip)
  have hlinks : ∀ i, links n (Function.update D ip (Inode.newDir ip dp)) i = links n D i := by
    intro i
    have h1 := links_update (D := D) (x := Inode.newDir ip dp) hn i
    have h2 : (D ip).names i = 0 := by
      unfold Inode.names Inode.rest
      rw [hplain]
      rfl
    have h3 : (Inode.newDir ip dp).names i = 0 := rfl
    omega
  have hkids : ∀ d, kids (Function.update D ip (Inode.newDir ip dp)) (D d) = kids D (D d) :=
    fun d => kids_congr (fun e he => by rw [hother _ (hnot d e he)])
  refine ⟨?_, ?_, fun j hj => ?_, fun j hj => ?_, fun d hdir => ?_, fun d e he h0e => ?_,
    fun d hpar => ?_, fun j hj => ?_⟩
  · unfold IsDir
    rw [hother _ (Ne.symm hroot)]
    exact h.root
  · rw [parent_update_of_ne (Ne.symm hroot)]
    exact h.top
  · by_cases hji : j = ip
    · rw [hji]
      exact ⟨Nat.pos_of_ne_zero h0, hn⟩
    · rw [hother j hji] at hj
      exact h.bound j hj
  · have hji : j ≠ ip := by
      rintro rfl
      exact hj (congrArg Inode.type hself)
    unfold IsDir at hj
    rw [hother j hji] at hj ⊢
    exact h.plain j hj
  · by_cases hdi : d = ip
    · rw [hdi, hself]
      exact ⟨dp, [], h.pos hd.ne_free, rfl⟩
    · unfold IsDir at hdir
      rw [hother d hdi] at hdir ⊢
      exact h.dots d hdir
  · have hdi : d ≠ ip := by
      rintro rfl
      rw [hself] at he
      exact absurd he List.not_mem_nil
    rw [hother d hdi] at he
    have hei := hnot d e he
    unfold IsDir
    rw [hother _ hei, parent_update_of_ne hei]
    exact h.named d e he h0e
  · by_cases hdi : d = ip
    · rw [hdi] at hpar
      unfold parent at hpar
      rw [hself] at hpar
      exact absurd (Option.some.inj hpar) hdp
    · rw [parent_update_of_ne hdi] at hpar
      exact h.loop d hpar
  · rw [hlinks]
    by_cases hji : j = ip
    · rw [hji, hself, h.links_free hip h0, if_neg hroot]
      exact Nat.zero_le 1
    · rw [hother j hji] at hj ⊢
      rw [hkids]
      exact h.count j hj

/-- an entry is put in, in the place of one that was free or at the end -/
structure Grown (es es' : List Dirent) (new : Dirent) : Prop where
  head : es'.take 2 = es.take 2
  mem : ∀ e ∈ es'.drop 2, e ∈ es.drop 2 ∨ e = new
  count : ∀ P : Dirent → Bool, (∀ e, e.inum = 0 → P e = false) →
    (es'.drop 2).countP P = (es.drop 2).countP P + if P new then 1 else 0

theorem grown_set {es : List Dirent} (hk : 2 ≤ k) (he : es[k]? = some e) (h0 : e.inum = 0) :
    Grown es (es.set k new) new := by
  have hget := rest_getElem? hk he
  refine ⟨take_two_set hk, fun e' he' => ?_, fun P hP => ?_⟩
  · rw [rest_set hk] at he'
    exact List.mem_or_eq_of_mem_set he'
  · have h1 := countP_set (P := P) (b := new) hget
    rw [hP e h0, if_neg nofun] at h1
    rw [rest_set hk]
    exact h1

theorem grown_append {es : List Dirent} (hl : 2 ≤ es.length) : Grown es (es ++ [new]) new := by
  refine ⟨List.take_append_of_le_length hl, fun e' he' => ?_, fun P _ => ?_⟩
  · rw [List.drop_append_of_le_length hl] at he'
    exact (List.mem_append.mp he').imp id List.mem_singleton.mp
  · rw [List.drop_append_of_le_length hl, List.countP_append, List.countP_singleton]

theorem grow_edit {es : List Dirent} (hd : IsDir D dp) (hg : Grown (D dp).entries es new)
    (h : Shape n D) (m : Nat) : Edit D (Function.update D dp ⟨.dir, m, es⟩) := by
  refine ⟨fun j => ?_, fun j => ?_, fun j hj => ?_⟩
  · by_cases hjd : j = dp
    · rw [hjd, Function.update_self, hd]
    · rw [Function.update_of_ne hjd]
  · by_cases hjd : j = dp
    · rw [hjd, Function.update_self]
      exact hg.head
    · rw [Function.update_of_ne hjd]
  · have hjd : j ≠ dp := fun hjd => hj (hjd ▸ hd)
    rw [Function.update_of_ne hjd]
    exact h.plain j hj

/-- the entry is for a directory whose `..` says so -/
theorem Shape.grow {es : List Dirent} (h : Shape n D) (hd : IsDir D dp)
    (hg : Grown (D dp).entries es new) (hnew : IsDir D new.inum) (hroot : new.inum ≠ rootIno)
    (hpar : parent D new.inum = some dp)
    (hlink : links n D new.inum + kids D (D new.inum) + 1 ≤ (D new.inum).nlink) :
    Shape n (Function.update D dp ⟨.dir, (D dp).nlink + 1, es⟩) := by
  have hne : new.inum ≠ dp := by
    intro heq
    rw [heq] at hpar hroot
    exact hroot (h.loop dp hpar)
  have hlinks : ∀ i, i ≠ 0 →
      links n (Function.update D dp ⟨.dir, (D dp).nlink + 1, es⟩) i =
        links n D i + if new.inum = i then 1 else 0 := by
    intro i hi
    have h1 := links_update (D := D) (x := ⟨.dir, (D dp).nlink + 1, es⟩) (h.lt hd.ne_free) i
    have h2 := hg.count (fun e => e.inum = i) (fun e he => decide_eq_false (he ▸ Ne.symm hi))
    simp only [decide_eq_true_eq] at h2
    unfold Inode.names Inode.rest at h1
    dsimp only at h1
    omega
  have hkids : kids D ⟨.dir, (D dp).nlink + 1, es⟩ = kids D (D dp) + 1 := by
    have hz : (D 0).type ≠ .dir := fun hz => h.pos (hz ▸ nofun) rfl
    have h2 := hg.count (fun e => (D e.inum).type = .dir)
      (fun e he => decide_eq_false (by rw [he]; exact hz))
    simp only [decide_eq_true_eq] at h2
    rw [if_pos hnew] at h2
    exact h2
  refine h.edit (grow_edit hd hg h _) (fun d e he h0 => ?_) (fun i hi => ?_)
  · by_cases hdd : d = dp
    · rw [hdd] at he ⊢
      rw [Function.update_self] at he
      rcases hg.mem e he with hold | rfl
      · exact Or.inl hold
      · exact Or.inr ⟨hnew.ne_free, hroot, fun _ => hpar⟩
    · rw [Function.update_of_ne hdd] at he
      exact Or.inl he
  · have h1 := h.count i hi
    rw [hlinks i (h.pos hi)]
    by_cases hid : i = dp
    · rw [hid, Function.update_self, hkids, if_neg hne]
      rw [hid] at h1
      dsimp only
      omega
    · rw [Function.update_of_ne hid]
      by_cases hin : new.inum = i
      · rw [if_pos hin]
        rw [← hin]
        rw [if_neg hroot]
        omega
      · rw [if_neg hin]
        exact h1

end

end Itable
