import Xv6.Itable.Paths
import Xv6.Nlink.Model

/-!
# Link counts are exact

`Fine`: a file has as many links as there are entries for it, a directory has a link, and what is
free has no entry and is not open.  Every call keeps this, unless it takes a directory away or adds
a link to an inode whose `nlink` is at its maximum.
-/

namespace Nlink
open Fs Ulib Lib
open Itable (InodeType lookup nameField isdirempty lookup_some)

/-- an inode with `k` entries for it, which is open `o` times -/
def Fine (x : Inode) (k o : Nat) : Prop :=
  match x.type with
  | .free => k = 0 ∧ o = 0
  | .dir => 1 ≤ x.nlink.toInt
  | .file => x.nlink.toInt = k
  | .device => x.nlink.toInt = k

/-- inode `i` of a disk with `n` inodes is in order -/
structure InOrder (n : Nat) (w : World) (i : Nat) : Prop where
  bound : (w.disk i).type ≠ .free → 0 < i ∧ i < n
  plain : (w.disk i).type ≠ .dir → (w.disk i).entries = []
  fine : i ≠ 0 → Fine (w.disk i) (links n w.disk i) (w.opened i)

def Inv (n : Nat) (w : World) : Prop := ∀ i, InOrder n w i

/-- the entries for `i` -/
def names (es : List Dirent) (i : Nat) : Nat := es.countP (fun e => e.inum = i)

def Added (es es' : List Dirent) (inum : Nat) : Prop :=
  ∀ i, i ≠ 0 → names es' i = names es i + if inum = i then 1 else 0

section
variable {n i j d dp ip off inum k o cwd : Nat} {D : Disk} {w w' : World} {x : Inode}
  {es es' : List Dirent} {name path : Str} {room : Bool} {e : Dirent} {fs : Image}

/-! ## what is in order -/

theorem Fine.count (h : Fine x k o) (hf : x.type ≠ .free) (hd : x.type ≠ .dir) :
    x.nlink.toInt = k := by
  unfold Fine at h
  cases ht : x.type with
  | free => exact absurd ht hf
  | dir => exact absurd ht hd
  | file =>
    rw [ht] at h
    exact h
  | device =>
    rw [ht] at h
    exact h

theorem Fine.of_count (hf : x.type ≠ .free) (hd : x.type ≠ .dir) (h : x.nlink.toInt = k) :
    Fine x k o := by
  unfold Fine
  cases ht : x.type with
  | free => exact absurd ht hf
  | dir => exact absurd ht hd
  | file => exact h
  | device => exact h

theorem Fine.dir (h : Fine x k o) (hd : x.type = .dir) : 1 ≤ x.nlink.toInt := by
  unfold Fine at h
  rw [hd] at h
  exact h

theorem Fine.of_dir (hd : x.type = .dir) (h : 1 ≤ x.nlink.toInt) : Fine x k o := by
  unfold Fine
  rw [hd]
  exact h

theorem Fine.free (h : Fine x k o) (hf : x.type = .free) : k = 0 ∧ o = 0 := by
  unfold Fine at h
  rw [hf] at h
  exact h

/-- how often an inode is open matters for a free one only -/
theorem Fine.reopen {o' : Nat} (h : Fine x k o) (hf : x.type = .free → o' = 0) : Fine x k o' := by
  by_cases ht : x.type = .free
  · unfold Fine
    rw [ht]
    exact ⟨(h.free ht).1, hf ht⟩
  · by_cases hd : x.type = .dir
    · exact .of_dir hd (h.dir hd)
    · exact .of_count ht hd (h.count ht hd)

/-! ## entries -/

theorem entries_update (D : Disk) (d : Nat) (x : Inode) :
    (fun j => (Function.update D d x j).entries) =
      Function.update (fun j => (D j).entries) d x.entries := by
  funext j
  exact Function.apply_update (fun _ => Inode.entries) D d x j

theorem links_update (hd : d < n) (i : Nat) :
    links n (Function.update D d x) i + names (D d).entries i =
      links n D i + names x.entries i := by
  unfold links
  rw [entries_update]
  exact tally_update hd

theorem links_same (h : x.entries = (D d).entries) (i : Nat) :
    links n (Function.update D d x) i = links n D i := by
  unfold links
  rw [entries_update, h, Function.update_eq_self]

theorem links_pos (hd : d < n) (he : e ∈ (D d).entries) : 0 < links n D e.inum :=
  tally_pos hd he (decide_eq_true rfl)

theorem names_nil (i : Nat) : names [] i = 0 := rfl

theorem Inv.isDir (h : Inv n w) (he : e ∈ (w.disk d).entries) : (w.disk d).type = .dir := by
  by_contra hno
  rw [(h d).plain hno] at he
  exact absurd he List.not_mem_nil

theorem Inv.lt (h : Inv n w) (ht : (w.disk d).type = .dir) : d < n :=
  ((h d).bound (by rw [ht]; nofun)).2

theorem Inv.named (h : Inv n w) (he : e ∈ (w.disk d).entries) (h0 : e.inum ≠ 0) :
    (w.disk e.inum).type ≠ .free := by
  intro ht
  have hd := h.lt (h.isDir he)
  exact (links_pos hd he).ne' (((h e.inum).fine h0).free ht).1

theorem Inv.nlink_pos (h : Inv n w) (he : e ∈ (w.disk d).entries) (h0 : e.inum ≠ 0) :
    1 ≤ (w.disk e.inum).nlink.toInt := by
  have hf := (h e.inum).fine h0
  by_cases hdir : (w.disk e.inum).type = .dir
  · exact hf.dir hdir
  · have hpos := links_pos (h.lt (h.isDir he)) he
    have hcount := hf.count (h.named he h0) hdir
    omega

theorem Inv.dir_nlink (h : Inv n w) (ht : (w.disk i).type = .dir) :
    1 ≤ (w.disk i).nlink.toInt :=
  ((h i).fine ((h i).bound (by rw [ht]; nofun)).1.ne').dir ht

/-- a parent that `namex` finds is a directory -/
theorem namexLoop_parent (fuel d : Nat) (path name : Str) {r : Nat × Str}
    (h : Fs.namexLoop fs true fuel d path name = some r) : (fs r.1).isSome = true := by
  induction fuel generalizing d path name with
  | zero => cases h
  | succ fuel ih =>
    unfold Fs.namexLoop at h
    split at h
    · cases h
    · split at h
      · cases h
      · rename_i es hes
        split at h
        · rw [← Option.some.inj h, hes]
          rfl
        · split at h
          · cases h
          · exact ih _ _ _ h

theorem namex_dir {r : Nat × Str} (h : Fs.namex (image D) cwd path true = some r) :
    (D r.1).type = .dir := by
  have hs := namexLoop_parent _ _ _ _ h
  unfold image at hs
  by_contra hno
  rw [if_neg hno] at hs
  exact absurd hs nofun

/-! ## `dirlink` -/

theorem dirlink_spec : dirlink w dp name inum room = (w, false) ∨
    ∃ es', dirlink w dp name inum room = (w.setEntries dp es', true) ∧
      Added (w.disk dp).entries es' inum := by
  unfold dirlink
  dsimp only
  cases lookup (w.disk dp).entries name with
  | some r => exact Or.inl rfl
  | none =>
    dsimp only
    cases hf : (w.disk dp).entries.findIdx? (fun e => e.inum = 0) with
    | some off =>
      refine Or.inr ⟨_, rfl, fun i hi => ?_⟩
      obtain ⟨hlt, hzero, -⟩ := List.findIdx?_eq_some_iff_getElem.mp hf
      have hset := @countP_set _ off (w.disk dp).entries (fun e => e.inum = i) _
        ⟨inum, nameField name⟩ (List.getElem?_eq_getElem hlt)
      rw [of_decide_eq_true hzero, decide_eq_false (Ne.symm hi)] at hset
      unfold names
      rw [if_neg nofun, Nat.add_zero] at hset
      rw [hset]
      simp only [decide_eq_true_eq]
    | none =>
      dsimp only
      split
      · refine Or.inr ⟨_, rfl, fun i _ => ?_⟩
        unfold names
        rw [List.countP_append, List.countP_singleton]
        simp only [decide_eq_true_eq]
      · exact Or.inl rfl

theorem dirlink_congr (h : (w'.disk dp).entries = (w.disk dp).entries) :
    (dirlink w' dp name inum room).2 = (dirlink w dp name inum room).2 := by
  unfold dirlink
  dsimp only
  rw [h]
  cases lookup (w.disk dp).entries name with
  | some r => rfl
  | none =>
    dsimp only
    cases (w.disk dp).entries.findIdx? (fun e => e.inum = 0) with
    | some off => rfl
    | none =>
      dsimp only
      split
      · rfl
      · rfl

/-! ## `iput` -/

theorem iput_of_link (h : 1 ≤ (w.disk i).nlink.toInt) : w.iput i = w := by
  unfold World.iput
  rw [if_neg]
  rintro ⟨-, hz⟩
  rw [hz] at h
  exact absurd h (by decide)

/-- two inodes change, and no entry for another one comes or goes -/
theorem Inv.change (h : Inv n w) (ip dp : Nat) (hsame : ∀ j, j ≠ ip → j ≠ dp → w'.disk j = w.disk j)
    (hopened : w'.opened = w.opened)
    (hlinks : ∀ j, j ≠ 0 → j ≠ ip → j ≠ dp → links n w'.disk j = links n w.disk j)
    (hip : InOrder n w' ip) (hdp : InOrder n w' dp) : Inv n w' := by
  intro j
  by_cases hji : j = ip
  · rw [hji]
    exact hip
  · by_cases hjd : j = dp
    · rw [hjd]
      exact hdp
    · have hj := h j
      have e := hsame j hji hjd
      refine ⟨?_, ?_, fun h0 => ?_⟩
      · rw [e]
        exact hj.bound
      · rw [e]
        exact hj.plain
      · rw [e, hlinks j h0 hji hjd, hopened]
        exact hj.fine h0

/-- only what has no entry is freed -/
theorem Inv.iput (h : Inv n w) (i : Nat) : Inv n (w.iput i) := by
  unfold World.iput
  split
  · rename_i hc
    obtain ⟨ho, hz⟩ := hc
    have hz' : (w.disk i).nlink.toInt = 0 := by
      rw [hz]
      rfl
    have hnd : (w.disk i).type ≠ .dir := by
      intro ht
      have hd := h.dir_nlink ht
      omega
    have hself : (w.setInode i ⟨.free, 0, []⟩).disk i = ⟨.free, 0, []⟩ := Function.update_self ..
    have hlinks : ∀ j, links n (w.setInode i ⟨.free, 0, []⟩).disk j = links n w.disk j :=
      fun j => links_same ((h i).plain hnd).symm j
    have hi : InOrder n (w.setInode i ⟨.free, 0, []⟩) i := by
      refine ⟨fun ht => ?_, fun _ => ?_, fun h0 => ?_⟩
      · rw [hself] at ht
        exact absurd rfl ht
      · rw [hself]
      · rw [hself, hlinks]
        refine ⟨?_, ho⟩
        have hf := (h i).fine h0
        by_cases ht : (w.disk i).type = .free
        · exact (hf.free ht).1
        · have hcount := hf.count ht hnd
          omega
    exact h.change i i (fun j hj _ => Function.update_of_ne hj ..) rfl (fun j _ _ _ => hlinks j)
      hi hi
  · exact h

/-! ## `sys_link` -/

theorem toInt_succ {k : Int16} (h : k ≠ 32767) : (k + 1).toInt = k.toInt + 1 := by
  have hne : k.toInt ≠ 32767 := fun e => h (Int16.toInt_inj.mp (e.trans (by decide)))
  have h1 := k.toInt_lt
  have h2 := k.le_toInt
  rw [Int16.toInt_add, Int16.toInt_one, Int.bmod_eq_of_le (by omega) (by omega)]

theorem toInt_pred {k : Int16} (h : 1 ≤ k.toInt) : (k - 1).toInt = k.toInt - 1 := by
  have h1 := k.toInt_lt
  rw [Int16.toInt_sub, Int16.toInt_one, Int.bmod_eq_of_le (by omega) (by omega)]

/-- an entry for a file comes or goes, and its count follows -/
theorem Inv.shift (h : Inv n w) {a : Int16} (hd : (w.disk dp).type = .dir)
    (ht : (w.disk ip).type ≠ .free) (hnd : (w.disk ip).type ≠ .dir)
    (hother : ∀ j, j ≠ 0 → j ≠ ip → names es j = names (w.disk dp).entries j)
    (hself : a.toInt - (w.disk ip).nlink.toInt =
      (names es ip : Int) - (names (w.disk dp).entries ip : Int)) :
    Inv n ((w.setEntries dp es).setNlink ip a) := by
  have hne : dp ≠ ip := by
    rintro rfl
    exact hnd hd
  have hlinks : ∀ j, links n ((w.setEntries dp es).setNlink ip a).disk j +
      names (w.disk dp).entries j = links n w.disk j + names es j := by
    intro j
    rw [← links_update (h.lt hd) (x := { w.disk dp with entries := es }) j]
    congr 1
    exact links_same (D := (w.setEntries dp es).disk) (d := ip)
      (x := { (w.setEntries dp es).disk ip with nlink := a }) rfl j
  have hdisk : ((w.setEntries dp es).setNlink ip a).disk ip = { w.disk ip with nlink := a } := by
    show Function.update _ ip _ ip = _
    rw [Function.update_self]
    show ({ Function.update w.disk dp _ ip with nlink := a } : Inode) = _
    rw [Function.update_of_ne (Ne.symm hne)]
  have hdiskd : ((w.setEntries dp es).setNlink ip a).disk dp =
      { w.disk dp with entries := es } := by
    show Function.update _ ip _ dp = _
    rw [Function.update_of_ne hne]
    exact Function.update_self ..
  refine h.change ip dp (fun j hji hjd => ?_) rfl (fun j h0 hji _ => ?_)
    ⟨?_, ?_, fun h0 => ?_⟩ ⟨?_, ?_, fun h0 => ?_⟩
  · show Function.update (Function.update w.disk dp _) ip _ j = _
    rw [Function.update_of_ne hji, Function.update_of_ne hjd]
  · have hl := hlinks j
    rw [hother j h0 hji] at hl
    omega
  · rw [hdisk]
    exact (h ip).bound
  · rw [hdisk]
    exact (h ip).plain
  · rw [hdisk]
    have hcount := ((h ip).fine h0).count ht hnd
    have hl := hlinks ip
    refine Fine.of_count ht hnd ?_
    dsimp only
    omega
  · rw [hdiskd]
    exact (h dp).bound
  · rw [hdiskd]
    exact fun hno => absurd hd hno
  · rw [hdiskd]
    exact Fine.of_dir hd (h.dir_nlink hd)

theorem linkBad_eq (w : World) (ip : Nat) :
    linkBad (w.setNlink ip ((w.disk ip).nlink + 1)) ip = (w.iput ip, false) := by
  have hself : (w.setNlink ip ((w.disk ip).nlink + 1)).disk ip =
      { w.disk ip with nlink := (w.disk ip).nlink + 1 } := Function.update_self ..
  have hback : (w.setNlink ip ((w.disk ip).nlink + 1)).setNlink ip ((w.disk ip).nlink + 1 - 1) =
      w := by
    rw [Int16.add_sub_cancel]
    unfold World.setNlink World.setInode
    dsimp only
    rw [Function.update_self, Function.update_idem, Function.update_eq_self]
  unfold linkBad
  rw [hself, hback]

theorem setEntries_setNlink (h : dp ≠ ip) (a : Int16) :
    (w.setNlink ip a).setEntries dp es = (w.setEntries dp es).setNlink ip a := by
  unfold World.setNlink World.setEntries World.setInode
  dsimp only
  rw [Function.update_of_ne h, Function.update_of_ne (Ne.symm h), Function.update_comm h]

theorem sysLink_spec {old new : Str} {b : Bool} (h : Inv n w)
    (hc : Counts n w (.link cwd old new room)) (hs : sysLink w cwd old new room = .ok (w', b)) :
    Inv n w' := by
  unfold sysLink at hs
  split at hs
  · obtain ⟨rfl, -⟩ := Prod.mk.inj (Except.ok.inj hs)
    exact h
  · rename_i ip name hold
    split at hs
    · exact absurd hs nofun
    · rename_i hfree
      split at hs
      · obtain ⟨rfl, -⟩ := Prod.mk.inj (Except.ok.inj hs)
        exact h.iput ip
      · rename_i hnd
        dsimp only at hs
        have himage : image (w.setNlink ip ((w.disk ip).nlink + 1)).disk = image w.disk := by
          funext j
          unfold image
          by_cases hj : j = ip
          · rw [hj, if_neg hnd, if_neg]
            rw [show (w.setNlink ip _).disk ip = _ from Function.update_self ..]
            exact hnd
          · rw [show (w.setNlink ip _).disk j = w.disk j from Function.update_of_ne hj ..]
        rw [himage] at hs
        split at hs
        · rw [linkBad_eq] at hs
          obtain ⟨rfl, -⟩ := Prod.mk.inj (Except.ok.inj hs)
          exact h.iput ip
        · rename_i dp name' hnew
          have hd : (w.disk dp).type = .dir := namex_dir hnew
          have hne : dp ≠ ip := by
            rintro rfl
            exact hnd hd
          have hdp : (w.setNlink ip ((w.disk ip).nlink + 1)).disk dp = w.disk dp :=
            Function.update_of_ne hne ..
          rcases @dirlink_spec dp ip (w.setNlink ip ((w.disk ip).nlink + 1)) name' room with
            hl | ⟨es', hl, hadd⟩
          · rw [hl] at hs
            dsimp only at hs
            rw [iput_of_link (i := dp) (by rw [hdp]; exact h.dir_nlink hd), linkBad_eq] at hs
            obtain ⟨rfl, -⟩ := Prod.mk.inj (Except.ok.inj hs)
            exact h.iput ip
          · rw [hdp] at hadd
            have hmax : (w.disk ip).nlink ≠ 32767 := by
              intro hm
              have hno := hc (ip, name) hold hm (dp, name') hnew
              rw [← dirlink_congr (congrArg Inode.entries hdp), hl] at hno
              exact absurd hno nofun
            rw [hl] at hs
            obtain ⟨rfl, -⟩ := Prod.mk.inj (Except.ok.inj hs)
            rw [setEntries_setNlink hne]
            refine ((h.shift hd hfree hnd (fun j h0 hj => ?_) ?_).iput dp).iput ip
            · rw [hadd j h0, if_neg (Ne.symm hj), Nat.add_zero]
            · have hip : ip ≠ 0 := ((h ip).bound hfree).1.ne'
              rw [hadd ip hip, if_pos rfl, toInt_succ hmax]
              omega

/-! ## `sys_unlink` -/

theorem Inv.lookup (h : Inv n w) (hl : lookup (w.disk dp).entries name = some (ip, off)) :
    (w.disk ip).type ≠ .free ∧ ¬ (w.disk ip).nlink < 1 := by
  obtain ⟨e, hk, rfl, h0, -⟩ := lookup_some hl
  have hmem := List.mem_of_getElem? hk
  have hpos := h.nlink_pos hmem h0
  refine ⟨h.named hmem h0, fun hlt => ?_⟩
  rw [Int16.lt_iff_toInt_lt, Int16.toInt_one] at hlt
  omega

theorem sysUnlink_safe (h : Inv n w) : sysUnlink w cwd path ≠ .error .unlinkNlink := by
  unfold sysUnlink
  cases Fs.namex (image w.disk) cwd path true with
  | none => nofun
  | some r =>
    obtain ⟨dp, name⟩ := r
    dsimp only
    split
    · nofun
    · cases hl : lookup (w.disk dp).entries name with
      | none => nofun
      | some r =>
        obtain ⟨hfree, hpos⟩ := h.lookup hl
        dsimp only
        rw [if_neg hfree, if_neg hpos]
        split
        · nofun
        · nofun

theorem sysUnlink_spec (h : Inv n w) (hs : Tidy w (.unlink cwd path)) :
    ∃ w' b, sysUnlink w cwd path = .ok (w', b) ∧ Inv n w' := by
  unfold sysUnlink
  unfold Tidy target at hs
  dsimp only at hs
  cases hn : Fs.namex (image w.disk) cwd path true with
  | none => exact ⟨w, false, rfl, h⟩
  | some r =>
    obtain ⟨dp, name⟩ := r
    rw [hn] at hs
    dsimp only at hs ⊢
    by_cases hdots : namecmpEq name ['.'] = true ∨ namecmpEq name ['.', '.'] = true
    · rw [if_pos hdots]
      exact ⟨_, _, rfl, h.iput dp⟩
    · rw [if_neg hdots]
      rw [if_neg hdots] at hs
      have hd : (w.disk dp).type = .dir := namex_dir hn
      cases hl : lookup (w.disk dp).entries name with
      | none => exact ⟨_, _, rfl, h.iput dp⟩
      | some r =>
        obtain ⟨ip, off⟩ := r
        rw [hl] at hs
        obtain ⟨hfree, hlt⟩ := h.lookup hl
        obtain ⟨e, hk, rfl, h0, -⟩ := lookup_some hl
        have hpos := h.nlink_pos (List.mem_of_getElem? hk) h0
        dsimp only
        rw [if_neg hfree, if_neg hlt]
        by_cases hdir : (w.disk e.inum).type = .dir
        · rw [if_pos ⟨hdir, hs e.inum rfl hdir⟩]
          exact ⟨_, _, rfl, (h.iput e.inum).iput dp⟩
        · rw [if_neg (fun hc => hdir hc.1)]
          have hne : dp ≠ e.inum := by
            intro he
            exact hdir (he ▸ hd)
          have hip : ∀ es, (w.setEntries dp es).disk e.inum = w.disk e.inum :=
            fun es => Function.update_of_ne (Ne.symm hne) ..
          have hdp : ∀ es, (w.setEntries dp es).disk dp = { w.disk dp with entries := es } :=
            fun es => Function.update_self ..
          have hput : ∀ es, (w.setEntries dp es).iput dp = w.setEntries dp es := by
            intro es
            apply iput_of_link
            rw [hdp]
            exact h.dir_nlink hd
          rw [hip, if_neg hdir, hput, hip]
          refine ⟨_, _, rfl, Inv.iput (h.shift hd hfree hdir ?_ ?_) e.inum⟩
          · intro j hj hji
            have hset := @countP_set _ off (w.disk dp).entries (fun e => e.inum = j) e
              ⟨0, nameField []⟩ hk
            rw [decide_eq_false (Ne.symm hji), decide_eq_false (Ne.symm hj)] at hset
            exact hset
          · have hset := @countP_set _ off (w.disk dp).entries (fun a => a.inum = e.inum) e
              ⟨0, nameField []⟩ hk
            rw [decide_eq_true rfl, decide_eq_false (Ne.symm h0), if_pos rfl, if_neg nofun] at hset
            rw [toInt_pred hpos]
            unfold names
            omega

/-! ## `create` -/

/-- the entries of a new inode `ip`, and the one in `dp` -/
theorem linkNew_spec {type : InodeType} {room : Nat → Bool} (hne : dp ≠ ip)
    (hx : w.disk ip = ⟨type, 1, []⟩) :
    (∃ es, linkNew w type dp ip name room = (w.setInode ip ⟨type, 1, es⟩, false)) ∨
    ∃ es es', linkNew w type dp ip name room =
        ((w.setInode ip ⟨type, 1, es⟩).setEntries dp es', true) ∧
      (type ≠ .dir → es = []) ∧ (∀ j, j ≠ 0 → j ≠ ip → j ≠ dp → names es j = 0) ∧
      Added (w.disk dp).entries es' ip := by
  have hback : w.setInode ip ⟨type, 1, []⟩ = w := by
    unfold World.setInode
    rw [← hx, Function.update_eq_self]
  -- entries of the new inode
  have hentries : ∀ es es₂, (w.setInode ip ⟨type, 1, es⟩).setEntries ip es₂ =
      w.setInode ip ⟨type, 1, es₂⟩ := by
    intro es es₂
    unfold World.setEntries World.setInode
    dsimp only
    rw [Function.update_self, Function.update_idem]
  have hself : ∀ es, (w.setInode ip ⟨type, 1, es⟩).disk ip = ⟨type, 1, es⟩ :=
    fun es => Function.update_self ..
  have hdp : ∀ es, (w.setInode ip ⟨type, 1, es⟩).disk dp = w.disk dp :=
    fun es => Function.update_of_ne hne ..
  have hlast : ∀ es, (type ≠ .dir → es = []) →
      (∀ j, j ≠ 0 → j ≠ ip → j ≠ dp → names es j = 0) →
      (∃ es₂, dirlink (w.setInode ip ⟨type, 1, es⟩) dp name ip (room 2) =
        (w.setInode ip ⟨type, 1, es₂⟩, false)) ∨
      ∃ es₂ es', dirlink (w.setInode ip ⟨type, 1, es⟩) dp name ip (room 2) =
          ((w.setInode ip ⟨type, 1, es₂⟩).setEntries dp es', true) ∧
        (type ≠ .dir → es₂ = []) ∧ (∀ j, j ≠ 0 → j ≠ ip → j ≠ dp → names es₂ j = 0) ∧
        Added (w.disk dp).entries es' ip := by
    intro es h1 h2
    rcases @dirlink_spec dp ip (w.setInode ip ⟨type, 1, es⟩) name (room 2) with hl | ⟨es', hl, hadd⟩
    · exact Or.inl ⟨es, hl⟩
    · rw [hdp] at hadd
      exact Or.inr ⟨es, es', hl, h1, h2, hadd⟩
  unfold linkNew
  rw [← hback]
  by_cases hdir : type = .dir
  · rw [if_pos hdir]
    rcases @dirlink_spec ip ip (w.setInode ip ⟨type, 1, []⟩) ['.'] (room 0) with
      hl | ⟨es₁, hl, hadd₁⟩
    · rw [hl, hback]
      exact Or.inl ⟨[], congrArg (·, false) hback.symm⟩
    · rw [hl, hentries, hback]
      dsimp only
      rcases @dirlink_spec ip dp (w.setInode ip ⟨type, 1, es₁⟩) ['.', '.'] (room 1) with
        hl | ⟨es₂, hl, hadd₂⟩
      · rw [hl]
        exact Or.inl ⟨es₁, rfl⟩
      · rw [hl, hentries]
        refine hlast es₂ (fun hno => absurd hdir hno) (fun j h0 hji hjd => ?_)
        rw [hself] at hadd₁ hadd₂
        rw [hadd₂ j h0, hadd₁ j h0, if_neg (Ne.symm hji), if_neg (Ne.symm hjd)]
        rfl
  · rw [if_neg hdir]
    have hfirst := hlast [] (fun _ => rfl) (fun _ _ _ _ => rfl)
    rw [hback] at hfirst ⊢
    exact hfirst

theorem ialloc_spec (h : ialloc n D = some ip) : 0 < ip ∧ ip < n ∧ (D ip).type = .free := by
  unfold ialloc at h
  have hp := List.find?_some h
  rw [Bool.and_eq_true, decide_eq_true_iff, decide_eq_true_iff] at hp
  exact ⟨hp.1, List.mem_range.mp (List.mem_of_find?_eq_some h), hp.2⟩

theorem Inv.free (h : Inv n w) (h0 : i ≠ 0) (ht : (w.disk i).type = .free) :
    (w.disk i).entries = [] ∧ links n w.disk i = 0 ∧ w.opened i = 0 := by
  obtain ⟨hl, ho⟩ := ((h i).fine h0).free ht
  exact ⟨(h i).plain (by rw [ht]; nofun), hl, ho⟩

theorem Inv.refree (h : Inv n w) (h0 : ip ≠ 0) (ht : (w.disk ip).type = .free) :
    Inv n (w.setInode ip ⟨.free, 0, []⟩) := by
  obtain ⟨hes, hl, ho⟩ := h.free h0 ht
  have hself : (w.setInode ip ⟨.free, 0, []⟩).disk ip = ⟨.free, 0, []⟩ := Function.update_self ..
  have hlinks : ∀ j, links n (w.setInode ip ⟨.free, 0, []⟩).disk j = links n w.disk j :=
    fun j => links_same hes.symm j
  have hip : InOrder n (w.setInode ip ⟨.free, 0, []⟩) ip := by
    refine ⟨fun hno => ?_, fun _ => ?_, fun _ => ?_⟩
    · rw [hself] at hno
      exact absurd rfl hno
    · rw [hself]
    · rw [hself, hlinks]
      exact ⟨hl, ho⟩
  exact h.change ip ip (fun j hj _ => Function.update_of_ne hj ..) rfl (fun j _ _ _ => hlinks j)
    hip hip

/-- a new inode with its entries -/
theorem Inv.born (h : Inv n w) {type : InodeType} {a : Int16} (h0 : 0 < ip) (hn : ip < n)
    (ht : (w.disk ip).type = .free) (hd : (w.disk dp).type = .dir) (htype : type ≠ .free)
    (hplain : type ≠ .dir → es = [])
    (hnames : ∀ j, j ≠ 0 → j ≠ ip → j ≠ dp → names es j = 0)
    (hadd : Added (w.disk dp).entries es' ip) (ha : 1 ≤ a.toInt) :
    Inv n (((w.setInode ip ⟨type, 1, es⟩).setEntries dp es').setNlink dp a) := by
  have hne : dp ≠ ip := by
    rintro rfl
    exact absurd (ht.symm.trans hd) nofun
  obtain ⟨hes, hl, -⟩ := h.free h0.ne' ht
  have hdisk : ((w.setInode ip ⟨type, 1, es⟩).setEntries dp es').setNlink dp a =
      { w with disk := (Function.update (Function.update w.disk ip ⟨type, 1, es⟩) dp
        ⟨(w.disk dp).type, a, es'⟩) } := by
    unfold World.setNlink World.setEntries World.setInode
    dsimp only
    rw [Function.update_self, Function.update_idem, Function.update_of_ne hne]
  rw [hdisk]
  have hlinks : ∀ j, links n (Function.update (Function.update w.disk ip ⟨type, 1, es⟩) dp
      ⟨(w.disk dp).type, a, es'⟩) j + names (w.disk dp).entries j =
        links n w.disk j + names es j + names es' j := by
    intro j
    have h1 := @links_update n dp (Function.update w.disk ip ⟨type, 1, es⟩)
      ⟨(w.disk dp).type, a, es'⟩ (h.lt hd) j
    have h2 := @links_update n ip w.disk ⟨type, 1, es⟩ hn j
    rw [Function.update_of_ne hne] at h1
    rw [hes, names_nil] at h2
    dsimp only at h1 h2
    omega
  have hip : Function.update (Function.update w.disk ip ⟨type, 1, es⟩) dp
      ⟨(w.disk dp).type, a, es'⟩ ip = ⟨type, 1, es⟩ := by
    rw [Function.update_of_ne (Ne.symm hne), Function.update_self]
  have hdp : Function.update (Function.update w.disk ip ⟨type, 1, es⟩) dp
      ⟨(w.disk dp).type, a, es'⟩ dp = ⟨(w.disk dp).type, a, es'⟩ := Function.update_self ..
  refine h.change ip dp (fun j hji hjd => ?_) rfl (fun j hj hji hjd => ?_)
    ⟨?_, ?_, fun _ => ?_⟩ ⟨?_, ?_, fun _ => ?_⟩
  · show Function.update (Function.update w.disk ip _) dp _ j = _
    rw [Function.update_of_ne hjd, Function.update_of_ne hji]
  · have hj' := hlinks j
    rw [hnames j hj hji hjd, hadd j hj, if_neg (Ne.symm hji)] at hj'
    dsimp only
    omega
  · exact fun _ => ⟨h0, hn⟩
  · dsimp only
    rw [hip]
    exact hplain
  · dsimp only
    rw [hip]
    have hj' := hlinks ip
    rw [hadd ip h0.ne', if_pos rfl, hl] at hj'
    have hone : (1 : Int16).toInt = 1 := Int16.toInt_one
    by_cases hdir : type = .dir
    · exact Fine.of_dir hdir hone.ge
    · rw [hplain hdir, names_nil] at hj'
      rw [hplain hdir]
      refine Fine.of_count htype hdir ?_
      dsimp only
      omega
  · dsimp only
    rw [hdp]
    exact (h dp).bound
  · dsimp only
    rw [hdp]
    exact fun hno => absurd hd hno
  · dsimp only
    rw [hdp]
    exact Fine.of_dir hd ha

theorem setInode_idem (w : World) (i : Nat) (x y : Inode) :
    (w.setInode i x).setInode i y = w.setInode i y := by
  unfold World.setInode
  dsimp only
  rw [Function.update_idem]

theorem setNlink_self {a : Int16} (h : (w.disk i).nlink = a) : w.setNlink i a = w := by
  unfold World.setNlink World.setInode
  rw [← h, Function.update_eq_self]

theorem fail_eq (w : World) (type : InodeType) (ho : w.opened ip = 0) :
    ((w.setInode ip ⟨type, 1, es⟩).setNlink ip 0).iput ip = w.setInode ip ⟨.free, 0, []⟩ := by
  have hself : ((w.setInode ip ⟨type, 1, es⟩).disk ip) = ⟨type, 1, es⟩ := Function.update_self ..
  unfold World.setNlink
  rw [hself, setInode_idem]
  have hzero : (w.setInode ip ⟨type, 0, es⟩).disk ip = ⟨type, 0, es⟩ := Function.update_self ..
  unfold World.iput
  rw [if_pos ⟨ho, congrArg Inode.nlink hzero⟩, setInode_idem]

theorem create_spec {type : InodeType} {room : Nat → Bool} {keep : Bool} {r : Option Nat}
    (h : Inv n w) (htype : type ≠ .free) (hc : Counts n w (.create cwd path type room keep))
    (hs : create n w cwd path type room = .ok (w', r)) :
    Inv n w' ∧ ∀ ip ∈ r, (w'.disk ip).type ≠ .free := by
  have hcreate := hs
  unfold create at hs
  split at hs
  · obtain ⟨rfl, rfl⟩ := Prod.mk.inj (Except.ok.inj hs)
    exact ⟨h, nofun⟩
  · rename_i dp name hnx
    have hd : (w.disk dp).type = .dir := namex_dir hnx
    have hput : w.iput dp = w := iput_of_link (h.dir_nlink hd)
    split at hs
    · rename_i ip off _
      dsimp only at hs
      rw [hput] at hs
      split at hs
      · exact absurd hs nofun
      · rename_i hfree
        split at hs
        · obtain ⟨rfl, rfl⟩ := Prod.mk.inj (Except.ok.inj hs)
          refine ⟨h, fun i hi => ?_⟩
          rw [← Option.some.inj hi]
          exact hfree
        · obtain ⟨rfl, rfl⟩ := Prod.mk.inj (Except.ok.inj hs)
          exact ⟨h.iput ip, nofun⟩
    · split at hs
      · obtain ⟨rfl, rfl⟩ := Prod.mk.inj (Except.ok.inj hs)
        exact ⟨h.iput dp, nofun⟩
      · rename_i ip hia
        obtain ⟨h0, hn, ht⟩ := ialloc_spec hia
        have hne : dp ≠ ip := by
          rintro rfl
          exact absurd (ht.symm.trans hd) nofun
        have hnew : (w.setInode ip ⟨type, 1, []⟩).disk ip = ⟨type, 1, []⟩ := Function.update_self ..
        have hdp : (w.setInode ip ⟨type, 1, []⟩).disk dp = w.disk dp := Function.update_of_ne hne ..
        rcases @linkNew_spec dp ip (w.setInode ip ⟨type, 1, []⟩) name type room hne hnew with
          ⟨es, hl⟩ | ⟨es, es', hl, hplain, hnames, hadd⟩
        · rw [hl, setInode_idem] at hs
          dsimp only at hs
          rw [fail_eq w type (h.free h0.ne' ht).2.2] at hs
          obtain ⟨rfl, rfl⟩ := Prod.mk.inj (Except.ok.inj hs)
          exact ⟨(h.refree h0.ne' ht).iput dp, nofun⟩
        · rw [hl, setInode_idem] at hs
          rw [hdp] at hadd
          dsimp only at hs
          have hborn : ∀ a : Int16, 1 ≤ a.toInt →
              Inv n (((w.setInode ip ⟨type, 1, es⟩).setEntries dp es').setNlink dp a) :=
            fun a => h.born h0 hn ht hd htype hplain hnames hadd
          have hdp' : ((w.setInode ip ⟨type, 1, es⟩).setEntries dp es').disk dp =
              { w.disk dp with entries := es' } := by
            show Function.update _ dp _ dp = _
            rw [Function.update_self]
            show ({ Function.update w.disk ip _ dp with entries := es' } : Inode) = _
            rw [Function.update_of_ne hne]
          obtain ⟨a, ha, hv⟩ : ∃ a : Int16, 1 ≤ a.toInt ∧
              (if type = .dir then
                ((w.setInode ip ⟨type, 1, es⟩).setEntries dp es').setNlink dp
                  ((((w.setInode ip ⟨type, 1, es⟩).setEntries dp es').disk dp).nlink + 1)
              else (w.setInode ip ⟨type, 1, es⟩).setEntries dp es') =
                ((w.setInode ip ⟨type, 1, es⟩).setEntries dp es').setNlink dp a := by
            have hlink := h.dir_nlink hd
            by_cases hdir : type = .dir
            · have hmax : (w.disk dp).nlink ≠ 32767 := by
                intro hm
                subst hdir
                have hno := hc (dp, name) hnx hm
                rw [hcreate, ← (Prod.mk.inj (Except.ok.inj hs)).2] at hno
                exact absurd hno nofun
              refine ⟨(w.disk dp).nlink + 1, ?_, ?_⟩
              · rw [toInt_succ hmax]
                omega
              · rw [if_pos hdir, hdp']
            · refine ⟨(w.disk dp).nlink, hlink, ?_⟩
              rw [if_neg hdir, setNlink_self (congrArg Inode.nlink hdp')]
          rw [hv, iput_of_link] at hs
          · obtain ⟨rfl, rfl⟩ := Prod.mk.inj (Except.ok.inj hs)
            refine ⟨hborn a ha, fun i hi => ?_⟩
            obtain rfl := Option.some.inj hi
            show (Function.update (Function.update (Function.update w.disk ip _) dp _) dp _
              ip).type ≠ _
            rw [Function.update_of_ne (Ne.symm hne), Function.update_of_ne (Ne.symm hne),
              Function.update_self]
            exact htype
          · show 1 ≤ ((Function.update _ dp _ : Disk) dp).nlink.toInt
            rw [Function.update_self]
            exact ha

/-! ## every call -/

theorem keep_spec (h : Inv n w) (ht : (w.disk i).type ≠ .free) : Inv n (w.keep i) := by
  intro j
  refine ⟨(h j).bound, (h j).plain, fun h0 => ?_⟩
  by_cases hj : j = i
  · subst hj
    exact ((h j).fine h0).reopen (fun hf => absurd hf ht)
  · unfold World.keep
    dsimp only
    rw [Function.update_of_ne hj]
    exact (h j).fine h0

theorem settle_spec {keep : Bool} {r : Option Nat} (h : Inv n w)
    (ht : ∀ ip ∈ r, (w.disk ip).type ≠ .free) : Inv n (settle keep (w, r)) := by
  cases r with
  | none => exact h
  | some ip =>
    unfold settle
    dsimp only
    split
    · exact keep_spec h (ht ip rfl)
    · exact h.iput ip

theorem Inv.drop (h : Inv n w) (i : Nat) :
    Inv n { w with opened := Function.update w.opened i (w.opened i - 1) } := by
  intro j
  refine ⟨(h j).bound, (h j).plain, fun h0 => ?_⟩
  by_cases hj : j = i
  · subst hj
    dsimp only
    rw [Function.update_self]
    have hf := (h j).fine h0
    refine hf.reopen (fun ht => ?_)
    rw [(hf.free ht).2]
  · dsimp only
    rw [Function.update_of_ne hj]
    exact (h j).fine h0

theorem ok_of_map {α β : Type} {x : Except Stop α} {f : α → β} {b : β} (h : x.map f = .ok b) :
    ∃ a, x = .ok a ∧ f a = b := by
  cases x with
  | error e => exact absurd h nofun
  | ok a => exact ⟨a, rfl, Except.ok.inj h⟩

theorem Inv.step {c : Call} (h : Inv n w) (ht : Tidy w c) (hc : Counts n w c)
    (hs : Step n w c w') : Inv n w' := by
  unfold Step call at hs
  cases c with
  | create cwd path type room keep =>
    dsimp only at hs
    split at hs
    · exact absurd hs nofun
    · rename_i htype
      obtain ⟨⟨v, r⟩, hr, rfl⟩ := ok_of_map hs
      have hspec := create_spec h htype hc hr
      exact settle_spec hspec.1 hspec.2
  | link cwd old new room =>
    obtain ⟨⟨v, r⟩, hr, rfl⟩ := ok_of_map hs
    exact sysLink_spec h hc hr
  | unlink cwd path =>
    obtain ⟨v, b, hr, hv⟩ := sysUnlink_spec h ht
    dsimp only at hs
    rw [hr] at hs
    obtain rfl := Except.ok.inj hs
    exact hv
  | openFile cwd path keep =>
    dsimp only at hs
    unfold sysOpen at hs
    split at hs
    · obtain rfl := Except.ok.inj hs
      exact h
    · split at hs
      · exact absurd hs nofun
      · rename_i ip _ _ hfree
        obtain rfl := Except.ok.inj hs
        refine settle_spec h (fun i hi => ?_)
        rw [← Option.some.inj hi]
        exact hfree
  | close i =>
    dsimp only at hs
    split at hs
    · exact absurd hs nofun
    · obtain rfl := Except.ok.inj hs
      exact (h.drop i).iput i

end

end Nlink
