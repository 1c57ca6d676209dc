import Xv6.Nlink.Entries

/-!
# The calls keep the tree

`Linked`: the disk is a tree, what is referenced is not free, and what has no link is referenced.  A
call that makes no entry in a removed directory keeps it.
-/

namespace Nlink
open Fs Ulib Lib
open Itable (InodeType lookup nameField isdirempty lookup_some Grown grown_set grown_append)

structure Linked (n : Nat) (w : World) : Prop where
  tree : Tree n w.disk
  held : ∀ i, w.opened i ≠ 0 → (w.disk i).type ≠ .free
  idle : ∀ i, (w.disk i).type ≠ .free → (w.disk i).nlink = 0 → w.opened i ≠ 0

section
variable {n i ip dp off inum cwd : Nat} {w w' : World} {es : List Dirent} {name path : Str}
  {room : Bool} {type : InodeType}

/-! ## `iput` -/

theorem iput_of_idle (h : w.opened i = 0 → (w.disk i).nlink ≠ 0) : w.iput i = w := by
  unfold World.iput
  rw [if_neg fun hc => h hc.1 hc.2]

theorem Linked.iput_eq (h : Linked n w) (ht : (w.disk i).type ≠ .free) : w.iput i = w :=
  iput_of_idle fun ho hz => h.idle i ht hz ho

theorem Tree.free_eq {D : Disk} (h : Tree n D) (ht : (D i).type = .free) :
    D i = ⟨.free, 0, []⟩ := by
  have hform := h.formed i
  have hplain := hform.plain (by rw [ht]; nofun)
  have hclear := hform.clear ht
  generalize D i = x at ht hplain hclear
  obtain ⟨type, nlink, entries⟩ := x
  dsimp only at ht hplain hclear
  rw [ht, hplain, hclear]

/-- only what has no link and no reference is freed -/
theorem Linked.of_iput (h : Tree n w.disk) (held : ∀ j, w.opened j ≠ 0 → (w.disk j).type ≠ .free)
    (idle : ∀ j, j ≠ i → (w.disk j).type ≠ .free → (w.disk j).nlink = 0 → w.opened j ≠ 0) :
    Linked n (w.iput i) := by
  unfold World.iput
  by_cases hc : w.opened i = 0 ∧ (w.disk i).nlink = 0
  · obtain ⟨ho, hz⟩ := hc
    rw [if_pos ⟨ho, hz⟩]
    by_cases ht : (w.disk i).type = .free
    · have hsame : w.setInode i ⟨.free, 0, []⟩ = w := by
        unfold World.setInode
        rw [← h.free_eq ht, Function.update_eq_self]
      rw [hsame]
      exact ⟨h, held, fun j htj => idle j (fun hji => htj (hji ▸ ht)) htj⟩
    · have hother : ∀ j, j ≠ i → (w.setInode i ⟨.free, 0, []⟩).disk j = w.disk j :=
        fun j hj => Function.update_of_ne hj ..
      refine ⟨h.erase (h.lt ht) (h.bare ht hz), fun j hj => ?_, fun j htj hzj => ?_⟩
      · have hji : j ≠ i := fun hji => hj (hji ▸ ho)
        rw [hother j hji]
        exact held j hj
      · by_cases hji : j = i
        · rw [hji, show (w.setInode i _).disk i = _ from Function.update_self ..] at htj
          exact absurd rfl htj
        · rw [hother j hji] at htj hzj
          exact idle j hji htj hzj
  · rw [if_neg hc]
    refine ⟨h, held, fun j htj hzj ho => ?_⟩
    by_cases hji : j = i
    · exact hc (hji ▸ ⟨ho, hzj⟩)
    · exact idle j hji htj hzj ho

theorem Linked.keep (h : Linked n w) (ht : (w.disk i).type ≠ .free) : Linked n (w.keep i) := by
  refine ⟨h.tree, fun j hj => ?_, fun j htj hzj => ?_⟩
  · by_cases hji : j = i
    · rw [hji]
      exact ht
    · refine h.held j fun ho => hj ?_
      exact (Function.update_of_ne hji ..).trans ho
  · have hold := h.idle j htj hzj
    unfold World.keep
    dsimp only
    by_cases hji : j = i
    · rw [hji, Function.update_self]
      exact Nat.succ_ne_zero _
    · rwa [Function.update_of_ne hji]

theorem Linked.drop (h : Linked n w) (i : Nat) : Linked n (w.drop i) := by
  refine Linked.of_iput h.tree (fun j hj => ?_) fun j hji htj hzj => ?_
  · by_cases hji : j = i
    · subst hji
      dsimp only at hj
      rw [Function.update_self] at hj
      exact h.held j fun ho => hj (by rw [ho])
    · refine h.held j fun ho => hj ?_
      exact (Function.update_of_ne hji ..).trans ho
  · dsimp only
    rw [Function.update_of_ne hji]
    exact h.idle j htj hzj

theorem Linked.settle {keep : Bool} {r : Option Nat} (h : Linked n w)
    (ht : ∀ ip ∈ r, (w.disk ip).type ≠ .free) : Linked n (settle keep (w, r)) := by
  cases r with
  | none => exact h
  | some ip =>
    unfold Nlink.settle
    cases keep with
    | true => exact h.keep (ht ip rfl)
    | false =>
      show Linked n (w.iput ip)
      rw [h.iput_eq (ht ip rfl)]
      exact h

/-! ## `dirlink` -/

theorem dirlink_grown (hform : Formed n dp (w.disk dp)) (hd : (w.disk dp).type = .dir) :
    dirlink w dp name inum room = (w, false) ∨
    ∃ es', dirlink w dp name inum room = (w.setEntries dp es', true) ∧
      Grown (w.disk dp).entries es' ⟨inum, nameField name⟩ ∧ es'.length ≤ maxEntries := by
  obtain ⟨p, r, hp, he⟩ := hform.dots hd
  unfold dirlink
  dsimp only
  cases lookup (w.disk dp).entries name with
  | some r => exact Or.inl rfl
  | none =>
    dsimp only
    cases hf : (w.disk dp).entries.findIdx? (fun e => e.inum = 0) with
    | some off =>
      obtain ⟨hlt, hzero, -⟩ := List.findIdx?_eq_some_iff_getElem.mp hf
      obtain ⟨e, hget, h0⟩ : ∃ e, (w.disk dp).entries[off]? = some e ∧ e.inum = 0 :=
        ⟨_, List.getElem?_eq_getElem hlt, of_decide_eq_true hzero⟩
      refine Or.inr ⟨_, rfl, grown_set ?_ hget h0, ?_⟩
      · -- the first two entries are `.` and `..`
        rw [he] at hget
        rcases off with _ | _ | off
        · obtain rfl := Option.some.inj hget
          exact absurd h0 (hform.bound (dir_ne_free hd)).1.ne'
        · obtain rfl := Option.some.inj hget
          exact absurd h0 hp
        · exact Nat.le_add_left 2 off
      · rw [List.length_set]
        exact hform.size
    | none =>
      dsimp only
      by_cases hroom : room = true ∧ (w.disk dp).entries.length < maxEntries
      · rw [if_pos hroom]
        refine Or.inr ⟨_, rfl, grown_append ?_, ?_⟩
        · rw [he]
          exact Nat.le_add_left 2 _
        · rw [List.length_append]
          exact hroom.2
      · rw [if_neg hroom]
        exact Or.inl rfl

/-- `dirlink` in a new directory -/
theorem dirlink_new (hfull : ∀ e ∈ (w.disk ip).entries, e.inum ≠ 0)
    (hl : lookup (w.disk ip).entries name = none) :
    dirlink w ip name inum room = (w, false) ∨ dirlink w ip name inum room =
      (w.setEntries ip ((w.disk ip).entries ++ [⟨inum, nameField name⟩]), true) := by
  have hfind : (w.disk ip).entries.findIdx? (fun e => e.inum = 0) = none :=
    List.findIdx?_eq_none_iff.mpr fun e he => decide_eq_false (hfull e he)
  unfold dirlink
  dsimp only
  rw [hl, hfind]
  dsimp only
  split
  · exact Or.inr rfl
  · exact Or.inl rfl

/-! ## `create` -/

/-- `.` and `..` in a new directory -/
theorem dots_new {room : Nat → Bool} (h0 : ip ≠ 0) :
    (∃ es, dirlink (w.setInode ip ⟨type, 1, []⟩) ip ['.'] ip (room 0) =
      (w.setInode ip ⟨type, 1, es⟩, false)) ∨
    dirlink (w.setInode ip ⟨type, 1, []⟩) ip ['.'] ip (room 0) =
        (w.setInode ip ⟨type, 1, [⟨ip, padded ['.']⟩]⟩, true) ∧
      (dirlink (w.setInode ip ⟨type, 1, [⟨ip, padded ['.']⟩]⟩) ip ['.', '.'] dp (room 1) =
          (w.setInode ip ⟨type, 1, [⟨ip, padded ['.']⟩]⟩, false) ∨
        dirlink (w.setInode ip ⟨type, 1, [⟨ip, padded ['.']⟩]⟩) ip ['.', '.'] dp (room 1) =
          (w.setInode ip ⟨type, 1, [⟨ip, padded ['.']⟩, ⟨dp, padded ['.', '.']⟩]⟩, true)) := by
  have hself : ∀ es, (w.setInode ip ⟨type, 1, es⟩).disk ip = ⟨type, 1, es⟩ :=
    fun es => Function.update_self ..
  have hentries : ∀ es es₂, (w.setInode ip ⟨type, 1, es⟩).setEntries ip es₂ =
      w.setInode ip ⟨type, 1, es₂⟩ := by
    intro es es₂
    unfold World.setEntries World.setInode
    dsimp only
    rw [Function.update_self, Function.update_idem]
  have hfirst := @dirlink_new ip ip (w.setInode ip ⟨type, 1, []⟩) ['.'] (room 0)
  have hsecond := @dirlink_new ip dp (w.setInode ip ⟨type, 1, [⟨ip, padded ['.']⟩]⟩)
    ['.', '.'] (room 1)
  rw [hself, hentries] at hfirst hsecond
  have hnone : lookup [⟨ip, padded ['.']⟩] ['.', '.'] = none := by
    unfold lookup
    rw [Option.map_eq_none_iff, List.find?_eq_none]
    intro q hq
    rw [List.mem_singleton.mp hq]
    have hname : namecmpEq ['.', '.'] (padded ['.']) = false := by decide
    dsimp only
    rw [hname, Bool.and_false]
    exact Bool.false_ne_true
  rcases hfirst (fun e he => absurd he List.not_mem_nil) rfl with hl | hl
  · exact Or.inl ⟨[], hl⟩
  · exact Or.inr ⟨hl, hsecond (fun e he => by rw [List.mem_singleton.mp he]; exact h0) hnone⟩

/-- the entries of a new inode `ip`, and the one in `dp` -/
theorem linkNew_grown {room : Nat → Bool} (hne : dp ≠ ip) (h0 : ip ≠ 0)
    (hform : Formed n dp (w.disk dp)) (hd : (w.disk dp).type = .dir) :
    (∃ es, linkNew (w.setInode ip ⟨type, 1, []⟩) type dp ip name room =
      (w.setInode ip ⟨type, 1, es⟩, false)) ∨
    ∃ es es', linkNew (w.setInode ip ⟨type, 1, []⟩) type dp ip name room =
        ((w.setInode ip ⟨type, 1, es⟩).setEntries dp es', true) ∧ (type ≠ .dir → es = []) ∧
      (type = .dir → es = [⟨ip, padded ['.']⟩, ⟨dp, padded ['.', '.']⟩]) ∧
      Grown (w.disk dp).entries es' ⟨ip, nameField name⟩ ∧ es'.length ≤ maxEntries := by
  have hlast : ∀ es, dirlink (w.setInode ip ⟨type, 1, es⟩) dp name ip (room 2) =
        (w.setInode ip ⟨type, 1, es⟩, false) ∨
      ∃ es', dirlink (w.setInode ip ⟨type, 1, es⟩) dp name ip (room 2) =
          ((w.setInode ip ⟨type, 1, es⟩).setEntries dp es', true) ∧
        Grown (w.disk dp).entries es' ⟨ip, nameField name⟩ ∧ es'.length ≤ maxEntries := by
    intro es
    have hl := @dirlink_grown n dp ip (w.setInode ip ⟨type, 1, es⟩) name (room 2)
    rw [show (w.setInode ip ⟨type, 1, es⟩).disk dp = _ from Function.update_of_ne hne ..] at hl
    exact hl hform hd
  unfold linkNew
  by_cases hdir : type = .dir
  · rw [if_pos hdir]
    rcases @dots_new ip dp w type room h0 with ⟨es, hl⟩ | ⟨hl, hl' | hl'⟩
    · rw [hl]
      exact Or.inl ⟨es, rfl⟩
    · rw [hl]
      dsimp only
      rw [hl']
      exact Or.inl ⟨_, rfl⟩
    · rw [hl]
      dsimp only
      rw [hl']
      rcases hlast _ with hl'' | ⟨es', hl'', hg, hsize⟩
      · exact Or.inl ⟨_, hl''⟩
      · exact Or.inr ⟨_, es', hl'', fun hno => absurd hdir hno, fun _ => rfl, hg, hsize⟩
  · rw [if_neg hdir]
    rcases hlast [] with hl | ⟨es', hl, hg, hsize⟩
    · exact Or.inl ⟨[], hl⟩
    · exact Or.inr ⟨[], es', hl, fun _ => rfl, fun hno => absurd hno hdir, hg, hsize⟩

/-- the entry that `dp` has for `ip` came or went -/
theorem Linked.of_pair (h : Linked n w) {x y : Inode} (hE : Pair w.disk w'.disk ip dp x y)
    (ho : w'.opened = w.opened) (htree : Tree n w'.disk) (hx : x.type ≠ .free) (hy : y.type ≠ .free)
    (hz : y.nlink ≠ 0) : Linked n (w'.iput ip) := by
  refine Linked.of_iput htree (fun j hj => ?_) fun j hji htj hzj => ?_
  · by_cases hji : j = ip
    · rw [hji, hE.child]
      exact hx
    · by_cases hjd : j = dp
      · rw [hjd, hE.parent]
        exact hy
      · rw [hE.other j hji hjd]
        exact h.held j (ho ▸ hj)
  · rw [ho]
    by_cases hjd : j = dp
    · rw [hjd, hE.parent] at hzj
      exact absurd hzj hz
    · rw [hE.other j hji hjd] at htj hzj
      exact h.idle j htj hzj

theorem born_pair {es' : List Dirent} {a : Int16} (hne : dp ≠ ip) :
    Pair w.disk (((w.setInode ip ⟨type, 1, es⟩).setEntries dp es').setNlink dp a).disk ip dp
      ⟨type, 1, es⟩ ⟨(w.disk dp).type, a, es'⟩ := by
  unfold World.setNlink World.setEntries World.setInode
  dsimp only
  rw [Function.update_self, Function.update_idem, Function.update_of_ne hne,
    Function.update_comm (Ne.symm hne)]
  exact pair_update hne

theorem ite_setNlink_add (w : World) (p : Prop) [Decidable p] :
    (if p then w.setNlink dp ((w.disk dp).nlink + 1) else w) =
      w.setNlink dp ((w.disk dp).nlink + if p then 1 else 0) := by
  split
  · rfl
  · rw [Int16.add_zero, setNlink_self rfl]

theorem ite_setNlink_sub (w : World) (p : Prop) [Decidable p] :
    (if p then w.setNlink dp ((w.disk dp).nlink - 1) else w) =
      w.setNlink dp ((w.disk dp).nlink - if p then 1 else 0) := by
  split
  · rfl
  · rw [Int16.sub_zero, setNlink_self rfl]

/-- `nlink` of a directory that gets a directory does not wrap -/
theorem Tree.nlink_lt {D : Disk} {d : Nat} (h : Tree n D) (hd : (D d).type = .dir) :
    (D d).nlink.toInt < 32767 := by
  obtain ⟨hcount, hone, -, -⟩ := (h.suits d (h.ne_zero (dir_ne_free hd))).dir hd
  have hkids : kids D (D d) ≤ maxEntries := by
    unfold kids Inode.rest
    have hsize := (h.formed d).size
    have hle := List.countP_le_length (p := fun e : Dirent => decide ((D e.inum).type = .dir))
      (l := (D d).entries.drop 2)
    rw [List.length_drop] at hle
    omega
  have hmax : maxEntries = 17152 := rfl
  split at hcount <;> omega

theorem Linked.born {es' : List Dirent} (h : Linked n w) (h0 : 0 < ip)
    (hn : ip < n) (ht : (w.disk ip).type = .free) (hd : (w.disk dp).type = .dir)
    (hlive : (w.disk dp).nlink ≠ 0) (htype : type ≠ .free) (hplain : type ≠ .dir → es = [])
    (hdots : type = .dir → es = [⟨ip, padded ['.']⟩, ⟨dp, padded ['.', '.']⟩])
    (hg : Grown (w.disk dp).entries es' ⟨ip, name⟩) (hsize : es'.length ≤ maxEntries) :
    Linked n (((w.setInode ip ⟨type, 1, es⟩).setEntries dp es').setNlink dp
      ((w.disk dp).nlink + if type = .dir then 1 else 0)) := by
  have hne : dp ≠ ip := by
    rintro rfl
    exact absurd (ht.symm.trans hd) nofun
  have hmax : (w.disk dp).nlink ≠ 32767 := by
    intro hm
    have hlt := h.tree.nlink_lt hd
    rw [hm] at hlt
    exact absurd hlt (by decide)
  have ha : ((w.disk dp).nlink + if type = .dir then 1 else 0).toInt =
      (w.disk dp).nlink.toInt + if type = .dir then 1 else 0 := by
    split
    · exact toInt_succ hmax
    · rw [Int16.add_zero, Int.add_zero]
  have hz : (w.disk dp).nlink + (if type = .dir then 1 else 0) ≠ 0 := by
    intro hz
    have hpos := h.tree.live_of_link hd hlive
    rw [hz, show (0 : Int16).toInt = 0 from rfl] at ha
    split at ha
    · omega
    · omega
  have hE := @born_pair ip dp w es type es' ((w.disk dp).nlink + if type = .dir then 1 else 0) hne
  have htree : Tree n _ := h.tree.born h0 hn ht hd hlive htype hplain hdots hg hsize ha (hd ▸ hE)
  have hput := h.of_pair hE rfl htree htype (dir_ne_free hd) hz
  rwa [iput_of_link] at hput
  rw [hE.child]
  exact Int16.toInt_one.ge

theorem create_linked {room : Nat → Bool} {keep : Bool} {r : Option Nat} (h : Linked n w)
    (htype : type ≠ .free) (hc : Rooted n w (.create cwd path type room keep))
    (hs : create n w cwd path type room = .ok (w', r)) :
    Linked n w' ∧ ∀ ip ∈ r, (w'.disk ip).type ≠ .free := by
  have hcreate := hs
  unfold create at hs
  split at hs
  · obtain ⟨rfl, rfl⟩ := Prod.mk.inj (Except.ok.inj hs)
    exact ⟨h, nofun⟩
  · rename_i dp name hnx
    have hd : (w.disk dp).type = .dir := namex_dir hnx
    have hput : w.iput dp = w := h.iput_eq (dir_ne_free hd)
    split at hs
    · rename_i ip off _
      dsimp only at hs
      rw [hput] at hs
      split at hs
      · exact absurd hs nofun
      · rename_i hfree
        split at hs
        · obtain ⟨rfl, rfl⟩ := Prod.mk.inj (Except.ok.inj hs)
          refine ⟨h, fun i hi => ?_⟩
          rw [← Option.some.inj hi]
          exact hfree
        · rw [h.iput_eq hfree] at hs
          obtain ⟨rfl, rfl⟩ := Prod.mk.inj (Except.ok.inj hs)
          exact ⟨h, nofun⟩
    · split at hs
      · rw [hput] at hs
        obtain ⟨rfl, rfl⟩ := Prod.mk.inj (Except.ok.inj hs)
        exact ⟨h, nofun⟩
      · rename_i ip hia
        obtain ⟨h0, hn, ht⟩ := ialloc_spec hia
        have hne : dp ≠ ip := by
          rintro rfl
          exact absurd (ht.symm.trans hd) nofun
        rcases @linkNew_grown n ip dp w name type room hne h0.ne' (h.tree.formed dp) hd with
          ⟨es, hl⟩ | ⟨es, es', hl, hplain, hdots, hg, hsize⟩
        · have hopen : w.opened ip = 0 := by
            by_contra ho
            exact h.held ip ho ht
          have hback : w.setInode ip ⟨.free, 0, []⟩ = w := by
            unfold World.setInode
            rw [← h.tree.free_eq ht, Function.update_eq_self]
          rw [hl] at hs
          dsimp only at hs
          rw [fail_eq w type hopen, hback, hput] at hs
          obtain ⟨rfl, rfl⟩ := Prod.mk.inj (Except.ok.inj hs)
          exact ⟨h, nofun⟩
        · rw [hl] at hs
          dsimp only at hs
          have hlive : (w.disk dp).nlink ≠ 0 := by
            refine hc ?_ (dp, name) hnx
            rw [hcreate, ← (Prod.mk.inj (Except.ok.inj hs)).2]
            rfl
          have hlinks : (((w.setInode ip ⟨type, 1, es⟩).setEntries dp es').disk dp).nlink =
              (w.disk dp).nlink := by
            rw [show ((w.setInode ip _).setEntries dp es').disk dp = _ from Function.update_self ..]
            dsimp only
            rw [show (w.setInode ip _).disk dp = _ from Function.update_of_ne hne ..]
          have hborn := h.born h0 hn ht hd hlive htype hplain hdots
            hg hsize
          have hE := @born_pair ip dp w es type es'
            ((w.disk dp).nlink + if type = .dir then 1 else 0) hne
          rw [ite_setNlink_add, hlinks, hborn.iput_eq] at hs
          swap
          · rw [hE.parent]
            exact dir_ne_free hd
          obtain ⟨rfl, rfl⟩ := Prod.mk.inj (Except.ok.inj hs)
          refine ⟨hborn, fun i hi => ?_⟩
          rw [← Option.some.inj hi, hE.child]
          exact htype

/-! ## `sys_link` -/

theorem image_setNlink {a : Int16} (hnd : (w.disk ip).type ≠ .dir) :
    image (w.setNlink ip a).disk = image w.disk := by
  funext j
  unfold image
  by_cases hj : j = ip
  · rw [hj, if_neg hnd, if_neg]
    rw [show (w.setNlink ip a).disk ip = _ from Function.update_self ..]
    exact hnd
  · rw [show (w.setNlink ip a).disk j = w.disk j from Function.update_of_ne hj ..]

theorem shift_pair {a b : Int16} (hne : dp ≠ ip) :
    Pair w.disk (((w.setEntries dp es).setNlink dp a).setNlink ip b).disk ip dp
      { w.disk ip with nlink := b } ⟨(w.disk dp).type, a, es⟩ := by
  unfold World.setNlink World.setEntries World.setInode
  dsimp only
  rw [Function.update_self, Function.update_idem, Function.update_of_ne (Ne.symm hne)]
  exact pair_update hne

theorem sysLink_linked {old new : Str} {r : Bool} (h : Linked n w)
    (hc : Rooted n w (.link cwd old new room)) (hs : sysLink w cwd old new room = .ok (w', r)) :
    Linked n w' := by
  have hlink := hs
  unfold sysLink at hs
  split at hs
  · obtain ⟨rfl, -⟩ := Prod.mk.inj (Except.ok.inj hs)
    exact h
  · rename_i ip name hold
    split at hs
    · exact absurd hs nofun
    · rename_i hfree
      split at hs
      · rw [h.iput_eq hfree] at hs
        obtain ⟨rfl, -⟩ := Prod.mk.inj (Except.ok.inj hs)
        exact h
      · rename_i hnd
        dsimp only at hs
        rw [image_setNlink hnd] at hs
        split at hs
        · rw [linkBad_eq, h.iput_eq hfree] at hs
          obtain ⟨rfl, -⟩ := Prod.mk.inj (Except.ok.inj hs)
          exact h
        · rename_i dp name' hnew
          have hd : (w.disk dp).type = .dir := namex_dir hnew
          have hne : dp ≠ ip := by
            rintro rfl
            exact hnd hd
          have hdp : (w.setNlink ip ((w.disk ip).nlink + 1)).disk dp = w.disk dp :=
            Function.update_of_ne hne ..
          have hl := @dirlink_grown n dp ip (w.setNlink ip ((w.disk ip).nlink + 1)) name' room
          rw [hdp] at hl
          rcases hl (h.tree.formed dp) hd with hl | ⟨es', hl, hg, hsize⟩
          · have hput : (w.setNlink ip ((w.disk ip).nlink + 1)).iput dp =
                w.setNlink ip ((w.disk ip).nlink + 1) := by
              apply iput_of_idle
              rw [hdp]
              exact fun ho hz => h.idle dp (dir_ne_free hd) hz ho
            rw [hl] at hs
            dsimp only at hs
            rw [hput, linkBad_eq, h.iput_eq hfree] at hs
            obtain ⟨rfl, -⟩ := Prod.mk.inj (Except.ok.inj hs)
            exact h
          · rw [hl] at hs
            obtain ⟨rfl, rfl⟩ := Prod.mk.inj (Except.ok.inj hs)
            obtain ⟨hlive, hmax⟩ := hc (by rw [hlink]; rfl)
            have hsame : (w.setEntries dp es').setNlink dp (w.disk dp).nlink =
                w.setEntries dp es' := by
              apply setNlink_self
              rw [show (w.setEntries dp es').disk dp = _ from Function.update_self ..]
            have hput : ((w.setEntries dp es').setNlink ip ((w.disk ip).nlink + 1)).iput dp =
                (w.setEntries dp es').setNlink ip ((w.disk ip).nlink + 1) := by
              apply iput_of_idle
              rw [← setEntries_setNlink hne,
                show ((w.setNlink ip _).setEntries dp es').disk dp = _ from Function.update_self ..]
              dsimp only
              rw [hdp]
              exact fun _ => hlive _ hnew
            have hE := @shift_pair ip dp w es' (w.disk dp).nlink ((w.disk ip).nlink + 1) hne
            have hpair := h.of_pair hE rfl (h.tree.link hd
              (hlive _ hnew) hfree hnd hg hsize (toInt_succ (hmax _ hold)) (hd ▸ hE)) hfree
              (dir_ne_free hd) (hlive _ hnew)
            rw [hsame] at hpair
            rw [setEntries_setNlink hne, hput]
            exact hpair

/-! ## `sys_unlink` -/

theorem iput_setNlink {a : Int16} (ha : a ≠ 0) : (w.setNlink i a).iput i = w.setNlink i a := by
  apply iput_of_idle
  rw [show (w.setNlink i a).disk i = _ from Function.update_self ..]
  exact fun _ => ha

/-- an entry goes; a directory that it is for is empty -/
theorem Linked.cut {e : Dirent} (h : Linked n w) (hoff : 2 ≤ off)
    (hk : (w.disk dp).entries[off]? = some e) (h0 : e.inum ≠ 0)
    (hempty : (w.disk e.inum).type = .dir → isdirempty (w.disk e.inum).entries = true)
    (hlink : 1 ≤ (w.disk e.inum).nlink.toInt) :
    (w.disk dp).nlink - (if (w.disk e.inum).type = .dir then 1 else 0) ≠ 0 ∧
    Linked n ((((w.setEntries dp ((w.disk dp).entries.set off ⟨0, nameField []⟩)).setNlink dp
      ((w.disk dp).nlink - if (w.disk e.inum).type = .dir then 1 else 0)).setNlink e.inum
        ((w.disk e.inum).nlink - 1)).iput e.inum) := by
  have hmem : e ∈ (w.disk dp).rest := rest_mem hoff hk
  have hlive := h.tree.live hmem h0
  have ha : ((w.disk dp).nlink - if (w.disk e.inum).type = .dir then 1 else 0).toInt =
      (w.disk dp).nlink.toInt - if (w.disk e.inum).type = .dir then 1 else 0 := by
    split
    · exact toInt_pred hlive
    · rw [Int16.sub_zero, Int.sub_zero]
  have hz : (w.disk dp).nlink - (if (w.disk e.inum).type = .dir then 1 else 0) ≠ 0 := by
    intro hz
    rw [hz, show (0 : Int16).toInt = 0 from rfl] at ha
    split at ha
    · rename_i hdir
      have htwo := h.tree.live_dir hmem h0 hdir
      omega
    · omega
  have hE := @shift_pair e.inum dp w ((w.disk dp).entries.set off ⟨0, nameField []⟩)
    ((w.disk dp).nlink - if (w.disk e.inum).type = .dir then 1 else 0)
    ((w.disk e.inum).nlink - 1) (h.tree.ne_self hmem h0)
  have htree : Tree n _ := h.tree.cut hoff hk h0
    (fun hdir c hc => of_decide_eq_true (List.all_eq_true.mp (hempty hdir) c hc)) ha
    (toInt_pred hlink) hE
  have hd := dir_ne_free (h.tree.isDir hmem)
  exact ⟨hz, h.of_pair hE rfl htree (h.tree.named_type hmem h0) hd hz⟩

theorem sysUnlink_linked {r : Bool} (h : Linked n w)
    (hs : sysUnlink w cwd path = .ok (w', r)) : Linked n w' := by
  unfold sysUnlink at hs
  split at hs
  · obtain ⟨rfl, -⟩ := Prod.mk.inj (Except.ok.inj hs)
    exact h
  · rename_i dp name hnx
    have hd : (w.disk dp).type = .dir := namex_dir hnx
    have hput : w.iput dp = w := h.iput_eq (dir_ne_free hd)
    split at hs
    · rw [hput] at hs
      obtain ⟨rfl, -⟩ := Prod.mk.inj (Except.ok.inj hs)
      exact h
    · rename_i hdots
      split at hs
      · rw [hput] at hs
        obtain ⟨rfl, -⟩ := Prod.mk.inj (Except.ok.inj hs)
        exact h
      · rename_i ip off hl
        split at hs
        · exact absurd hs nofun
        · rename_i hfree
          split at hs
          · exact absurd hs nofun
          · rename_i hpos
            split at hs
            · rw [h.iput_eq hfree, hput] at hs
              obtain ⟨rfl, -⟩ := Prod.mk.inj (Except.ok.inj hs)
              exact h
            · rename_i hfull
              obtain ⟨e, hk, rfl, h0, -⟩ := lookup_some hl
              have hoff := two_le_of_lookup (h.tree.formed dp) hd hl hdots
              have hne : dp ≠ e.inum := h.tree.ne_self (rest_mem hoff hk) h0
              have hlink : 1 ≤ (w.disk e.inum).nlink.toInt := by
                rw [Int16.lt_iff_toInt_lt, Int16.toInt_one] at hpos
                omega
              obtain ⟨hz, hcut⟩ := h.cut hoff hk h0 (fun hdir => by
                rw [← Bool.not_eq_false]
                exact fun hno => hfull ⟨hdir, hno⟩) hlink
              have hparent : ∀ es, (w.setEntries dp es).disk dp =
                  { w.disk dp with entries := es } := fun es => Function.update_self ..
              have hchild : ∀ es, (w.setEntries dp es).disk e.inum = w.disk e.inum :=
                fun es => Function.update_of_ne (Ne.symm hne) ..
              have hchild' : ∀ (v : World) a, (v.setNlink dp a).disk e.inum = v.disk e.inum :=
                fun v a => Function.update_of_ne (Ne.symm hne) ..
              dsimp only at hs
              rw [hchild, ite_setNlink_sub, hparent, iput_setNlink hz, hchild', hchild] at hs
              obtain ⟨rfl, -⟩ := Prod.mk.inj (Except.ok.inj hs)
              exact hcut

/-! ## every call -/

theorem Linked.call {c : Call} (h : Linked n w) (hc : Rooted n w c) (hs : Step n w c w') :
    Linked n w' := by
  unfold Step Nlink.call at hs
  cases c with
  | create cwd path type room keep =>
    dsimp only at hs
    split at hs
    · exact absurd hs nofun
    · rename_i htype
      obtain ⟨⟨v, r⟩, hr, rfl⟩ := ok_of_map hs
      have hspec := create_linked h htype hc hr
      exact hspec.1.settle hspec.2
  | link cwd old new room =>
    obtain ⟨⟨v, r⟩, hr, rfl⟩ := ok_of_map hs
    exact sysLink_linked h hc hr
  | unlink cwd path =>
    obtain ⟨⟨v, r⟩, hr, rfl⟩ := ok_of_map hs
    exact sysUnlink_linked h hr
  | openFile cwd path keep =>
    dsimp only at hs
    unfold sysOpen at hs
    split at hs
    · obtain rfl := Except.ok.inj hs
      exact h
    · split at hs
      · exact absurd hs nofun
      · rename_i ip _ _ hfree
        obtain rfl := Except.ok.inj hs
        refine h.settle (fun i hi => ?_)
        rw [← Option.some.inj hi]
        exact hfree
  | close i =>
    dsimp only at hs
    split at hs
    · exact absurd hs nofun
    · obtain rfl := Except.ok.inj hs
      exact h.drop i

end

end Nlink
