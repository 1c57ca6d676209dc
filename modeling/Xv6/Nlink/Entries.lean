import Xv6.Nlink.Linked

/-!
# Entries that come and go

What `link`, `create` and `unlink` do to the disk keeps the tree, where the directory that gets an
entry has a link.
-/

namespace Nlink
open Fs Ulib Lib
open Itable (InodeType nameField Grown rest_getElem? rest_set)

section
variable {n i j d dp ip off : Nat} {D E : Disk} {es es' : List Dirent} {e new : Dirent}
  {a b : Int16} {type : InodeType} {x y : Inode} {name : Str}

/-! ## two inodes change -/

/-- disk `E` is `D` with other inodes `ip` and `dp` -/
structure Pair (D E : Disk) (ip dp : Nat) (x y : Inode) : Prop where
  ne : dp ≠ ip
  child : E ip = x
  parent : E dp = y
  other : ∀ j, j ≠ ip → j ≠ dp → E j = D j

theorem pair_update (hne : dp ≠ ip) :
    Pair D (Function.update (Function.update D dp y) ip x) ip dp x y := by
  refine ⟨hne, Function.update_self .., ?_, fun j hji hjd => ?_⟩
  · rw [Function.update_of_ne hne, Function.update_self]
  · rw [Function.update_of_ne hji, Function.update_of_ne hjd]

theorem Pair.eq_update (h : Pair D E ip dp x y) :
    E = Function.update (Function.update D dp y) ip x := by
  funext j
  by_cases hji : j = ip
  · rw [hji, h.child, Function.update_self]
  · by_cases hjd : j = dp
    · rw [hjd, h.parent, Function.update_of_ne h.ne, Function.update_self]
    · rw [h.other j hji hjd, Function.update_of_ne hji, Function.update_of_ne hjd]

theorem Pair.named (h : Pair D E ip dp x y) (hi : ip < n) (hd : dp < n) (j : Nat) :
    named n E j + names (D ip).rest j + names (D dp).rest j =
      named n D j + names x.rest j + names y.rest j := by
  have h1 := @named_update n dp D y hd j
  have h2 := @named_update n ip (Function.update D dp y) x hi j
  rw [Function.update_of_ne (Ne.symm h.ne), ← h.eq_update] at h2
  omega

theorem Pair.type_of_ne (h : Pair D E ip dp x y) (hy : y.type = (D dp).type) (hj : j ≠ ip) :
    (E j).type = (D j).type := by
  by_cases hjd : j = dp
  · rw [hjd, h.parent, hy]
  · rw [h.other j hj hjd]

theorem Pair.same_type (h : Pair D E ip dp x y) (hx : x.type = (D ip).type)
    (hy : y.type = (D dp).type) (j : Nat) : (E j).type = (D j).type := by
  by_cases hj : j = ip
  · rw [hj, h.child, hx]
  · exact h.type_of_ne hy hj

/-! ## a new entry -/

theorem names_grown (hg : Grown es es' ⟨ip, name⟩) (h0 : j ≠ 0) :
    names (es'.drop 2) j = names (es.drop 2) j + if ip = j then 1 else 0 := by
  have hcount := hg.count (fun e => e.inum = j) fun e he => decide_eq_false fun hj => h0 (hj ▸ he)
  simp only [decide_eq_true_eq] at hcount
  exact hcount

/-- the directories in a directory, with a new entry; `E` is the disk behind it -/
theorem kids_grown (hg : Grown (D dp).entries es' new) (a : Int16)
    (htype : ∀ e ∈ (D dp).rest, (E e.inum).type = .dir ↔ (D e.inum).type = .dir)
    (hzero : (E 0).type ≠ .dir) : kids E ⟨.dir, a, es'⟩ =
      kids D (D dp) + if (E new.inum).type = .dir then 1 else 0 := by
  have hcount := hg.count (fun e => (E e.inum).type = .dir) fun e he =>
    decide_eq_false fun hd => hzero (he ▸ hd)
  simp only [decide_eq_true_eq] at hcount
  have hold : kids E (D dp) = kids D (D dp) := kids_congr htype
  rw [← hold]
  exact hcount

theorem Formed.grown (h : Formed n dp (D dp)) (hd : (D dp).type = .dir)
    (hg : Grown (D dp).entries es' new) (hsize : es'.length ≤ maxEntries) (a : Int16) :
    Formed n dp ⟨.dir, a, es'⟩ := by
  refine ⟨fun _ => h.bound (dir_ne_free hd), fun hno => absurd rfl hno, nofun, fun _ => ?_, hsize⟩
  obtain ⟨p, r, hp, he⟩ := h.dots hd
  refine ⟨p, es'.drop 2, hp, ?_⟩
  have hhead := hg.head
  rw [he] at hhead
  show es' = _
  rw [← List.take_append_drop 2 es', hhead]
  rfl

/-- a directory with a link has an entry or is the root, so that it may get another one -/
theorem Tree.grown_suits {m : Nat} (h : Tree n D) (hd : (D dp).type = .dir)
    (hlive : (D dp).nlink ≠ 0) (hnamed : named n E dp = named n D dp)
    (ha : a.toInt = (D dp).nlink.toInt + m) (hkids : kids E ⟨.dir, a, es'⟩ = kids D (D dp) + m) :
    Suits dp ⟨.dir, a, es'⟩ (named n E dp) (kids E ⟨.dir, a, es'⟩) := by
  obtain ⟨hcount, hone, htop, -⟩ := (h.suits dp (h.ne_zero (dir_ne_free hd))).dir hd
  rw [hnamed]
  refine .of_dir rfl ⟨?_, hone, htop, fun hk hroot => ?_⟩
  · dsimp only
    rw [hkids, ha, hcount, Int.natCast_add]
    omega
  · exact absurd (h.named_of_link hd hroot hlive) (hk ▸ Nat.lt_irrefl 0)

/-- another entry for a file -/
theorem Tree.link (h : Tree n D) (hd : (D dp).type = .dir) (hlive : (D dp).nlink ≠ 0)
    (ht : (D ip).type ≠ .free) (hnd : (D ip).type ≠ .dir)
    (hg : Grown (D dp).entries es' ⟨ip, name⟩) (hsize : es'.length ≤ maxEntries)
    (ha : a.toInt = (D ip).nlink.toInt + 1)
    (hE : Pair D E ip dp { D ip with nlink := a } ⟨.dir, (D dp).nlink, es'⟩) : Tree n E := by
  have htype := hE.same_type rfl hd.symm
  have hnamed : ∀ j, j ≠ 0 → named n E j = named n D j + if ip = j then 1 else 0 := by
    intro j h0
    have hpair := hE.named (h.lt ht) (h.lt (dir_ne_free hd)) j
    have hgrow : names (⟨.dir, (D dp).nlink, es'⟩ : Inode).rest j = names (D dp).rest j + _ :=
      names_grown hg h0
    have hsame : names ({ D ip with nlink := a } : Inode).rest j = names (D ip).rest j := rfl
    omega
  have hkids := kids_grown (E := E) hg (D dp).nlink (fun e _ => by rw [htype])
    (by rw [htype, h.type_zero]; nofun)
  refine h.change ip dp hE.other (fun _ => htype dp) (Or.inl (htype ip))
    (fun j h0 hji => ?_) ⟨?_, ?_⟩ (fun h0 => ?_) (fun h0 _ => ?_) ?_
  · rw [hnamed j h0, if_neg (Ne.symm hji), Nat.add_zero]
  · have hform := h.formed ip
    rw [hE.child]
    exact ⟨hform.bound, hform.plain, fun hf => absurd hf ht, fun hno => absurd hno hnd, hform.size⟩
  · rw [hE.parent]
    exact (h.formed dp).grown hd hg hsize _
  · have hcount := (h.suits ip h0).count ht hnd
    rw [hE.child]
    refine .of_count ht hnd ?_
    dsimp only
    rw [hnamed ip h0, if_pos rfl, ha, hcount]
    rfl
  · have hdir : ¬ (E ip).type = .dir := by
      rw [htype]
      exact hnd
    rw [hE.parent]
    refine h.grown_suits hd hlive ?_ ?_ hkids
    · rw [hnamed dp h0, if_neg (Ne.symm hE.ne), Nat.add_zero]
    · rw [if_neg hdir, Int.natCast_zero, Int.add_zero]
  · obtain ⟨r, hr⟩ := h.ranked
    refine ⟨r, hr.of_subset fun d e he h0 htd => ?_⟩
    rw [htype] at htd
    refine ⟨?_, htd⟩
    by_cases hdi : d = ip
    · rw [hdi, hE.child] at he
      rw [hdi]
      exact he
    · by_cases hdd : d = dp
      · rw [hdd, hE.parent] at he
        rcases hg.mem e he with hold | rfl
        · rw [hdd]
          exact hold
        · exact absurd htd hnd
      · rwa [hE.other d hdi hdd] at he

/-! ## a new inode -/

theorem Formed.born (h0 : 0 < ip) (hn : ip < n) (htype : type ≠ .free) (hdp : dp ≠ 0)
    (hplain : type ≠ .dir → es = [])
    (hdots : type = .dir → es = [⟨ip, padded ['.']⟩, ⟨dp, padded ['.', '.']⟩]) :
    Formed n ip ⟨type, 1, es⟩ := by
  refine ⟨fun _ => ⟨h0, hn⟩, hplain, fun hf => absurd hf htype,
    fun hdir => ⟨dp, [], hdp, hdots hdir⟩, ?_⟩
  by_cases hdir : type = .dir
  · rw [hdots hdir]
    show 2 ≤ maxEntries
    decide
  · rw [hplain hdir]
    exact Nat.zero_le _

theorem Suits.born (hroot : ip ≠ rootIno) (htype : type ≠ .free)
    (hes : (⟨type, 1, es⟩ : Inode).rest = []) :
    Suits ip ⟨type, 1, es⟩ 1 (kids E ⟨type, 1, es⟩) := by
  have hone : (1 : Int16).toInt = 1 := Int16.toInt_one
  by_cases hdir : type = .dir
  · have hnone : kids E ⟨type, 1, es⟩ = 0 := by
      unfold kids
      rw [hes]
      rfl
    refine .of_dir hdir ⟨?_, Nat.le_refl 1, fun hno => absurd hno hroot, nofun⟩
    rw [hnone, if_neg hroot]
    exact hone
  · exact .of_count htype hdir hone

/-- the new directory is one below its parent -/
theorem Ranked.born {r : Nat → Nat} (h : Ranked D r) (hsame : ∀ j, j ≠ ip → (E j).type = (D j).type)
    (hnew : ∀ e ∈ (E ip).rest, e.inum = 0)
    (hsub : ∀ d, d ≠ ip → ∀ e ∈ (E d).rest,
      e ∈ (D d).rest ∧ e.inum ≠ ip ∨ d = dp ∧ e.inum = ip) :
    Ranked E (Function.update r ip (r dp + 1)) := by
  intro d e he h0 htd
  have hdi : d ≠ ip := by
    rintro rfl
    exact h0 (hnew e he)
  rw [Function.update_of_ne hdi]
  rcases hsub d hdi e he with ⟨hold, hei⟩ | ⟨rfl, hei⟩
  · rw [Function.update_of_ne hei]
    rw [hsame _ hei] at htd
    exact h d e hold h0 htd
  · rw [hei, Function.update_self]
    exact Nat.lt_succ_self _

/-- a new inode with the entry for it; `es` are the entries `.` and `..` of a directory -/
theorem Tree.born (h : Tree n D) (h0 : 0 < ip) (hn : ip < n) (ht : (D ip).type = .free)
    (hd : (D dp).type = .dir) (hlive : (D dp).nlink ≠ 0) (htype : type ≠ .free)
    (hplain : type ≠ .dir → es = [])
    (hdots : type = .dir → es = [⟨ip, padded ['.']⟩, ⟨dp, padded ['.', '.']⟩])
    (hg : Grown (D dp).entries es' ⟨ip, name⟩) (hsize : es'.length ≤ maxEntries)
    (ha : a.toInt = (D dp).nlink.toInt + if type = .dir then 1 else 0)
    (hE : Pair D E ip dp ⟨type, 1, es⟩ ⟨.dir, a, es'⟩) : Tree n E := by
  have hbare := h.bare_free h0.ne' ht
  have hes : (⟨type, 1, es⟩ : Inode).rest = [] := by
    unfold Inode.rest
    by_cases hdir : type = .dir
    · rw [hdots hdir]
      rfl
    · rw [hplain hdir]
      rfl
  have hnamed : ∀ j, j ≠ 0 → named n E j = named n D j + if ip = j then 1 else 0 := by
    intro j hj
    have hpair := hE.named hn (h.lt (dir_ne_free hd)) j
    have hgrow : names (⟨.dir, a, es'⟩ : Inode).rest j = names (D dp).rest j + _ :=
      names_grown hg hj
    have hold : names (D ip).rest j = 0 := by
      unfold names
      rw [List.countP_eq_zero]
      intro e he hej
      exact hj ((of_decide_eq_true hej).symm.trans (hbare.rest e he))
    rw [hes, names_nil] at hpair
    omega
  have hsame : ∀ j, j ≠ ip → (E j).type = (D j).type := fun j => hE.type_of_ne hd.symm
  have hkids := kids_grown (E := E) hg a
    (fun e he => by rw [hsame _ (h.ne_of_named hbare.named he)])
    (by rw [hsame 0 h0.ne, h.type_zero]; nofun)
  dsimp only at hkids
  rw [hE.child] at hkids
  refine h.change ip dp hE.other (fun hno => hsame dp hno) (Or.inr ⟨hbare.named, hbare.root⟩)
    (fun j hj hji => ?_) ⟨?_, ?_⟩ (fun _ => ?_) (fun hj _ => ?_) ?_
  · rw [hnamed j hj, if_neg (Ne.symm hji), Nat.add_zero]
  · rw [hE.child]
    exact .born h0 hn htype (h.ne_zero (dir_ne_free hd)) hplain hdots
  · rw [hE.parent]
    exact (h.formed dp).grown hd hg hsize _
  · rw [hE.child, hnamed ip h0.ne', if_pos rfl, hbare.named]
    exact .born hbare.root htype hes
  · rw [hE.parent]
    refine h.grown_suits hd hlive ?_ ?_ hkids
    · rw [hnamed dp hj, if_neg (Ne.symm hE.ne), Nat.add_zero]
    · rw [ha]
      by_cases hdir : type = .dir
      · rw [if_pos hdir, if_pos hdir]
        rfl
      · rw [if_neg hdir, if_neg hdir]
        rfl
  · obtain ⟨r, hr⟩ := h.ranked
    refine ⟨Function.update r ip (r dp + 1), hr.born hsame (fun e he => ?_) fun d hdi e he => ?_⟩
    · rw [hE.child, hes] at he
      exact absurd he List.not_mem_nil
    · by_cases hdd : d = dp
      · rw [hdd, hE.parent] at he
        rcases hg.mem e he with hold | rfl
        · exact Or.inl ⟨hdd ▸ hold, h.ne_of_named hbare.named hold⟩
        · exact Or.inr ⟨hdd, rfl⟩
      · rw [hE.other d hdi hdd] at he
        exact Or.inl ⟨he, h.ne_of_named hbare.named he⟩

/-! ## an entry is taken away -/

/-- the entry at `off` goes -/
def Inode.cut (x : Inode) (off : Nat) (a : Int16) : Inode :=
  ⟨x.type, a, x.entries.set off ⟨0, nameField []⟩⟩

theorem rest_cut (hoff : 2 ≤ off) :
    (x.cut off a).rest = x.rest.set (off - 2) ⟨0, nameField []⟩ :=
  rest_set hoff _

theorem names_cut (hoff : 2 ≤ off) (hk : x.entries[off]? = some e) (hj : j ≠ 0) :
    names (x.cut off a).rest j + (if e.inum = j then 1 else 0) = names x.rest j := by
  have hset := @countP_set _ (off - 2) x.rest (fun c => c.inum = j) e ⟨0, nameField []⟩
    (rest_getElem? hoff hk)
  rw [decide_eq_false (Ne.symm hj), if_neg Bool.false_ne_true, ← rest_cut hoff] at hset
  simp only [decide_eq_true_eq] at hset
  exact hset

theorem kids_cut (hoff : 2 ≤ off) (hk : x.entries[off]? = some e) (hzero : (D 0).type ≠ .dir) :
    kids D (x.cut off a) + (if (D e.inum).type = .dir then 1 else 0) = kids D x := by
  have hset := @countP_set _ (off - 2) x.rest (fun c => (D c.inum).type = .dir) e
    ⟨0, nameField []⟩ (rest_getElem? hoff hk)
  rw [decide_eq_false hzero, if_neg Bool.false_ne_true, ← rest_cut hoff] at hset
  simp only [decide_eq_true_eq] at hset
  exact hset

theorem Formed.cut (h : Formed n i x) (ht : x.type ≠ .free) (hoff : 2 ≤ off) (a : Int16) :
    Formed n i (x.cut off a) := by
  refine ⟨h.bound, fun hno => ?_, fun hf => absurd hf ht, fun hd => ?_, ?_⟩
  · unfold Inode.cut
    dsimp only
    rw [h.plain hno]
    rfl
  · obtain ⟨p, r, hp, he⟩ := h.dots hd
    refine ⟨p, r.set (off - 2) ⟨0, nameField []⟩, hp, ?_⟩
    obtain ⟨k, rfl⟩ := Nat.exists_eq_add_of_le' hoff
    unfold Inode.cut
    dsimp only
    rw [he]
    rfl
  · unfold Inode.cut
    dsimp only
    rw [List.length_set]
    exact h.size

/-- the parent, when the entry at `off` has gone -/
theorem Tree.cut_parent (h : Tree n D) (hoff : 2 ≤ off) (hk : (D dp).entries[off]? = some e)
    (h0 : e.inum ≠ 0) (ha : a.toInt = (D dp).nlink.toInt - if (D e.inum).type = .dir then 1 else 0)
    (htype : ∀ j, (E j).type = (D j).type) (hnamed : named n E dp = named n D dp) :
    Suits dp ((D dp).cut off a) (named n E dp) (kids E ((D dp).cut off a)) := by
  have hmem := rest_mem hoff hk
  have hd := h.isDir hmem
  obtain ⟨hcount, hone, htop, hgone⟩ := (h.suits dp (h.ne_zero (dir_ne_free hd))).dir hd
  have hkids : kids D ((D dp).cut off a) + _ = kids D (D dp) :=
    kids_cut hoff hk (by rw [h.type_zero]; nofun)
  have hsame : kids E ((D dp).cut off a) = kids D ((D dp).cut off a) :=
    kids_congr fun c _ => by rw [htype]
  rw [hnamed, hsame]
  refine .of_dir hd ⟨?_, hone, htop, fun hz hroot => absurd (hgone hz hroot e hmem) h0⟩
  show a.toInt = _
  split at ha
  · rename_i hdir
    rw [if_pos hdir] at hkids
    omega
  · rename_i hdir
    rw [if_neg hdir] at hkids
    omega

/-- the inode that the entry was for -/
theorem Tree.cut_child (h : Tree n D) (ht : (D ip).type ≠ .free)
    (hempty : (D ip).type = .dir → ∀ r ∈ (D ip).rest, r.inum = 0)
    (hb : b.toInt = (D ip).nlink.toInt - 1) (htype : ∀ j, (E j).type = (D j).type)
    (hnamed : named n E ip + 1 = named n D ip) :
    Suits ip { D ip with nlink := b } (named n E ip) (kids E { D ip with nlink := b }) := by
  have hsuit := h.suits ip (h.ne_zero ht)
  by_cases hdir : (D ip).type = .dir
  · obtain ⟨hcount, hone, htop, -⟩ := hsuit.dir hdir
    have hroot : ip ≠ rootIno := by
      intro hr
      rw [htop hr] at hnamed
      exact absurd hnamed (Nat.succ_ne_zero _)
    have hsame : kids E { D ip with nlink := b } = kids D (D ip) :=
      kids_congr (x := { D ip with nlink := b }) fun c _ => by rw [htype]
    rw [if_neg hroot] at hcount
    refine .of_dir hdir ⟨?_, by omega, fun hr => absurd hr hroot, fun _ _ => hempty hdir⟩
    rw [hsame, if_neg hroot]
    dsimp only
    omega
  · have hcount := hsuit.count ht hdir
    refine .of_count ht hdir ?_
    dsimp only
    omega

/-- the entry at `off` goes; a directory that it is for is empty -/
theorem Tree.cut (h : Tree n D) (hoff : 2 ≤ off) (hk : (D dp).entries[off]? = some e)
    (h0 : e.inum ≠ 0) (hempty : (D e.inum).type = .dir → ∀ r ∈ (D e.inum).rest, r.inum = 0)
    (ha : a.toInt = (D dp).nlink.toInt - if (D e.inum).type = .dir then 1 else 0)
    (hb : b.toInt = (D e.inum).nlink.toInt - 1)
    (hE : Pair D E e.inum dp { D e.inum with nlink := b } ((D dp).cut off a)) : Tree n E := by
  have hmem := rest_mem hoff hk
  have hd := dir_ne_free (h.isDir hmem)
  have ht := h.named_type hmem h0
  have htype := hE.same_type rfl rfl
  have hnamed : ∀ j, j ≠ 0 → named n E j + (if e.inum = j then 1 else 0) = named n D j := by
    intro j hj
    have hpair := hE.named (h.lt ht) (h.lt hd) j
    have hcut : names ((D dp).cut off a).rest j + _ = _ := names_cut hoff hk hj
    have hsame : names ({ D e.inum with nlink := b } : Inode).rest j = names (D e.inum).rest j :=
      rfl
    omega
  refine h.change e.inum dp hE.other (fun _ => htype dp) (Or.inl (htype _))
    (fun j hj hji => ?_) ⟨?_, ?_⟩ (fun _ => ?_) (fun hj _ => ?_) ?_
  · have hn := hnamed j hj
    rwa [if_neg (Ne.symm hji), Nat.add_zero] at hn
  · have hform := h.formed e.inum
    rw [hE.child]
    exact ⟨hform.bound, hform.plain, fun hf => absurd hf ht, hform.dots, hform.size⟩
  · rw [hE.parent]
    exact (h.formed dp).cut hd hoff a
  · have hn := hnamed e.inum h0
    rw [if_pos rfl] at hn
    rw [hE.child]
    exact h.cut_child ht hempty hb htype hn
  · have hn := hnamed dp hj
    rw [if_neg (Ne.symm hE.ne), Nat.add_zero] at hn
    rw [hE.parent]
    exact h.cut_parent hoff hk h0 ha htype hn
  · obtain ⟨r, hr⟩ := h.ranked
    refine ⟨r, hr.of_subset fun d c hc hc0 htd => ⟨?_, (htype _).symm.trans htd⟩⟩
    by_cases hdi : d = e.inum
    · rw [hdi, hE.child] at hc
      rw [hdi]
      exact hc
    · by_cases hdd : d = dp
      · rw [hdd, hE.parent, rest_cut hoff] at hc
        rw [hdd]
        rcases List.mem_or_eq_of_mem_set hc with hold | rfl
        · exact hold
        · exact absurd rfl hc0
      · rwa [hE.other d hdi hdd] at hc

end

end Nlink
