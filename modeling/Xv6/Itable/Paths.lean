import Xv6.Itable.Held

/-!
# Looking up paths

`namex` leads to an inode that is allocated, from the root and from every current directory, and it
finds what the search on the disk finds.  `getcwd` goes along `..` through directories only.
-/

namespace Itable
open Fs Ulib Lib

/-- the directories, as a search sees them -/
def image (D : Disk) : Fs.Image := fun i => if IsDir D i then some (D i).entries else none

section
variable {n i d k dp ip : Nat} {D : Disk} {w w' : World} {held loose : List Nat} {e : Dirent}
  {name path : Str} {q : Fin nproc} {es : List Dirent} {par : Bool}

theorem lookup_some (h : lookup es name = some (i, k)) : ∃ e, es[k]? = some e ∧ e.inum = i ∧
    e.inum ≠ 0 ∧ namecmpEq name e.name = true := by
  unfold lookup at h
  obtain ⟨⟨e, k'⟩, hf, he⟩ := Option.map_eq_some_iff.mp h
  obtain ⟨rfl, rfl⟩ := Prod.mk.inj he
  have hmem := List.mem_zipIdx_iff_getElem?.mp (List.mem_of_find?_eq_some hf)
  have hp := List.find?_some hf
  rw [Bool.and_eq_true] at hp
  exact ⟨e, hmem, rfl, by simpa using hp.1, hp.2⟩

theorem two_le_of_dots {p : Nat} {r : List Dirent}
    (hl : lookup (⟨d, padded ['.']⟩ :: ⟨p, padded ['.', '.']⟩ :: r) name = some (i, k))
    (hdots : ¬ (namecmpEq name ['.'] = true ∨ namecmpEq name ['.', '.'] = true)) : 2 ≤ k := by
  obtain ⟨e, hk, -, -, hname⟩ := lookup_some hl
  have hpad : ∀ m, namecmpEq name (padded m) = namecmpEq name m :=
    fun m => strncmpEq_append dirsiz _ name m
  rcases k with _ | _ | k
  · obtain rfl := Option.some.inj hk
    exact absurd (Or.inl ((hpad _).symm.trans hname)) hdots
  · obtain rfl := Option.some.inj hk
    exact absurd (Or.inr ((hpad _).symm.trans hname)) hdots
  · exact Nat.le_add_left 2 k

theorem dirlookup_eq (es : List Dirent) (name : Str) :
    Fs.dirlookup es name = (lookup es name).map Prod.fst := by
  have hfind : ∀ (l : List Dirent) (j : Nat),
      ((l.zipIdx j).find? (fun e => e.1.inum ≠ 0 && namecmpEq name e.1.name)).map Prod.fst =
        l.find? (fun e => e.inum ≠ 0 && namecmpEq name e.name) := by
    intro l
    induction l with
    | nil => exact fun _ => rfl
    | cons e l ih =>
      intro j
      rw [List.zipIdx_cons, List.find?_cons, List.find?_cons]
      cases hm : (e.inum ≠ 0 && namecmpEq name e.name) with
      | true => rfl
      | false => exact ih (j + 1)
  unfold Fs.dirlookup lookup
  rw [← hfind es 0, Option.map_map, Option.map_map]
  rfl

/-! ## where paths lead -/

theorem Shape.good_root (h : Shape n D) : Good D rootIno := by
  refine ⟨h.root.ne_free, fun _ y hy => ?_⟩
  rw [hy.eq_of_loop h.top]
  exact h.root

theorem Sound.good {cwd : Fin nproc → Option Nat} (h : Sound D cwd) (hq : cwd q = some i) :
    Good D i := ⟨(h q i hq i (.refl i)).ne_free, fun _ => h q i hq⟩

theorem Good.entry (hg : Good D d) (h : Shape n D) (hd : IsDir D d)
    (he : (D d).entries[k]? = some e) (h0 : e.inum ≠ 0) : Good D e.inum := by
  obtain ⟨p, -, hp, heq⟩ := h.entries hd
  have hup : ∀ {i}, parent D d = some i → Good D i := fun hi =>
    ⟨(hg.2 hd _ ((Above.refl d).step hi)).ne_free, fun _ y hy => hg.2 hd y (.head hi hy)⟩
  match k, he with
  | 0, he =>
    rw [heq] at he
    obtain rfl := Option.some.inj he
    exact hg
  | 1, he =>
    rw [heq] at he
    obtain rfl := Option.some.inj he
    exact hup hp
  | k + 2, he =>
    have hmem : e ∈ (D d).rest := by
      refine List.mem_of_getElem? (i := k) ?_
      unfold Inode.rest
      rw [List.getElem?_drop, Nat.add_comm]
      exact he
    obtain ⟨ht, -, hpar⟩ := h.named d e hmem h0
    refine ⟨ht, fun hdir y hy => ?_⟩
    rcases Relation.ReflTransGen.cases_head hy with rfl | ⟨z, hz, hy⟩
    · exact hdir
    · obtain rfl := Option.some.inj ((hpar hdir).symm.trans hz)
      exact hg.2 hd y hy

/-! ## `dirlookup`, `namex` -/

theorem dirlookup_spec (h : Held n w held loose) (hd : IsDir w.disk dp) (name : Str) :
    Ensures Tame (dirlookup n dp name w) (fun r w' => r = lookup (w.disk dp).entries name ∧
      match r with
      | none => w' = w
      | some (ip, _) => Held n w' (ip :: held) loose ∧ Only ip w w') := by
  unfold dirlookup
  apply Ensures.get
  rw [if_neg (not_not.mpr hd)]
  cases hl : lookup (w.disk dp).entries name with
  | none => exact Ensures.pure ⟨rfl, rfl⟩
  | some r =>
    obtain ⟨ip, off⟩ := r
    apply Ensures.bind (iget_spec h ip)
    rintro _ w' h'
    exact Ensures.pure ⟨rfl, h'⟩

/-- what the call finds, with the reference that it has then -/
def Found (n : Nat) (w : World) (held : List Nat) (par : Bool) (r : Option (Nat × Str))
    (w' : World) : Prop :=
  w'.disk = w.disk ∧ w'.cwd = w.cwd ∧
    match r with
    | none => Held n w' held []
    | some (t, _) => Held n w' (t :: held) [] ∧ Good w.disk t ∧ (par = true → IsDir w.disk t)

theorem namexLoop_spec (par : Bool) (fuel : Nat) (h : Held n w (ip :: held) []) (hg : Good w.disk ip)
    (path name : Str) : Ensures Tame (namexLoop n par fuel ip path name w) (fun r w' =>
      r = Fs.namexLoop (image w.disk) par fuel ip path name ∧ Found n w held par r w') := by
  induction fuel generalizing w ip path name with
  | zero => exact Ensures.throw ⟨Stop.noConfusion, Stop.noConfusion⟩
  | succ fuel ih =>
    unfold namexLoop Fs.namexLoop
    -- a search that finds nothing gives its reference back
    have hnone : ∀ {w' : World}, Held n w' (ip :: held) [] → w'.disk = w.disk → w'.cwd = w.cwd →
        Ensures Tame ((do iput ip; return none : M (Option (Nat × Str))) w') (fun r w'' =>
          r = none ∧ Found n w held par r w'') := by
      intro w' h' hd hc
      obtain ⟨hput, ho⟩ := put_keep h' List.not_mem_nil (by rw [hd]; exact hg.1)
      apply Ensures.bind_eq (iput_eq ip w')
      exact Ensures.pure ⟨rfl, ho.disk.trans hd, ho.cwd.trans hc, hput⟩
    cases hs : skipelem path with
    | none =>
      cases par with
      | true => exact hnone h rfl rfl
      | false => exact Ensures.pure ⟨rfl, rfl, rfl, h, hg, Bool.noConfusion⟩
    | some r =>
      obtain ⟨path', name'⟩ := r
      dsimp only
      apply Ensures.bind (ilock_spec h (h.pos List.mem_cons_self) hg.1)
      rintro _ w1 ⟨h1, ho1, -⟩
      apply Ensures.get
      rw [ho1.disk]
      by_cases hdir : IsDir w.disk ip
      · rw [if_neg (not_not.mpr hdir), show image w.disk ip = some (w.disk ip).entries from
          if_pos hdir]
        dsimp only
        by_cases hlast : par = true ∧ path' = []
        · rw [if_pos hlast, if_pos hlast]
          exact Ensures.pure ⟨rfl, ho1.disk, ho1.cwd, h1, hg, fun _ => hdir⟩
        · rw [if_neg hlast, if_neg hlast, dirlookup_eq]
          have hdir1 : IsDir w1.disk ip := by
            rw [ho1.disk]
            exact hdir
          apply Ensures.bind (dirlookup_spec h1 hdir1 name')
          rintro r w2 ⟨rfl, h2⟩
          rw [ho1.disk] at h2 ⊢
          cases hl : lookup (w.disk ip).entries name' with
          | none =>
            rw [hl] at h2
            obtain rfl : w2 = w1 := h2
            exact hnone h1 ho1.disk ho1.cwd
          | some r =>
            obtain ⟨next, off⟩ := r
            rw [hl] at h2
            obtain ⟨h2, ho2⟩ := h2
            obtain ⟨e, hk, rfl, h0, -⟩ := lookup_some hl
            have hd2 : w2.disk = w.disk := ho2.disk.trans ho1.disk
            obtain ⟨hput, ho3⟩ := put_keep (h2.perm (.swap ip e.inum held)) List.not_mem_nil
              (by rw [hd2]; exact hg.1)
            apply Ensures.bind_eq (iput_eq ip w2)
            have hd3 : (w2.put ip).disk = w.disk := ho3.disk.trans hd2
            have hc3 : (w2.put ip).cwd = w.cwd := ho3.cwd.trans (ho2.cwd.trans ho1.cwd)
            have hnext : Good (w2.put ip).disk e.inum := by
              rw [hd3]
              exact hg.entry h.shape hdir hk h0
            have hrec := ih hput hnext path' name'
            rw [hd3] at hrec
            refine hrec.mono ?_
            rintro r w4 ⟨hr, hf⟩
            refine ⟨hr, ?_⟩
            unfold Found at hf ⊢
            rw [hd3, hc3] at hf
            exact hf
      · rw [if_pos hdir, show image w.disk ip = none from if_neg hdir]
        exact hnone h1 ho1.disk ho1.cwd

theorem namex_spec (h : Held n w [] []) {cwd : Nat} (hq : w.cwd q = some cwd) (path : Str) :
    Ensures Tame (namex n cwd path par w) (fun r w' =>
      r = Fs.namex (image w.disk) cwd path par ∧ Found n w [] par r w') := by
  have hgo : ∀ {ip : Nat} {w1 : World}, Held n w1 [ip] [] ∧ Only ip w w1 → Good w.disk ip →
      Ensures Tame (namexLoop n par (path.length + 1) ip path [] w1) (fun r w' =>
        r = Fs.namexLoop (image w.disk) par (path.length + 1) ip path [] ∧
          Found n w [] par r w') := by
    rintro ip w1 ⟨h1, ho⟩ hg
    have hrun := namexLoop_spec par (path.length + 1) h1 (by rw [ho.disk]; exact hg) path []
    unfold Found at hrun ⊢
    rw [ho.disk, ho.cwd] at hrun
    exact hrun
  unfold namex Fs.namex
  by_cases hroot : path.head? = some '/'
  · rw [if_pos hroot, if_pos hroot]
    exact Ensures.bind (iget_spec h rootIno) (fun _ w1 h1 => hgo h1 h.shape.good_root)
  · rw [if_neg hroot, if_neg hroot]
    exact Ensures.bind (idup_spec h cwd) (fun _ w1 h1 => hgo h1 (h.sound.good hq))

/-! ## `getcwd` -/

theorem diriname_spec (h : Held n w [i] []) (hd : IsDir w.disk i) (inum : Nat) :
    Ensures Tame (diriname i inum w) (fun r w' => Held n w' [] [] ∧ w'.disk = w.disk ∧
      w'.cwd = w.cwd ∧ parent w.disk i = some r.1) := by
  unfold diriname
  apply Ensures.bind (ilock_spec h (h.pos List.mem_cons_self) hd.ne_free)
  rintro _ w1 ⟨h1, ho1, -⟩
  apply Ensures.get
  rw [ho1.disk, if_neg (not_not.mpr hd)]
  cases hp : (w.disk i).entries[1]? with
  | none => exact Ensures.throw ⟨nofun, nofun⟩
  | some dotdot =>
    obtain ⟨h2, ho2⟩ := put_keep h1 List.not_mem_nil (by rw [ho1.disk]; exact hd.ne_free)
    apply Ensures.bind_eq (iput_eq i w1)
    refine Ensures.pure ⟨h2, ho2.disk.trans ho1.disk, ho2.cwd.trans ho1.cwd, ?_⟩
    unfold parent
    rw [hp]
    rfl

/-- the walk: it goes on at the inode that the `..` of the last one says -/
theorem getcwdLoop_spec {c : Nat} (beyond : Nat → Nat) (rounds bufp icurrent : Nat)
    (h : Held n w [i] []) (hq : w.cwd q = some c) (hi : Above (parent w.disk) c i)
    (hcur : icurrent = rootIno → i = rootIno) :
    Ensures Tame (getcwdLoop n beyond rounds bufp i i icurrent w)
      (fun _ w' => Held n w' [] [] ∧ w'.disk = w.disk ∧ w'.cwd = w.cwd) := by
  induction rounds generalizing w i bufp icurrent with
  | zero => exact Ensures.throw ⟨nofun, nofun⟩
  | succ rounds ih =>
    unfold getcwdLoop
    by_cases hroot : icurrent = rootIno
    · -- the reference that is left is one to the root
      rw [if_pos hroot]
      have hir := hcur hroot
      refine Ensures.pure ⟨⟨h.shape, h.sound, fun j hj => ?_, ?_, h.idle⟩, rfl, rfl⟩
      · have h1 := h.ref j hj
        rw [List.count_cons_of_ne (fun e => hj (e.symm.trans hir))] at h1
        exact h1
      · have h1 := h.root
        rw [hir, List.count_cons_self] at h1
        exact (Nat.le_add_right _ _).trans h1
    · rw [if_neg hroot]
      have hdir := h.sound q c hq i hi
      apply Ensures.bind (diriname_spec h hdir icurrent)
      rintro ⟨iparent, o⟩ w1 ⟨h1, hd1, hc1, hp⟩
      cases o with
      | none => exact Ensures.pure ⟨h1, hd1, hc1⟩
      | some name =>
        dsimp only at hp ⊢
        split
        · exact Ensures.pure ⟨h1, hd1, hc1⟩
        · apply Ensures.bind (iget_spec h1 iparent)
          rintro _ w2 ⟨h2, ho2⟩
          have hd2 : w2.disk = w.disk := ho2.disk.trans hd1
          have hc2 : w2.cwd = w.cwd := ho2.cwd.trans hc1
          have hrec := ih (if icurrent ≠ i then bufp - nameLen name (beyond rounds) - 1 else bufp) i h2
            (by rw [hc2]; exact hq) (by rw [hd2]; exact hi.step hp) ?_
          · rw [hd2, hc2] at hrec
            exact hrec
          · rintro rfl
            exact Option.some.inj (hp.symm.trans h.shape.top)

theorem getcwd_spec (h : Held n w [] []) {c : Nat} (hq : w.cwd q = some c) (page : Bool)
    (size rounds : Nat) (beyond : Nat → Nat) :
    Ensures Tame (getcwd n c page size rounds beyond w)
      (fun _ w' => Held n w' [] [] ∧ w'.disk = w.disk ∧ w'.cwd = w.cwd) := by
  have hdir : IsDir w.disk c := h.sound q c hq c (.refl c)
  unfold getcwd
  apply Ensures.bind (ilock_spec h (h.ref_pos hq) hdir.ne_free)
  rintro _ w1 ⟨h1, ho1, -⟩
  apply Ensures.get
  rw [ho1.disk, if_neg (not_not.mpr hdir)]
  by_cases hbuf : page = false ∨ size ≤ 1
  · rw [if_pos hbuf]
    exact Ensures.pure ⟨h1, ho1.disk, ho1.cwd⟩
  · rw [if_neg hbuf]
    by_cases hroot : c = rootIno
    · rw [if_pos hroot]
      exact Ensures.pure ⟨h1, ho1.disk, ho1.cwd⟩
    · rw [if_neg hroot]
      apply Ensures.bind (iget_spec h1 c)
      rintro _ w2 ⟨h2, ho2⟩
      have hd2 : w2.disk = w.disk := ho2.disk.trans ho1.disk
      have hc2 : w2.cwd = w.cwd := ho2.cwd.trans ho1.cwd
      have hrun := getcwdLoop_spec beyond rounds (size - 2) c h2 (by rw [hc2]; exact hq)
        (.refl c) id
      rw [hd2, hc2] at hrun
      exact hrun

end

end Itable
