import Xv6.Itable.Paths

/-!
# A new directory

`create` links the new inode from itself and from its parent.  Where an entry finds no room, the
inode is given up, and the disk is as it was.
-/

namespace Itable
open Fs Ulib Lib

section
variable {n i d k dp ip inum : Nat} {D : Disk} {w w' : World} {held loose : List Nat} {e : Dirent}
  {name path : Str} {q : Fin nproc} {es es' : List Dirent} {room : Bool}

/-! ## `dirlink` -/

/-- the entries of a directory with a new one, where there is room for it -/
def linked (es : List Dirent) (new : Dirent) (room : Bool) : Option (List Dirent) :=
  match es.findIdx? (fun e => e.inum = 0) with
  | some off => some (es.set off new)
  | none => if room then some (es ++ [new]) else none

theorem dirlink_spec (hd : IsDir w.disk dp) (hl : lookup (w.disk dp).entries name = none) :
    Ensures Tame (dirlink n dp name inum room w) (fun b w' =>
      if b then ∃ es, linked (w.disk dp).entries ⟨inum, nameField name⟩ room = some es ∧
        w' = w.setInode dp { w.disk dp with entries := es }
      else w' = w) := by
  have hlook : dirlookup n dp name w = .ok (none, w) := by
    show (if (w.disk dp).type ≠ .dir then (throw .dirlookupNotDir : M (Option (Nat × Nat)))
      else _) w = _
    rw [if_neg (not_not.mpr hd), hl]
    rfl
  unfold dirlink linked
  apply Ensures.bind_eq hlook
  apply Ensures.get
  cases (w.disk dp).entries.findIdx? (fun e => e.inum = 0) with
  | some off => exact Ensures.pure ⟨_, rfl, rfl⟩
  | none =>
    cases room with
    | true => exact Ensures.pure ⟨_, rfl, rfl⟩
    | false => exact Ensures.pure rfl

theorem linked_full {new : Dirent} (h : ∀ e ∈ es, e.inum ≠ 0)
    (hl : linked es new room = some es') : es' = es ++ [new] := by
  have hf : es.findIdx? (fun e => e.inum = 0) = none := by
    rw [List.findIdx?_eq_none_iff]
    exact fun e he => decide_eq_false (h e he)
  unfold linked at hl
  rw [hf] at hl
  cases room with
  | true => exact (Option.some.inj hl).symm
  | false => exact absurd hl nofun

/-- in a directory the new entry is behind `.` and `..` -/
theorem linked_grown {new : Dirent} (h : Shape n D) (hd : IsDir D dp)
    (hl : linked (D dp).entries new room = some es) : Grown (D dp).entries es new := by
  obtain ⟨p, hp, -, heq⟩ := h.entries hd
  unfold linked at hl
  cases hf : (D dp).entries.findIdx? (fun e => e.inum = 0) with
  | some off =>
    rw [hf] at hl
    obtain rfl := Option.some.inj hl
    obtain ⟨hlt, hzero, -⟩ := List.findIdx?_eq_some_iff_getElem.mp hf
    obtain ⟨e, hget, h0⟩ : ∃ e, (D dp).entries[off]? = some e ∧ e.inum = 0 :=
      ⟨_, List.getElem?_eq_getElem hlt, of_decide_eq_true hzero⟩
    refine grown_set ?_ hget h0
    match off, hget with
    | 0, hget =>
      rw [heq] at hget
      obtain rfl := Option.some.inj hget
      exact absurd h0 (h.pos hd.ne_free)
    | 1, hget =>
      rw [heq] at hget
      obtain rfl := Option.some.inj hget
      exact absurd h0 hp
    | off + 2, _ => exact Nat.le_add_left 2 off
  | none =>
    rw [hf] at hl
    cases room with
    | false => exact absurd hl nofun
    | true =>
      obtain rfl := Option.some.inj hl
      apply grown_append
      rw [heq]
      exact Nat.le_add_left 2 _

/-! ## `create` -/

/-- the world with a new inode `i` that one call has, and with disk `D` -/
def World.fresh (w : World) (i : Nat) (D : Disk) (v : Bool) : World :=
  { w with
    disk := D
    ref := Function.update w.ref i 1
    valid := Function.update w.valid i v }

theorem Held.ref_free (h : Held n w held loose) (ht : (w.disk i).type = .free) (hi : i ∉ held) :
    w.ref i = 0 := by
  have hroot : i ≠ rootIno := by
    rintro rfl
    exact absurd (ht.symm.trans h.shape.root) nofun
  rw [h.ref i hroot, List.count_eq_zero.mpr hi, Nat.add_zero, refs_eq_zero_iff]
  exact fun q hq => absurd (ht.symm.trans (h.sound q i hq i (.refl i))) nofun

theorem ialloc_spec (type : InodeType) (h : ∀ i, (w.disk i).type = .free → w.ref i = 0) :
    Ensures Tame (ialloc n type w) (fun r w' =>
      match r with
      | none => w' = w
      | some i => (w.disk i).type = .free ∧ i ≠ 0 ∧ i < n ∧
          w' = w.fresh i (Function.update w.disk i ⟨type, 0, []⟩) false) := by
  unfold ialloc
  apply Ensures.get
  cases hf : (List.range n).find? (fun i => 0 < i && (w.disk i).type = .free) with
  | none => exact Ensures.pure rfl
  | some i =>
    have hi := List.find?_some hf
    rw [Bool.and_eq_true, decide_eq_true_iff, decide_eq_true_iff] at hi
    have hn := List.mem_range.mp (List.mem_of_find?_eq_some hf)
    have h0 : ¬ 0 < (w.setInode i ⟨type, 0, []⟩).ref i := (h i hi.2).not_gt
    apply Ensures.set
    apply Ensures.bind (Q := fun _ w' =>
      w' = w.fresh i (Function.update w.disk i ⟨type, 0, []⟩) false)
    · unfold iget
      rw [if_neg h0]
      split
      · exact ⟨nofun, nofun⟩
      · rfl
    · rintro _ w' rfl
      exact Ensures.pure ⟨hi.2, hi.1.ne', hn, rfl⟩

theorem ilock_fresh (ht : (D i).type ≠ .free) :
    ilock i (w.fresh i D false) = .ok ((), w.fresh i D true) := by
  have href : ¬ (w.fresh i D false).ref i < 1 :=
    fun hlt => absurd ((Function.update_self i 1 w.ref).symm.trans_lt hlt) (Nat.lt_irrefl 1)
  have hvalid : ¬ (w.fresh i D false).valid i = true := by
    rw [show (w.fresh i D false).valid i = false from Function.update_self ..]
    nofun
  unfold ilock
  rw [if_neg href, if_neg hvalid, if_neg (show ((w.fresh i D false).disk i).type ≠ .free from ht)]
  unfold World.fresh
  rw [Function.update_idem]

/-- the entries of the new directory `ip` and the one in `dp`: all three are there, or some of those
in `ip` only -/
theorem linkNew_spec {rooms : Nat → Bool} (hd : IsDir D dp) (hne : dp ≠ ip) (h0 : ip ≠ 0)
    (hl : lookup (D dp).entries name = none) (hip : D ip = ⟨.dir, 1, []⟩) :
    Ensures Tame (linkNew n .dir dp ip name rooms (w.fresh ip D true)) (fun b w' =>
      if b then ∃ es, linked (D dp).entries ⟨ip, nameField name⟩ (rooms 2) = some es ∧
        w' = w.fresh ip (Function.update (Function.update D ip (.newDir ip dp)) dp
          { D dp with entries := es }) true
      else ∃ es, w' = w.fresh ip (Function.update D ip ⟨.dir, 1, es⟩) true) := by
  unfold linkNew
  rw [if_pos rfl]
  apply Ensures.bind (dirlink_spec (w := w.fresh ip D true)
    (show (D ip).type = .dir by rw [hip]) (show lookup (D ip).entries _ = none by rw [hip]; rfl))
  rintro b w1 h1
  rw [show (w.fresh ip D true).disk ip = _ from hip] at h1
  cases b with
  | false =>
    rw [if_neg nofun] at h1
    refine Ensures.pure ⟨[], ?_⟩
    rw [h1, ← hip, Function.update_eq_self]
  | true =>
    rw [if_pos rfl]
    rw [if_pos rfl] at h1
    obtain ⟨es1, hes1, hw1⟩ := h1
    obtain rfl : es1 = [⟨ip, padded ['.']⟩] :=
      linked_full (fun _ he => absurd he List.not_mem_nil) hes1
    have hself : w1.disk ip = ⟨.dir, 1, [⟨ip, padded ['.']⟩]⟩ := by
      rw [hw1]
      exact Function.update_self ..
    have hdots : lookup [⟨ip, padded ['.']⟩] ['.', '.'] = none := by
      have hcmp : namecmpEq ['.', '.'] (padded ['.']) = false := by decide
      unfold lookup
      rw [List.zipIdx_singleton, List.find?_singleton, hcmp, Bool.and_false]
      rfl
    apply Ensures.bind (dirlink_spec (by rw [IsDir, hself]) (by rw [hself]; exact hdots))
    rintro b w2 h2
    rw [hself] at h2
    cases b with
    | false =>
      rw [if_neg nofun] at h2
      exact Ensures.pure ⟨[⟨ip, padded ['.']⟩], h2.trans hw1⟩
    | true =>
      rw [if_pos rfl]
      rw [if_pos rfl] at h2
      obtain ⟨es2, hes2, hw2⟩ := h2
      obtain rfl : es2 = [⟨ip, padded ['.']⟩, ⟨dp, padded ['.', '.']⟩] :=
        linked_full (fun e he => by rw [List.mem_singleton.mp he]; exact h0) hes2
      have hw2' : w2 = w.fresh ip (Function.update D ip (.newDir ip dp)) true := by
        rw [hw2, hw1]
        unfold World.setInode World.fresh
        dsimp only
        rw [Function.update_idem]
        rfl
      have hdp : w2.disk dp = D dp := by
        rw [hw2']
        exact Function.update_of_ne hne ..
      refine (dirlink_spec (by rw [IsDir, hdp]; exact hd) (by rw [hdp]; exact hl)).mono ?_
      rintro b w3 h3
      rw [hdp] at h3
      cases b with
      | false =>
        rw [if_neg nofun] at h3 ⊢
        exact ⟨_, h3.trans hw2'⟩
      | true =>
        rw [if_pos rfl] at h3 ⊢
        obtain ⟨es, hes, hw3⟩ := h3
        refine ⟨es, hes, ?_⟩
        rw [hw3, hw2']
        rfl

theorem Held.fresh (h : Held n w held []) (ht : (w.disk i).type = .free) (hi : i ∉ held)
    (hs : Shape n D) (hsound : Sound D w.cwd)
    (hidle : ∀ j, (D j).type ≠ .free → (D j).nlink = 0 →
      (w.disk j).type ≠ .free ∧ (w.disk j).nlink = 0) :
    Held n (w.fresh i D true) (i :: held) [] := by
  have h0 := h.ref_free ht hi
  have hroot : i ≠ rootIno := by
    rintro rfl
    exact absurd (ht.symm.trans h.shape.root) nofun
  refine ⟨hs, hsound, fun j hj => ?_, ?_, fun j hj htj hn => ?_⟩
  · have h1 := h.ref j hj
    show Function.update w.ref i 1 j = _
    by_cases hji : j = i
    · rw [hji, h0] at h1
      rw [hji, Function.update_self, List.count_cons_self]
      show 1 = refs w.cwd i + (held.count i + 1)
      omega
    · rw [Function.update_of_ne hji, List.count_cons_of_ne (Ne.symm hji)]
      exact h1
  · show _ ≤ Function.update w.ref i 1 rootIno
    rw [Function.update_of_ne (Ne.symm hroot), List.count_cons_of_ne hroot]
    exact h.root
  · obtain ⟨ht', hn'⟩ := hidle j htj hn
    obtain ⟨hv, hq⟩ := h.idle j hj ht' hn'
    have hji : j ≠ i := by
      rintro rfl
      exact ht' ht
    exact ⟨(Function.update_of_ne hji ..).trans hv, hq⟩

theorem Held.unfresh (h : Held n w held []) (ht : (w.disk i).type = .free) (hi : i ∉ held)
    (hne : i ≠ 0) (hn0 : (D i).nlink = 0)
    (hD : Function.update D i ⟨.free, 0, []⟩ = Function.update w.disk i ⟨.free, 0, []⟩) :
    Held n ((w.fresh i D true).put i) held [] ∧
      ((w.fresh i D true).put i).disk = Function.update w.disk i ⟨.free, 0, []⟩ := by
  have h0 := h.ref_free ht hi
  have hroot : i ≠ rootIno := by
    rintro rfl
    exact absurd (ht.symm.trans h.shape.root) nofun
  have hlast : (w.fresh i D true).ref i = 1 ∧ (w.fresh i D true).valid i = true ∧
      ((w.fresh i D true).disk i).nlink = 0 :=
    ⟨Function.update_self .., Function.update_self .., hn0⟩
  have hback : Function.update (Function.update w.ref i 1) i (1 - 1) = w.ref := by
    rw [Function.update_idem, Nat.sub_self, ← h0, Function.update_eq_self]
  have hput : (w.fresh i D true).put i =
      { w with
        disk := Function.update w.disk i ⟨.free, 0, []⟩
        valid := Function.update w.valid i false } := by
    unfold World.put World.reclaim
    rw [if_pos hlast, hlast.1]
    unfold World.fresh World.setInode
    dsimp only
    rw [hback, Function.update_idem, hD]
  rw [hput]
  have hnot : ¬ IsDir w.disk i := fun hd => absurd (ht.symm.trans hd) nofun
  refine ⟨⟨h.shape.erase hne hroot (h.shape.links_free ht hne), h.sound.update hnot, h.ref, h.root,
    fun j hj htj hn => ?_⟩, rfl⟩
  dsimp only at htj hn
  have hji : j ≠ i := by
    rintro rfl
    rw [Function.update_self] at htj
    exact htj rfl
  rw [Function.update_of_ne hji] at htj hn
  obtain ⟨hv, hq⟩ := h.idle j hj htj hn
  exact ⟨(Function.update_of_ne hji ..).trans hv, hq⟩

def mkdirDisk (D : Disk) (dp ip : Nat) (es : List Dirent) : Disk :=
  Function.update (Function.update D ip (.newDir ip dp)) dp ⟨.dir, (D dp).nlink + 1, es⟩

theorem mkdirDisk_shape {cwd : Fin nproc → Option Nat} (h : Shape n D) (hs : Sound D cwd)
    (hip : (D ip).type = .free) (h0 : ip ≠ 0) (hn : ip < n) (hd : IsDir D dp)
    (hl : linked (D dp).entries ⟨ip, nameField name⟩ room = some es) :
    Shape n (mkdirDisk D dp ip es) ∧ Sound (mkdirDisk D dp ip es) cwd := by
  have hdp : dp ≠ ip := by
    rintro rfl
    exact absurd (hip.symm.trans hd) nofun
  have hroot : ip ≠ rootIno := by
    rintro rfl
    exact absurd (hip.symm.trans h.root) nofun
  have hnew := h.newDir hip h0 hn hd
  have hself : Function.update D ip (.newDir ip dp) ip = .newDir ip dp := Function.update_self ..
  have hold : Function.update D ip (.newDir ip dp) dp = D dp := Function.update_of_ne hdp ..
  have hdir : IsDir (Function.update D ip (.newDir ip dp)) dp := by
    rw [IsDir, hold]
    exact hd
  have hgrown := linked_grown hnew hdir (by rw [hold]; exact hl)
  have hlinks : links n (Function.update D ip (.newDir ip dp)) ip = 0 := by
    have h1 := links_update (D := D) (x := Inode.newDir ip dp) hn ip
    rw [h.links_free hip h0] at h1
    exact Nat.eq_zero_of_add_eq_zero_right h1
  have hpar : parent (Function.update D ip (.newDir ip dp)) ip = some dp := by
    unfold parent
    rw [hself]
    rfl
  have hnot : ¬ IsDir D ip := fun hno => absurd (hip.symm.trans hno) nofun
  have hshape := hnew.grow hdir hgrown (by rw [IsDir, hself]; rfl) hroot hpar
    (by rw [hlinks, hself]; exact Nat.le_refl 1)
  rw [hold] at hshape
  exact ⟨hshape, (grow_edit hdir hgrown hnew _).sound (hs.update hnot)⟩

theorem create_spec (h : Held n w [] []) {cwd : Nat} (hq : w.cwd q = some cwd) (path : Str)
    (rooms : Nat → Bool) :
    Ensures Tame (create n cwd path .dir rooms w) (fun r w' => w'.cwd = w.cwd ∧
      match r with
      | none => Held n w' [] []
      | some ip => Held n w' [ip] [] ∧ (w'.disk ip).type ≠ .free) := by
  unfold create
  apply Ensures.bind (namex_spec h hq path)
  rintro r w1 ⟨-, hd1, hc1, hf⟩
  cases r with
  | none => exact Ensures.pure ⟨hc1, hf⟩
  | some r =>
    obtain ⟨dp, name⟩ := r
    obtain ⟨h1, hg, hdir⟩ := hf
    dsimp only
    have hdir1 : IsDir w1.disk dp := by
      rw [hd1]
      exact hdir rfl
    apply Ensures.bind (ilock_spec h1 (h1.pos List.mem_cons_self) hdir1.ne_free)
    rintro _ w2 ⟨h2, ho2, -⟩
    have hdir2 : IsDir w2.disk dp := by
      rw [ho2.disk]
      exact hdir1
    have hc2 := ho2.cwd.trans hc1
    apply Ensures.bind (dirlookup_spec h2 hdir2 name)
    rintro r w3 ⟨hr, h3⟩
    cases r with
    | some r =>
      -- the name is there, and `mkdir` does not go on
      obtain ⟨ip, off⟩ := r
      obtain ⟨h3, ho3⟩ := h3
      obtain ⟨e, hk, rfl, he0, -⟩ := lookup_some hr.symm
      have hgood : Good w2.disk e.inum := by
        rw [ho2.disk, hd1] at hk ⊢
        exact hg.entry h.shape (hdir rfl) hk he0
      obtain ⟨h4, ho4⟩ := put_keep (h3.perm (.swap dp e.inum [])) List.not_mem_nil
        (by rw [ho3.disk]; exact hdir2.ne_free)
      apply Ensures.bind_eq (iput_eq dp w3)
      have ht : ((w3.put dp).disk e.inum).type ≠ .free := by
        rw [ho4.disk, ho3.disk]
        exact hgood.1
      apply Ensures.bind (ilock_spec h4 (h4.pos List.mem_cons_self) ht)
      rintro _ w5 ⟨h5, ho5, -⟩
      apply Ensures.get
      rw [if_neg (fun hc => absurd hc.1 nofun)]
      obtain ⟨h6, ho6⟩ := put_keep h5 List.not_mem_nil (by rw [ho5.disk]; exact ht)
      apply Ensures.bind_eq (iput_eq e.inum w5)
      exact Ensures.pure ⟨ho6.cwd.trans (ho5.cwd.trans (ho4.cwd.trans (ho3.cwd.trans hc2))), h6⟩
    | none =>
      obtain rfl : w3 = w2 := h3
      apply Ensures.bind (ialloc_spec .dir
        (fun i hi => h2.ref_free hi (fun hmem => hdir2.ne_free (List.mem_singleton.mp hmem ▸ hi))))
      rintro r w4 h4
      cases r with
      | none =>
        obtain rfl : w4 = w3 := h4
        obtain ⟨h5, ho5⟩ := put_keep h2 List.not_mem_nil hdir2.ne_free
        apply Ensures.bind_eq (iput_eq dp w4)
        exact Ensures.pure ⟨ho5.cwd.trans hc2, h5⟩
      | some ip =>
        obtain ⟨hip, h0, hn, rfl⟩ := h4
        have hne : dp ≠ ip := by
          rintro rfl
          exact absurd (hip.symm.trans hdir2) nofun
        have hmem : ip ∉ [dp] := fun hmem => hne (List.mem_singleton.mp hmem).symm
        have hone : ∀ es, ({ Function.update w3.disk ip ⟨.dir, 0, es⟩ ip with nlink := 1 } : Inode) =
            ⟨.dir, 1, es⟩ := fun es => by rw [Function.update_self]
        apply Ensures.bind_eq (ilock_fresh (by rw [Function.update_self]; nofun))
        apply Ensures.bind_eq (show setNlink ip 1 _ =
          .ok ((), w3.fresh ip (Function.update w3.disk ip ⟨.dir, 1, []⟩) true) by
            unfold setNlink World.setInode World.fresh
            dsimp only
            rw [hone, Function.update_idem])
        have hdp : Function.update w3.disk ip ⟨.dir, 1, []⟩ dp = w3.disk dp :=
          Function.update_of_ne hne ..
        apply Ensures.bind (linkNew_spec (by rw [IsDir, hdp]; exact hdir2) hne h0
          (by rw [hdp]; exact hr.symm) (Function.update_self ..))
        rintro b w6 h6
        rw [hdp, Function.update_idem] at h6
        cases b with
        | false =>
          rw [if_neg nofun] at h6 ⊢
          obtain ⟨es, rfl⟩ := h6
          rw [Function.update_idem]
          apply Ensures.bind_eq (show setNlink ip 0 _ =
            .ok ((), w3.fresh ip (Function.update w3.disk ip ⟨.dir, 0, es⟩) true) by
              unfold setNlink World.setInode World.fresh
              dsimp only
              rw [Function.update_self, Function.update_idem])
          obtain ⟨h7, hd7⟩ := h2.unfresh (D := Function.update w3.disk ip ⟨.dir, 0, es⟩) hip hmem h0
            (by rw [Function.update_self]) (Function.update_idem ..)
          apply Ensures.bind_eq (iput_eq ip _)
          obtain ⟨h8, ho8⟩ := put_keep h7 List.not_mem_nil
            (by rw [hd7, Function.update_of_ne hne]; exact hdir2.ne_free)
          apply Ensures.bind_eq (iput_eq dp _)
          exact Ensures.pure ⟨ho8.cwd.trans ((put_cwd _ ip).trans hc2), h8⟩
        | true =>
          rw [if_pos rfl] at h6 ⊢
          obtain ⟨es, hes, rfl⟩ := h6
          apply Ensures.get
          rw [if_pos rfl]
          apply Ensures.bind_eq (show setNlink dp _ _ =
            .ok ((), w3.fresh ip (mkdirDisk w3.disk dp ip es) true) by
              unfold setNlink World.setInode World.fresh mkdirDisk
              dsimp only
              rw [Function.update_self, Function.update_idem, hdir2])
          obtain ⟨hshape, hsound⟩ := mkdirDisk_shape h2.shape h2.sound hip h0 hn hdir2 hes
          have h7 := h2.fresh hip hmem hshape hsound ?_
          · have hdp7 : (mkdirDisk w3.disk dp ip es dp).type = .dir := by
              unfold mkdirDisk
              rw [Function.update_self]
            obtain ⟨h8, ho8⟩ := put_keep (h7.perm (.swap dp ip [])) List.not_mem_nil
              (IsDir.ne_free hdp7)
            apply Ensures.bind_eq (iput_eq dp _)
            refine Ensures.pure ⟨ho8.cwd.trans hc2, h8, ?_⟩
            rw [ho8.disk]
            show (mkdirDisk w3.disk dp ip es ip).type ≠ .free
            unfold mkdirDisk
            rw [Function.update_of_ne (Ne.symm hne), Function.update_self]
            nofun
          · intro j ht hn0
            unfold mkdirDisk at ht hn0
            have hjd : j ≠ dp := by
              rintro rfl
              rw [Function.update_self] at hn0
              exact absurd hn0 (Nat.succ_ne_zero _)
            rw [Function.update_of_ne hjd] at ht hn0
            have hji : j ≠ ip := by
              rintro rfl
              rw [Function.update_self] at hn0
              exact absurd hn0 Nat.one_ne_zero
            rw [Function.update_of_ne hji] at ht hn0
            exact ⟨ht, hn0⟩

theorem sysMkdir_spec (h : Held n w [] []) {cwd : Nat} (hq : w.cwd q = some cwd) (path : Str)
    (rooms : Nat → Bool) :
    Ensures Tame (sysMkdir n cwd path rooms w) (fun _ w' => Held n w' [] [] ∧ w'.cwd = w.cwd) := by
  unfold sysMkdir
  apply Ensures.bind (create_spec h hq path rooms)
  rintro r w1 ⟨hc1, h1⟩
  cases r with
  | none => exact Ensures.pure ⟨h1, hc1⟩
  | some ip =>
    obtain ⟨h2, ho2⟩ := put_keep h1.1 List.not_mem_nil h1.2
    apply Ensures.bind_eq (iput_eq ip w1)
    exact Ensures.pure ⟨h2, ho2.cwd.trans hc1⟩

end

end Itable
