import Xv6.Itable.Create

/-!
# Directories that go away

`unlink` takes an entry away, and `chdir` and `exit` leave a directory.  What has no links then, and
no process in it, is freed: `Drops` says which inodes that can be.
-/

namespace Itable
open Fs Ulib Lib

/-- what `unlink` takes away: entry `off` of `dp`, which is for `ip` -/
def Unlinks (D : Disk) (cwd : Nat) (path : Str) (dp ip off : Nat) : Prop :=
  ∃ name, Fs.namex (image D) cwd path true = some (dp, name) ∧
    ¬ (namecmpEq name ['.'] = true ∨ namecmpEq name ['.', '.'] = true) ∧
    lookup (D dp).entries name = some (ip, off) ∧
    ¬ (IsDir D ip ∧ isdirempty (D ip).entries = false)

/-- the entry is taken away, and the references to both inodes are still there -/
structure Cutting (n : Nat) (D : Disk) (cwd : Fin nproc → Option Nat) (dp ip off : Nat)
    (W : World) : Prop where
  held : Held n W [dp, ip] [dp, ip]
  edit : Edit D W.disk
  disk : W.disk = cut D dp off ip
  cwd : W.cwd = cwd
  dpValid : W.valid dp = true
  ipValid : W.valid ip = true
  ne : dp ≠ ip
  dpType : (D dp).type ≠ .free
  ipType : (D ip).type ≠ .free
  dpNlink : IsDir D ip → (D dp).nlink ≠ 0
  ipNlink : (D ip).nlink ≠ 0

/-- a process has gone from `old` elsewhere, and the reference to it is still there -/
structure Leaving (n : Nat) (w : World) (cwd' : Fin nproc → Option Nat) (old : Nat)
    (W : World) : Prop where
  held : Held n W [old] [old]
  disk : W.disk = w.disk
  cwd : W.cwd = cwd'
  valid : (w.disk old).nlink = 0 → W.valid old = true

section
variable {n i j dp ip off : Nat} {D : Disk} {w w' W : World} {held loose : List Nat} {e : Dirent}
  {name path : Str} {p q : Fin nproc} {es : List Dirent} {x : Inode} {cwd : Nat}

/-! ## `unlink` -/

theorem two_le_of_lookup (h : Shape n D) (hd : IsDir D dp)
    (hl : lookup (D dp).entries name = some (ip, off))
    (hdots : ¬ (namecmpEq name ['.'] = true ∨ namecmpEq name ['.', '.'] = true)) : 2 ≤ off := by
  obtain ⟨p, -, -, heq⟩ := h.entries hd
  rw [heq] at hl
  exact two_le_of_dots hl hdots

theorem put_setInode (h : j ≠ i) : (w.put i).setInode j x = (w.setInode j x).put i := by
  have hi : (w.setInode j x).disk i = w.disk i := Function.update_of_ne (Ne.symm h) ..
  by_cases hc : w.ref i = 1 ∧ w.valid i = true ∧ (w.disk i).nlink = 0
  · have hc' : (w.setInode j x).ref i = 1 ∧ (w.setInode j x).valid i = true ∧
        ((w.setInode j x).disk i).nlink = 0 := by
      rw [hi]
      exact hc
    rw [put_of_last hc, put_of_last hc']
    unfold World.setInode
    dsimp only
    rw [Function.update_comm h]
  · have hc' : ¬ ((w.setInode j x).ref i = 1 ∧ (w.setInode j x).valid i = true ∧
        ((w.setInode j x).disk i).nlink = 0) := by
      rw [hi]
      exact hc
    rw [put_of_not hc, put_of_not hc']
    rfl

theorem cutting (h : Held n w [ip, dp] []) (hd : IsDir w.disk dp)
    (hl : lookup (w.disk dp).entries name = some (ip, off))
    (hdots : ¬ (namecmpEq name ['.'] = true ∨ namecmpEq name ['.', '.'] = true))
    (hvd : w.valid dp = true) (hvi : w.valid ip = true) :
    Cutting n w.disk w.cwd dp ip off { w with disk := cut w.disk dp off ip } := by
  obtain ⟨e, hk, rfl, h0, -⟩ := lookup_some hl
  have hoff := two_le_of_lookup h.shape hd hl hdots
  have hmem : e ∈ (w.disk dp).rest := List.mem_of_getElem? (rest_getElem? hoff hk)
  have hne := h.shape.ne_self hmem h0
  have hedit : Edit w.disk (cut w.disk dp off e.inum) := cut_edit h.shape hd hoff
  have ht := (h.shape.named dp e hmem h0).1
  refine ⟨⟨shape_cut h.shape hd hoff hk h0, hedit.sound h.sound, fun j hj => ?_, ?_,
    fun j hj htj hn => ?_⟩, hedit, rfl, rfl, hvd, hvi, Ne.symm hne, hd.ne_free, ht, fun hdir => ?_, ?_⟩
  · rw [(List.Perm.swap e.inum dp []).count_eq]
    exact h.ref j hj
  · rw [(List.Perm.swap e.inum dp []).count_eq]
    exact h.root
  · have hji : j ≠ e.inum := fun he => hj (he ▸ List.mem_cons_of_mem _ List.mem_cons_self)
    have hjd : j ≠ dp := fun he => hj (he ▸ List.mem_cons_self)
    have hsame : cut w.disk dp off e.inum j = w.disk j := by
      unfold cut
      rw [Function.update_of_ne hji, Function.update_of_ne hjd]
    dsimp only at htj hn
    rw [hsame] at htj hn
    exact h.idle j List.not_mem_nil htj hn
  · -- a directory has a link for each directory in it
    have h1 := h.shape.count dp hd.ne_free
    have h2 : 0 < kids w.disk (w.disk dp) := by
      unfold kids
      rw [List.countP_pos_iff]
      exact ⟨e, hmem, decide_eq_true hdir⟩
    omega
  · have h1 := h.shape.count e.inum ht
    have h2 := (names_pos hmem).trans_le (names_le_links (h.shape.lt hd.ne_free) e.inum)
    omega

theorem sysUnlink_spec (h : Held n w [] []) (hq : w.cwd q = some cwd) (path : Str) :
    Ensures Tame (sysUnlink n cwd path w) (fun _ w' =>
      Held n w' [] [] ∧ w'.cwd = w.cwd ∧ (∀ dp ip off, ¬ Unlinks w.disk cwd path dp ip off) ∨
      ∃ dp ip off W, Unlinks w.disk cwd path dp ip off ∧ Cutting n w.disk w.cwd dp ip off W ∧
        w' = (W.put dp).put ip) := by
  unfold sysUnlink
  apply Ensures.bind (namex_spec h hq path)
  rintro r w1 ⟨hr, hd1, hc1, hf⟩
  cases r with
  | none =>
    refine Ensures.pure (Or.inl ⟨hf, hc1, fun dp ip off hno => ?_⟩)
    obtain ⟨name, hname, -⟩ := hno
    exact absurd (hr.trans hname) nofun
  | some r =>
    obtain ⟨dp, name⟩ := r
    obtain ⟨h1, hg, hdir⟩ := hf
    dsimp only
    have hdir1 : IsDir w1.disk dp := by
      rw [hd1]
      exact hdir rfl
    apply Ensures.bind (ilock_spec h1 (h1.pos List.mem_cons_self) hdir1.ne_free)
    rintro _ w2 ⟨h2, ho2, hv2⟩
    have hd2 := ho2.disk.trans hd1
    have hc2 := ho2.cwd.trans hc1
    have hdir2 : IsDir w2.disk dp := by
      rw [hd2]
      exact hdir rfl
    -- a call that does not unlink gives the reference to `dp` back
    have hbad : ∀ {w3 : World}, Held n w3 [dp] [] → w3.disk = w.disk → w3.cwd = w.cwd →
        (∀ dp ip off, ¬ Unlinks w.disk cwd path dp ip off) →
        Ensures Tame ((do iput dp; return false : M Bool) w3) (fun _ w' =>
          Held n w' [] [] ∧ w'.cwd = w.cwd ∧ (∀ dp ip off, ¬ Unlinks w.disk cwd path dp ip off) ∨
          ∃ dp ip off W, Unlinks w.disk cwd path dp ip off ∧ Cutting n w.disk w.cwd dp ip off W ∧
            w' = (W.put dp).put ip) := by
      intro w3 h3 hd3 hc3 hno
      obtain ⟨h4, ho4⟩ := put_keep h3 List.not_mem_nil (by rw [hd3]; exact (hdir rfl).ne_free)
      apply Ensures.bind_eq (iput_eq dp w3)
      exact Ensures.pure (Or.inl ⟨h4, ho4.cwd.trans hc3, hno⟩)
    have hsome : ∀ {dp' ip' off'}, Unlinks w.disk cwd path dp' ip' off' → dp' = dp ∧
        ¬ (namecmpEq name ['.'] = true ∨ namecmpEq name ['.', '.'] = true) ∧
        lookup (w.disk dp).entries name = some (ip', off') ∧
        ¬ (IsDir w.disk ip' ∧ isdirempty (w.disk ip').entries = false) := by
      rintro dp' ip' off' ⟨name', hname, hdots, hl, he⟩
      obtain ⟨rfl, rfl⟩ := Prod.mk.inj (Option.some.inj (hr.trans hname))
      exact ⟨rfl, hdots, hl, he⟩
    by_cases hdots : namecmpEq name ['.'] = true ∨ namecmpEq name ['.', '.'] = true
    · rw [if_pos hdots]
      exact hbad h2 hd2 hc2 (fun _ _ _ hno => (hsome hno).2.1 hdots)
    · rw [if_neg hdots]
      apply Ensures.bind (dirlookup_spec h2 hdir2 name)
      rintro r w3 ⟨hl, h3⟩
      rw [hd2] at hl
      cases r with
      | none =>
        obtain rfl : w3 = w2 := h3
        refine hbad h2 hd2 hc2 (fun _ _ _ hno => ?_)
        exact absurd (hl.trans (hsome hno).2.2.1) nofun
      | some r =>
        obtain ⟨ip, off⟩ := r
        obtain ⟨h3, ho3⟩ := h3
        dsimp only
        have hd3 := ho3.disk.trans hd2
        have hc3 := ho3.cwd.trans hc2
        obtain ⟨e, hk, rfl, h0, -⟩ := lookup_some hl.symm
        have hoff := two_le_of_lookup h.shape (hdir rfl) hl.symm hdots
        have hmem : e ∈ (w.disk dp).rest := List.mem_of_getElem? (rest_getElem? hoff hk)
        have hne := h.shape.ne_self hmem h0
        have ht : (w3.disk e.inum).type ≠ .free := by
          rw [hd3]
          exact (h.shape.named dp e hmem h0).1
        apply Ensures.bind (ilock_spec h3 (h3.pos List.mem_cons_self) ht)
        rintro _ w4 ⟨h4, ho4, hv4⟩
        have hd4 := ho4.disk.trans hd3
        have hc4 := ho4.cwd.trans hc3
        have hvd : w4.valid dp = true :=
          (ho4.valid dp (Ne.symm hne)).trans ((ho3.valid dp (Ne.symm hne)).trans hv2)
        apply Ensures.get
        rw [hd4]
        by_cases hn : (w.disk e.inum).nlink < 1
        · rw [if_pos hn]
          exact Ensures.throw ⟨nofun, nofun⟩
        · rw [if_neg hn]
          by_cases hfull : IsDir w.disk e.inum ∧ isdirempty (w.disk e.inum).entries = false
          · rw [if_pos hfull]
            obtain ⟨h5, ho5⟩ := put_keep h4 List.not_mem_nil (by rw [ho4.disk]; exact ht)
            apply Ensures.bind_eq (iput_eq e.inum w4)
            refine hbad h5 (ho5.disk.trans hd4) (ho5.cwd.trans hc4) (fun dp' ip' off' hno => ?_)
            obtain ⟨-, -, hl', hno'⟩ := hsome hno
            obtain ⟨rfl, -⟩ := Prod.mk.inj (Option.some.inj (hl.trans hl'))
            exact hno' hfull
          · rw [if_neg hfull]
            have hcut := cutting h4 (by rw [hd4]; exact hdir rfl) (by rw [hd4]; exact hl.symm) hdots
              hvd hv4
            rw [hd4] at hcut
            refine Ensures.bind_eq (a := ()) (t := w4.setInode dp { w.disk dp with
              entries := (w.disk dp).entries.set off ⟨0, nameField []⟩ }) ?_ ?_
            · unfold setEntries
              rw [hd4]
            refine Ensures.bind_eq (a := ()) (t := w4.setInode dp (cut w.disk dp off e.inum dp)) ?_ ?_
            · unfold setNlink World.setInode cut
              dsimp only
              rw [Function.update_self, Function.update_idem, Function.update_of_ne (Ne.symm hne),
                Function.update_self]
            apply Ensures.bind_eq (iput_eq dp _)
            refine Ensures.bind_eq (a := ()) (t := World.put { w4 with disk := cut w.disk dp off e.inum } dp)
              ?_ ?_
            · unfold setNlink
              rw [put_setInode hne, put_disk_of_ne hne]
              unfold World.setInode cut
              dsimp only
              rw [Function.update_of_ne hne, hd4, Function.update_of_ne (Ne.symm hne),
                Function.update_self]
            apply Ensures.bind_eq (iput_eq e.inum _)
            exact Ensures.pure (Or.inr ⟨dp, e.inum, off, _,
              ⟨name, hr.symm, hdots, hl.symm, hfull⟩,
                { hcut with cwd := hc4 }, rfl⟩)

/-! ## what is freed -/

theorem Cutting.nlink_dp {cwd : Fin nproc → Option Nat} (h : Cutting n D cwd dp ip off W) :
    (W.disk dp).nlink = if IsDir D ip then (D dp).nlink - 1 else (D dp).nlink := by
  rw [h.disk]
  unfold cut
  rw [Function.update_of_ne h.ne, Function.update_self]

theorem Cutting.nlink_ip {cwd : Fin nproc → Option Nat} (h : Cutting n D cwd dp ip off W) :
    (W.disk ip).nlink = (D ip).nlink - 1 := by
  rw [h.disk]
  unfold cut
  rw [Function.update_self]

theorem Cutting.ref {cwd : Fin nproc → Option Nat} (h : Cutting n D cwd dp ip off W) :
    (dp ≠ rootIno → W.ref dp = refs W.cwd dp + 1) ∧
      (ip ≠ rootIno → W.ref ip = refs W.cwd ip + 1) := by
  refine ⟨fun hr => ?_, fun hr => ?_⟩
  · rw [h.held.ref dp hr, List.count_cons_self, List.count_singleton, if_neg]
    exact fun he => h.ne (beq_iff_eq.mp he).symm
  · rw [h.held.ref ip hr, List.count_cons_of_ne h.ne, List.count_singleton_self]

theorem Cutting.dp_free {cwd : Fin nproc → Option Nat} (h : Cutting n D cwd dp ip off W)
    (hd : IsDir D ip) (hn : (D dp).nlink = 1) (hq : ∀ q, cwd q ≠ some dp) :
    ¬ IsDir ((W.put dp).put ip).disk dp := by
  have hfree : (W.put dp).disk = Function.update W.disk dp ⟨.free, 0, []⟩ := by
    rw [put_disk h.ref.1 h.held.shape.root_nlink (fun _ => h.dpValid), if_pos]
    refine ⟨?_, fun q => ?_⟩
    · rw [h.nlink_dp, if_pos hd, hn]
    · rw [h.cwd]
      exact hq q
  unfold IsDir
  rw [put_disk_of_ne h.ne, hfree, Function.update_self]
  nofun

theorem Cutting.ip_free {cwd : Fin nproc → Option Nat} (h : Cutting n D cwd dp ip off W)
    (hn : (D ip).nlink = 1) (hq : ∀ q, cwd q ≠ some ip) :
    ¬ IsDir ((W.put dp).put ip).disk ip := by
  have hrootn := h.held.shape.root_nlink
  have hroot : ((W.put dp).disk rootIno).nlink ≠ 0 := by
    by_cases hd : rootIno = dp
    · rw [put_disk h.ref.1 hrootn (fun _ => h.dpValid), if_neg (fun hc => hrootn (hd ▸ hc.1))]
      exact hrootn
    · rw [put_disk_of_ne hd]
      exact hrootn
  have hip : (W.put dp).disk ip = W.disk ip := put_disk_of_ne (Ne.symm h.ne)
  have hvalid : (W.put dp).valid ip = true := (put_valid_of_ne (Ne.symm h.ne)).trans h.ipValid
  have hfree : ((W.put dp).put ip).disk =
      Function.update (W.put dp).disk ip ⟨.free, 0, []⟩ := by
    rw [put_disk (fun hr => ?_) hroot (fun _ => hvalid), if_pos]
    · refine ⟨?_, fun q => ?_⟩
      · rw [hip, h.nlink_ip, hn]
      · rw [put_cwd, h.cwd]
        exact hq q
    · rw [put_cwd]
      exact (Function.update_of_ne (Ne.symm h.ne) ..).trans (h.ref.2 hr)
  unfold IsDir
  rw [hfree, Function.update_self]
  nofun

/-- nothing is lost that is below a current directory -/
theorem Cutting.done {cwd : Fin nproc → Option Nat} (h : Cutting n D cwd dp ip off W)
    (hidle : (D dp).nlink = 0 → ∃ q, cwd q = some dp)
    (hdp : IsDir D ip → (D dp).nlink = 1 → (∀ q, cwd q ≠ some dp) →
      ∀ q c, cwd q = some c → ¬ Above (parent D) c dp)
    (hip : (D ip).nlink = 1 → (∀ q, cwd q ≠ some ip) →
      ∀ q c, cwd q = some c → ¬ Above (parent D) c ip) :
    Held n ((W.put dp).put ip) [] [] := by
  have hpar := h.edit.parent
  have h1 : Held n (W.put dp) [ip] [ip] := by
    apply put_loose h.held (fun hm => h.ne (List.mem_singleton.mp hm))
      (fun hm => h.ne (List.mem_singleton.mp hm)) (fun _ => h.dpValid)
    · rw [h.edit.type]
      exact h.dpType
    · intro hn hq
      rw [h.nlink_dp] at hn
      rw [h.cwd] at hq ⊢
      rw [hpar]
      by_cases hd : IsDir D ip
      · rw [if_pos hd] at hn
        have h0 := h.dpNlink hd
        exact hdp hd (by omega) hq
      · rw [if_neg hd] at hn
        obtain ⟨q, hq'⟩ := hidle hn
        exact absurd hq' (hq q)
  have hdisk : (W.put dp).disk ip = W.disk ip := put_disk_of_ne (Ne.symm h.ne)
  apply put_loose h1 List.not_mem_nil List.not_mem_nil
    (fun _ => (put_valid_of_ne (Ne.symm h.ne)).trans h.ipValid)
  · rw [hdisk, h.edit.type]
    exact h.ipType
  · intro hn hq q c hc hab
    rw [hdisk, h.nlink_ip] at hn
    rw [put_cwd, h.cwd] at hq hc
    have h0 := h.ipNlink
    refine hip (by omega) hq q c hc (hab.mono (fun x y hxy => ?_))
    rw [← hpar]
    exact put_parent hxy

/-! ## `chdir`, `exit` -/

theorem count_one (a b : Nat) : [b].count a = if a = b then 1 else 0 := by
  rw [List.count_singleton]
  by_cases hab : a = b
  · rw [if_pos hab, if_pos (beq_iff_eq.mpr hab.symm)]
  · rw [if_neg hab, if_neg (fun h => hab (beq_iff_eq.mp h).symm)]

/-- the current directories change, and with them who has the references -/
theorem Held.moved {held' : List Nat} {cwd' : Fin nproc → Option Nat} (h : Held n w held [])
    (hrefs : ∀ a, refs cwd' a + held'.count a = refs w.cwd a + held.count a)
    (hs : Sound w.disk cwd')
    (hidle : ∀ i, i ∉ loose → (∃ q, w.cwd q = some i) → ∃ q, cwd' q = some i) :
    Held n { w with cwd := cwd' } held' loose := by
  refine ⟨h.shape, hs, fun i hi => ?_, ?_, fun i hi ht hn => ?_⟩
  · show w.ref i = _
    rw [h.ref i hi]
    exact (hrefs i).symm
  · show _ ≤ w.ref rootIno
    rw [hrefs]
    exact h.root
  · obtain ⟨hv, hq⟩ := h.idle i List.not_mem_nil ht hn
    exact ⟨hv, hidle i hi hq⟩

/-- a process goes elsewhere or ends, and its reference is still there -/
theorem Held.leave {c : Option Nat} (h : Held n w c.toList []) (hp : w.cwd p = some cwd)
    (ht : ∀ t, c = some t → Good w.disk t ∧ IsDir w.disk t) :
    Held n (w.setCwd p c) [cwd] [cwd] := by
  apply h.moved
  · intro a
    have h1 := refs_drop (a := a) hp
    have h2 : refs (Function.update w.cwd p c) a =
        refs (Function.update w.cwd p none) a + c.toList.count a := by
      cases c with
      | none => rfl
      | some t =>
        have h3 := refs_add (a := a) (Function.update_self p none w.cwd) t
        rw [Function.update_idem] at h3
        rw [h3, Option.toList_some, count_one]
    rw [h2, count_one]
    omega
  · intro q d hq y hy
    by_cases hqp : q = p
    · rw [hqp, Function.update_self] at hq
      exact (ht d hq).1.2 (ht d hq).2 y hy
    · rw [Function.update_of_ne hqp] at hq
      exact h.sound q d hq y hy
  · rintro i hi ⟨q, hq⟩
    have hqp : q ≠ p := by
      rintro rfl
      exact hi (List.mem_singleton.mpr (Option.some.inj (hq.symm.trans hp)))
    exact ⟨q, (Function.update_of_ne hqp ..).trans hq⟩

theorem put_setCwd (c : Option Nat) : (w.put i).setCwd p c = (w.setCwd p c).put i := by
  by_cases hc : w.ref i = 1 ∧ w.valid i = true ∧ (w.disk i).nlink = 0
  · rw [put_of_last hc, put_of_last (w := w.setCwd p c) hc]
    rfl
  · rw [put_of_not hc, put_of_not (w := w.setCwd p c) hc]
    rfl

theorem sysChdir_spec (h : Held n w [] []) (hp : w.cwd p = some cwd) (path : Str) :
    Ensures Tame (sysChdir n p cwd path w) (fun _ w' =>
      Held n w' [] [] ∧ w'.cwd = w.cwd ∧
        (∀ t name, Fs.namex (image w.disk) cwd path false = some (t, name) → ¬ IsDir w.disk t) ∨
      ∃ t name W, Fs.namex (image w.disk) cwd path false = some (t, name) ∧ IsDir w.disk t ∧
        Leaving n w (Function.update w.cwd p (some t)) cwd W ∧ w' = W.put cwd) := by
  have ht : (w.disk cwd).type ≠ .free := (h.sound p cwd hp cwd (.refl cwd)).ne_free
  unfold sysChdir
  apply Ensures.bind (namex_spec h hp path)
  rintro r w1 ⟨hr, hd1, hc1, hf⟩
  cases r with
  | none => exact Ensures.pure (Or.inl ⟨hf, hc1, fun t name hno => absurd (hr.trans hno) nofun⟩)
  | some r =>
    obtain ⟨t, name⟩ := r
    obtain ⟨h1, hg, -⟩ := hf
    dsimp only
    apply Ensures.bind (ilock_spec h1 (h1.pos List.mem_cons_self) (by rw [hd1]; exact hg.1))
    rintro _ w2 ⟨h2, ho2, -⟩
    have hd2 := ho2.disk.trans hd1
    have hc2 := ho2.cwd.trans hc1
    apply Ensures.get
    rw [hd2]
    by_cases hdir : IsDir w.disk t
    · rw [if_neg (not_not.mpr hdir)]
      apply Ensures.bind_eq (iput_eq cwd w2)
      have h3 : Held n (w2.setCwd p (some t)) [cwd] [cwd] := by
        apply Held.leave (c := some t) h2 (by rw [hc2]; exact hp)
        intro u hu
        obtain rfl := Option.some.inj hu
        rw [hd2]
        exact ⟨hg, hdir⟩
      refine Ensures.bind_eq (a := ()) (t := (w2.put cwd).setCwd p (some t)) rfl (Ensures.pure ?_)
      refine Or.inr ⟨t, name, _, hr.symm, hdir, ⟨h3, hd2, ?_, fun hn => ?_⟩, put_setCwd _⟩
      · rw [← hc2]
        rfl
      · rw [← hd2] at hn
        exact (h2.idle cwd List.not_mem_nil (by rw [hd2]; exact ht) hn).1
    · rw [if_pos hdir]
      obtain ⟨h3, ho3⟩ := put_keep h2 List.not_mem_nil (by rw [hd2]; exact hg.1)
      apply Ensures.bind_eq (iput_eq t w2)
      refine Ensures.pure (Or.inl ⟨h3, ho3.cwd.trans hc2, fun u name' hno => ?_⟩)
      obtain ⟨rfl, -⟩ := Prod.mk.inj (Option.some.inj (hr.trans hno))
      exact hdir

theorem exit_spec (h : Held n w [] []) (hp : w.cwd p = some cwd) :
    Ensures Tame (exit p cwd w) (fun _ w' =>
      ∃ W, Leaving n w (Function.update w.cwd p none) cwd W ∧ w' = W.put cwd) := by
  unfold exit
  by_cases hi : p = initproc
  · rw [if_pos hi]
    exact Ensures.throw ⟨nofun, nofun⟩
  · rw [if_neg hi]
    apply Ensures.bind_eq (iput_eq cwd w)
    have h1 : Held n (w.setCwd p none) [cwd] [cwd] := Held.leave (c := none) h hp nofun
    have ht : (w.disk cwd).type ≠ .free := (h.sound p cwd hp cwd (.refl cwd)).ne_free
    exact ⟨_, ⟨h1, rfl, rfl, fun hn => (h.idle cwd List.not_mem_nil ht hn).1⟩, put_setCwd none⟩

theorem fork_spec {np : Fin nproc} (h : Held n w [] []) (hp : w.cwd p = some cwd) :
    Ensures Tame (fork np cwd w) (fun _ w' => Held n w' [] []) := by
  unfold fork
  apply Ensures.get
  by_cases hnp : w.cwd np = none
  · rw [if_pos hnp]
    apply Ensures.bind (idup_spec h cwd)
    rintro _ w1 ⟨h1, ho1⟩
    rw [← ho1.cwd] at hp hnp
    show Held n (w1.setCwd np (some cwd)) [] []
    apply h1.moved
    · intro a
      rw [refs_add hnp, count_one, List.count_nil, Nat.add_zero]
    · intro q d hq y hy
      by_cases hqp : q = np
      · rw [hqp, Function.update_self] at hq
        exact h1.sound p d (hp.trans hq) y hy
      · rw [Function.update_of_ne hqp] at hq
        exact h1.sound q d hq y hy
    · rintro i - ⟨q, hq⟩
      have hqp : q ≠ np := by
        rintro rfl
        exact absurd (hnp.symm.trans hq) nofun
      exact ⟨q, (Function.update_of_ne hqp ..).trans hq⟩
  · rw [if_neg hnp]
    exact Ensures.throw ⟨nofun, nofun⟩

end

end Itable
