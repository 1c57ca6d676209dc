import Xv6.Itable.Remove

/-!
# Going up from the current directories

An entry `..` is a number without a reference.  What is above a current directory stays a directory
as long as no inode is freed that has a current directory below it.
-/

namespace Itable
open Fs Ulib Lib

/-- the call leaves inode `x` without links, or leaves directory `x` that has none; `cwd'` are the
current directories then -/
inductive Drops (w : World) : Fin nproc × Call → (Fin nproc → Option Nat) → Nat → Prop
  | unlink {p cwd path dp ip off} (hp : w.cwd p = some cwd)
      (h : Unlinks w.disk cwd path dp ip off) (hn : (w.disk ip).nlink = 1) :
      Drops w (p, .unlink path) w.cwd ip
  | parent {p cwd path dp ip off} (hp : w.cwd p = some cwd)
      (h : Unlinks w.disk cwd path dp ip off) (hd : IsDir w.disk ip) (hn : (w.disk dp).nlink = 1) :
      Drops w (p, .unlink path) w.cwd dp
  | chdir {p cwd path t name} (hp : w.cwd p = some cwd)
      (h : Fs.namex (image w.disk) cwd path false = some (t, name)) (hd : IsDir w.disk t)
      (hn : (w.disk cwd).nlink = 0) :
      Drops w (p, .chdir path) (Function.update w.cwd p (some t)) cwd
  | exit {p cwd} (hp : w.cwd p = some cwd) (hn : (w.disk cwd).nlink = 0) :
      Drops w (p, .exit) (Function.update w.cwd p none) cwd

/-- no current directory is below an inode that the call leaves without links and processes -/
def Careful (w : World) (e : Fin nproc × Call) : Prop :=
  ∀ cwd' x, Drops w e cwd' x → (∀ q, cwd' q ≠ some x) →
    ∀ q c, cwd' q = some c → ¬ Above (parent w.disk) c x

/-- a file system in order, in which every inode has a name; all processes are in the root -/
structure Start (n : Nat) (w : World) : Prop where
  shape : Shape n w.disk
  nlink : ∀ i, (w.disk i).type ≠ .free → (w.disk i).nlink ≠ 0
  home : ∀ p c, w.cwd p = some c → c = rootIno
  ref : ∀ i, i ≠ rootIno → w.ref i = 0
  root : refs w.cwd rootIno ≤ w.ref rootIno

/-- what a call does, from a state in order -/
structure Outcome (n : Nat) (w : World) (e : Fin nproc × Call) (w' : World) : Prop where
  held : Careful w e → Held n w' [] []
  /-- an inode that is dropped is freed, and no other `..` changes -/
  freed : ∀ cwd' x, Drops w e cwd' x → (∀ q, cwd' q ≠ some x) → w'.cwd = cwd' ∧
    ¬ IsDir w'.disk x ∧ ∀ j, IsDir w'.disk j → parent w'.disk j = parent w.disk j

section
variable {n i j dp ip off : Nat} {D : Disk} {w w' W w₀ : World}
  {name path : Str} {p q : Fin nproc} {cwd : Nat} {c : Call} {e : Fin nproc × Call}
  {l : List (Fin nproc × Call)}

theorem Start.held (h : Start n w) : Held n w [] [] := by
  refine ⟨h.shape, fun q c hq y hy => ?_, fun i hi => ?_, h.root,
    fun i _ ht hn => absurd hn (h.nlink i ht)⟩
  · rw [h.home q c hq] at hy
    rw [hy.eq_of_loop h.shape.top]
    exact h.shape.root
  · have h0 : refs w.cwd i = 0 :=
      refs_eq_zero_iff.mpr (fun q hq => hi (h.home q i hq))
    rw [h.ref i hi, h0]
    rfl

theorem Outcome.of_held (h : Held n w' [] []) (hno : ∀ cwd' x, ¬ Drops w e cwd' x) :
    Outcome n w e w' := ⟨fun _ => h, fun cwd' x hx => absurd hx (hno cwd' x)⟩

theorem Outcome.unlink (h : Held n w [] []) (hp : w.cwd p = some cwd)
    (hu : Unlinks w.disk cwd path dp ip off) (hc : Cutting n w.disk w.cwd dp ip off W) :
    Outcome n w (p, .unlink path) ((W.put dp).put ip) := by
  have hcwd : ((W.put dp).put ip).cwd = w.cwd := (put_cwd _ ip).trans ((put_cwd _ dp).trans hc.cwd)
  have huniq : ∀ {dp' ip' off'}, Unlinks w.disk cwd path dp' ip' off' → dp' = dp ∧ ip' = ip := by
    rintro dp' ip' off' ⟨name', hname', -, hl', -⟩
    obtain ⟨name, hname, -, hl, -⟩ := hu
    obtain ⟨rfl, rfl⟩ := Prod.mk.inj (Option.some.inj (hname'.symm.trans hname))
    obtain ⟨rfl, -⟩ := Prod.mk.inj (Option.some.inj (hl'.symm.trans hl))
    exact ⟨rfl, rfl⟩
  refine ⟨fun hcare => hc.done (fun hn => ?_) (fun hd hn hq => ?_) (fun hn hq => ?_),
    fun cwd' x hx hq => ?_⟩
  · exact (h.idle dp List.not_mem_nil hc.dpType hn).2
  · exact hcare _ _ (.parent hp hu hd hn) hq
  · exact hcare _ _ (.unlink hp hu hn) hq
  · have hpar : ∀ j, IsDir ((W.put dp).put ip).disk j →
        parent ((W.put dp).put ip).disk j = parent w.disk j := by
      intro j hj
      have h1 := put_isDir hj
      have h2 : IsDir (W.put dp).disk j := by
        unfold IsDir at hj
        rwa [h1] at hj
      rw [← hc.edit.parent]
      unfold parent
      rw [h1, put_isDir h2]
    cases hx with
    | unlink hp' hu' hn =>
      obtain rfl := Option.some.inj (hp'.symm.trans hp)
      obtain ⟨-, rfl⟩ := huniq hu'
      exact ⟨hcwd, hc.ip_free hn hq, hpar⟩
    | parent hp' hu' hd hn =>
      obtain rfl := Option.some.inj (hp'.symm.trans hp)
      obtain ⟨rfl, rfl⟩ := huniq hu'
      exact ⟨hcwd, hc.dp_free hd hn hq, hpar⟩

theorem Outcome.leave {cwd' : Fin nproc → Option Nat} (h : Held n w [] [])
    (hp : w.cwd p = some cwd) (hW : Leaving n w cwd' cwd W)
    (hdrop : (w.disk cwd).nlink = 0 → Drops w e cwd' cwd)
    (honly : ∀ cwd'' x, Drops w e cwd'' x → cwd'' = cwd' ∧ x = cwd ∧ (w.disk cwd).nlink = 0) :
    Outcome n w e (W.put cwd) := by
  have ht : (w.disk cwd).type ≠ .free := (h.sound p cwd hp cwd (.refl cwd)).ne_free
  have hvalid : (W.disk cwd).nlink = 0 → W.valid cwd = true := by
    rw [hW.disk]
    exact hW.valid
  refine ⟨fun hcare => ?_, fun cwd'' x hx hq => ?_⟩
  · apply put_loose hW.held List.not_mem_nil List.not_mem_nil hvalid
    · rw [hW.disk]
      exact ht
    · intro hn hq
      rw [hW.disk] at hn ⊢
      rw [hW.cwd] at hq ⊢
      exact hcare _ _ (hdrop hn) hq
  · obtain ⟨rfl, rfl, hn⟩ := honly cwd'' x hx
    refine ⟨(put_cwd _ _).trans hW.cwd, ?_, fun j hj => ?_⟩
    · have hr : x ≠ rootIno → W.ref x = refs W.cwd x + 1 := by
        intro hr
        rw [hW.held.ref x hr, List.count_singleton_self]
      unfold IsDir
      rw [put_disk hr hW.held.shape.root_nlink hvalid, hW.disk, hW.cwd, if_pos ⟨hn, hq⟩,
        Function.update_self]
      nofun
    · unfold parent
      rw [put_isDir hj, hW.disk]

theorem call_spec (h : Held n w [] []) (p : Fin nproc) (c : Call) :
    Ensures Tame (call n p c w) (fun _ w' => Outcome n w (p, c) w') := by
  unfold call
  apply Ensures.get
  cases hp : w.cwd p with
  | none => exact Ensures.throw ⟨nofun, nofun⟩
  | some cwd =>
    cases c with
    | mkdir path room =>
      refine Ensures.bind (sysMkdir_spec h hp path room) ?_
      rintro _ w' ⟨h', -⟩
      exact Ensures.pure (.of_held h' (fun cwd' x hx => nomatch hx))
    | chdir path =>
      apply Ensures.bind (sysChdir_spec h hp path)
      rintro _ w' (⟨h', -, hno⟩ | ⟨t, name, W, hname, hd, hW, rfl⟩)
      · refine Ensures.pure (.of_held h' (fun cwd' x hx => ?_))
        cases hx with
        | chdir hp' hname hd _ =>
          obtain rfl := Option.some.inj (hp'.symm.trans hp)
          exact hno _ _ hname hd
      · refine Ensures.pure (.leave h hp hW (fun hn => .chdir hp hname hd hn) (fun cwd'' x hx => ?_))
        cases hx with
        | chdir hp' hname' hd' hn =>
          obtain rfl := Option.some.inj (hp'.symm.trans hp)
          obtain ⟨rfl, -⟩ := Prod.mk.inj (Option.some.inj (hname'.symm.trans hname))
          exact ⟨rfl, rfl, hn⟩
    | unlink path =>
      apply Ensures.bind (sysUnlink_spec h hp path)
      rintro _ w' (⟨h', -, hno⟩ | ⟨dp, ip, off, W, hu, hc, rfl⟩)
      · refine Ensures.pure (.of_held h' (fun cwd' x hx => ?_))
        cases hx with
        | unlink hp' hu _ =>
          obtain rfl := Option.some.inj (hp'.symm.trans hp)
          exact hno _ _ _ hu
        | parent hp' hu _ _ =>
          obtain rfl := Option.some.inj (hp'.symm.trans hp)
          exact hno _ _ _ hu
      · exact Ensures.pure (.unlink h hp hu hc)
    | getcwd page size rounds beyond =>
      refine (getcwd_spec h hp page size rounds beyond).mono ?_
      rintro _ w' ⟨h', -⟩
      exact .of_held h' (fun cwd' x hx => nomatch hx)
    | fork np =>
      refine (fork_spec h hp).mono ?_
      rintro _ w' h'
      exact .of_held h' (fun cwd' x hx => nomatch hx)
    | exit =>
      refine (exit_spec h hp).mono ?_
      rintro _ w' ⟨W, hW, rfl⟩
      refine .leave h hp hW (fun hn => .exit hp hn) (fun cwd'' x hx => ?_)
      cases hx with
      | exit hp' hn =>
        obtain rfl := Option.some.inj (hp'.symm.trans hp)
        exact ⟨rfl, rfl, hn⟩

/-- from a state in order, what is above the current directories are directories after the call just
when the call is careful -/
theorem sound_iff_careful (h : Held n w [] []) (hs : Step n w e w') :
    Sound w'.disk w'.cwd ↔ Careful w e := by
  have hout : Outcome n w e w' := (call_spec h e.1 e.2).elim hs
  refine ⟨fun hsound cwd' x hx hq q c hc hab => ?_, fun hcare => (hout.held hcare).sound⟩
  obtain ⟨rfl, hfree, hpar⟩ := hout.freed cwd' x hx hq
  exact hfree (hsound.isDir_of hpar hc hab)

theorem held_of_run (h₀ : Start n w₀) (hrun : Run (guarded Careful (Step n)) w₀ l w) :
    Held n w [] [] := by
  refine hrun.invariant (I := fun w => Held n w [] []) (fun w e w' h hs => ?_) h₀.held
  exact ((call_spec h e.1 e.2).elim hs.2 : Outcome n w e w').held hs.1

/-- in a run of careful calls everything above a current directory is a directory, and no call fails
for another reason; the next call keeps that just when it is careful -/
theorem dotdot_iff (h₀ : Start n w₀) (hrun : Run (guarded Careful (Step n)) w₀ l w) :
    Sound w.disk w.cwd ∧
    (∀ p c, call n p c w ≠ .error .ilockNoType ∧ call n p c w ≠ .error .dirinameNotDir) ∧
    ∀ e w', Step n w e w' → (Sound w'.disk w'.cwd ↔ Careful w e) := by
  have h := held_of_run h₀ hrun
  refine ⟨h.sound, fun p c => ⟨fun he => ?_, fun he => ?_⟩, fun e w' => sound_iff_careful h⟩
  · exact ((call_spec h p c).error he).1 rfl
  · exact ((call_spec h p c).error he).2 rfl

end

/-! ## an empty file system -/

def emptyDisk : Disk := fun i =>
  if i = rootIno then ⟨.dir, 1, [⟨rootIno, padded ['.']⟩, ⟨rootIno, padded ['.', '.']⟩]⟩
  else ⟨.free, 0, []⟩

def boot : World :=
  { disk := emptyDisk
    ref := fun i => if i = rootIno then 1 else 0
    valid := fun _ => false
    cwd := fun p => if p = initproc then some rootIno else none }

def after (n : Nat) (w : World) (e : Fin nproc × Call) : World :=
  match call n e.1 e.2 w with
  | .ok (_, w') => w'
  | .error _ => w

theorem step_after {n : Nat} {w : World} {e : Fin nproc × Call}
    (h : (call n e.1 e.2 w).toBool = true) : Step n w e (after n w e) := by
  unfold Step after
  cases hc : call n e.1 e.2 w with
  | ok r => rfl
  | error r =>
    rw [hc] at h
    exact absurd h nofun

theorem emptyDisk_rest (d : Nat) : (emptyDisk d).rest = [] := by
  unfold emptyDisk
  split <;> rfl

theorem emptyDisk_allocated {i : Nat} (h : (emptyDisk i).type ≠ .free) : i = rootIno := by
  by_contra hi
  unfold emptyDisk at h
  rw [if_neg hi] at h
  exact h rfl

theorem boot_start {n : Nat} (hn : 1 < n) : Start n boot := by
  have hshape : Shape n emptyDisk := by
    refine ⟨rfl, rfl, fun i hi => ?_, fun i hi => ?_, fun d hd => ?_, fun d e he => ?_,
      fun d hd => ?_, fun i hi => ?_⟩
    · rw [emptyDisk_allocated hi]
      exact ⟨Nat.one_pos, hn⟩
    · unfold emptyDisk
      rw [if_neg]
      rintro rfl
      exact hi rfl
    · rw [emptyDisk_allocated hd.ne_free]
      exact ⟨rootIno, [], nofun, rfl⟩
    · rw [emptyDisk_rest] at he
      exact absurd he List.not_mem_nil
    · by_contra hno
      unfold parent emptyDisk at hd
      rw [if_neg hno] at hd
      exact absurd hd nofun
    · have hlinks : links n emptyDisk i = 0 := by
        refine Finset.sum_eq_zero (fun d _ => ?_)
        unfold Inode.names
        rw [emptyDisk_rest]
        rfl
      rw [hlinks, emptyDisk_allocated hi]
      decide
  refine ⟨hshape, fun i hi => ?_, fun p c hc => ?_, fun i hi => if_neg hi, ?_⟩
  · show (emptyDisk i).nlink ≠ 0
    rw [emptyDisk_allocated hi]
    nofun
  · show c = rootIno
    unfold boot at hc
    dsimp only at hc
    split at hc
    · exact (Option.some.inj hc).symm
    · exact absurd hc nofun
  · show refs boot.cwd rootIno ≤ 1
    decide

/-- with all processes in the root, nothing is below another directory -/
theorem careful_at_home {w : World} {p : Fin nproc} {path : Str}
    (hcwd : ∀ q, w.cwd q = boot.cwd q) (htop : parent w.disk rootIno = some rootIno) :
    Careful w (p, .unlink path) := by
  intro cwd' x hx hq q c hc hab
  have hsame : cwd' = w.cwd := by
    cases hx with
    | unlink => rfl
    | parent => rfl
  rw [hsame] at hq hc
  rw [hcwd q] at hc
  rw [(boot_start Nat.one_lt_two).home q c hc] at hab
  refine hq initproc ?_
  rw [hab.eq_of_loop htop, hcwd]
  rfl

def mkdir (path : Str) : Fin nproc × Call := (initproc, .mkdir path (fun _ => true))
def chdir (path : Str) : Fin nproc × Call := (initproc, .chdir path)
def unlink (path : Str) : Fin nproc × Call := (initproc, .unlink path)

def made : World := after 200 boot (mkdir ['a'])
def removed : World := after 200 made (unlink ['a'])
def again : World := after 200 removed (mkdir ['a'])
def inside : World := after 200 again (chdir ['a'])

theorem dotdot_tidy : Sound inside.disk inside.cwd := by
  have h1 : guarded Careful (Step 200) boot (mkdir ['a']) made :=
    ⟨fun cwd' x hx => (nomatch hx), step_after (by decide +kernel)⟩
  have h2 : guarded Careful (Step 200) made (unlink ['a']) removed :=
    ⟨careful_at_home (by decide +kernel) (by decide +kernel), step_after (by decide +kernel)⟩
  have h3 : guarded Careful (Step 200) removed (mkdir ['a']) again :=
    ⟨fun cwd' x hx => (nomatch hx), step_after (by decide +kernel)⟩
  have h4 : guarded Careful (Step 200) again (chdir ['a']) inside := by
    refine ⟨fun cwd' x hx => ?_, step_after (by decide +kernel)⟩
    -- the root has a link
    cases hx with
    | chdir hp _ _ hn =>
      have hroot : again.cwd initproc = some rootIno := by decide +kernel
      have hnlink : (again.disk rootIno).nlink ≠ 0 := by decide +kernel
      obtain rfl := Option.some.inj (hroot.symm.trans hp)
      exact absurd hn hnlink
  exact (dotdot_iff (boot_start (by decide)) (.cons h1 (.cons h2 (.cons h3 (.single h4))))).1

def nested : World := after 200 made (mkdir ['a', '/', 'b'])
def deep : World := after 200 nested (chdir ['a', '/', 'b'])
def orphan : World := after 200 deep (unlink ['.', '.', '/', 'b'])
def dangling : World := after 200 orphan (unlink ['.', '.', '/', '.', '.', '/', 'a'])

/-- the `..` of a directory that a process is in denotes an inode that is free -/
theorem dotdot_dangles : ¬ ∀ (n : Nat) (w₀ w : World) (l : List (Fin nproc × Call)), Start n w₀ →
    Run (Step n) w₀ l w → Sound w.disk w.cwd ∧ ∀ p c, call n p c w ≠ .error .ilockNoType := by
  intro hall
  have h1 : Step 200 boot (mkdir ['a']) made := step_after (by decide +kernel)
  have h2 : Step 200 made (mkdir ['a', '/', 'b']) nested := step_after (by decide +kernel)
  have h3 : Step 200 nested (chdir ['a', '/', 'b']) deep := step_after (by decide +kernel)
  have h4 : Step 200 deep (unlink ['.', '.', '/', 'b']) orphan := step_after (by decide +kernel)
  have h5 : Step 200 orphan (unlink ['.', '.', '/', '.', '.', '/', 'a']) dangling :=
    step_after (by decide +kernel)
  have hrun := Run.cons h1 (.cons h2 (.cons h3 (.cons h4 (.single h5))))
  have hfail : (match call 200 initproc (.getcwd true 100 50 (fun _ => 0)) dangling with
      | .error e => decide (e = .ilockNoType)
      | .ok _ => false) = true := by decide +kernel
  refine (hall 200 boot dangling _ (boot_start (by decide)) hrun).2 initproc
    (.getcwd true 100 50 (fun _ => 0)) ?_
  cases hc : call 200 initproc (.getcwd true 100 50 (fun _ => 0)) dangling with
  | ok r =>
    rw [hc] at hfail
    exact absurd hfail nofun
  | error e =>
    rw [hc] at hfail
    rw [of_decide_eq_true hfail]

end Itable
