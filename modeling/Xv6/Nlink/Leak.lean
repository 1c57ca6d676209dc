import Xv6.Nlink.Calls
import Xv6.Nlink.Counts

/-!
# No inode is leaked

`no_leak` is about every run of calls that make no entry in a removed directory.  `create` does not
look at `nlink` of the parent: a file made in a current directory that is removed stays allocated
when the process leaves, and nothing leads to it (`file_leaks`).
-/

namespace Nlink
open Fs Ulib Lib
open Itable (InodeType nproc initproc)

structure Sound (n : Nat) (s : Sys) : Prop where
  linked : Linked n s.world
  ref : ∀ i, refs s.cwd i ≤ s.world.opened i

section
variable {n i j cwd : Nat} {w w' : World} {s t : Sys} {p : Fin nproc} {a : Act}

/-! ## references -/

theorem iput_opened : (w.iput i).opened = w.opened := by
  unfold World.iput
  split
  · rfl
  · rfl

theorem setNlink_opened {k : Int16} : (w.setNlink i k).opened = w.opened := rfl

theorem keep_opened : (w.keep j).opened i = w.opened i + if i = j then 1 else 0 := by
  unfold World.keep
  dsimp only
  by_cases h : i = j
  · rw [h, Function.update_self, if_pos rfl]
  · rw [Function.update_of_ne h, if_neg h, Nat.add_zero]

theorem drop_opened : (w.drop j).opened i = w.opened i - if i = j then 1 else 0 := by
  unfold World.drop
  rw [iput_opened]
  dsimp only
  by_cases h : i = j
  · rw [h, Function.update_self, if_pos rfl]
  · rw [Function.update_of_ne h, if_neg h, Nat.sub_zero]

theorem dirlink_opened {dp inum : Nat} {name : Str} {room : Bool} :
    (dirlink w dp name inum room).1.opened = w.opened := by
  unfold dirlink
  dsimp only
  split
  · rfl
  · split
    · rfl
    · split
      · rfl
      · rfl

theorem linkNew_opened {type : InodeType} {dp ip : Nat} {name : Str} {room : Nat → Bool} :
    (linkNew w type dp ip name room).1.opened = w.opened := by
  unfold linkNew
  split
  · split
    · rename_i h
      exact (congrArg (fun r => r.1.opened) h).symm.trans dirlink_opened
    · rename_i w₁ h
      have h₁ : w₁.opened = w.opened :=
        (congrArg (fun r => r.1.opened) h).symm.trans dirlink_opened
      split
      · rename_i h
        exact ((congrArg (fun r => r.1.opened) h).symm.trans dirlink_opened).trans h₁
      · rename_i w₂ h
        have h₂ : w₂.opened = w₁.opened :=
          (congrArg (fun r => r.1.opened) h).symm.trans dirlink_opened
        exact dirlink_opened.trans (h₂.trans h₁)
  · exact dirlink_opened

theorem create_opened {path : Str} {type : InodeType} {room : Nat → Bool} {r : Option Nat}
    (hs : create n w cwd path type room = .ok (w', r)) : w'.opened = w.opened := by
  unfold create at hs
  split at hs
  · rw [← (Prod.mk.inj (Except.ok.inj hs)).1]
  · split at hs
    · dsimp only at hs
      split at hs
      · exact absurd hs nofun
      · split at hs
        · rw [← (Prod.mk.inj (Except.ok.inj hs)).1, iput_opened]
        · rw [← (Prod.mk.inj (Except.ok.inj hs)).1, iput_opened, iput_opened]
    · split at hs
      · rw [← (Prod.mk.inj (Except.ok.inj hs)).1, iput_opened]
      · split at hs
        · rename_i h
          have hnew := (congrArg (fun r => r.1.opened) h).symm.trans linkNew_opened
          dsimp only at hs
          rw [← (Prod.mk.inj (Except.ok.inj hs)).1, iput_opened]
          split
          · exact hnew
          · exact hnew
        · rename_i h
          have hnew := (congrArg (fun r => r.1.opened) h).symm.trans linkNew_opened
          rw [← (Prod.mk.inj (Except.ok.inj hs)).1, iput_opened, iput_opened]
          exact hnew

theorem sysLink_opened {old new : Str} {room r : Bool}
    (hs : sysLink w cwd old new room = .ok (w', r)) : w'.opened = w.opened := by
  unfold sysLink at hs
  split at hs
  · rw [← (Prod.mk.inj (Except.ok.inj hs)).1]
  · split at hs
    · exact absurd hs nofun
    · split at hs
      · rw [← (Prod.mk.inj (Except.ok.inj hs)).1, iput_opened]
      · dsimp only at hs
        split at hs
        · rw [← (Prod.mk.inj (Except.ok.inj hs)).1, iput_opened]
          rfl
        · split at hs
          · rename_i h
            have hnew := (congrArg (fun r => r.1.opened) h).symm.trans dirlink_opened
            rw [← (Prod.mk.inj (Except.ok.inj hs)).1, iput_opened, iput_opened]
            exact hnew
          · rename_i h
            have hnew := (congrArg (fun r => r.1.opened) h).symm.trans dirlink_opened
            rw [← (Prod.mk.inj (Except.ok.inj hs)).1, iput_opened, setNlink_opened, iput_opened]
            exact hnew

theorem sysUnlink_opened {path : Str} {r : Bool} (hs : sysUnlink w cwd path = .ok (w', r)) :
    w'.opened = w.opened := by
  unfold sysUnlink at hs
  split at hs
  · rw [← (Prod.mk.inj (Except.ok.inj hs)).1]
  · split at hs
    · rw [← (Prod.mk.inj (Except.ok.inj hs)).1, iput_opened]
    · split at hs
      · rw [← (Prod.mk.inj (Except.ok.inj hs)).1, iput_opened]
      · split at hs
        · exact absurd hs nofun
        · split at hs
          · exact absurd hs nofun
          · split at hs
            · rw [← (Prod.mk.inj (Except.ok.inj hs)).1, iput_opened, iput_opened]
            · dsimp only at hs
              rw [← (Prod.mk.inj (Except.ok.inj hs)).1, iput_opened, setNlink_opened, iput_opened]
              split
              · rfl
              · rfl

theorem settle_opened {keep : Bool} {r : Option Nat} (i : Nat) :
    w.opened i ≤ (settle keep (w, r)).opened i := by
  cases r with
  | none => exact Nat.le_refl _
  | some ip =>
    unfold settle
    cases keep with
    | true =>
      show w.opened i ≤ (w.keep ip).opened i
      rw [keep_opened]
      exact Nat.le_add_right _ _
    | false =>
      show w.opened i ≤ (w.iput ip).opened i
      rw [iput_opened]

theorem call_opened {c : Call} (hs : call n w c = .ok w') (hc : c ≠ .close i) :
    w.opened i ≤ w'.opened i := by
  unfold call at hs
  cases c with
  | create cwd path type room keep =>
    dsimp only at hs
    split at hs
    · exact absurd hs nofun
    · obtain ⟨⟨v, r⟩, hr, rfl⟩ := ok_of_map hs
      rw [← create_opened hr]
      exact settle_opened i
  | link cwd old new room =>
    obtain ⟨⟨v, r⟩, hr, rfl⟩ := ok_of_map hs
    rw [← sysLink_opened hr]
  | unlink cwd path =>
    obtain ⟨⟨v, r⟩, hr, rfl⟩ := ok_of_map hs
    rw [← sysUnlink_opened hr]
  | openFile cwd path keep =>
    dsimp only at hs
    unfold sysOpen at hs
    split at hs
    · rw [← Except.ok.inj hs]
      exact settle_opened i
    · split at hs
      · exact absurd hs nofun
      · rw [← Except.ok.inj hs]
        exact settle_opened i
  | close j =>
    dsimp only at hs
    split at hs
    · exact absurd hs nofun
    · have hij : i ≠ j := fun hij => hc (hij ▸ rfl)
      rw [← Except.ok.inj hs, iput_opened]
      dsimp only
      rw [Function.update_of_ne hij]

/-! ## processes -/

theorem Sound.cwd_type (h : Sound n s) (hp : s.cwd p = some cwd) :
    (s.world.disk cwd).type ≠ .free := by
  refine h.linked.held cwd fun ho => ?_
  have hle := h.ref cwd
  rw [ho] at hle
  exact refs_eq_zero_iff.mp (Nat.le_zero.mp hle) p hp

theorem Sound.call {c : Call} (h : Sound n s) (hc : Rooted n s.world c)
    (hs : sysCall n s cwd c = .ok t) : Sound n t := by
  unfold sysCall at hs
  split at hs
  · rename_i hmade
    obtain ⟨w, hr, rfl⟩ := ok_of_map hs
    refine ⟨h.linked.call hc hr, fun i => ?_⟩
    by_cases hi : c = .close i
    · -- an open file is closed
      subst hi
      have hlt : refs s.cwd i < s.world.opened i := hmade
      have ho : w = s.world.drop i := by
        unfold Nlink.call at hr
        dsimp only at hr
        rw [if_neg (Nat.ne_of_gt (Nat.zero_lt_of_lt hlt))] at hr
        exact (Except.ok.inj hr).symm
      dsimp only
      rw [ho, drop_opened, if_pos rfl]
      omega
    · exact (h.ref i).trans (call_opened hr hi)
  · exact absurd hs nofun

theorem Sound.chdir {path : Str} (h : Sound n s) (hp : s.cwd p = some cwd)
    (hs : sysChdir s p cwd path = .ok t) : Sound n t := by
  unfold sysChdir at hs
  split at hs
  · exact absurd hs nofun
  · split at hs
    · obtain rfl := Except.ok.inj hs
      exact h
    · rename_i ip _ _
      split at hs
      · exact absurd hs nofun
      · rename_i hfree
        split at hs
        · rw [h.linked.iput_eq hfree] at hs
          obtain rfl := Except.ok.inj hs
          exact h
        · obtain rfl := Except.ok.inj hs
          refine ⟨(h.linked.keep hfree).drop cwd, fun i => ?_⟩
          have hleft : Function.update s.cwd p none p = none := Function.update_self ..
          have hdrop := refs_drop (a := i) hp
          have hadd := refs_add (a := i) hleft ip
          rw [Function.update_idem] at hadd
          have hle := h.ref i
          dsimp only
          rw [drop_opened, keep_opened, hadd]
          omega

theorem Sound.fork {np : Fin nproc} (h : Sound n s) (hp : s.cwd p = some cwd)
    (hs : fork s cwd np = .ok t) : Sound n t := by
  unfold Nlink.fork at hs
  split at hs
  · rename_i hnp
    obtain rfl := Except.ok.inj hs
    refine ⟨h.linked.keep (h.cwd_type hp), fun i => ?_⟩
    dsimp only
    rw [keep_opened, refs_add hnp cwd]
    exact Nat.add_le_add_right (h.ref i) _
  · exact absurd hs nofun

theorem Sound.exit (h : Sound n s) (hp : s.cwd p = some cwd) (hs : exit s p cwd = .ok t) :
    Sound n t := by
  unfold Nlink.exit at hs
  split at hs
  · exact absurd hs nofun
  · obtain rfl := Except.ok.inj hs
    refine ⟨h.linked.drop cwd, fun i => ?_⟩
    have hdrop := refs_drop (a := i) hp
    have hle := h.ref i
    dsimp only
    rw [drop_opened]
    omega

theorem Sound.step (h : Sound n s) (ha : a.Rooted n s) (hs : SysStep n s (p, a) t) :
    Sound n t := by
  unfold SysStep act at hs
  dsimp only at hs
  split at hs
  · exact absurd hs nofun
  · rename_i cwd hp
    cases a with
    | call c => exact h.call ha hs
    | chdir path => exact h.chdir hp hs
    | fork np => exact h.fork hp hs
    | exit => exact h.exit hp hs

/-- what has no link is a current directory or an open file -/
theorem Sound.inUse (h : Sound n s) (ht : (s.world.disk i).type ≠ .free)
    (hz : (s.world.disk i).nlink = 0) : s.InUse i := by
  by_cases hp : ∃ p, s.cwd p = some i
  · exact Or.inl hp
  · have hdir : refs s.cwd i = 0 := refs_eq_zero_iff.mpr fun p hpi => hp ⟨p, hpi⟩
    refine Or.inr ?_
    rw [hdir]
    exact Nat.pos_of_ne_zero (h.linked.idle i ht hz)

end

/-- the first process, in the root directory -/
def boot : Sys where
  world := ⟨fresh.disk, fun i => if i = rootIno then 1 else 0⟩
  cwd := fun p => if p = initproc then some rootIno else none

theorem boot_sound : Sound 200 boot := by
  have hdisk : ∀ i, i ≠ 1 → boot.world.disk i = ⟨.free, 0, []⟩ :=
    fun i hi => Function.update_of_ne hi ..
  have hrest : ∀ d, (boot.world.disk d).rest = [] := by
    intro d
    by_cases hd : d = 1
    · rw [hd]
      rfl
    · rw [hdisk d hd]
      rfl
  have hnamed : ∀ i, named 200 boot.world.disk i = 0 := by
    intro i
    unfold named tally
    refine Finset.sum_eq_zero fun d _ => ?_
    dsimp only
    rw [hrest d]
    rfl
  refine ⟨⟨⟨rfl, fun i => ?_, fun i _ => ?_, fun _ => 0, fun d e he => ?_⟩, fun i ho => ?_,
    fun i ht hz => ?_⟩, fun i => ?_⟩
  · by_cases hi : i = 1
    · subst hi
      exact ⟨fun _ => by decide, fun hno => absurd rfl hno, nofun,
        fun _ => ⟨1, [], by decide, rfl⟩, by decide⟩
    · rw [hdisk i hi]
      exact ⟨fun hno => absurd rfl hno, fun _ => rfl, fun _ => rfl, nofun, Nat.zero_le _⟩
  · rw [hnamed]
    by_cases hi : i = 1
    · subst hi
      exact .of_dir rfl ⟨rfl, Nat.zero_le _, fun _ => rfl, fun _ hno => absurd rfl hno⟩
    · rw [hdisk i hi]
      exact .of_free rfl rfl
  · rw [hrest d] at he
    exact absurd he List.not_mem_nil
  · by_cases hi : i = 1
    · subst hi
      nofun
    · exact absurd (if_neg hi) ho
  · by_cases hi : i = 1
    · subst hi
      exact absurd hz (by decide : (1 : Int16) ≠ 0)
    · rw [hdisk i hi] at ht
      exact absurd rfl ht
  · have hadd := refs_add (m := fun _ : Fin nproc => none) (i := initproc) (a := i) rfl rootIno
    have hcwd : boot.cwd = Function.update (fun _ => none) initproc (some rootIno) := by
      funext p
      unfold boot
      dsimp only
      by_cases hp : p = initproc
      · rw [if_pos hp, hp, Function.update_self]
      · rw [if_neg hp, Function.update_of_ne hp]
    rw [hcwd, hadd, refs_empty, Nat.zero_add]
    exact Nat.le_refl _

theorem Reached.eq_root {D : Disk} {i : Nat} (h : Reached D i)
    (hroot : ∀ e ∈ (D rootIno).entries, e.inum = 0 ∨ e.inum = rootIno) : i = rootIno := by
  induction h with
  | refl => rfl
  | tail _ hstep ih =>
    obtain ⟨h0, e, he, rfl⟩ := hstep
    rw [ih] at he
    exact (hroot e he).resolve_left h0

end Nlink
