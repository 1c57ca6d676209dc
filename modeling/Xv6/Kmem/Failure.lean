import Mathlib.Data.UInt
import Xv6.Kmem.Accounts

/-!
# A call that fails gives back what it took

One lemma for each call; then runs, with any calls of any processes in any order.
-/

namespace Kmem
open Lib Vm

/-- `getcwd` has taken a page, and cannot copy the name out -/
def Leaks (k : State) (p : Fin Vm.nproc) : Call → Prop
  | .getcwd ubuf sz cwd => sz.toInt ≤ pgsize ∧ returns cwd sz = true ∧
      ∃ pt buf, (k.vm.proc p).pagetable = some pt ∧ k.vm.free.head? = some buf ∧
        buf + copied pt ubuf.toNat (length sz) ≤ phystop ∧
        copyout pt ubuf.toNat (length sz) = false
  | _ => False

/-- if the call returns -1, the free pages are those of before -/
def Kept (kend trampoline : Nat) (k : State) (p : Fin Vm.nproc) (c : Call) : Prop :=
  ∀ k', call kend trampoline k p c = some (k', false) → ∀ pa, pa ∈ k'.vm.free ↔ pa ∈ k.vm.free

section
variable {kend trampoline : Nat} {A : Multiset Nat} {k k' : State} {p : Fin Vm.nproc}
  {free : List Nat} {s s' : Vm.Sys} {ok : Bool} {c : Call}

theorem Inv.vm_le {A' L : Multiset Nat} (e : A' + inUse k.files + L = A) (hr : Ram kend A) :
    Ram kend A' := hr.mono (le_of_add ((add_assoc ..).symm.trans e))

/-! ## `fork`, `exec` -/

theorem fork_spec (h : Inv trampoline A k) (hr : Ram kend A) (hp : (k.vm.proc p).state = .live) :
    ∃ k' ok, fork kend trampoline k p = some (k', ok) ∧ Inv trampoline A k' ∧
      (ok = false → (k'.vm.free : Multiset Nat) = k.vm.free) := by
  obtain ⟨A', L, hvm, e⟩ := h.pages
  obtain ⟨vm, ok, hf, hvm', hfail, hok⟩ :=
    Vm.fork_spec hvm (Inv.vm_le e hr) (p := p) (by rw [hp]; nofun)
  obtain ⟨w, r, hw, hfiles⟩ := Ftable.sysFork_spec h.files ((h.agree p).running.mpr hp) ok
  obtain ⟨ha, hfr, hs0, hs1⟩ := Ftable.sysFork_logs hw
  have huse : inUse w = inUse k.files := by
    unfold inUse
    rw [ha, hfr]
  refine ⟨⟨vm, w⟩, ok, ?_, ⟨fun q => ?_, hfiles, A', L, hvm', by rw [huse]; exact e⟩,
    fun hb => (hfail hb).free⟩
  · unfold fork
    rw [hf]
    dsimp only
    rw [hw]
    rfl
  · cases ok with
    | false =>
      show Agree (w.state q) (vm.proc q).state
      rw [hs0 rfl, (hfail rfl).state q]
      exact h.agree q
    | true =>
      -- both tables have the same first free entry
      obtain ⟨np, hnp, hst⟩ := hok rfl
      have hsame : (fun q => decide (k.files.state q = .unused)) =
          fun q => decide ((k.vm.proc q).state = .unused) := by
        funext q
        exact decide_eq_decide.mpr (h.agree q).unused
      show Agree (w.state q) (vm.proc q).state
      rw [hs1 np rfl (by rw [hsame]; exact hnp)]
      exact Agree.update h.agree ⟨by constructor <;> nofun, by constructor <;> exact fun _ => rfl⟩ hst q

/-- the interpreters of scripts change only what is executed -/
theorem exec_spec {A : Multiset Nat} (h : Vm.Inv trampoline A s) (hr : Ram kend A)
    (hp : (s.proc p).state ≠ .unused) (file : File) (argv : List (Fin pgsize)) :
    ∃ s' b, exec kend trampoline s p file argv = some (s', b) ∧ Vm.Inv trampoline A s' ∧
      (∀ q, (s'.proc q).state = (s.proc q).state) ∧
      (b = false → (s'.free : Multiset Nat) = s.free) := by
  induction file generalizing argv with
  | image img => exact Vm.exec_spec h hr hp img argv
  | script interpreter next ih => exact ih (interpreter :: argv.take 1)

theorem sysExec_spec {A : Multiset Nat} (h : Vm.Inv trampoline A s) (hr : Ram kend A)
    (hp : (s.proc p).state ≠ .unused) (path : Option File) (arg : Nat → Arg) :
    ∃ s' b, sysExec kend trampoline s p path arg = some (s', b) ∧ Vm.Inv trampoline A s' ∧
      (∀ q, (s'.proc q).state = (s.proc q).state) ∧
      (b = false → (s'.free : Multiset Nat) = s.free) := by
  cases path with
  | none => exact ⟨s, false, rfl, h, fun _ => rfl, fun _ => rfl⟩
  | some file =>
    exact args_spec (f := fun u argv => exec kend trampoline u p file argv)
      (fun _ _ argv hu hru hpu => exec_spec hu hru hpu file argv) h hr hp arg

/-! ## `pipe` -/

theorem sysPipe_spec (h : Inv trampoline A k) (hr : Ram kend A) (hnd : A.Nodup)
    (hp : (k.vm.proc p).state = .live) (fdarray : UInt64) :
    ∃ k' ok, sysPipe kend k p fdarray = some (k', ok) ∧ Inv trampoline A k' ∧
      (ok = false → (k'.vm.free : Multiset Nat) = k.vm.free) := by
  obtain ⟨A', L, hvm, e⟩ := h.pages
  obtain ⟨pt, tf, hx⟩ := (hvm.good p).used (by rw [hp]; nofun)
  have hhead : ∀ pi ∈ k.vm.free.head?, pi ∈ k.vm.free := fun pi hpi => List.mem_of_head? hpi
  obtain ⟨w, r, hw, hfiles⟩ := Ftable.sysPipe_spec h.files ((h.agree p).running.mpr hp)
    (fun pi hpi => h.fresh hnd (hhead pi hpi)) (copyout pt fdarray.toNat 4)
    (copyout pt (fdarray + 4).toNat 4)
  unfold sysPipe
  rw [hx.pagetable]
  dsimp only
  rw [hw, Option.bind_some]
  obtain ⟨hs, ⟨rfl, ha, hfr⟩ | ⟨pi, hpi, ha, hres⟩⟩ := Ftable.sysPipe_logs h.files.held.pipe.free hw
  · -- no page was taken
    have huse : inUse w = inUse k.files := by
      unfold inUse
      rw [ha, hfr]
    have hset : k.setFiles kend w = some ⟨k.vm, w⟩ := by
      unfold State.setFiles settle
      rw [ha, hfr, Nat.sub_self, Nat.sub_self]
      rfl
    dsimp only
    rw [hset]
    refine ⟨_, _, rfl, ⟨fun q => ?_, hfiles, A', L, hvm, by rw [huse]; exact e⟩, fun _ => rfl⟩
    rw [hs]
    exact h.agree q
  · obtain ⟨rest, hfree⟩ : ∃ rest, k.vm.free = pi :: rest := List.head?_eq_some_iff.mp hpi
    have hmanaged : Managed kend pi := hr.managed pi
      (Multiset.mem_of_le ((Multiset.le_add_right _ _).trans h.le) (hhead pi hpi))
    obtain ⟨rfl, hfr⟩ | ⟨rfl, hfr⟩ := hres
    · -- the page is given back
      have huse : inUse w = inUse k.files := by
        unfold inUse
        rw [ha, hfr, ← Multiset.cons_coe, ← Multiset.cons_coe, Multiset.sub_cons,
          Multiset.erase_cons_head]
      have hset : k.setFiles kend w = some ⟨k.vm, w⟩ := by
        unfold State.setFiles settle
        rw [ha, hfr, List.length_cons, List.length_cons, Nat.add_sub_cancel_left,
          Nat.add_sub_cancel_left, hfree]
        rw [List.take_succ_cons, List.take_zero, List.reverse_singleton, List.drop_one,
          List.tail_cons, List.foldlM_cons, kfree_eq hmanaged, ← hfree]
        rfl
      dsimp only
      rw [hset]
      refine ⟨_, _, rfl, ⟨fun q => ?_, hfiles, A', L, hvm, by rw [huse]; exact e⟩, fun _ => rfl⟩
      rw [hs]
      exact h.agree q
    · -- the page is a pipe now
      have hset : k.setFiles kend w = some ⟨{ k.vm with free := rest }, w⟩ := by
        unfold State.setFiles settle
        rw [ha, hfr, List.length_cons, Nat.add_sub_cancel_left, Nat.sub_self, hfree]
        rfl
      have huse := inUse_take h.files.held.pipe hfiles.held.pipe ha hfr
      obtain ⟨A'', hA, hvm'⟩ := hvm.move (R := {pi}) (T := 0)
        (show (rest : Multiset Nat) + {pi} = k.vm.free + 0 by
          rw [hfree, add_zero, ← Multiset.cons_coe, ← Multiset.singleton_add, add_comm])
      rw [add_zero] at hA
      dsimp only
      rw [hset]
      refine ⟨_, _, rfl, ⟨fun q => ?_, hfiles, A'', L, hvm', ?_⟩, nofun⟩
      · rw [hs]
        exact h.agree q
      · rw [huse, ← add_assoc, hA]
        exact e

/-! ## `getcwd` -/

theorem Inv.setFree (h : Inv trampoline A k) {R : Multiset Nat}
    (hfree : (free : Multiset Nat) + R = k.vm.free) :
    Inv trampoline A ⟨{ k.vm with free := free }, k.files⟩ := by
  obtain ⟨A', L, hvm, e⟩ := h.pages
  obtain ⟨A'', hA, hvm'⟩ := hvm.move (T := 0) (hfree.trans (add_zero _).symm)
  rw [add_zero] at hA
  refine ⟨h.agree, h.files, A'', R + L, hvm', ?_⟩
  rw [← e, ← hA]
  show A'' + inUse k.files + (R + L) = _
  abel

/-- `getcwd` loses its page, or the free list is as it was -/
theorem sysGetcwd_spec (h : Inv trampoline A k) (hr : Ram kend A) {ubuf : UInt64} {sz : Int32}
    {cwd : Cwd} (e : sysGetcwd kend k p ubuf sz cwd = some (k', ok)) :
    Inv trampoline A k' ∧ (¬ Leaks k p (.getcwd ubuf sz cwd) → k' = k) := by
  have hsame : some (k, false) = some (k', ok) →
      Inv trampoline A k' ∧ (¬ Leaks k p (.getcwd ubuf sz cwd) → k' = k) := by
    intro e
    obtain ⟨rfl, -⟩ := Prod.mk.inj (Option.some.inj e)
    exact ⟨h, fun _ => rfl⟩
  unfold sysGetcwd at e
  split at e
  · exact hsame e
  next hsz =>
  split at e
  · exact absurd e nofun
  · split at e
    · exact hsame e
    · exact absurd e nofun
  next pt buf free hpt hbuf =>
  have hfree : k.vm.free = buf :: free := by
    unfold kalloc at hbuf
    split at hbuf
    · exact absurd hbuf nofun
    · next hcons =>
      obtain ⟨rfl, rfl⟩ := Prod.mk.inj (Option.some.inj hbuf)
      exact hcons
  split at e
  · exact absurd e nofun
  next hret =>
  split at e
  · exact absurd e nofun
  next hread =>
  split at e
  · next hcopy =>
    have hmanaged : Managed kend buf := by
      refine hr.managed buf (Multiset.mem_of_le ((Multiset.le_add_right _ _).trans h.le) ?_)
      rw [hfree]
      exact Multiset.mem_coe.mpr List.mem_cons_self
    rw [kfree_eq hmanaged, ← hfree] at e
    obtain ⟨rfl, -⟩ := Prod.mk.inj (Option.some.inj e)
    exact ⟨h, fun _ => rfl⟩
  · next hcopy =>
    obtain ⟨rfl, -⟩ := Prod.mk.inj (Option.some.inj e)
    refine ⟨h.setFree (R := {buf}) ?_, fun hno => absurd ?_ hno⟩
    · rw [hfree, ← Multiset.cons_coe, ← Multiset.singleton_add, add_comm]
    · refine ⟨not_lt.mp hsz, by simpa using hret, pt, buf, hpt, by rw [hfree]; rfl,
        not_lt.mp hread, by simpa using hcopy⟩

theorem sysGetcwd_leaks (kend : Nat) {ubuf : UInt64} {sz : Int32} {cwd : Cwd}
    (hl : Leaks k p (.getcwd ubuf sz cwd)) : ∃ buf free, k.vm.free = buf :: free ∧
      sysGetcwd kend k p ubuf sz cwd = some (⟨{ k.vm with free := free }, k.files⟩, false) := by
  obtain ⟨hsz, hret, pt, buf, hpt, hbuf, hread, hcopy⟩ := hl
  obtain ⟨free, hfree⟩ : ∃ free, k.vm.free = buf :: free := List.head?_eq_some_iff.mp hbuf
  refine ⟨buf, free, hfree, ?_⟩
  unfold sysGetcwd
  rw [if_neg (not_lt.mpr hsz), hpt, hfree]
  dsimp only [kalloc_cons]
  rw [hret, if_neg nofun, if_neg (not_lt.mpr hread), hcopy, if_neg nofun]

/-! ## runs -/

theorem call_spec (h : Inv trampoline A k) (hr : Ram kend A) (hnd : A.Nodup)
    (hp : (k.vm.proc p).state = .live) (e : call kend trampoline k p c = some (k', ok)) :
    Inv trampoline A k' ∧
      (ok = false → ¬ Leaks k p c → (k'.vm.free : Multiset Nat) = k.vm.free) := by
  cases c with
  | fork =>
    obtain ⟨u, b, he, hu, hfree⟩ := fork_spec h hr hp
    obtain ⟨rfl, rfl⟩ := Prod.mk.inj (Option.some.inj (he.symm.trans e))
    exact ⟨hu, fun hb _ => hfree hb⟩
  | exec path arg =>
    obtain ⟨A', L, hvm, hA⟩ := h.pages
    obtain ⟨s', b, he, hvm', hstate, hfree⟩ :=
      sysExec_spec hvm (Inv.vm_le hA hr) (p := p) (by rw [hp]; nofun) path arg
    unfold call at e
    dsimp only at e
    rw [he] at e
    obtain ⟨rfl, rfl⟩ := Prod.mk.inj (Option.some.inj e)
    refine ⟨⟨fun q => ?_, h.files, A', L, hvm', hA⟩, fun hb _ => hfree hb⟩
    rw [hstate q]
    exact h.agree q
  | pipe fdarray =>
    obtain ⟨u, b, he, hu, hfree⟩ := sysPipe_spec h hr hnd hp fdarray
    obtain ⟨rfl, rfl⟩ := Prod.mk.inj (Option.some.inj (he.symm.trans e))
    exact ⟨hu, fun hb _ => hfree hb⟩
  | getcwd ubuf sz cwd =>
    obtain ⟨hk, hfree⟩ := sysGetcwd_spec h hr e
    exact ⟨hk, fun _ hno => by rw [hfree hno]⟩

theorem Inv.setFiles {w : Ftable.World} (h : Inv trampoline A k) (hr : Ram kend A)
    (hw : Ftable.Inv w) (hq : Ftable.Quiet k.files w) (e : k.setFiles kend w = some k') :
    Inv trampoline A k' := by
  obtain ⟨l, hl⟩ := hq.frees
  obtain ⟨free, he, hpages⟩ := h.settle hr hw hq.allocs hl
  obtain rfl := Option.some.inj (he.symm.trans e)
  refine ⟨fun q => ?_, hw, hpages⟩
  rw [hq.state]
  exact h.agree q

theorem Inv.exit (h : Inv trampoline A k) (hr : Ram kend A) (hp : (k.vm.proc p).state = .live)
    (e : exit kend k p = some k') : Inv trampoline A k' := by
  unfold Kmem.exit at e
  obtain ⟨w, hw, e⟩ := Option.bind_eq_some_iff.mp e
  obtain ⟨k₁, hk₁, e⟩ := Option.bind_eq_some_iff.mp e
  obtain ⟨vm, hvm, rfl⟩ := Option.map_eq_some_iff.mp e
  have hinit : p ≠ Ftable.initproc := by
    rintro rfl
    exact absurd hw nofun
  obtain ⟨w', hw', hfiles⟩ := Ftable.sysExit_spec h.files hinit
  obtain rfl := Option.some.inj (hw'.symm.trans hw)
  obtain ⟨ha, ⟨l, hl⟩, hstate⟩ := Ftable.sysExit_logs hw
  obtain ⟨free, he, A', L, hinv, hA⟩ := h.settle hr hfiles ha hl
  obtain rfl := Option.some.inj (he.symm.trans hk₁)
  refine ⟨fun q => ?_, hfiles, A', L, hinv.exit (p := p) ?_ hvm, hA⟩
  · show Agree (w'.state q) (vm.proc q).state
    rw [hstate]
    exact Agree.update h.agree ⟨by constructor <;> nofun, by constructor <;> nofun⟩
      (exit_state (s := { k.vm with free := free }) hvm) q
  · show (k.vm.proc p).state ≠ .unused
    rw [hp]
    nofun

theorem Inv.wait {copy : Bool} (h : Inv trampoline A k) (hr : Ram kend A)
    (e : wait kend k p copy = some k') : Inv trampoline A k' := by
  obtain ⟨A', L, hvm, hA⟩ := h.pages
  unfold Kmem.wait at e
  obtain ⟨⟨vm, b⟩, hw, rfl⟩ := Option.map_eq_some_iff.mp e
  have hvm' := hvm.wait (Inv.vm_le hA hr) hw
  rcases wait_state hw with ⟨q, hq, rfl, hz, hstate⟩ | ⟨rfl, rfl⟩
  · dsimp only
    rw [hq]
    -- a zombie is neither unused nor running in the file table
    have hzf : k.files.state q = .zombie := by
      obtain ⟨h1, h2⟩ := h.agree q
      rw [hz] at h1 h2
      cases hf : k.files.state q with
      | unused => exact absurd (h1.mp hf) nofun
      | running => exact absurd (h2.mp hf) nofun
      | zombie => rfl
    refine ⟨fun r => ?_, Ftable.reap_inv h.files hzf, A', L, hvm', hA⟩
    exact Agree.update h.agree ⟨by constructor <;> exact fun _ => rfl, by constructor <;> nofun⟩
      hstate r
  · exact h

theorem Inv.step {e : Fin Vm.nproc × Event} (hr : Ram kend A) (hnd : A.Nodup)
    (h : Inv trampoline A k) (hstep : Step kend trampoline k e k') : Inv trampoline A k' := by
  obtain ⟨p, e⟩ := e
  unfold Step Kmem.step at hstep
  dsimp only at hstep
  by_cases hlive : (k.vm.proc p).state ≠ .live
  · rw [if_pos hlive] at hstep
    exact absurd hstep nofun
  have hp := not_not.mp hlive
  have hrun : k.files.state p = .running := (h.agree p).running.mpr hp
  rw [if_neg hlive] at hstep
  cases e with
  | call c =>
    obtain ⟨⟨u, ok⟩, hc, rfl⟩ := Option.map_eq_some_iff.mp hstep
    exact (call_spec h hr hnd hp hc).1
  | sbrk n =>
    obtain ⟨⟨s', b⟩, hg, rfl⟩ := Option.map_eq_some_iff.mp hstep
    obtain ⟨A', L, hvm, hA⟩ := h.pages
    obtain ⟨u, b', he, hvm'⟩ := growproc_spec hvm (Inv.vm_le hA hr) (p := p) (by rw [hp]; nofun) n
    obtain ⟨rfl, rfl⟩ := Prod.mk.inj (Option.some.inj (he.symm.trans hg))
    refine ⟨fun q => ?_, h.files, A', L, hvm', hA⟩
    rw [growproc_state hg q]
    exact h.agree q
  | wait copy => exact h.wait hr hstep
  | exit => exact h.exit hr hp hstep
  | dup fd =>
    obtain ⟨⟨w, r⟩, hw, e⟩ := Option.bind_eq_some_iff.mp hstep
    obtain ⟨w', r', hw', hfiles⟩ := Ftable.sysDup_spec h.files hrun fd
    obtain ⟨rfl, rfl⟩ := Prod.mk.inj (Option.some.inj (hw'.symm.trans hw))
    exact h.setFiles hr hfiles (Ftable.sysDup_quiet hw) e
  | close fd =>
    obtain ⟨⟨w, r⟩, hw, e⟩ := Option.bind_eq_some_iff.mp hstep
    obtain ⟨w', r', hw', hfiles⟩ := Ftable.sysClose_spec h.files hrun fd
    obtain ⟨rfl, rfl⟩ := Prod.mk.inj (Option.some.inj (hw'.symm.trans hw))
    exact h.setFiles hr hfiles (Ftable.sysClose_quiet hw) e
  | «open» omode node =>
    obtain ⟨⟨w, r⟩, hw, e⟩ := Option.bind_eq_some_iff.mp hstep
    obtain ⟨w', r', hw', hfiles⟩ := Ftable.sysOpen_spec h.files hrun omode node
    obtain ⟨rfl, rfl⟩ := Prod.mk.inj (Option.some.inj (hw'.symm.trans hw))
    exact h.setFiles hr hfiles (Ftable.sysOpen_quiet hw) e

theorem userinit_state (hr : Ram kend free) {s : Vm.Sys}
    (e : userinit kend trampoline free = some s) (q : Fin Vm.nproc) :
    (s.proc q).state = if q = 0 then .live else .unused := by
  have h0 : Vm.Inv trampoline free ⟨free, fun _ => Proc.absent none⟩ := by
    refine ⟨?_, fun _ => Proc.Good.absent none⟩
    rw [Finset.sum_eq_zero (fun _ _ => Proc.own_absent none)]
    exact add_zero _
  unfold userinit at e
  obtain ⟨s1, r, he, ⟨rfl, -⟩ | ⟨np, t, tf, free1, T, rfl, hfind, -, rfl, -, -⟩⟩ :=
    allocproc_spec h0 hr
  · rw [show allocproc kend trampoline ⟨free, fun _ => ⟨.unused, none, 0, none, none⟩⟩ = _ from he]
      at e
    exact absurd e nofun
  have hnp : np = 0 := (Option.some.inj hfind).symm
  rw [show allocproc kend trampoline ⟨free, fun _ => ⟨.unused, none, 0, none, none⟩⟩ = _ from he,
    hnp] at e
  simp only [put_self, put_free] at e
  split at e
  · split at e
    · obtain rfl := Option.some.inj e
      by_cases hq : q = 0
      · rw [if_pos hq, hq]
        unfold Sys.setProc
        dsimp only
        rw [Function.update_self]
      · rw [if_neg hq]
        unfold Sys.setProc Sys.put
        dsimp only
        rw [Function.update_of_ne hq, Function.update_of_ne hq]
        rfl
    · exact absurd e nofun
  · exact absurd e nofun

theorem start_inv (hr : Ram kend free) (e : start kend trampoline free = some k) :
    Inv trampoline free k := by
  unfold start at e
  obtain ⟨vm, hvm, rfl⟩ := Option.map_eq_some_iff.mp e
  refine ⟨fun q => ?_, Ftable.start_inv, free, 0, inv_userinit hr hvm, ?_⟩
  · rw [userinit_state hr hvm q]
    show Agree (if q = 0 then .running else .unused) _
    by_cases hq : q = 0
    · rw [if_pos hq, if_pos hq]
      exact ⟨by constructor <;> nofun, by constructor <;> exact fun _ => rfl⟩
    · rw [if_neg hq, if_neg hq]
      exact ⟨by constructor <;> exact fun _ => rfl, by constructor <;> nofun⟩
  · exact (add_zero _).trans (add_zero _)

/-- from the first process on, after any calls of any processes: a call of a process that fails
leaves the free list as it was, unless it is a `getcwd` that cannot copy the name out -/
theorem kept_iff {k₀ : State} {l : List (Fin Vm.nproc × Event)} (hkend : 0x80000000 ≤ kend)
    (hnd : free.Nodup) (hmem : ∀ pa ∈ free, Managed kend pa)
    (hinit : start kend trampoline free = some k₀) (hrun : Run (Step kend trampoline) k₀ l k)
    (hp : (k.vm.proc p).state = .live) :
    Kept kend trampoline k p c ↔ ¬ Leaks k p c := by
  have hr : Ram kend free := ram_of_nodup hkend hnd hmem
  have hnd' : (free : Multiset Nat).Nodup := Multiset.coe_nodup.mpr hnd
  have h : Inv trampoline free k :=
    hrun.invariant (fun _ _ _ h hstep => h.step hr hnd' hstep) (start_inv hr hinit)
  constructor
  · -- the lost page was free, and is not any more
    intro hkept hl
    cases c with
    | getcwd ubuf sz cwd =>
      obtain ⟨buf, rest, hfree, he⟩ := sysGetcwd_leaks kend hl
      have hback := (hkept _ he buf).mpr (by rw [hfree]; exact List.mem_cons_self)
      have hlist : k.vm.free.Nodup := Multiset.coe_nodup.mp
        (Multiset.nodup_of_le ((Multiset.le_add_right _ _).trans h.le) hnd')
      rw [hfree] at hlist
      exact (List.nodup_cons.mp hlist).1 hback
    | fork => exact hl
    | exec path arg => exact hl
    | pipe fdarray => exact hl
  · intro hno k' he pa
    exact (Multiset.coe_eq_coe.mp ((call_spec h hr hnd' hp he).2 rfl hno)).mem_iff

end

def pipeThenExec : List (Fin Vm.nproc × Event) :=
  [(0, .call (.pipe 8)), (0, .call (.exec (some (.image ⟨false, none, fun _ => none, fun _ _ => true⟩))
    (fun i => if i = 0 then .str (some ⟨3, three_lt_pgsize⟩) else .null)))]

theorem kept_pipeThenExec : ∃ k₀ k, start (phystop - 40 * pgsize) 0x80007000 (lastPages 40) = some k₀ ∧
    Run (Step (phystop - 40 * pgsize) 0x80007000) k₀ pipeThenExec k ∧
    (k.vm.proc 0).state = .live ∧
    Kept (phystop - 40 * pgsize) 0x80007000 k 0 (.pipe (2 ^ 40)) := by
  have hsome : ((start (phystop - 40 * pgsize) 0x80007000 (lastPages 40)).bind (fun k₀ =>
      Lib.exec (fun k e => step (phystop - 40 * pgsize) 0x80007000 k e.1 e.2) k₀
        pipeThenExec)).map (fun k => decide ((k.vm.proc 0).state = .live)) = some true := by
    decide +kernel
  obtain ⟨k, hk, hlive⟩ := Option.map_eq_some_iff.mp hsome
  obtain ⟨k₀, hinit, hexec⟩ := Option.bind_eq_some_iff.mp hk
  have hrun : Run (Step (phystop - 40 * pgsize) 0x80007000) k₀ pipeThenExec k :=
    Run.of_exec (fun _ _ _ h => h) hexec
  exact ⟨k₀, k, hinit, hrun, of_decide_eq_true hlive,
    (kept_iff (by decide) (by decide +kernel) (fun pa hpa => (mem_lastPages pa).mp hpa) hinit hrun
      (of_decide_eq_true hlive)).mpr (fun h => h)⟩

/-- a buffer that is not mapped: the page with the name is not given back -/
theorem page_is_lost : ¬ ∀ (kend trampoline : Nat) (free : List Nat) (k₀ k : State)
    (l : List (Fin Vm.nproc × Event)) (p : Fin Vm.nproc) (c : Call), 0x80000000 ≤ kend →
    free.Nodup → (∀ pa ∈ free, Managed kend pa) → start kend trampoline free = some k₀ →
    Run (Step kend trampoline) k₀ l k → (k.vm.proc p).state = .live →
    Kept kend trampoline k p c := by
  intro hall
  have hsome : ((start (phystop - 40 * pgsize) 0x80007000 (lastPages 40)).map (fun k =>
      (decide ((k.vm.proc 0).state = .live),
        (call (phystop - 40 * pgsize) 0x80007000 k 0 (.getcwd (2 ^ 40) 16 .root)).map
          (fun r => (decide (r.1.vm.free = k.vm.free.tail ∧ k.vm.free ≠ [] ∧ k.vm.free.Nodup),
            r.2))))) = some (true, some (true, false)) := by
    decide +kernel
  obtain ⟨k, hk, e⟩ := Option.map_eq_some_iff.mp hsome
  obtain ⟨hlive, e⟩ := Prod.mk.inj e
  obtain ⟨⟨k', ok⟩, hcall, e⟩ := Option.map_eq_some_iff.mp e
  obtain ⟨hfree, hok⟩ := Prod.mk.inj e
  obtain ⟨htail, hne, hnd⟩ := of_decide_eq_true hfree
  dsimp only at hok htail
  subst hok
  have hkept := hall _ _ _ k k [] 0 (.getcwd (2 ^ 40) 16 .root) (by decide) (by decide +kernel)
    (fun pa hpa => (mem_lastPages pa).mp hpa) hk (.nil k) (of_decide_eq_true hlive) k' hcall
  cases hf : k.vm.free with
  | nil => exact hne hf
  | cons buf rest =>
    rw [hf] at hnd
    have hmem := (hkept buf).mpr (by rw [hf]; exact List.mem_cons_self)
    rw [htail, hf] at hmem
    exact (List.nodup_cons.mp hnd).1 hmem

end Kmem
