import Xv6.Sched.Steps

/-!
# Runs of the scheduler

`go_fine`: no step of the code of `spinlock.c` and `proc.c` panics.  `step_fine`: neither does what
the rest of the kernel does, as long as it keeps to `Promised`.
-/

namespace Sched
open Lib
open Proc (nproc)

section
variable {C ι κ : Type} {wl lk : ι} {s t : State C ι κ} {c : C}
  {p i : Fin nproc} {ch : κ} {next : Pc ι κ} {ls : List (Lock ι)} {k : Kernel ι} {n : Nat}
  {r : Except Stop (State C ι κ)}

def Fine (wl : ι) (r : Except Stop (State C ι κ)) : Prop := ∃ t, r = .ok t ∧ Inv wl t

theorem Inv.at (h : Inv wl s) {pc : Pc ι κ} (hpc : (s.cpu c).pc = pc) :
    ∃ ls, CpuOk wl s.holder c (s.cpu c) ls ∧ Stage wl (s.cpu c).proc pc ls := by
  obtain ⟨ls, hok⟩ := h.cpu c
  exact ⟨ls, hok, hpc ▸ hok.stage⟩

variable [DecidableEq C]

theorem Inv.setIntena (h : Inv wl s) (a : Bool) :
    Inv wl (s.setCpu c { s.cpu c with intena := a }) := by
  obtain ⟨ls, hok⟩ := h.cpu c
  refine h.put Others.rfl ⟨hok.holds, hok.count, hok.quiet, hok.stage⟩
    (fun p hp => h.alone_of hp) (fun p => ?_)
  by_cases hr : Runs s c p
  · exact SlotOk.runs (fun c' hne => h.not_runs hr.1 hne) hr.1 hr.2 ((h.slot p).on c hr)
  · refine ⟨fun c' hr' => ?_, fun hno => (h.slot p).off (fun c' hr' => ?_)⟩
    · by_cases hc : c' = c
      · subst hc
        exact absurd (runs_self.mp hr') hr
      · rw [put_other hc]
        exact (h.slot p).on c' ((runs_other hc).mp hr')
    · by_cases hc : c' = c
      · subst hc
        exact hr hr'
      · exact hno c' ((runs_other hc).mpr hr')

/-! ## steps that take no lock and give none back -/

theorem yield_fine (h : Inv wl s) (hp : (s.cpu c).proc = some p)
    (hpc : (s.cpu c).pc = .yield k) :
    Fine wl (sched (s.setState p .runnable) c p (.yield k)) := by
  obtain ⟨ls, hok, q, hq, rfl⟩ := h.at hpc
  obtain rfl := Option.some.inj (hp.symm.trans hq)
  refine sched_inv h hok hp (by rw [hpc]; rfl) _ (fun a => ?_) (fun e => by cases e)
  exact fun e => by cases e

theorem doze_fine (h : Inv wl s) (hp : (s.cpu c).proc = some p) (hpc : (s.cpu c).pc = .doze ch lk) :
    Fine wl (sched (s.setSlot p { s.slot p with chan := some ch, state := .sleeping }) c p
      (.sleep lk)) := by
  obtain ⟨ls, hok, q, hq, rfl⟩ := h.at hpc
  obtain rfl := Option.some.inj (hp.symm.trans hq)
  refine sched_inv h hok hp (by rw [hpc]; rfl) _ (fun a => ?_) (fun e => by cases e)
  exact ⟨lk, a, rfl⟩

theorem dying_fine (h : Inv wl s) (hp : (s.cpu c).proc = some p) (hpc : (s.cpu c).pc = .dying) :
    Fine wl (sched s c p (fun _ => .dead)) := by
  obtain ⟨ls, hok, q, hq, rfl⟩ := h.at hpc
  obtain rfl := Option.some.inj (hp.symm.trans hq)
  have hzombie : (s.slot p).state = .zombie := by
    have hfits := (h.slot p).on c ⟨hp, by rw [hpc]; intro e; cases e⟩
    rw [hpc] at hfits
    exact hfits
  have hself : s.setSlot p (s.slot p) = s := by
    unfold State.setSlot
    rw [Function.update_eq_self]
  obtain ⟨t, ht, hinv⟩ := sched_inv h hok hp (by rw [hpc]; rfl) (fun _ => .dead)
    (y := s.slot p) (fun a => by unfold Parked; rw [show (s.slot p).state = .zombie from hzombie])
    (by rw [hzombie]; intro e; cases e)
  rw [hself] at ht
  exact ⟨t, ht, hinv⟩

theorem wake_fine (h : Inv wl s) (hpc : (s.cpu c).pc = .wake ch n next) (me : Option (Fin nproc)) :
    Fine wl (if h : n < nproc then
      if me = some ⟨n, h⟩ then .ok (s.goto c (.wake ch (n + 1) next))
      else acquire s c (.proc ⟨n, h⟩) (.waking ch ⟨n, h⟩ next)
    else .ok (s.goto c next)) := by
  obtain ⟨ls, hok, hnext, hls, hno, hst⟩ := h.at hpc
  have hplain : (s.cpu c).pc.plain = true := by
    rw [hpc]
    rfl
  have hcount := hok.count
  rw [hpc] at hcount
  split
  · split
    · refine ⟨_, rfl, h.move Others.rfl
        (show CpuOk wl s.holder c _ ls from ⟨hok.holds, hcount, hok.quiet, ?_⟩) rfl
        (.inl hplain) rfl⟩
      exact ⟨hnext, hls, hno, hst⟩
    · exact acquire_inv h hok ⟨by rw [hpc]; rfl, hplain⟩ (hno _)
        rfl ⟨hnext, ls, rfl, hls, hno, hst⟩
  · refine ⟨_, rfl, h.move Others.rfl
      (show CpuOk wl s.holder c _ ls from ⟨hok.holds, ?_, hok.quiet, hst⟩) rfl
      (.inl hplain) (Pc.free_steady hnext).2⟩
    show (s.cpu c).noff = ls.length + next.pending
    rw [(Pc.free_steady hnext).1]
    exact hcount

theorem idle_fine (h : Inv wl s) (hpc : (s.cpu c).pc = .idle n) :
    Fine wl (if h : n < nproc then acquire s c (.proc ⟨n, h⟩) (.look ⟨n, h⟩)
      else .ok (s.setCpu c { s.cpu c with intr := true, pc := .idle 0 })) := by
  obtain ⟨ls, hok, hme, rfl⟩ := h.at hpc
  have hcount := hok.count
  rw [hpc] at hcount
  split
  · exact acquire_inv h hok (by rw [hpc]; exact ⟨rfl, rfl⟩) List.not_mem_nil
      rfl ⟨hme, rfl⟩
  · refine ⟨_, rfl, h.move Others.rfl
      (show CpuOk wl s.holder c _ [] from ⟨hok.holds, hcount, fun hn => ?_, hme, rfl⟩) rfl
      (.inl (by rw [hpc]; rfl)) rfl⟩
    exact absurd hcount hn

/-! ## locks -/

theorem again_fine (h : Inv wl s) (hpc : (s.cpu c).pc = .again lk) :
    Fine wl (acquire s c (.other lk) (.code .call)) := by
  obtain ⟨ls, hok, hme, rfl⟩ := h.at hpc
  exact acquire_inv h hok (by rw [hpc]; exact ⟨rfl, rfl⟩) List.not_mem_nil rfl hme

variable [DecidableEq ι]

theorem sleep_fine (h : Inv wl s) (hpc : (s.cpu c).pc = .sleep ch lk) :
    Fine wl (release s c (.other lk) (.doze ch lk)) := by
  obtain ⟨ls, hok, q, hq, rfl⟩ := h.at hpc
  have herase : [Lock.proc q, .other lk].erase (.other lk) = [.proc q] := by
    rw [List.erase_cons_tail (by simp), List.erase_cons_head]
  have hst : Stage wl (s.cpu c).proc (.doze ch lk)
      ([Lock.proc q, .other lk].erase (.other lk)) := by
    rw [herase]
    exact ⟨q, hq, rfl⟩
  obtain ⟨t, ht, hinv, -⟩ := release_inv h hok (by rw [hpc]; rfl) (.inl (by rw [hpc]; rfl))
    (List.mem_cons_of_mem _ List.mem_cons_self) ⟨rfl, rfl⟩ hst
  exact ⟨t, ht, hinv⟩

theorem exit_fine (h : Inv wl s) (hp : (s.cpu c).proc = some p) (hpc : (s.cpu c).pc = .exit) :
    Fine wl (release (s.setState p .zombie) c (.other wl) .dying) := by
  obtain ⟨ls, hok, q, hq, rfl⟩ := h.at hpc
  obtain rfl := Option.some.inj (hp.symm.trans hq)
  have herase : [Lock.proc p, .other wl].erase (.other wl) = [.proc p] := by
    rw [List.erase_cons_tail (by simp), List.erase_cons_head]
  have hmem : Lock.other wl ∈ [Lock.proc p, .other wl] :=
    List.mem_cons_of_mem _ List.mem_cons_self
  have hst : Stage wl (s.cpu c).proc (.dying : Pc ι κ)
      ([Lock.proc p, .other wl].erase (.other wl)) := by
    rw [herase]
    exact ⟨p, hq, rfl⟩
  obtain ⟨n, b, hpop, hok'⟩ := hok.release hmem (by rw [hpc]; rfl) rfl hst
  have hheld := hok.holds.mem.mp hmem
  have hpop' : popOff (s.cpu c) = .ok { s.cpu c with noff := n, intr := b } := hpop
  unfold release
  rw [if_pos (show (s.setState p .zombie).holder (.other wl) = some c from hheld)]
  change Fine wl (Except.map _ (popOff (s.cpu c)))
  rw [hpop']
  refine ⟨_, rfl, h.put (others_drop hheld) hok' (fun q hq => h.alone_of hq) (fun q => ?_)⟩
  by_cases hqp : q = p
  · subst hqp
    refine SlotOk.runs (fun c' hne => h.not_runs hp hne) hp (fun e => by cases e) ?_
    show (Function.update s.slot q _ q).state = .zombie
    rw [Function.update_self]
  · refine (h.slot q).put ?_ ?_ (Function.update_of_ne hqp ..)
    · exact fun e => hqp (Option.some.inj (e.symm.trans hp))
    · exact fun e => hqp (Option.some.inj (e.symm.trans hp))

theorem wake_up (h : Inv wl s) (hp : (s.cpu c).proc = some p) (hpc : (s.cpu c).pc = .resume)
    (a : Bool) (hnext : next.Steady) (hst : Stage wl (some p) next []) :
    Fine wl (release (s.setCpu c { s.cpu c with intena := a }) c (.proc p) next) := by
  have hcpu : (s.setCpu c { s.cpu c with intena := a }).cpu c = { s.cpu c with intena := a } :=
    Function.update_self ..
  obtain ⟨ls, hok, q, hq, rfl⟩ := h.at hpc
  obtain rfl := Option.some.inj (hp.symm.trans hq)
  have hok' : CpuOk wl (s.setCpu c { s.cpu c with intena := a }).holder c
      ((s.setCpu c { s.cpu c with intena := a }).cpu c) [.proc p] := by
    rw [hcpu]
    exact ⟨hok.holds, hok.count, hok.quiet, hok.stage⟩
  have hpc' : ((s.setCpu c { s.cpu c with intena := a }).cpu c).pc = .resume := by
    rw [hcpu]
    exact hpc
  have hp' : ((s.setCpu c { s.cpu c with intena := a }).cpu c).proc = some p := by
    rw [hcpu]
    exact hp
  obtain ⟨t, ht, hinv, -⟩ := release_inv (h.setIntena a) hok' (by rw [hpc']; rfl) (.inr hpc')
    List.mem_cons_self hnext (by
      rw [hp', List.erase_cons_head]
      exact hst)
  exact ⟨t, ht, hinv⟩

theorem resume_fine (h : Inv wl s) (hp : (s.cpu c).proc = some p) (hpc : (s.cpu c).pc = .resume) :
    Fine wl (resume s c p) := by
  have hrun : Runs s c p := ⟨hp, by rw [hpc]; intro e; cases e⟩
  have hfits := (h.slot p).on c hrun
  rw [hpc] at hfits
  unfold resume
  cases hctx : (s.slot p).context with
  | forkret =>
    have hfine := wake_up h hp hpc (s.cpu c).intena
      (show Pc.Steady (.code .call) from ⟨rfl, rfl⟩) (Option.some_ne_none p)
    have hself : s.setCpu c { s.cpu c with intena := (s.cpu c).intena } = s := by
      unfold State.setCpu
      rw [show ({ s.cpu c with intena := (s.cpu c).intena } : Cpu ι κ) = s.cpu c from rfl,
        Function.update_eq_self]
    rw [hself] at hfine
    exact hfine
  | yield k a => exact wake_up h hp hpc a ⟨rfl, rfl⟩ (Option.some_ne_none p)
  | sleep lk a =>
    have h' : Inv wl (s.setSlot p { s.slot p with chan := none }) := h.setFields hrun rfl rfl
    exact wake_up h' hp hpc a ⟨rfl, rfl⟩ ⟨Option.some_ne_none p, rfl⟩
  | dead => exact absurd hctx hfits.2

theorem waking_fine (h : Inv wl s) (hpc : (s.cpu c).pc = .waking ch i next)
    (hs : t = s ∨ (s.slot i).state = .sleeping ∧ t = s.setState i .runnable) :
    Fine wl (release t c (.proc i) (.wake ch (i + 1) next)) := by
  obtain ⟨ls, hok, hnext, l, rfl, hl, hno, hst⟩ := h.at hpc
  have ht : Inv wl t ∧ t.cpu = s.cpu ∧ t.holder = s.holder := by
    obtain rfl | ⟨hsleep, rfl⟩ := hs
    · exact ⟨h, rfl, rfl⟩
    · have hnone := h.locked (hok.holds.mem.mp List.mem_cons_self)
        (by rw [hsleep]; intro e; cases e) (by rw [hpc]; intro e; cases e)
      have hparked := (h.slot i).off hnone
      unfold Parked at hparked
      rw [hsleep] at hparked
      obtain ⟨lk, a, hctx⟩ := hparked
      refine ⟨h.setSlot hnone ?_, rfl, rfl⟩
      show (s.slot i).context ≠ .dead
      rw [hctx]
      intro e
      cases e
  obtain ⟨hinv, hcpu, hholder⟩ := ht
  rw [← hcpu, ← hholder] at hok
  rw [← hcpu] at hpc hst
  obtain ⟨u, hu, huinv, -⟩ := release_inv hinv hok (by rw [hpc]; rfl) (.inl (by rw [hpc]; rfl))
    (List.mem_cons_self : Lock.proc i ∈ _)
    (show Pc.Steady (.wake ch (i + 1) next) from ⟨rfl, rfl⟩) (by
      rw [List.erase_cons_head]
      exact ⟨hnext, hl, hno, hst⟩)
  exact ⟨u, hu, huinv⟩

theorem look_fine (h : Inv wl s) (hpc : (s.cpu c).pc = .look i) :
    Fine wl (if (s.slot i).state = .runnable then
      .ok ((s.setState i .running).setCpu c { s.cpu c with proc := some i, pc := .resume })
    else release s c (.proc i) (.idle (i + 1))) := by
  obtain ⟨ls, hok, hme, rfl⟩ := h.at hpc
  have hheld := hok.holds.mem.mp List.mem_cons_self
  have hcount := hok.count
  rw [hpc] at hcount
  split
  · rename_i hrun
    have hfree := h.free hheld (by rw [hrun]; intro e; cases e)
      (by rw [hme]; exact (Option.some_ne_none i).symm)
    have hparked := (h.slot i).off (fun c' hr => hfree c' hr.1)
    unfold Parked at hparked
    rw [hrun] at hparked
    refine ⟨_, rfl, h.put Others.rfl
      (show CpuOk wl s.holder c _ [.proc i] from ⟨hok.holds, hcount, hok.quiet, i, rfl, rfl⟩)
      (fun q hq c' _ => ?_) (fun q => ?_)⟩
    · obtain rfl := Option.some.inj hq
      exact hfree c'
    · by_cases hq : q = i
      · subst hq
        refine SlotOk.runs (fun c' _ hr => hfree c' hr.1) rfl (fun e => by cases e) ?_
        show Fits .resume (Function.update s.slot q _ q)
        rw [Function.update_self]
        exact ⟨rfl, hparked⟩
      · refine (h.slot q).put ?_ (fun e => hq (Option.some.inj e).symm)
          (Function.update_of_ne hq ..)
        rw [hme]
        exact (Option.some_ne_none q).symm
  · obtain ⟨t, ht, hinv, -⟩ := release_inv h hok (by rw [hpc]; rfl)
      (.inl (by rw [hpc]; rfl)) (List.mem_cons_self : Lock.proc i ∈ _)
      (show Pc.Steady (.idle (i + 1)) from ⟨rfl, rfl⟩)
      (by rw [List.erase_cons_head]; exact ⟨hme, rfl⟩)
    exact ⟨t, ht, hinv⟩

theorem back_fine (h : Inv wl s) (hpc : (s.cpu c).pc = .back i) :
    Fine wl (release (s.setCpu c { s.cpu c with proc := none }) c (.proc i) (.idle (i + 1))) := by
  obtain ⟨ls, hok, hme, rfl⟩ := h.at hpc
  have hmem : Lock.proc i ∈ [(Lock.proc i : Lock ι)] := List.mem_cons_self
  have hheld := hok.holds.mem.mp hmem
  obtain ⟨n, b, hpop, hok'⟩ := hok.release hmem (by rw [hpc]; rfl)
    (show Pc.pending (.idle (i + 1)) = 0 from rfl)
    (show Stage wl none (.idle (i + 1)) _ by rw [List.erase_cons_head]; exact ⟨rfl, rfl⟩)
  have hcpu : (s.setCpu c { s.cpu c with proc := none }).cpu c = { s.cpu c with proc := none } :=
    Function.update_self ..
  unfold release
  rw [if_pos (show (s.setCpu c { s.cpu c with proc := none }).holder (.proc i) = some c from hheld),
    hcpu, hpop]
  refine ⟨(s.put c ⟨none, n, (s.cpu c).intena, b, .idle (i + 1)⟩ s.slot
    (Function.update s.holder (.proc i) none)), ?_, ?_⟩
  · show Except.ok _ = Except.ok _
    unfold State.put State.setCpu
    dsimp only
    rw [Function.update_idem]
  · refine h.put (others_drop hheld) hok' (fun q hq => by cases hq) (fun q => ?_)
    by_cases hq : q = i
    · subst hq
      refine SlotOk.parked (fun c' hne => h.not_runs hme hne) (fun e => by cases e) ?_
      refine (h.slot q).off (fun c' hr => ?_)
      by_cases hc : c' = c
      · subst hc
        exact hr.2 hpc
      · exact h.not_runs hme hc hr
    · refine (h.slot q).put ?_ (fun e => by cases e) rfl
      rw [hme]
      exact fun e => hq (Option.some.inj e).symm

end

end Sched
