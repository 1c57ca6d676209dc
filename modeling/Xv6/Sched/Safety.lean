import Xv6.Sched.Go

/-!
# No panic, and one CPU for each process

`go_fine`: the code of `spinlock.c` and `proc.c` does not panic and can always go on, but for a CPU
that waits for a lock.  `step_fine`: what the rest of the kernel does between leaves the state in
order, as long as it keeps to `Promised`.
-/

namespace Sched
open Lib
open Proc (nproc)

section
variable {C ι κ : Type} {wl : ι} {s t : State C ι κ} {c : C} {a : Act ι κ}

/-- the CPU spins, or is not in the code of this file -/
def Pc.Outside (H : Lock ι → Option C) : Pc ι κ → Prop
  | .spin lk _ => H lk ≠ none
  | .code _ => True
  | .handler _ => True
  | _ => False

theorem stage_free {pc : Pc ι κ} {me : Option (Fin nproc)} {ls l : List (Lock ι)}
    (h : pc.free = true) (hst : Stage wl me pc ls) : Stage wl me pc l := by
  cases pc with
  | code _ => exact hst
  | handler _ => exact hst
  | _ => cases h

theorem Pc.interrupted_steady (back : Option ι) : (Pc.interrupted back : Pc ι κ).Steady := by
  cases back with
  | none => exact ⟨rfl, rfl⟩
  | some lk => exact ⟨rfl, rfl⟩

theorem stage_interrupted {me : Option (Fin nproc)} (hme : me ≠ none) (back : Option ι) :
    Stage wl me (Pc.interrupted back : Pc ι κ) [] := by
  cases back with
  | none => exact hme
  | some lk => exact ⟨hme, rfl⟩

theorem Inv.locks (h : Inv wl s) (hpc : (s.cpu c).pc.free = true) :
    ∃ ls, CpuOk wl s.holder c (s.cpu c) ls ∧ (s.cpu c).noff = ls.length := by
  obtain ⟨ls, hok⟩ := h.cpu c
  refine ⟨ls, hok, ?_⟩
  have hcount := hok.count
  rw [(Pc.free_steady hpc).1] at hcount
  exact hcount

theorem Change.apply_parked {a : Change} {x y : Slot ι κ} (h : a.apply x = some y) :
    x.state ≠ .running ∧ (Parked x → Parked y) := by
  unfold Change.apply at h
  split at h
  · rename_i hs
    obtain rfl := Option.some.inj h
    refine ⟨by rw [hs]; decide, fun hx => ?_⟩
    unfold Parked at hx
    rw [hs] at hx
    obtain ⟨lk, b, hctx⟩ := hx
    show x.context ≠ .dead
    rw [hctx]
    intro e
    cases e
  · rename_i hs
    obtain rfl := Option.some.inj h
    exact ⟨by rw [hs]; decide, fun _ => rfl⟩
  · rename_i hs
    obtain rfl := Option.some.inj h
    refine ⟨by rw [hs]; decide, fun hx => ?_⟩
    unfold Parked at hx
    rw [hs] at hx
    show x.context ≠ .dead
    rw [hx]
    intro e
    cases e
  · rename_i hs
    obtain rfl := Option.some.inj h
    exact ⟨by rw [hs]; decide, fun _ => trivial⟩
  · rename_i hs
    obtain rfl := Option.some.inj h
    exact ⟨by rw [hs]; decide, fun _ => trivial⟩
  · cases h

theorem change_fine (h : Inv wl s) {p : Fin nproc} {b : Change} {y : Slot ι κ}
    (hheld : s.holder (.proc p) = some c) (hpc : (s.cpu c).pc.free = true)
    (hy : b.apply (s.slot p) = some y) : Inv wl (s.setSlot p y) := by
  obtain ⟨hstate, hparked⟩ := Change.apply_parked hy
  have hnone := h.locked hheld hstate (fun e => by rw [e] at hpc; cases hpc)
  exact h.setSlot hnone (hparked ((h.slot p).off hnone))

theorem start_inv (wl : ι) : Inv wl (start : State C ι κ) := by
  refine ⟨fun c => ⟨[], ⟨List.nodup_nil, fun l => ?_⟩, rfl, fun _ => rfl, rfl, rfl⟩,
    fun c c' p h => ?_, fun p => ⟨fun c h => ?_, fun _ => ?_⟩⟩
  · exact iff_of_false List.not_mem_nil (Option.some_ne_none c).symm
  · cases h
  · cases h.1
  · show Parked (if p = Proc.initproc then _ else _)
    split
    · exact fun e => by cases e
    · trivial

/-- interrupts that are on say that no lock is counted -/
theorem Inv.noff_zero (h : Inv wl s) (hintr : (s.cpu c).intr = true) : (s.cpu c).noff = 0 := by
  obtain ⟨ls, hok⟩ := h.cpu c
  by_contra hn
  rw [hok.quiet hn] at hintr
  cases hintr

/-! ## steps without a lock -/

variable [DecidableEq C]

theorem wakeup_fine (h : Inv wl s) (hpc : (s.cpu c).pc.free = true) (hnoff : (s.cpu c).noff ≠ 0)
    (hno : ∀ p, s.holder (.proc p) ≠ some c) (ch : κ) :
    Inv wl (s.goto c (.wake ch 0 (s.cpu c).pc)) := by
  obtain ⟨ls, hok, hcount⟩ := h.locks hpc
  refine h.move Others.rfl (show CpuOk wl s.holder c _ ls from ⟨hok.holds, hcount, hok.quiet, hpc,
    ?_, fun p hp => hno p (hok.holds.mem.mp hp), hok.stage⟩) rfl (.inl (Pc.free_steady hpc).2) rfl
  intro e
  rw [e] at hcount
  exact hnoff hcount

theorem intr_fine (h : Inv wl s) (hnoff : (s.cpu c).noff = 0) (hpc : (s.cpu c).pc.Steady)
    (b : Bool) {pc : Pc ι κ} (hnew : pc.Steady)
    (hst : Stage wl (s.cpu c).proc (s.cpu c).pc [] → Stage wl (s.cpu c).proc pc []) :
    Inv wl (s.setCpu c { s.cpu c with intr := b, pc := pc }) := by
  obtain ⟨ls, hok⟩ := h.cpu c
  have hcount := hok.count
  rw [hpc.1, hnoff] at hcount
  obtain rfl := List.eq_nil_of_length_eq_zero hcount.symm
  refine h.move Others.rfl (show CpuOk wl s.holder c _ [] from
    ⟨hok.holds, ?_, fun hn => absurd hnoff hn, hst hok.stage⟩) rfl (.inl hpc.2) hnew.2
  show (s.cpu c).noff = 0 + pc.pending
  rw [hnew.1]
  exact hnoff

theorem acquire_fine (h : Inv wl s) (hpc : (s.cpu c).pc.free = true) {lk : Lock ι}
    (hno : s.holder lk ≠ some c) : Fine wl (acquire s c lk (s.cpu c).pc) := by
  obtain ⟨ls, hok, hst⟩ := h.at (c := c) rfl
  exact acquire_inv h hok (Pc.free_steady hpc) (fun hm => hno (hok.holds.mem.mp hm))
    (Pc.free_after hpc) (stage_free hpc hst)

/-- a call of `yield`, `sleep` or `exit` that starts with `acquire(&p->lock)` -/
theorem call_fine (h : Inv wl s) {p : Fin nproc} {next : Pc ι κ} {l : List (Lock ι)}
    (hpc : (s.cpu c).pc.free = true) (hl : ∀ k ∈ l, s.holder k = some c)
    (hnoff : (s.cpu c).noff = l.length) (hnodup : l.Nodup) (hno : Lock.proc p ∉ l)
    (hnext : next.after = true) (hst : Stage wl (s.cpu c).proc next (.proc p :: l)) :
    Fine wl (acquire s c (.proc p) next) := by
  obtain ⟨ls, hok, hcount⟩ := h.locks hpc
  have hperm : l.Perm ls := by
    refine (hnodup.subperm (fun k hk => hok.holds.mem.mpr (hl k hk))).perm_of_length_le ?_
    rw [← hcount, hnoff]
  have hholds : Holds s.holder c l :=
    ⟨hnodup, fun k => hperm.mem_iff.trans hok.holds.mem⟩
  refine acquire_inv h ⟨hholds, ?_, hok.quiet, stage_free hpc hok.stage⟩ (Pc.free_steady hpc) hno
    hnext hst
  rw [(Pc.free_steady hpc).1]
  exact hnoff

variable [DecidableEq ι]

theorem release_fine (h : Inv wl s) (hpc : (s.cpu c).pc.free = true) {lk : Lock ι}
    (hheld : s.holder lk = some c) : Fine wl (release s c lk (s.cpu c).pc) := by
  obtain ⟨ls, hok, hst⟩ := h.at (c := c) rfl
  obtain ⟨t, ht, hinv, -⟩ := release_inv h hok (Pc.free_steady hpc).1
    (.inl (Pc.free_steady hpc).2) (hok.holds.mem.mpr hheld) (Pc.free_steady hpc)
    (stage_free hpc hst)
  exact ⟨t, ht, hinv⟩

variable [DecidableEq κ]

theorem go_fine (h : Inv wl s) (c : C) :
    Fine wl (go wl s c) ∨ go wl s c = .error .undefined ∧ (s.cpu c).pc.Outside s.holder := by
  obtain ⟨ls, -, hst⟩ := h.at (c := c) rfl
  unfold go
  cases hpc : (s.cpu c).pc with
  | spin lk next =>
    by_cases hfree : s.holder lk = none
    · have ht : take s c lk next =
          .ok { s.goto c next with holder := Function.update s.holder lk (some c) } := if_pos hfree
      exact .inl ⟨_, ht, take_inv h hpc ht⟩
    · exact .inr ⟨if_neg hfree, hfree⟩
  | code k => exact .inr ⟨rfl, trivial⟩
  | handler i => exact .inr ⟨rfl, trivial⟩
  | yield k =>
    rw [hpc] at hst
    obtain ⟨p, hp, -⟩ := hst
    rw [hp]
    exact .inl (yield_fine h hp hpc)
  | sleep ch lk =>
    rw [hpc] at hst
    obtain ⟨p, hp, -⟩ := hst
    rw [hp]
    exact .inl (sleep_fine h hpc)
  | doze ch lk =>
    rw [hpc] at hst
    obtain ⟨p, hp, -⟩ := hst
    rw [hp]
    exact .inl (doze_fine h hp hpc)
  | again lk =>
    rw [hpc] at hst
    obtain ⟨p, hp⟩ := Option.ne_none_iff_exists'.mp hst.1
    rw [hp]
    exact .inl (again_fine h hpc)
  | exit =>
    rw [hpc] at hst
    obtain ⟨p, hp, -⟩ := hst
    rw [hp]
    exact .inl (exit_fine h hp hpc)
  | dying =>
    rw [hpc] at hst
    obtain ⟨p, hp, -⟩ := hst
    rw [hp]
    exact .inl (dying_fine h hp hpc)
  | resume =>
    rw [hpc] at hst
    obtain ⟨p, hp, -⟩ := hst
    rw [hp]
    exact .inl (resume_fine h hp hpc)
  | wake ch i next => exact .inl (wake_fine h hpc _)
  | waking ch i next =>
    refine .inl (waking_fine h hpc ?_)
    split
    · rename_i hsleep
      exact .inr ⟨hsleep.1, rfl⟩
    · exact .inl rfl
  | idle i =>
    rw [hpc] at hst
    rw [hst.1]
    exact .inl (idle_fine h hpc)
  | look i =>
    rw [hpc] at hst
    rw [hst.1]
    exact .inl (look_fine h hpc)
  | back i =>
    rw [hpc] at hst
    rw [hst.1]
    exact .inl (back_fine h hpc)

theorem step_fine (h : Inv wl s) (hp : Promised wl s (c, a)) :
    Fine wl (step wl s c a) ∨ step wl s c a = .error .undefined := by
  unfold step
  split
  case h_1 => exact (go_fine h c).imp_right And.left
  case h_2 | h_3 =>
    rename_i hpc
    rw [← hpc]
    exact .inl (acquire_fine h (by rw [hpc]; rfl) hp)
  case h_4 | h_5 =>
    rename_i hpc
    rw [← hpc]
    exact .inl (release_fine h (by rw [hpc]; rfl) hp)
  case h_6 | h_7 =>
    rename_i hpc
    rw [← hpc]
    exact .inl ⟨_, rfl, wakeup_fine h (by rw [hpc]; rfl) hp.1 hp.2 _⟩
  case h_8 =>
    rename_i p hpc hme
    exact .inl (call_fine h (l := []) (by rw [hpc]; rfl) (fun k hk => absurd hk List.not_mem_nil) hp
      List.nodup_nil List.not_mem_nil rfl ⟨p, hme, rfl⟩)
  case h_9 =>
    rename_i lk p hpc hme
    refine .inl (call_fine h (l := [.other lk]) (by rw [hpc]; rfl) (fun k hk => ?_) hp.2
      (List.nodup_singleton _) (by simp) rfl ⟨p, hme, rfl⟩)
    rw [List.mem_singleton.mp hk]
    exact hp.1
  case h_10 =>
    rename_i p hpc hme
    refine .inl (call_fine h (l := [.other wl]) (by rw [hpc]; rfl) (fun k hk => ?_) hp.2
      (List.nodup_singleton _) (by simp) rfl ⟨p, hme, rfl⟩)
    rw [List.mem_singleton.mp hk]
    exact hp.1
  case h_11 =>
    rename_i p b k hpc
    cases hy : b.apply (s.slot p) with
    | none => exact .inr rfl
    | some y => exact .inl ⟨_, rfl, change_fine h hp (by rw [hpc]; rfl) hy⟩
  case h_12 =>
    rename_i hpc
    split
    · rename_i hintr
      refine .inl ⟨_, rfl, intr_fine h (h.noff_zero hintr) (by rw [hpc]; exact ⟨rfl, rfl⟩) false
        ⟨rfl, rfl⟩ (fun hst => ?_)⟩
      rw [hpc] at hst
      exact hst
    · exact .inr rfl
  case h_13 =>
    rename_i lk hpc
    split
    · rename_i hintr
      refine .inl ⟨_, rfl, intr_fine h (h.noff_zero hintr) (by rw [hpc]; exact ⟨rfl, rfl⟩) false
        ⟨rfl, rfl⟩ (fun hst => ?_)⟩
      rw [hpc] at hst
      exact hst.1
    · exact .inr rfl
  case h_14 =>
    rename_i i hpc
    split
    · rename_i hintr
      refine .inl ⟨_, rfl, intr_fine h (h.noff_zero hintr) (by rw [hpc]; exact ⟨rfl, rfl⟩) false
        ⟨rfl, rfl⟩ (fun hst => ?_)⟩
      rw [hpc] at hst
      exact hst.1
    · exact .inr rfl
  case h_15 =>
    rename_i back hpc
    refine .inl ⟨_, rfl, intr_fine h hp (by rw [hpc]; exact ⟨rfl, rfl⟩) true
      (Pc.interrupted_steady back) (fun hst => ?_)⟩
    rw [hpc] at hst
    exact stage_interrupted hst back
  case h_16 =>
    rename_i i hpc
    refine .inl ⟨_, rfl, intr_fine h hp (by rw [hpc]; exact ⟨rfl, rfl⟩) true ⟨rfl, rfl⟩
      (fun hst => ?_)⟩
    rw [hpc] at hst
    exact ⟨hst, rfl⟩
  case h_17 =>
    rename_i hpc
    exact .inl ⟨_, rfl, intr_fine h hp (by rw [hpc]; exact ⟨rfl, rfl⟩) true
      (by rw [hpc]; exact ⟨rfl, rfl⟩) id⟩
  case h_18 =>
    rename_i hpc
    exact .inl ⟨_, rfl, intr_fine h hp (by rw [hpc]; exact ⟨rfl, rfl⟩) false
      (by rw [hpc]; exact ⟨rfl, rfl⟩) id⟩
  case h_19 => exact .inr rfl

/-! ## runs -/

theorem step_inv {e : C × Act ι κ} (h : Inv wl s) (he : guarded (Promised wl) (Step wl) s e t) :
    Inv wl t := by
  obtain ⟨u, hu, hinv⟩ | herr := step_fine h (a := e.2) (c := e.1) he.1
  · obtain rfl := Except.ok.inj (hu.symm.trans he.2)
    exact hinv
  · cases herr.symm.trans he.2

theorem run_inv {l : List (C × Act ι κ)} (h : Run (guarded (Promised wl) (Step wl)) start l s) :
    Inv wl s :=
  h.invariant (fun _ _ _ hs ht => step_inv hs ht) (start_inv wl)

theorem boot : ∃ s : State Bool Unit Unit, Run (guarded (Promised ()) (Step ())) start
    [(false, .go), (false, .go), (false, .go), (false, .go), (false, .go)] s ∧
    Runs s false Proc.initproc ∧ (s.cpu false).pc = .code .call ∧ (s.cpu false).noff = 0 :=
  ⟨_, .cons ⟨trivial, rfl⟩ (.cons ⟨trivial, rfl⟩ (.cons ⟨trivial, rfl⟩ (.cons ⟨trivial, rfl⟩
    (.cons ⟨trivial, rfl⟩ (.nil _))))), ⟨rfl, fun e => by cases e⟩, rfl, rfl⟩

/-- no call panics, the code of `spinlock.c` and `proc.c` goes on but for a lock that another CPU
holds, and who holds a lock cannot be interrupted -/
theorem scheduler_never_panics {l : List (C × Act ι κ)}
    (h : Run (guarded (Promised wl) (Step wl)) start l s) (hp : Promised wl s (c, a)) :
    (∀ e, step wl s c a = .error e → e = .undefined) ∧
      ((∃ t, go wl s c = .ok t) ∨ (s.cpu c).pc.Outside s.holder) ∧
      ∀ lk, s.holder lk = some c → (s.cpu c).intr = false := by
  have hinv := run_inv h
  refine ⟨fun e he => ?_, ?_, fun lk hlk => ?_⟩
  · obtain ⟨t, ht, -⟩ | herr := step_fine hinv hp
    · cases ht.symm.trans he
    · exact Except.error.inj (he.symm.trans herr)
  · obtain ⟨t, ht, -⟩ | ⟨-, hout⟩ := go_fine hinv c
    · exact .inl ⟨t, ht⟩
    · exact .inr hout
  · obtain ⟨ls, hok⟩ := hinv.cpu c
    refine hok.quiet (fun hnoff => ?_)
    have hpos := List.length_pos_of_mem (hok.holds.mem.mpr hlk)
    have hcount := hok.count
    omega

theorem scheduler_never_panics_boot : ∃ s : State Bool Unit Unit,
    (s.cpu false).pc = .code .call ∧ ∀ e, step () s false .yield = .error e → e = .undefined :=
  have ⟨s, hs, _, hpc, hnoff⟩ := boot
  ⟨s, hpc, (scheduler_never_panics hs (a := .yield) hnoff).1⟩

/-- a process is on at most one CPU, it is `RUNNING` exactly while it is on one (and not in the last
step of `exit`), and who holds `p->lock` and finds it in another state has its stack for itself -/
theorem one_cpu_each {l : List (C × Act ι κ)}
    (h : Run (guarded (Promised wl) (Step wl)) start l s) (p : Fin nproc) :
    (∀ c c', Runs s c p → Runs s c' p → c = c') ∧
      ((s.slot p).state = .running ↔ ∃ c, Runs s c p ∧ (s.cpu c).pc ≠ .dying) ∧
      ∀ c, s.holder (.proc p) = some c → (s.slot p).state ≠ .running → (s.cpu c).pc ≠ .dying →
        Parked (s.slot p) ∧ ∀ c', ¬ Runs s c' p := by
  have hinv := run_inv h
  refine ⟨fun c c' hr hr' => hinv.alone c c' p hr.1 hr'.1, ⟨fun hstate => ?_, ?_⟩, ?_⟩
  · by_contra hno
    have hnone : ∀ c, ¬ Runs s c p := by
      intro c hr
      refine hno ⟨c, hr, fun hd => ?_⟩
      have hfits := (hinv.slot p).on c hr
      rw [hd] at hfits
      cases hfits.symm.trans hstate
    have hparked := (hinv.slot p).off hnone
    unfold Parked at hparked
    rw [hstate] at hparked
    exact hparked
  · intro ⟨c, hr, hd⟩
    exact ((hinv.slot p).on c hr).running hd
  · intro c hheld hstate hpc
    have hnone := hinv.locked hheld hstate hpc
    exact ⟨(hinv.slot p).off hnone, hnone⟩

theorem one_cpu_each_boot : ∃ s : State Bool Unit Unit,
    (s.slot Proc.initproc).state = .running ∧ ∀ c, Runs s c Proc.initproc → c = false :=
  have ⟨s, hs, hr, hpc, _⟩ := boot
  ⟨s, (one_cpu_each hs Proc.initproc).2.1.mpr ⟨false, hr, fun e => by cases hpc.symm.trans e⟩,
    fun c hc => (one_cpu_each hs Proc.initproc).1 c false hc hr⟩

end

end Sched
