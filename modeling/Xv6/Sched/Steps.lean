import Xv6.Sched.Inv

/-!
# Every step keeps the invariant

One lemma for each function of `spinlock.c` and `proc.c`: from a state in order it does not panic,
and it leaves a state in order.
-/

namespace Sched
open Lib
open Proc (nproc)

section
variable {C ι κ : Type} {wl : ι} {s t : State C ι κ} {c c' : C} {x : Cpu ι κ} {p i : Fin nproc}
  {y : Slot ι κ} {lk : Lock ι} {next : Pc ι κ} {ls : List (Lock ι)} {me : Option (Fin nproc)}

/-! ## the table -/

theorem Inv.setSlot (h : Inv wl s) (hno : ∀ c, ¬ Runs s c p) (hy : Parked y) :
    Inv wl (s.setSlot p y) := by
  refine ⟨h.cpu, h.alone, fun q => ?_⟩
  by_cases hq : q = p
  · subst hq
    refine ⟨fun c hr => absurd hr (hno c), fun _ => ?_⟩
    show Parked (Function.update s.slot q y q)
    rw [Function.update_self]
    exact hy
  · have hslot : (s.setSlot p y).slot q = s.slot q := Function.update_of_ne hq ..
    refine ⟨fun c hr => ?_, fun hr => ?_⟩
    · rw [hslot]
      exact (h.slot q).on c hr
    · rw [hslot]
      exact (h.slot q).off hr

theorem Inv.setFields (h : Inv wl s) (hr : Runs s c p) (hstate : y.state = (s.slot p).state)
    (hctx : y.context = (s.slot p).context) : Inv wl (s.setSlot p y) := by
  refine ⟨h.cpu, h.alone, fun q => ?_⟩
  by_cases hq : q = p
  · subst hq
    refine ⟨fun c' hr' => ?_, fun hno => absurd hr (hno c)⟩
    show Fits _ (Function.update s.slot q y q)
    rw [Function.update_self]
    exact ((h.slot q).on c' hr').congr hstate hctx
  · have hslot : (s.setSlot p y).slot q = s.slot q := Function.update_of_ne hq ..
    refine ⟨fun c hr => ?_, fun hr => ?_⟩
    · rw [hslot]
      exact (h.slot q).on c hr
    · rw [hslot]
      exact (h.slot q).off hr

/-- a process that is not running is on no CPU but one in the last step of `exit` -/
theorem Inv.not_running (h : Inv wl s) (hstate : (s.slot p).state ≠ .running)
    (hz : ∀ c, (s.cpu c).proc = some p → (s.cpu c).pc ≠ .dying) (c : C) : ¬ Runs s c p :=
  fun hr => hstate (((h.slot p).on c hr).running (hz c hr.1))

theorem Inv.dying (h : Inv wl s) (hp : (s.cpu c).proc = some p) (hpc : (s.cpu c).pc = .dying) :
    s.holder (.proc p) = some c := by
  obtain ⟨ls, hok⟩ := h.cpu c
  have hst := hok.stage
  rw [hpc] at hst
  obtain ⟨q, hq, rfl⟩ := hst
  obtain rfl := Option.some.inj (hp.symm.trans hq)
  exact hok.holds.mem.mp List.mem_cons_self

/-- who holds `p->lock` of a process that is not running may change it -/
theorem Inv.locked (h : Inv wl s) (hheld : s.holder (.proc p) = some c)
    (hstate : (s.slot p).state ≠ .running) (hpc : (s.cpu c).pc ≠ .dying) (c' : C) :
    ¬ Runs s c' p := by
  refine h.not_running hstate (fun c₁ hp hd => ?_) c'
  obtain rfl := Option.some.inj ((h.dying hp hd).symm.trans hheld)
  exact hpc hd

/-- a process that `c` may change and that `c` does not have is on no CPU at all -/
theorem Inv.free (h : Inv wl s) (hheld : s.holder (.proc p) = some c)
    (hstate : (s.slot p).state ≠ .running) (hp : (s.cpu c).proc ≠ some p) (c' : C) :
    (s.cpu c').proc ≠ some p := by
  intro hp'
  have hother : ¬ s.holder (.proc p) = some c' := by
    intro e
    obtain rfl := Option.some.inj (hheld.symm.trans e)
    exact hp hp'
  by_cases hback : (s.cpu c').pc = .back p
  · obtain ⟨ls, hok⟩ := h.cpu c'
    have hst := hok.stage
    rw [hback] at hst
    obtain ⟨-, rfl⟩ := hst
    exact hother (hok.holds.mem.mp List.mem_cons_self)
  · have hrun := (h.slot p).on c' ⟨hp', hback⟩
    exact hstate (hrun.running (fun e => hother (h.dying hp' e)))

/-! ## locks -/

section
variable [DecidableEq C]

theorem acquire_inv (h : Inv wl s) (hok : CpuOk wl s.holder c (s.cpu c) ls)
    (hpc : (s.cpu c).pc.Steady) (hno : lk ∉ ls) (hnext : next.after = true)
    (hst : Stage wl (s.cpu c).proc next (lk :: ls)) :
    ∃ t, acquire s c lk next = .ok t ∧ Inv wl t := by
  unfold acquire
  rw [if_neg (fun e => hno (hok.holds.mem.mpr e))]
  refine ⟨_, rfl, ?_⟩
  have hcount := hok.count
  rw [hpc.1] at hcount
  have hok' : CpuOk wl s.holder c { pushOff (s.cpu c) with pc := .spin lk next } ls := by
    refine ⟨hok.holds, ?_, fun _ => rfl, hnext, hno, hst⟩
    show (s.cpu c).noff + 1 = ls.length + 1
    rw [hcount]
  exact h.move Others.rfl hok' rfl (.inl hpc.2) rfl

/-! ## `sched` -/

theorem sched_inv (h : Inv wl s) (hok : CpuOk wl s.holder c (s.cpu c) [.proc p])
    (hp : (s.cpu c).proc = some p) (hpc : (s.cpu c).pc.pending = 0)
    (f : Bool → Context ι) (hy : ∀ a, Parked { y with context := f a })
    (hstate : y.state ≠ .running) :
    ∃ t, sched (s.setSlot p y) c p f = .ok t ∧ Inv wl t := by
  have hslot : (s.setSlot p y).slot p = y := Function.update_self ..
  have hcount := hok.count
  rw [hpc] at hcount
  have hone : (s.cpu c).noff = 1 := hcount
  have hheld : s.holder (.proc p) = some c := hok.holds.mem.mp List.mem_cons_self
  unfold sched
  dsimp only
  rw [hslot]
  change ∃ t, (if s.holder (.proc p) ≠ some c then Except.error Stop.schedLock
    else if (s.cpu c).noff ≠ 1 then .error .schedLocks
    else if y.state = .running then .error .schedRunning
    else if (s.cpu c).intr then .error .schedInterruptible
    else .ok _) = Except.ok t ∧ Inv wl t
  rw [if_neg (not_not.mpr hheld), if_neg (not_not.mpr hone), if_neg hstate,
    hok.quiet (by omega), if_neg Bool.false_ne_true]
  refine ⟨_, rfl, ?_⟩
  have hok' : CpuOk wl s.holder c ({ s.cpu c with pc := .back p } : Cpu ι κ) [.proc p] :=
    ⟨hok.holds, hone, hok.quiet, hp, rfl⟩
  refine h.put Others.rfl hok' (fun q hq => h.alone_of hq) (fun q => ?_)
  by_cases hq : q = p
  · subst hq
    refine SlotOk.parked (fun c' hne => h.not_runs hp hne) (fun _ => rfl) ?_
    show Parked (Function.update (Function.update s.slot q y) q _ q)
    rw [Function.update_self]
    exact hy _
  · refine (h.slot q).put ?_ ?_ ?_
    · rw [hp]
      exact fun e => hq (Option.some.inj e).symm
    · exact fun e => hq (Option.some.inj (e.symm.trans hp))
    · show Function.update (Function.update s.slot p y) p _ q = _
      rw [Function.update_of_ne hq, Function.update_of_ne hq]

end

section
variable [DecidableEq ι]

theorem CpuOk.release (hok : CpuOk wl s.holder c x ls) (hmem : lk ∈ ls) (hpc : x.pc.pending = 0)
    (hnext : next.pending = 0) (hst : Stage wl me next (ls.erase lk)) :
    ∃ n b, popOff { x with proc := me } = .ok { x with proc := me, noff := n, intr := b } ∧
      CpuOk wl (Function.update s.holder lk none) c ⟨me, n, x.intena, b, next⟩ (ls.erase lk) := by
  have hcount := hok.count
  have hlen := hok.holds.length_drop (hok.holds.mem.mp hmem)
  rw [hpc] at hcount
  have hpos : x.noff ≠ 0 := by omega
  unfold popOff
  dsimp only
  rw [hok.quiet hpos, if_neg Bool.false_ne_true, if_neg (by omega)]
  refine ⟨_, _, rfl, hok.holds.drop, ?_, fun hn => ?_, hst⟩
  · show x.noff - 1 = _ + next.pending
    rw [hnext]
    omega
  · show (decide (x.noff - 1 = 0) && x.intena) = false
    rw [decide_eq_false hn, Bool.false_and]

variable [DecidableEq C]

theorem take_inv (h : Inv wl s) (hpc : (s.cpu c).pc = .spin lk next)
    (ht : take s c lk next = .ok t) : Inv wl t := by
  unfold take at ht
  split at ht
  · rename_i hfree
    obtain rfl := Except.ok.inj ht
    obtain ⟨ls, hok⟩ := h.cpu c
    have hst := hok.stage
    have hcount := hok.count
    rw [hpc] at hst hcount
    obtain ⟨hnext, -, hst⟩ := hst
    have hok' : CpuOk wl (Function.update s.holder lk (some c)) c { s.cpu c with pc := next }
        (lk :: ls) := by
      refine ⟨hok.holds.take hfree, ?_, hok.quiet, hst⟩
      show (s.cpu c).noff = (lk :: ls).length + next.pending
      rw [(Pc.after_steady hnext).1, List.length_cons]
      exact hcount
    exact h.move (others_take hfree) hok' rfl (.inl (by rw [hpc]; rfl)) (Pc.after_steady hnext).2
  · cases ht

theorem release_inv (h : Inv wl s) (hok : CpuOk wl s.holder c (s.cpu c) ls)
    (hpc : (s.cpu c).pc.pending = 0) (hold : (s.cpu c).pc.plain = true ∨ (s.cpu c).pc = .resume)
    (hmem : lk ∈ ls) (hnext : next.Steady) (hst : Stage wl (s.cpu c).proc next (ls.erase lk)) :
    ∃ t, release s c lk next = .ok t ∧ Inv wl t ∧
      CpuOk wl t.holder c (t.cpu c) (ls.erase lk) ∧ (t.cpu c).pc = next ∧
      (t.cpu c).proc = (s.cpu c).proc := by
  obtain ⟨n, b, hpop, hok'⟩ := hok.release hmem hpc hnext.1 hst
  have hheld := hok.holds.mem.mp hmem
  have hinv := h.move (others_drop hheld) hok' rfl hold hnext.2
  have hpop' : popOff (s.cpu c) = .ok { s.cpu c with noff := n, intr := b } := hpop
  unfold Sched.release
  rw [if_pos hheld, hpop']
  refine ⟨_, rfl, hinv, ?_, ?_, ?_⟩
  · show CpuOk wl _ c (Function.update s.cpu c _ c) _
    rw [Function.update_self]
    exact hok'
  · show (Function.update s.cpu c _ c).pc = _
    rw [Function.update_self]
  · show (Function.update s.cpu c _ c).proc = _
    rw [Function.update_self]

end

end

end Sched
