import Xv6.Sched.Model

/-!
# The invariant of the scheduler

`Stage`: the locks that a CPU holds at each point of the code of this file.  `noff` counts them, and
a process that no CPU runs has a context that fits its state (`Parked`).
-/

namespace Sched
open Lib
open Proc (nproc)

section
variable {C ι κ : Type}

/-- a CPU in `acquire` has counted a lock that it does not have yet -/
def Pc.pending : Pc ι κ → Nat
  | .spin _ _ => 1
  | _ => 0

/-- no switch is on its way -/
def Pc.plain : Pc ι κ → Bool
  | .dying => false
  | .resume => false
  | .back _ => false
  | _ => true

/-- the entry of the process that a CPU runs -/
def Fits (pc : Pc ι κ) (y : Slot ι κ) : Prop :=
  match pc with
  | .dying => y.state = .zombie
  | .resume => y.state = .running ∧ y.context ≠ .dead
  | _ => y.state = .running

theorem fits_plain {pc : Pc ι κ} {y : Slot ι κ} (h : pc.plain = true) :
    Fits pc y ↔ y.state = .running := by
  cases pc with
  | dying => cases h
  | resume => cases h
  | _ => exact Iff.rfl

theorem Fits.running {pc : Pc ι κ} {y : Slot ι κ} (h : Fits pc y) (hpc : pc ≠ .dying) :
    y.state = .running := by
  cases pc with
  | dying => exact absurd rfl hpc
  | resume => exact h.1
  | _ => exact h

theorem Fits.congr {pc : Pc ι κ} {y z : Slot ι κ} (h : Fits pc y) (hstate : z.state = y.state)
    (hctx : z.context = y.context) : Fits pc z := by
  unfold Fits at h ⊢
  rw [hstate, hctx]
  exact h

/-- neither at a lock nor on the way to a switch -/
def Pc.Steady (pc : Pc ι κ) : Prop := pc.pending = 0 ∧ pc.plain = true

/-- in the kernel code of a process, or in an interrupt of the scheduler -/
def Pc.free : Pc ι κ → Bool
  | .code _ => true
  | .handler _ => true
  | _ => false

/-- what may follow an `acquire` -/
def Pc.after : Pc ι κ → Bool
  | .code _ => true
  | .handler _ => true
  | .yield _ => true
  | .sleep _ _ => true
  | .exit => true
  | .waking _ _ _ => true
  | .look _ => true
  | _ => false

theorem Pc.free_after {pc : Pc ι κ} (h : pc.free = true) : pc.after = true := by
  cases pc with
  | code _ => rfl
  | handler _ => rfl
  | _ => cases h

theorem Pc.after_steady {pc : Pc ι κ} (h : pc.after = true) : pc.Steady := by
  cases pc with
  | spin _ _ => cases h
  | dying => cases h
  | resume => cases h
  | back _ => cases h
  | _ => exact ⟨rfl, rfl⟩

theorem Pc.free_steady {pc : Pc ι κ} (h : pc.free = true) : pc.Steady :=
  Pc.after_steady (Pc.free_after h)

/-- the locks `ls` that a CPU holds, with `c->proc = me` -/
def Stage (wl : ι) (me : Option (Fin nproc)) : Pc ι κ → List (Lock ι) → Prop
  | .code _, _ => me ≠ none
  | .spin lk next, ls => next.after = true ∧ lk ∉ ls ∧ Stage wl me next (lk :: ls)
  | .yield _, ls => ∃ p, me = some p ∧ ls = [.proc p]
  | .sleep _ lk, ls => ∃ p, me = some p ∧ ls = [.proc p, .other lk]
  | .doze _ _, ls => ∃ p, me = some p ∧ ls = [.proc p]
  | .again _, ls => me ≠ none ∧ ls = []
  | .exit, ls => ∃ p, me = some p ∧ ls = [.proc p, .other wl]
  | .dying, ls => ∃ p, me = some p ∧ ls = [.proc p]
  | .resume, ls => ∃ p, me = some p ∧ ls = [.proc p]
  | .wake _ _ next, ls => next.free = true ∧ ls ≠ [] ∧ (∀ p, .proc p ∉ ls) ∧ Stage wl me next ls
  | .waking _ i next, ls => next.free = true ∧ ∃ l, ls = .proc i :: l ∧ l ≠ [] ∧
      (∀ p, .proc p ∉ l) ∧ Stage wl me next l
  | .idle _, ls => me = none ∧ ls = []
  | .look i, ls => me = none ∧ ls = [.proc i]
  | .back i, ls => me = some i ∧ ls = [.proc i]
  | .handler _, _ => me = none

/-- `ls` are the locks of the CPU -/
structure CpuOk (wl : ι) (H : Lock ι → Option C) (c : C) (x : Cpu ι κ) (ls : List (Lock ι)) :
    Prop where
  holds : Holds H c ls
  count : x.noff = ls.length + x.pc.pending
  quiet : x.noff ≠ 0 → x.intr = false
  stage : Stage wl x.proc x.pc ls

def Runs (s : State C ι κ) (c : C) (p : Fin nproc) : Prop :=
  (s.cpu c).proc = some p ∧ (s.cpu c).pc ≠ .back p

def Parked (x : Slot ι κ) : Prop :=
  match x.state with
  | .unused => True
  | .used => x.context = .forkret
  | .sleeping => ∃ lk a, x.context = .sleep lk a
  | .runnable => x.context ≠ .dead
  | .running => False
  | .zombie => x.context = .dead

structure SlotOk (s : State C ι κ) (p : Fin nproc) : Prop where
  on : ∀ c, Runs s c p → Fits (s.cpu c).pc (s.slot p)
  off : (∀ c, ¬ Runs s c p) → Parked (s.slot p)

structure Inv (wl : ι) (s : State C ι κ) : Prop where
  cpu : ∀ c, ∃ ls, CpuOk wl s.holder c (s.cpu c) ls
  alone : ∀ c c' p, (s.cpu c).proc = some p → (s.cpu c').proc = some p → c = c'
  slot : ∀ p, SlotOk s p

variable {wl : ι} {s t : State C ι κ} {c c' : C} {x : Cpu ι κ} {p i : Fin nproc} {y : Slot ι κ}
  {H : Lock ι → Option C} {S : Fin nproc → Slot ι κ} {lk : Lock ι} {next pc : Pc ι κ}
  {ls : List (Lock ι)}

/-- the process that a CPU has is on no other one -/
theorem Inv.not_runs (h : Inv wl s) (hp : (s.cpu c).proc = some p) (hne : c' ≠ c) :
    ¬ Runs s c' p :=
  fun hr => hne (h.alone c' c p hr.1 hp)

theorem Inv.alone_of (h : Inv wl s) (hp : (s.cpu c).proc = some p) :
    ∀ c' ≠ c, (s.cpu c').proc ≠ some p :=
  fun c' hne hp' => hne (h.alone c' c p hp' hp)

/-- the locks that other CPUs hold stay -/
def Others (s : State C ι κ) (c : C) (H : Lock ι → Option C) : Prop :=
  ∀ c', c' ≠ c → ∀ lk, H lk = some c' ↔ s.holder lk = some c'

theorem Others.rfl : Others s c s.holder := fun _ _ _ => Iff.rfl

section
variable [DecidableEq ι]

theorem others_take (h : s.holder lk = none) :
    Others s c (Function.update s.holder lk (some c)) := by
  intro c' hc k
  by_cases hk : k = lk
  · rw [hk, Function.update_self, h]
    exact iff_of_false (fun e => hc (Option.some.inj e).symm) (Option.some_ne_none c').symm
  · rw [Function.update_of_ne hk]

theorem others_drop (h : s.holder lk = some c) :
    Others s c (Function.update s.holder lk none) := by
  intro c' hc k
  by_cases hk : k = lk
  · rw [hk, Function.update_self, h]
    exact iff_of_false (Option.some_ne_none c').symm (fun e => hc (Option.some.inj e).symm)
  · rw [Function.update_of_ne hk]

end

/-! ## one CPU and the table -/

variable [DecidableEq C]

def State.put (s : State C ι κ) (c : C) (x : Cpu ι κ) (S : Fin nproc → Slot ι κ)
    (H : Lock ι → Option C) : State C ι κ :=
  ⟨Function.update s.cpu c x, S, H⟩

theorem put_self : (s.put c x S H).cpu c = x := Function.update_self ..

theorem put_other (h : c' ≠ c) : (s.put c x S H).cpu c' = s.cpu c' := Function.update_of_ne h ..

theorem runs_self : Runs (s.put c x S H) c p ↔ x.proc = some p ∧ x.pc ≠ .back p := by
  unfold Runs
  rw [put_self]

theorem runs_other (h : c' ≠ c) : Runs (s.put c x S H) c' p ↔ Runs s c' p := by
  unfold Runs
  rw [put_other h]

theorem SlotOk.put (h : SlotOk s p) (hold : (s.cpu c).proc ≠ some p) (hnew : x.proc ≠ some p)
    (hS : S p = s.slot p) : SlotOk (s.put c x S H) p := by
  refine ⟨fun c' hr => ?_, fun hno => ?_⟩
  · show Fits _ (S p)
    rw [hS]
    by_cases hc : c' = c
    · rw [hc] at hr
      exact absurd (runs_self.mp hr).1 hnew
    · rw [runs_other hc] at hr
      rw [put_other hc]
      exact h.on c' hr
  · show Parked (S p)
    rw [hS]
    refine h.off (fun c' hr => ?_)
    by_cases hc : c' = c
    · rw [hc] at hr
      exact hold hr.1
    · exact hno c' ((runs_other hc).mpr hr)

theorem SlotOk.parked (hno : ∀ c' ≠ c, ¬ Runs s c' p) (hnew : x.proc = some p → x.pc = .back p)
    (hS : Parked (S p)) : SlotOk (s.put c x S H) p := by
  refine ⟨fun c' hr => ?_, fun _ => hS⟩
  by_cases hc : c' = c
  · rw [hc] at hr
    obtain ⟨hp, hpc⟩ := runs_self.mp hr
    exact absurd (hnew hp) hpc
  · exact absurd ((runs_other hc).mp hr) (hno c' hc)

theorem SlotOk.runs (hno : ∀ c' ≠ c, ¬ Runs s c' p) (hp : x.proc = some p) (hpc : x.pc ≠ .back p)
    (hS : Fits x.pc (S p)) : SlotOk (s.put c x S H) p := by
  refine ⟨fun c' hr => ?_, fun h => absurd (runs_self.mpr ⟨hp, hpc⟩) (h c)⟩
  by_cases hc : c' = c
  · rw [hc, put_self]
    exact hS
  · exact absurd ((runs_other hc).mp hr) (hno c' hc)

theorem Inv.put (h : Inv wl s) (hH : Others s c H) (hc : CpuOk wl H c x ls)
    (halone : ∀ p, x.proc = some p → ∀ c' ≠ c, (s.cpu c').proc ≠ some p)
    (hS : ∀ p, SlotOk (s.put c x S H) p) : Inv wl (s.put c x S H) := by
  refine ⟨fun c' => ?_, fun c₁ c₂ p h₁ h₂ => ?_, hS⟩
  · by_cases hne : c' = c
    · rw [hne, put_self]
      exact ⟨ls, hc⟩
    · rw [put_other hne]
      obtain ⟨ls', hok⟩ := h.cpu c'
      exact ⟨ls', ⟨hok.holds.1, fun lk => hok.holds.mem.trans (hH c' hne lk).symm⟩, hok.count,
        hok.quiet, hok.stage⟩
  · by_cases hc₁ : c₁ = c
    · by_cases hc₂ : c₂ = c
      · rw [hc₁, hc₂]
      · rw [hc₁, put_self] at h₁
        rw [put_other hc₂] at h₂
        exact absurd h₂ (halone p h₁ c₂ hc₂)
    · rw [put_other hc₁] at h₁
      by_cases hc₂ : c₂ = c
      · rw [hc₂, put_self] at h₂
        exact absurd h₁ (halone p h₂ c₁ hc₁)
      · rw [put_other hc₂] at h₂
        exact h.alone c₁ c₂ p h₁ h₂

theorem Inv.move (h : Inv wl s) (hH : Others s c H) (hc : CpuOk wl H c x ls)
    (hproc : x.proc = (s.cpu c).proc) (hold : (s.cpu c).pc.plain = true ∨ (s.cpu c).pc = .resume)
    (hnew : x.pc.plain = true) : Inv wl (s.put c x s.slot H) := by
  refine h.put hH hc (fun p hp => h.alone_of (hproc ▸ hp)) (fun p => ?_)
  by_cases hp : x.proc = some p
  · have hp' : (s.cpu c).proc = some p := hproc ▸ hp
    have hstate : (s.slot p).state = .running := by
      refine ((h.slot p).on c ⟨hp', fun e => ?_⟩).running (fun e => ?_)
      · rw [e] at hold
        exact hold.elim Bool.false_ne_true (fun e' => by cases e')
      · rw [e] at hold
        exact hold.elim Bool.false_ne_true (fun e' => by cases e')
    refine SlotOk.runs (fun c' hne => h.not_runs hp' hne) hp (fun e => ?_)
      ((fits_plain hnew).mpr hstate)
    rw [e] at hnew
    cases hnew
  · exact (h.slot p).put (hproc ▸ hp) hp rfl

end

end Sched
