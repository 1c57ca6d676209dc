import Xv6.Sched.Wakeup

/-!
# Interrupts stay off in `kerneltrap`

A timer interrupt may call `yield`: the process goes on later, perhaps on another CPU, and there the
locks that it takes and gives back must not turn interrupts on.  `sched` keeps `intena` of the CPU
in a local variable of the process for that.
-/

namespace Sched
open Lib
open Proc (nproc)

section
variable {C ι κ : Type} {wl : ι} {s t : State C ι κ} {c : C} {a : Act ι κ} {p : Fin nproc}
  {x y : Cpu ι κ} {S : Fin nproc → Slot ι κ} {H : Lock ι → Option C} {next pc : Pc ι κ}
  {lk : Lock ι} {n : Nat}

def Kernel.isTrap : Kernel ι → Bool
  | .call => false
  | .trap _ => true

def Pc.inTrap : Pc ι κ → Bool
  | .code k => k.isTrap
  | .spin _ next => next.inTrap
  | .yield k => k.isTrap
  | .wake _ _ next => next.inTrap
  | .waking _ _ next => next.inTrap
  | .handler _ => true
  | _ => false

theorem Pc.interrupted_inTrap (back : Option ι) :
    (Pc.interrupted back : Pc ι κ).inTrap = false := by
  cases back with
  | none => rfl
  | some lk => rfl

/-- interrupts are off, and the last `pop_off` leaves them off -/
def Quiet (x : Cpu ι κ) : Prop := x.intr = false ∧ (x.noff ≠ 0 → x.intena = false)

theorem Quiet.pushOff (h : Quiet x) (pc : Pc ι κ) : Quiet { pushOff x with pc := pc } := by
  refine ⟨rfl, fun _ => ?_⟩
  show (if x.noff = 0 then x.intr else x.intena) = false
  split
  · exact h.1
  · rename_i hn
    exact h.2 hn

theorem Quiet.popOff (h : x.noff ≠ 0 → x.intena = false) (hn : x.noff ≠ 0) (pc : Pc ι κ)
    (me : Option (Fin nproc)) :
    Quiet ⟨me, x.noff - 1, x.intena, x.noff - 1 = 0 && x.intena, pc⟩ := by
  refine ⟨?_, fun _ => h hn⟩
  show (decide (x.noff - 1 = 0) && x.intena) = false
  rw [h hn, Bool.and_false]

theorem Change.apply_context {b : Change} {z z' : Slot ι κ} (h : b.apply z = some z') :
    z'.context = z.context ∨ z'.context = .forkret := by
  unfold Change.apply at h
  split at h
  · obtain rfl := Option.some.inj h
    exact .inl rfl
  · obtain rfl := Option.some.inj h
    exact .inr rfl
  · obtain rfl := Option.some.inj h
    exact .inl rfl
  · obtain rfl := Option.some.inj h
    exact .inl rfl
  · obtain rfl := Option.some.inj h
    exact .inl rfl
  · cases h

structure TrapOk (s : State C ι κ) : Prop where
  cpu : ∀ c, (s.cpu c).pc.inTrap = true → Quiet (s.cpu c)
  context : ∀ p lk a, (s.slot p).context = .yield (.trap lk) a → a = false

theorem Inv.noff_ne (h : Inv wl s) (hheld : s.holder lk = some c) : (s.cpu c).noff ≠ 0 := by
  obtain ⟨ls, hok⟩ := h.cpu c
  have hpos := List.length_pos_of_mem (hok.holds.mem.mpr hheld)
  have hcount := hok.count
  omega

theorem context_update {z : Slot ι κ} (hz : z.context = (s.slot p).context) (q : Fin nproc) :
    (Function.update s.slot p z q).context = (s.slot q).context := by
  by_cases hq : q = p
  · rw [hq, Function.update_self]
    exact hz
  · rw [Function.update_of_ne hq]

theorem TrapOk.setSlot (h : TrapOk s) {z : Slot ι κ}
    (hz : z.context = (s.slot p).context ∨ z.context = .forkret) : TrapOk (s.setSlot p z) := by
  refine ⟨h.cpu, fun q l a hq => ?_⟩
  change (Function.update s.slot p z q).context = _ at hq
  by_cases hqp : q = p
  · rw [hqp, Function.update_self] at hq
    obtain hz | hz := hz
    · exact h.context p l a (hz.symm.trans hq)
    · cases hz.symm.trans hq
  · rw [Function.update_of_ne hqp] at hq
    exact h.context q l a hq

theorem TrapOk.setState (h : TrapOk s) (st : ProcState) : TrapOk (s.setState p st) :=
  h.setSlot (.inl rfl)

variable [DecidableEq C]

theorem TrapOk.put (h : TrapOk s) (hx : x.pc.inTrap = true → Quiet x)
    (hS : ∀ p, (S p).context = (s.slot p).context ∨
      ∀ lk a, (S p).context = .yield (.trap lk) a → a = false) :
    TrapOk (s.put c x S H) := by
  refine ⟨fun c' ht => ?_, fun p l a hp => ?_⟩
  · by_cases hc : c' = c
    · rw [hc, put_self] at ht ⊢
      exact hx ht
    · rw [put_other hc] at ht ⊢
      exact h.cpu c' ht
  · obtain hp' | hp' := hS p
    · exact h.context p l a (hp'.symm.trans hp)
    · exact hp' l a hp

/-- the CPU is in a trap afterwards only if it was before -/
theorem TrapOk.acquire (h : TrapOk s) (ht : acquire s c lk next = .ok t)
    (hnext : next.inTrap = true → (s.cpu c).pc.inTrap = true) : TrapOk t := by
  obtain rfl := acquire_ok ht
  exact h.put (fun hin => (h.cpu c (hnext hin)).pushOff _) (fun _ => .inl rfl)

theorem TrapOk.sched {f : Bool → Context ι} (h : TrapOk s) (ht : sched s c p f = .ok t)
    (hf : ∀ lk a, f (s.cpu c).intena = .yield (.trap lk) a → a = false) : TrapOk t := by
  obtain ⟨-, rfl⟩ := sched_ok ht
  refine h.put (fun hin => by cases hin) (fun q => ?_)
  by_cases hq : q = p
  · rw [hq, Function.update_self]
    exact .inr hf
  · rw [Function.update_of_ne hq]
    exact .inl rfl

variable [DecidableEq ι]

theorem TrapOk.release (h : TrapOk s) (hn : s.holder lk = some c → (s.cpu c).noff ≠ 0)
    (ht : release s c lk next = .ok t)
    (hnext : next.inTrap = true → (s.cpu c).pc.inTrap = true) : TrapOk t := by
  obtain ⟨hheld, rfl⟩ := release_ok ht
  exact h.put (fun hin => Quiet.popOff (h.cpu c (hnext hin)).2 (hn hheld) _ _)
    (fun _ => .inl rfl)

theorem resume_trap (h : TrapOk s) (hinv : Inv wl s) (ht : resume s c p = .ok t) : TrapOk t := by
  unfold resume at ht
  split at ht
  · exact h.release hinv.noff_ne ht (fun e => by cases e)
  · -- `yield` in a trap has saved `intena = 0`
    rename_i k b hctx
    have hcpu : (s.setCpu c { s.cpu c with intena := b }).cpu c = { s.cpu c with intena := b } :=
      Function.update_self ..
    obtain ⟨hheld, rfl⟩ := release_ok ht
    rw [setCpu_put, hcpu]
    refine h.put (fun hin => ?_) (fun _ => .inl rfl)
    refine Quiet.popOff (x := { s.cpu c with intena := b }) (fun _ => ?_) (hinv.noff_ne hheld) _ _
    cases k with
    | call => cases hin
    | trap lk => exact h.context p lk b hctx
  · obtain ⟨-, rfl⟩ := release_ok ht
    rw [setCpu_put]
    refine h.put (fun hin => by cases hin) (fun q => .inl ?_)
    exact context_update (z := { s.slot p with chan := none }) rfl q
  · cases ht

variable [DecidableEq κ]

theorem go_trap (h : TrapOk s) (hinv : Inv wl s) (ht : go wl s c = .ok t) : TrapOk t := by
  unfold go at ht
  split at ht
  case h_1 =>
    rename_i hpc
    obtain ⟨-, rfl⟩ := take_ok ht
    exact h.put (fun hin => h.cpu c (by rw [hpc]; exact hin)) (fun _ => .inl rfl)
  case h_2 =>
    rename_i k p hpc hp
    obtain ⟨hone, -⟩ := sched_ok ht
    refine (h.setState .runnable).sched ht (fun lk b hb => ?_)
    obtain ⟨rfl, rfl⟩ := Context.yield.inj hb
    refine (h.cpu c (by rw [hpc]; rfl)).2 ?_
    rw [show (s.cpu c).noff = 1 from hone]
    exact Nat.one_ne_zero
  case h_3 => exact h.release hinv.noff_ne ht (fun e => by cases e)
  case h_4 =>
    rename_i ch lk p hpc hp
    have h' : TrapOk (s.setSlot p { s.slot p with chan := some ch, state := .sleeping }) :=
      h.setSlot (.inl rfl)
    exact h'.sched ht (fun lk b hb => by cases hb)
  case h_5 => exact h.acquire ht (fun e => by cases e)
  case h_6 => exact (h.setState .zombie).release hinv.noff_ne ht (fun e => by cases e)
  case h_7 => exact h.sched ht (fun lk b hb => by cases hb)
  case h_8 => exact resume_trap h hinv ht
  case h_9 =>
    rename_i hpc
    split at ht
    · split at ht
      · obtain rfl := Except.ok.inj ht
        exact h.put (fun hin => h.cpu c (by rw [hpc]; exact hin)) (fun _ => .inl rfl)
      · exact h.acquire ht (fun hin => by rw [hpc]; exact hin)
    · obtain rfl := Except.ok.inj ht
      exact h.put (fun hin => h.cpu c (by rw [hpc]; exact hin)) (fun _ => .inl rfl)
  case h_10 =>
    rename_i hpc
    dsimp only at ht
    split at ht
    · refine (h.setState .runnable).release hinv.noff_ne ht (fun hin => ?_)
      show (s.cpu c).pc.inTrap = true
      rw [hpc]
      exact hin
    · exact h.release hinv.noff_ne ht (fun hin => by rw [hpc]; exact hin)
  case h_11 =>
    split at ht
    · exact h.acquire ht (fun e => by cases e)
    · obtain rfl := Except.ok.inj ht
      exact h.put (fun e => by cases e) (fun _ => .inl rfl)
  case h_12 =>
    split at ht
    · obtain rfl := Except.ok.inj ht
      refine h.put (fun e => by cases e) (fun q => .inl ?_)
      exact context_update (z := { s.slot _ with state := .running }) rfl q
    · exact h.release hinv.noff_ne ht (fun e => by cases e)
  case h_13 =>
    obtain ⟨-, rfl⟩ := release_ok ht
    rw [setCpu_put]
    exact h.put (fun e => by cases e) (fun _ => .inl rfl)
  case h_14 => cases ht

theorem step_trap (h : TrapOk s) (hinv : Inv wl s) (ht : step wl s c a = .ok t) : TrapOk t := by
  unfold step at ht
  split at ht
  case h_1 => exact go_trap h hinv ht
  case h_2 | h_3 =>
    rename_i hpc
    exact h.acquire ht (fun hin => by rw [hpc]; exact hin)
  case h_4 | h_5 =>
    rename_i hpc
    exact h.release hinv.noff_ne ht (fun hin => by rw [hpc]; exact hin)
  case h_6 | h_7 =>
    rename_i hpc
    obtain rfl := Except.ok.inj ht
    exact h.put (fun hin => h.cpu c (by rw [hpc]; exact hin)) (fun _ => .inl rfl)
  case h_8 =>
    rename_i hpc hp
    exact h.acquire ht (fun hin => by rw [hpc]; exact hin)
  case h_9 | h_10 => exact h.acquire ht (fun hin => by cases hin)
  case h_11 =>
    rename_i p b k hpc
    cases hy : b.apply (s.slot p) with
    | none =>
      rw [hy] at ht
      cases ht
    | some y =>
      rw [hy] at ht
      obtain rfl := Except.ok.inj ht
      exact h.setSlot (Change.apply_context hy)
  case h_12 | h_13 | h_14 =>
    rename_i hpc
    split at ht
    · rename_i hintr
      obtain rfl := Except.ok.inj ht
      exact h.put (fun _ => ⟨rfl, fun hn => absurd (hinv.noff_zero hintr) hn⟩) (fun _ => .inl rfl)
    · cases ht
  case h_15 =>
    obtain rfl := Except.ok.inj ht
    exact h.put (fun hin => by rw [Pc.interrupted_inTrap] at hin; cases hin) (fun _ => .inl rfl)
  case h_16 =>
    obtain rfl := Except.ok.inj ht
    exact h.put (fun hin => by cases hin) (fun _ => .inl rfl)
  case h_17 | h_18 =>
    rename_i hpc
    obtain rfl := Except.ok.inj ht
    refine h.put (fun hin => ?_) (fun _ => .inl rfl)
    rw [show _ = Pc.code .call from hpc] at hin
    cases hin
  case h_19 => cases ht

/-- in an interrupt of a process or of the scheduler, on whatever CPU it goes on after a `yield`,
interrupts are off, and no `release` turns them on -/
theorem interrupts_stay_off {l : List (C × Act ι κ)}
    (h : Run (guarded (Promised wl) (Step wl)) start l s) (hc : (s.cpu c).pc.inTrap = true) :
    (s.cpu c).intr = false ∧ ((s.cpu c).noff ≠ 0 → (s.cpu c).intena = false) := by
  have hrun : Inv wl s ∧ TrapOk s := by
    refine h.invariant (I := fun s => Inv wl s ∧ TrapOk s) (fun s e t hs ht => ?_)
      ⟨start_inv wl, ⟨fun c hin => (by cases hin), fun p lk a hp => ?_⟩⟩
    · exact ⟨step_inv hs.1 ht, step_trap hs.2 hs.1 ht.2⟩
    · change (if p = Proc.initproc then _ else _ : Slot ι κ).context = _ at hp
      split at hp
      · cases hp
      · cases hp
  exact hrun.2.cpu c hc

/-- a timer interrupt of the first process, which goes on in it on the other CPU -/
theorem interrupts_stay_off_moved : ∃ s : State Bool Unit Unit, (s.cpu true).pc = .code (.trap none) ∧
    (s.cpu true).proc = some Proc.initproc ∧ (s.cpu true).intr = false :=
  have hrun : ∃ s : State Bool Unit Unit, Run (guarded (Promised ()) (Step ())) start
      [(false, .go), (false, .go), (false, .go), (false, .go), (false, .go), (false, .interrupt),
        (false, .yield), (false, .go), (false, .go), (false, .go), (true, .go), (true, .go),
        (true, .go), (true, .go), (true, .go)] s ∧
      (s.cpu true).pc = .code (.trap none) ∧ (s.cpu true).proc = some Proc.initproc :=
    ⟨_, .cons ⟨trivial, rfl⟩ (.cons ⟨trivial, rfl⟩ (.cons ⟨trivial, rfl⟩ (.cons ⟨trivial, rfl⟩
      (.cons ⟨trivial, rfl⟩ (.cons ⟨trivial, rfl⟩ (.cons ⟨rfl, rfl⟩ (.cons ⟨trivial, rfl⟩
      (.cons ⟨trivial, rfl⟩ (.cons ⟨trivial, rfl⟩ (.cons ⟨trivial, rfl⟩ (.cons ⟨trivial, rfl⟩
      (.cons ⟨trivial, rfl⟩ (.cons ⟨trivial, rfl⟩ (.cons ⟨trivial, rfl⟩ (.nil _))))))))))))))),
      rfl, rfl⟩
  have ⟨s, hs, hpc, hp⟩ := hrun
  ⟨s, hpc, hp, (interrupts_stay_off hs (by rw [hpc]; rfl)).1⟩

end

end Sched
