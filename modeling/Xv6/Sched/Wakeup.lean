import Xv6.Sched.Safety

/-!
# No wakeup is lost

`sleep` gives back the lock `lk` of the condition only with `p->lock` in hand, and `wakeup` looks at
each process under `p->lock`.  So when a CPU that holds `lk` comes to the end of `wakeup(chan)`, no
process is left that has called `sleep(chan, lk)` before.
-/

namespace Sched
open Lib
open Proc (nproc)

section
variable {C ι κ : Type} {wl : ι} {s t : State C ι κ} {c : C} {a : Act ι κ} {p i : Fin nproc}
  {ch : κ} {l : ι} {n : Nat} {x y : Cpu ι κ} {S : Fin nproc → Slot ι κ} {H : Lock ι → Option C}
  {next pc : Pc ι κ} {lk : Lock ι}

/-- `p` has called `sleep(chan, lk)` and given back `lk` -/
def Waits (s : State C ι κ) (p : Fin nproc) (ch : κ) (l : ι) : Prop :=
  (∃ c, (s.cpu c).proc = some p ∧ (s.cpu c).pc = .doze ch l) ∨
    (s.slot p).state = .sleeping ∧ (s.slot p).chan = some ch ∧ ∃ a, (s.slot p).context = .sleep l a

/-- the channel of a `wakeup` and the processes that it is done with -/
def Pc.woken : Pc ι κ → Option (κ × Nat)
  | .spin _ next => next.woken
  | .wake ch i _ => some (ch, i)
  | .waking ch i _ => some (ch, i)
  | _ => none

/-- neither in `wakeup` nor about to fall asleep -/
def Pc.calm : Pc ι κ → Bool
  | .spin _ next => next.calm
  | .doze _ _ => false
  | .wake _ _ _ => false
  | .waking _ _ _ => false
  | _ => true

theorem Pc.calm_woken (h : pc.calm = true) : pc.woken = none := by
  induction pc with
  | spin lk next ih => exact ih h
  | wake _ _ _ => cases h
  | waking _ _ _ => cases h
  | _ => rfl

theorem Pc.calm_doze (h : pc.calm = true) : pc ≠ .doze ch l := by
  intro e
  rw [e] at h
  cases h

/-- in `sleep`, behind `release(lk)` -/
def Pc.dozing : Pc ι κ → Bool
  | .doze _ _ => true
  | _ => false

theorem Pc.free_dozing (h : pc.free = true) : pc.dozing = false := by
  cases pc with
  | doze _ _ => cases h
  | _ => rfl

theorem Pc.free_calm (h : pc.free = true) : pc.calm = true := by
  cases pc with
  | code _ => rfl
  | handler _ => rfl
  | _ => cases h

theorem Pc.interrupted_calm (back : Option ι) :
    (Pc.interrupted back : Pc ι κ).calm = true := by
  cases back with
  | none => rfl
  | some lk => rfl

/-! ## what the functions do -/

theorem popOff_ok (h : popOff x = .ok y) :
    y = { x with noff := x.noff - 1, intr := x.noff - 1 = 0 && x.intena } := by
  unfold popOff at h
  split at h
  · cases h
  · split at h
    · cases h
    · exact (Except.ok.inj h).symm

theorem Inv.awake (h : Inv wl s) (hr : Runs s c p) : (s.slot p).state ≠ .sleeping := by
  have hfits := (h.slot p).on c hr
  unfold Fits at hfits
  split at hfits
  · rw [hfits]
    decide
  · rw [hfits.1]
    decide
  · rw [hfits]
    decide

/-- a CPU that has `p->lock` is the only one that may be about to fall asleep as `p` -/
theorem Inv.doze_holder (h : Inv wl s) (hp : (s.cpu c).proc = some p)
    (hpc : (s.cpu c).pc = .doze ch l) : s.holder (.proc p) = some c := by
  obtain ⟨ls, hok, q, hq, rfl⟩ := h.at hpc
  obtain rfl := Option.some.inj (hp.symm.trans hq)
  exact hok.holds.mem.mp List.mem_cons_self

theorem Inv.not_waits (h : Inv wl s) (hr : Runs s c p) (hpc : (s.cpu c).pc ≠ .doze ch l) :
    ¬ Waits s p ch l := by
  intro hw
  obtain ⟨c', hp, hd⟩ | ⟨hs, -⟩ := hw
  · obtain rfl := h.alone c' c p hp hr.1
    exact hpc hd
  · exact h.awake hr hs

theorem setState_state {st : ProcState} : ((s.setState p st).slot p).state = st := by
  show (Function.update s.slot p _ p).state = st
  rw [Function.update_self]

/-- nobody falls asleep, and who is asleep stays so or becomes `RUNNABLE` -/
def Kept (x y : Slot ι κ) : Prop :=
  y = x ∨ y.state ≠ .sleeping ∧ (x.state = .sleeping → y.state = .runnable)

theorem Kept.of_awake {x y : Slot ι κ} (hx : x.state ≠ .sleeping) (hy : y.state ≠ .sleeping) :
    Kept x y :=
  .inr ⟨hy, fun h => absurd h hx⟩

theorem Kept.of_runnable {x y : Slot ι κ} (hy : y.state = .runnable) : Kept x y := by
  refine .inr ⟨?_, fun _ => hy⟩
  rw [hy]
  decide

theorem Kept.update {z : Slot ι κ} (hz : Kept (s.slot p) z) (q : Fin nproc) :
    Kept (s.slot q) (Function.update s.slot p z q) := by
  by_cases hq : q = p
  · rw [hq, Function.update_self]
    exact hz
  · rw [Function.update_of_ne hq]
    exact .inl rfl

theorem Change.apply_kept {b : Change} {x y : Slot ι κ} (h : b.apply x = some y) : Kept x y := by
  unfold Change.apply at h
  split at h
  · obtain rfl := Option.some.inj h
    exact Kept.of_runnable rfl
  · rename_i hs
    obtain rfl := Option.some.inj h
    exact Kept.of_awake (by rw [hs]; decide) (fun e => by cases e)
  · obtain rfl := Option.some.inj h
    exact Kept.of_runnable rfl
  · rename_i hs
    obtain rfl := Option.some.inj h
    exact Kept.of_awake (by rw [hs]; decide) (fun e => by cases e)
  · rename_i hs
    obtain rfl := Option.some.inj h
    exact Kept.of_awake (by rw [hs]; decide) (fun e => by cases e)
  · cases h

variable [DecidableEq C]

theorem acquire_ok (h : acquire s c lk next = .ok t) :
    t = s.put c { pushOff (s.cpu c) with pc := .spin lk next } s.slot s.holder := by
  unfold acquire at h
  split at h
  · cases h
  · exact (Except.ok.inj h).symm

theorem sched_ok {f : Bool → Context ι} (h : sched s c p f = .ok t) :
    (s.cpu c).noff = 1 ∧ t = s.put c { s.cpu c with pc := .back p }
      (Function.update s.slot p { s.slot p with context := f (s.cpu c).intena }) s.holder := by
  unfold sched at h
  dsimp only at h
  split at h
  · cases h
  · split at h
    · cases h
    · split at h
      · cases h
      · split at h
        · cases h
        · exact ⟨by omega, (Except.ok.inj h).symm⟩

theorem put_put {S' : Fin nproc → Slot ι κ} {H' : Lock ι → Option C} :
    (s.put c x S H).put c y S' H' = s.put c y S' H' := by
  unfold State.put
  dsimp only
  rw [Function.update_idem]

theorem put_congr {u : State C ι κ} (h : u.cpu = s.cpu) : u.put c x S H = s.put c x S H := by
  unfold State.put
  rw [h]

theorem setCpu_put : (s.setCpu c x).put c y S H = s.put c y S H := put_put

/-! ## what a step of `c` does to sleepers -/

structure Effect (s t : State C ι κ) (c : C) : Prop where
  cpu : ∀ c' ≠ c, t.cpu c' = s.cpu c'
  others : Others s c t.holder
  waits : ∀ p ch l, Waits t p ch l → Waits s p ch l ∨ (s.cpu c).pc = .sleep ch l
  leaves : ∀ p ch l, Waits s p ch l → Waits t p ch l ∨ (t.slot p).state = .runnable
  woken : ∀ ch n, (t.cpu c).pc.woken = some (ch, n) → n = 0 ∨
    (∀ l, t.holder (.other l) = some c → s.holder (.other l) = some c) ∧
      ∃ m, (s.cpu c).pc.woken = some (ch, m) ∧
        ∀ p : Fin nproc, p.val < n → p.val < m ∨ ∀ l, ¬ Waits t p ch l

theorem waits_put (hpc : x.pc ≠ .doze ch l) (hS : Kept (s.slot p) (S p))
    (h : Waits (s.put c x S H) p ch l) : Waits s p ch l := by
  obtain ⟨c', hp, hd⟩ | ⟨hs, hc, b, hctx⟩ := h
  · by_cases hc : c' = c
    · rw [hc, put_self] at hd
      exact absurd hd hpc
    · rw [put_other hc] at hp hd
      exact .inl ⟨c', hp, hd⟩
  · obtain hS | ⟨hS, -⟩ := hS
    · have hslot : (s.put c x S H).slot p = s.slot p := hS
      rw [hslot] at hs hc hctx
      exact .inr ⟨hs, hc, b, hctx⟩
    · exact absurd hs hS

theorem leaves_put (hpc : (s.cpu c).pc.dozing = false) (hS : Kept (s.slot p) (S p))
    (h : Waits s p ch l) : Waits (s.put c x S H) p ch l ∨ (S p).state = .runnable := by
  obtain ⟨c', hp, hd⟩ | ⟨hs, hc, b, hctx⟩ := h
  · by_cases hc : c' = c
    · rw [hc] at hd
      rw [hd] at hpc
      cases hpc
    · refine .inl (.inl ⟨c', ?_, ?_⟩)
      · rw [put_other hc]
        exact hp
      · rw [put_other hc]
        exact hd
  · obtain hS | ⟨-, hS⟩ := hS
    · have hslot : (s.put c x S H).slot p = s.slot p := hS
      refine .inl (.inr ?_)
      rw [hslot]
      exact ⟨hs, hc, b, hctx⟩
    · exact .inr (hS hs)

theorem Effect.put (hH : Others s c H) (hold : (s.cpu c).pc.dozing = false)
    (hpc : x.pc.calm = true) (hS : ∀ p, Kept (s.slot p) (S p)) : Effect s (s.put c x S H) c := by
  refine ⟨fun c' hc => put_other hc, hH, fun p ch l hw => .inl ?_,
    fun p ch l hw => leaves_put hold (hS p) hw, fun ch n hw => ?_⟩
  · exact waits_put (Pc.calm_doze hpc) (hS p) hw
  · rw [put_self, Pc.calm_woken hpc] at hw
    cases hw

theorem Effect.waking (hH : Others s c H) (hother : ∀ l, H (.other l) = some c →
      s.holder (.other l) = some c) {m : Nat} (hold : (s.cpu c).pc.woken = some (ch, m))
    (hnew : x.pc.woken = some (ch, n)) (hS : ∀ p, Kept (s.slot p) (S p))
    (hstep : ∀ p : Fin nproc, p.val < n → p.val < m ∨ ∀ l, ¬ Waits (s.put c x S H) p ch l) :
    Effect s (s.put c x S H) c := by
  have hdoze : ∀ ch' l, x.pc ≠ .doze ch' l := by
    intro ch' l e
    rw [e] at hnew
    cases hnew
  have hdozing : (s.cpu c).pc.dozing = false := by
    cases hpc : (s.cpu c).pc with
    | doze _ _ =>
      rw [hpc] at hold
      cases hold
    | _ => rfl
  refine ⟨fun c' hc => put_other hc, hH, fun p ch' l hw => .inl ?_,
    fun p ch l hw => leaves_put hdozing (hS p) hw, fun ch' n' hw => .inr ?_⟩
  · exact waits_put (hdoze ch' l) (hS p) hw
  · rw [put_self, hnew] at hw
    obtain ⟨rfl, rfl⟩ := Prod.mk.inj (Option.some.inj hw)
    exact ⟨hother, m, hold, hstep⟩

theorem acquire_effect (h : acquire s c lk next = .ok t) (hold : (s.cpu c).pc.dozing = false)
    (hnext : next.calm = true) : Effect s t c := by
  obtain rfl := acquire_ok h
  exact Effect.put Others.rfl hold hnext (fun p => .inl rfl)

theorem wakeup_effect (hpc : (s.cpu c).pc.free = true) :
    Effect s (s.goto c (.wake ch 0 next)) c := by
  refine ⟨fun c' hc => put_other hc, Others.rfl, fun p ch l hw => .inl ?_,
    fun p ch l hw => leaves_put (Pc.free_dozing hpc) (.inl rfl) hw, fun ch n hw => .inl ?_⟩
  · exact waits_put (x := { s.cpu c with pc := .wake _ 0 next }) (by intro e; cases e) (.inl rfl) hw
  · change (Function.update s.cpu c _ c).pc.woken = _ at hw
    rw [Function.update_self] at hw
    cases hw
    rfl

theorem setCpu_effect (hold : (s.cpu c).pc.dozing = false) (hpc : x.pc.calm = true) :
    Effect s (s.setCpu c x) c :=
  Effect.put Others.rfl hold hpc (fun _ => .inl rfl)

theorem doze_ok (h : sched (s.setSlot p { s.slot p with chan := some ch, state := .sleeping }) c p
      (.sleep l) = .ok t) : t = s.put c { s.cpu c with pc := .back p }
    (Function.update s.slot p ⟨.sleeping, some ch, .sleep l (s.cpu c).intena⟩) s.holder := by
  have hslot : (s.setSlot p { s.slot p with chan := some ch, state := .sleeping }).slot p =
      { s.slot p with chan := some ch, state := .sleeping } := Function.update_self ..
  obtain ⟨-, rfl⟩ := sched_ok h
  rw [hslot]
  show State.mk _ (Function.update (Function.update s.slot p _) p _) _ = _
  rw [Function.update_idem]
  rfl

theorem doze_effect (hinv : Inv wl s) (hp : (s.cpu c).proc = some p)
    (hpc : (s.cpu c).pc = .doze ch l)
    (h : sched (s.setSlot p { s.slot p with chan := some ch, state := .sleeping }) c p
      (.sleep l) = .ok t) : Effect s t c := by
  obtain rfl := doze_ok h
  refine ⟨fun c' hc => put_other hc, Others.rfl, fun q ch' l' hw => .inl ?_,
    fun q ch' l' hw => .inl ?_, fun ch' n hw => ?_⟩
  · obtain ⟨c', hq, hd⟩ | ⟨hs, hch, b, hctx⟩ := hw
    · by_cases hc : c' = c
      · rw [hc, put_self] at hd
        cases hd
      · rw [put_other hc] at hq hd
        exact .inl ⟨c', hq, hd⟩
    · change (Function.update s.slot p _ q).state = _ at hs
      change (Function.update s.slot p _ q).chan = _ at hch
      change (Function.update s.slot p _ q).context = _ at hctx
      by_cases hqp : q = p
      · rw [hqp, Function.update_self] at hch hctx
        cases hch
        cases hctx
        exact .inl ⟨c, hqp ▸ hp, hpc⟩
      · rw [Function.update_of_ne hqp] at hs hch hctx
        exact .inr ⟨hs, hch, b, hctx⟩
  · obtain ⟨c', hq, hd⟩ | ⟨hs, hch, b, hctx⟩ := hw
    · by_cases hc : c' = c
      · -- `p` itself: it is asleep now
        rw [hc] at hq hd
        obtain rfl := Option.some.inj (hp.symm.trans hq)
        cases hpc.symm.trans hd
        refine .inr ?_
        show (Function.update s.slot p _ p).state = _ ∧ (Function.update s.slot p _ p).chan = _ ∧
          ∃ a, (Function.update s.slot p _ p).context = _
        rw [Function.update_self]
        exact ⟨rfl, rfl, _, rfl⟩
      · refine .inl ⟨c', ?_, ?_⟩
        · rw [put_other hc]
          exact hq
        · rw [put_other hc]
          exact hd
    · have hqp : q ≠ p := by
        rintro rfl
        exact hinv.awake ⟨hp, by rw [hpc]; intro e; cases e⟩ hs
      have hslot : (Function.update s.slot p ⟨.sleeping, some ch, .sleep l (s.cpu c).intena⟩ q) =
          s.slot q := Function.update_of_ne hqp ..
      refine .inr ?_
      show (Function.update s.slot p _ q).state = _ ∧ (Function.update s.slot p _ q).chan = _ ∧
        ∃ a, (Function.update s.slot p _ q).context = _
      rw [hslot]
      exact ⟨hs, hch, b, hctx⟩
  · rw [put_self] at hw
    cases hw

theorem wake_effect (hinv : Inv wl s) (hpc : (s.cpu c).pc = .wake ch n next)
    (h : (if h : n < nproc then
      if (s.cpu c).proc = some ⟨n, h⟩ then .ok (s.goto c (.wake ch (n + 1) next))
      else acquire s c (.proc ⟨n, h⟩) (.waking ch ⟨n, h⟩ next)
    else .ok (s.goto c next)) = .ok t) : Effect s t c := by
  split at h
  · split at h
    · rename_i hlt hme
      obtain rfl := Except.ok.inj h
      refine Effect.waking Others.rfl (fun l hl => hl) (by rw [hpc]; rfl) rfl (fun q => .inl rfl)
        (fun q hq => ?_)
      obtain hqn | heq := Nat.lt_succ_iff_lt_or_eq.mp hq
      · exact .inl hqn
      · refine .inr (fun l hw => ?_)
        have hqn : q = ⟨n, hlt⟩ := Fin.ext heq
        refine hinv.not_waits ⟨hqn ▸ hme, by rw [hpc]; intro e; cases e⟩
          (by rw [hpc]; intro e; cases e) (waits_put (by intro e; cases e) (.inl rfl) hw)
    · obtain rfl := acquire_ok h
      exact Effect.waking Others.rfl (fun l hl => hl) (by rw [hpc]; rfl) rfl (fun q => .inl rfl)
        (fun q hq => .inl hq)
  · obtain ⟨ls, hok, hnext, -⟩ := hinv.at hpc
    obtain rfl := Except.ok.inj h
    exact Effect.put Others.rfl (by rw [hpc]; rfl) (Pc.free_calm hnext) (fun q => .inl rfl)

/-- a CPU in `wakeup(chan)` that holds `l` has left none of the processes behind it asleep -/
def Awoken (s : State C ι κ) : Prop :=
  ∀ c ch n l (p : Fin nproc), (s.cpu c).pc.woken = some (ch, n) → s.holder (.other l) = some c →
    p.val < n → ¬ Waits s p ch l

theorem Effect.awoken (he : Effect s t c) (hinv : Inv wl s) (h : Awoken s) : Awoken t := by
  intro c' ch n l p hw hl hp hwait
  by_cases hc : c' = c
  · subst hc
    obtain rfl | ⟨hother, m, hm, hstep⟩ := he.woken ch n hw
    · exact absurd hp (Nat.not_lt_zero _)
    · obtain hlt | hno := hstep p hp
      · obtain hs | hs := he.waits p ch l hwait
        · exact h c' ch m l p hm (hother l hl) hlt hs
        · rw [hs] at hm
          cases hm
      · exact hno l hwait
  · rw [he.cpu c' hc] at hw
    have hl' := (he.others c' hc _).mp hl
    obtain hs | hs := he.waits p ch l hwait
    · exact h c' ch n l p hw hl' hp hs
    · -- the process that falls asleep has the lock
      obtain ⟨ls, hok, q, -, rfl⟩ := hinv.at hs
      have hheld := hok.holds.mem.mp (List.mem_cons_of_mem _ List.mem_cons_self)
      exact hc (Option.some.inj (hl'.symm.trans hheld))

variable [DecidableEq ι]

theorem take_ok (h : take s c lk next = .ok t) : s.holder lk = none ∧
    t = s.put c { s.cpu c with pc := next } s.slot (Function.update s.holder lk (some c)) := by
  unfold take at h
  split at h
  · rename_i hfree
    exact ⟨hfree, (Except.ok.inj h).symm⟩
  · cases h

theorem release_ok (h : release s c lk next = .ok t) : s.holder lk = some c ∧
    t = s.put c ⟨(s.cpu c).proc, (s.cpu c).noff - 1, (s.cpu c).intena,
        (s.cpu c).noff - 1 = 0 && (s.cpu c).intena, next⟩ s.slot
      (Function.update s.holder lk none) := by
  unfold release at h
  split at h
  · rename_i hheld
    cases hpop : popOff (s.cpu c) with
    | error e =>
      rw [hpop] at h
      cases h
    | ok y =>
      rw [hpop] at h
      obtain rfl := popOff_ok hpop
      exact ⟨hheld, (Except.ok.inj h).symm⟩
  · cases h

theorem release_effect (h : release s c lk next = .ok t) (hold : (s.cpu c).pc.dozing = false)
    (hnext : next.calm = true) : Effect s t c := by
  obtain ⟨hheld, rfl⟩ := release_ok h
  exact Effect.put (others_drop hheld) hold hnext (fun p => .inl rfl)

theorem resume_effect (hinv : Inv wl s) (hr : Runs s c p)
    (hpc : (s.cpu c).pc = .resume) (h : resume s c p = .ok t) : Effect s t c := by
  have hold : (s.cpu c).pc.dozing = false := by
    rw [hpc]
    rfl
  unfold resume at h
  split at h
  · exact release_effect h hold rfl
  · obtain ⟨hheld, rfl⟩ := release_ok h
    rw [setCpu_put]
    exact Effect.put (others_drop hheld) hold rfl (fun q => .inl rfl)
  · obtain ⟨hheld, rfl⟩ := release_ok h
    rw [setCpu_put]
    exact Effect.put (others_drop hheld) hold rfl
      (Kept.update (Kept.of_awake (hinv.awake hr) (hinv.awake hr)))
  · cases h

theorem sleep_effect (h : release s c (.other l) (.doze ch l) = .ok t)
    (hpc : (s.cpu c).pc = .sleep ch l) : Effect s t c := by
  obtain ⟨hheld, rfl⟩ := release_ok h
  refine ⟨fun c' hc => put_other hc, others_drop hheld, fun p ch' l' hw => ?_,
    fun p ch' l' hw => leaves_put (by rw [hpc]; rfl) (.inl rfl) hw, fun ch' n hw => ?_⟩
  · obtain ⟨c', hp, hd⟩ | hw := hw
    · by_cases hc : c' = c
      · rw [hc, put_self] at hd
        cases hd
        exact .inr hpc
      · rw [put_other hc] at hp hd
        exact .inl (.inl ⟨c', hp, hd⟩)
    · exact .inl (.inr hw)
  · rw [put_self] at hw
    cases hw

theorem take_effect (hinv : Inv wl s) (hpc : (s.cpu c).pc = .spin lk next)
    (h : take s c lk next = .ok t) : Effect s t c := by
  obtain ⟨ls, hok, hnext, -, hst⟩ := hinv.at hpc
  obtain ⟨hfree, rfl⟩ := take_ok h
  by_cases hcalm : next.calm = true
  · exact Effect.put (others_take hfree) (by rw [hpc]; rfl) hcalm (fun q => .inl rfl)
  · cases next with
    | waking ch i k =>
      obtain ⟨-, l, hl, -⟩ := hst
      obtain ⟨rfl, -⟩ := List.cons.inj hl
      refine Effect.waking (others_take hfree) (fun l hl => ?_) (by rw [hpc]; rfl) rfl
        (fun q => .inl rfl) (fun q hq => .inl hq)
      rw [Function.update_of_ne (by intro e; cases e)] at hl
      exact hl
    | spin _ _ => cases hnext
    | doze _ _ => cases hnext
    | wake _ _ _ => cases hnext
    | _ => exact absurd rfl hcalm

variable [DecidableEq κ]

theorem waking_effect {u : State C ι κ} (hinv : Inv wl s) (hpc : (s.cpu c).pc = .waking ch i next)
    (hu : u = if (s.slot i).state = .sleeping ∧ (s.slot i).chan = some ch then
      s.setState i .runnable else s)
    (h : release u c (.proc i) (.wake ch (i + 1) next) = .ok t) : Effect s t c := by
  obtain ⟨ls, hok, -, l, rfl, -⟩ := hinv.at hpc
  have hheld := hok.holds.mem.mp List.mem_cons_self
  have hdoze : ∀ l c', (s.cpu c').proc = some i → (s.cpu c').pc ≠ .doze ch l := by
    intro l c' hp hd
    obtain rfl := Option.some.inj (hheld.symm.trans (hinv.doze_holder hp hd))
    cases hpc.symm.trans hd
  have hcpu : u.cpu = s.cpu := by
    rw [hu]
    split <;> rfl
  have hholder : u.holder = s.holder := by
    rw [hu]
    split <;> rfl
  have hslot : ∀ q, Kept (s.slot q) (u.slot q) := by
    intro q
    rw [hu]
    split
    · exact Kept.update (Kept.of_runnable rfl) q
    · exact .inl rfl
  have hi : ¬ ((u.slot i).state = .sleeping ∧ (u.slot i).chan = some ch) := by
    rw [hu]
    split
    · intro hs
      change (Function.update s.slot i _ i).state = _ ∧ _ at hs
      rw [Function.update_self] at hs
      cases hs.1
    · rename_i hno
      exact hno
  obtain ⟨-, rfl⟩ := release_ok h
  rw [hholder]
  rw [put_congr hcpu]
  refine Effect.waking (others_drop hheld) (fun l hl => ?_) (by rw [hpc]; rfl) rfl hslot
    (fun q hq => ?_)
  · rw [Function.update_of_ne (by intro e; cases e)] at hl
    exact hl
  · obtain hlt | heq := Nat.lt_succ_iff_lt_or_eq.mp hq
    · exact .inl hlt
    · obtain rfl := Fin.ext heq
      refine .inr (fun l hw => ?_)
      obtain ⟨c', hp, hd⟩ | ⟨hs, hch, -⟩ := hw
      · by_cases hc : c' = c
        · rw [hc, put_self] at hd
          cases hd
        · rw [put_other hc] at hp hd
          exact hdoze l c' hp hd
      · exact hi ⟨hs, hch⟩

theorem go_effect (hinv : Inv wl s) (h : go wl s c = .ok t) : Effect s t c := by
  unfold go at h
  split at h
  case h_1 =>
    rename_i hpc
    exact take_effect hinv hpc h
  case h_2 =>
    rename_i hpc hp
    obtain ⟨-, rfl⟩ := sched_ok h
    refine Effect.put Others.rfl (by rw [hpc]; rfl) rfl (fun q => ?_)
    show Kept (s.slot q) (Function.update (Function.update s.slot _ _) _ _ q)
    rw [Function.update_idem]
    refine Kept.update ?_ q
    exact Kept.of_runnable setState_state
  case h_3 =>
    rename_i hpc hp
    exact sleep_effect h hpc
  case h_4 =>
    rename_i hpc hp
    exact doze_effect hinv hp hpc h
  case h_5 =>
    rename_i hpc hp
    exact acquire_effect h (by rw [hpc]; rfl) rfl
  case h_6 =>
    rename_i hpc hp
    obtain ⟨hheld, rfl⟩ := release_ok h
    exact Effect.put (others_drop hheld) (by rw [hpc]; rfl) rfl
      (Kept.update (Kept.of_awake (hinv.awake ⟨hp, by rw [hpc]; intro e; cases e⟩)
        (fun e => by cases e)))
  case h_7 =>
    rename_i hpc hp
    have hawake := hinv.awake ⟨hp, by rw [hpc]; intro e; cases e⟩
    obtain ⟨-, rfl⟩ := sched_ok h
    exact Effect.put Others.rfl (by rw [hpc]; rfl) rfl (Kept.update (Kept.of_awake hawake hawake))
  case h_8 =>
    rename_i hpc hp
    exact resume_effect hinv ⟨hp, by rw [hpc]; intro e; cases e⟩ hpc h
  case h_9 =>
    rename_i hpc
    exact wake_effect hinv hpc h
  case h_10 =>
    rename_i hpc
    exact waking_effect hinv hpc rfl h
  case h_11 =>
    rename_i hpc hp
    split at h
    · exact acquire_effect h (by rw [hpc]; rfl) rfl
    · obtain rfl := Except.ok.inj h
      exact Effect.put Others.rfl (by rw [hpc]; rfl) rfl (fun q => .inl rfl)
  case h_12 =>
    rename_i hpc hp
    split at h
    · rename_i hrun
      obtain rfl := Except.ok.inj h
      refine Effect.put Others.rfl (by rw [hpc]; rfl) rfl
        (Kept.update (Kept.of_awake ?_ (fun e => by cases e)))
      rw [hrun]
      decide
    · exact release_effect h (by rw [hpc]; rfl) rfl
  case h_13 =>
    rename_i hpc hp
    obtain ⟨hheld, rfl⟩ := release_ok h
    rw [setCpu_put]
    exact Effect.put (others_drop hheld) (by rw [hpc]; rfl) rfl (fun q => .inl rfl)
  case h_14 => cases h

theorem step_effect (hinv : Inv wl s) (h : step wl s c a = .ok t) : Effect s t c := by
  unfold step at h
  split at h
  case h_1 => exact go_effect hinv h
  case h_2 | h_3 =>
    rename_i hpc
    exact acquire_effect h (by rw [hpc]; rfl) rfl
  case h_4 | h_5 =>
    rename_i hpc
    exact release_effect h (by rw [hpc]; rfl) rfl
  case h_6 | h_7 =>
    rename_i hpc
    obtain rfl := Except.ok.inj h
    exact wakeup_effect (by rw [hpc]; rfl)
  case h_8 | h_9 | h_10 =>
    rename_i hpc hp
    exact acquire_effect h (by rw [hpc]; rfl) rfl
  case h_11 =>
    rename_i p b k hpc
    cases hy : b.apply (s.slot p) with
    | none =>
      rw [hy] at h
      cases h
    | some y =>
      rw [hy] at h
      obtain rfl := Except.ok.inj h
      have hself : s.setSlot p y = s.put c (s.cpu c) (Function.update s.slot p y) s.holder := by
        unfold State.put
        rw [Function.update_eq_self]
        rfl
      rw [hself]
      exact Effect.put Others.rfl (by rw [hpc]; rfl) (by rw [hpc]; rfl)
        (Kept.update (Change.apply_kept hy))
  case h_12 | h_13 | h_14 =>
    rename_i hpc
    split at h
    · obtain rfl := Except.ok.inj h
      exact setCpu_effect (by rw [hpc]; rfl) rfl
    · cases h
  case h_15 =>
    rename_i back hpc
    obtain rfl := Except.ok.inj h
    exact setCpu_effect (by rw [hpc]; rfl) (Pc.interrupted_calm back)
  case h_16 =>
    rename_i hpc
    obtain rfl := Except.ok.inj h
    exact setCpu_effect (by rw [hpc]; rfl) rfl
  case h_17 | h_18 =>
    rename_i hpc
    obtain rfl := Except.ok.inj h
    exact setCpu_effect (by rw [hpc]; rfl) (by rw [hpc]; rfl)
  case h_19 => cases h

/-! ## runs -/

theorem run_awoken {k : List (C × Act ι κ)} (h : Run (guarded (Promised wl) (Step wl)) start k s) :
    Inv wl s ∧ Awoken s := by
  refine h.invariant (I := fun s => Inv wl s ∧ Awoken s) (fun s e t hs ht => ?_)
    ⟨start_inv wl, fun c ch n l p hw => by cases hw⟩
  exact ⟨step_inv hs.1 ht, (step_effect hs.1 ht.2).awoken hs.1 hs.2⟩

/-- a process that waits goes on to wait until it is `RUNNABLE` -/
theorem waits_until {k : List (C × Act ι κ)} (h : Run (guarded (Promised wl) (Step wl)) s k t)
    (hinv : Inv wl s) (hw : Waits s p ch l) :
    Waits t p ch l ∨ ∃ k₁ k₂ u, k = k₁ ++ k₂ ∧ Run (guarded (Promised wl) (Step wl)) s k₁ u ∧
      (u.slot p).state = .runnable := by
  induction h with
  | nil s => exact .inl hw
  | cons ha _ ih =>
    obtain hw' | hrun := (step_effect hinv ha.2).leaves p ch l hw
    · obtain ht | ⟨k₁, k₂, v, hk, hr, hv⟩ := ih (step_inv hinv ha) hw'
      · exact .inl ht
      · exact .inr ⟨_ :: k₁, k₂, v, by rw [hk]; rfl, .cons ha hr, hv⟩
    · exact .inr ⟨[_], _, _, rfl, .single ha, hrun⟩

/-- who has called `sleep(chan, lk)` is `RUNNABLE` again before any `wakeup(chan)` of a CPU that
holds `lk` is at its end -/
theorem no_wakeup_lost {k k' : List (C × Act ι κ)}
    (h : Run (guarded (Promised wl) (Step wl)) start k s) (hw : Waits s p ch l)
    (h' : Run (guarded (Promised wl) (Step wl)) s k' t)
    (hend : (t.cpu c).pc = .wake ch nproc next) (hl : t.holder (.other l) = some c) :
    ∃ k₁ k₂ u, k' = k₁ ++ k₂ ∧ Run (guarded (Promised wl) (Step wl)) s k₁ u ∧
      (u.slot p).state = .runnable := by
  have hnone := (run_awoken (h.append h')).2 c ch nproc l p (by rw [hend]; rfl) hl p.isLt
  exact (waits_until h' (run_inv h) hw).resolve_left hnone

/-! ## `wakeup` comes to its end -/

theorem Inv.go_on (h : Inv wl s) (hout : ¬ (s.cpu c).pc.Outside s.holder) :
    ∃ t, go wl s c = .ok t ∧ Inv wl t :=
  (go_fine h c).resolve_right (fun e => hout e.2)

theorem wakeup_round (hinv : Inv wl s) (hpc : (s.cpu c).pc = .wake ch n next) (hn : n < nproc)
    (hfree : ∀ p, s.holder (.proc p) = none) :
    ∃ k u, Run (guarded (Promised wl) (Step wl)) s k u ∧
      (u.cpu c).pc = .wake ch (n + 1) next ∧ u.holder = s.holder := by
  have hwake : go wl s c = if (s.cpu c).proc = some ⟨n, hn⟩ then
      .ok (s.goto c (.wake ch (n + 1) next))
      else acquire s c (.proc ⟨n, hn⟩) (.waking ch ⟨n, hn⟩ next) := by
    unfold go
    rw [hpc]
    exact dif_pos hn
  by_cases hme : (s.cpu c).proc = some ⟨n, hn⟩
  · rw [if_pos hme] at hwake
    exact ⟨[(c, .go)], _, .single ⟨trivial, hwake⟩, congrArg Cpu.pc put_self, rfl⟩
  · rw [if_neg hme] at hwake
    obtain ⟨s₁, h₁, hinv₁⟩ := hinv.go_on (c := c) (by rw [hpc]; exact id)
    have e₁ := acquire_ok (hwake.symm.trans h₁)
    have hpc₁ : (s₁.cpu c).pc = .spin (.proc ⟨n, hn⟩) (.waking ch ⟨n, hn⟩ next) := by
      rw [e₁]
      exact congrArg Cpu.pc put_self
    have hh₁ : s₁.holder = s.holder := by
      rw [e₁]
      rfl
    -- the lock is free
    obtain ⟨s₂, h₂, hinv₂⟩ := hinv₁.go_on (c := c) (by
      rw [hpc₁, hh₁]
      exact fun e => e (hfree _))
    have htake := h₂
    unfold go at htake
    rw [hpc₁] at htake
    obtain ⟨-, e₂⟩ := take_ok htake
    have hpc₂ : (s₂.cpu c).pc = .waking ch ⟨n, hn⟩ next := by
      rw [e₂]
      exact congrArg Cpu.pc put_self
    have hh₂ : s₂.holder = Function.update s.holder (.proc ⟨n, hn⟩) (some c) := by
      rw [e₂, ← hh₁]
      rfl
    -- and is given back
    obtain ⟨s₃, h₃, -⟩ := hinv₂.go_on (c := c) (by rw [hpc₂]; exact id)
    have hrel := h₃
    unfold go at hrel
    rw [hpc₂] at hrel
    obtain ⟨-, e₃⟩ := release_ok hrel
    refine ⟨[(c, .go), (c, .go), (c, .go)], s₃,
      .cons ⟨trivial, h₁⟩ (.cons ⟨trivial, h₂⟩ (.single ⟨trivial, h₃⟩)), ?_, ?_⟩
    · rw [e₃]
      exact congrArg Cpu.pc put_self
    · have hh₃ : s₃.holder = Function.update s₂.holder (.proc ⟨n, hn⟩) none := by
        rw [e₃]
        dsimp only [State.put]
        split
        · rfl
        · rfl
      rw [hh₃, hh₂, Function.update_idem, ← hfree ⟨n, hn⟩, Function.update_eq_self]

/-- when no `p->lock` is held, `wakeup` comes to its end -/
theorem wakeup_ends (hinv : Inv wl s) (hpc : (s.cpu c).pc = .wake ch n next) (hn : n ≤ nproc)
    (hfree : ∀ p, s.holder (.proc p) = none) :
    ∃ k u, Run (guarded (Promised wl) (Step wl)) s k u ∧
      (u.cpu c).pc = .wake ch nproc next ∧ u.holder = s.holder := by
  induction hm : nproc - n generalizing s n with
  | zero =>
    have hnn : n = nproc := by omega
    exact ⟨[], s, .nil s, hnn ▸ hpc, rfl⟩
  | succ m ih =>
    obtain ⟨k, u, hrun, hpc', hholder⟩ := wakeup_round hinv hpc (by omega) hfree
    have hinv' : Inv wl u := hrun.invariant (fun _ _ _ hs ht => step_inv hs ht) hinv
    obtain ⟨k', v, hrun', hend, hholder'⟩ := ih hinv' hpc' (by omega)
      (fun p => by rw [hholder]; exact hfree p) (by omega)
    exact ⟨k ++ k', v, hrun.append hrun', hend, hholder'.trans hholder⟩

theorem asleep : ∃ s : State Bool Unit Unit, Run (guarded (Promised ()) (Step ())) start
      [(false, .go), (false, .go), (false, .go), (false, .go), (false, .go),
        (false, .acquire (.other ())), (false, .go), (false, .sleep () ()), (false, .go),
        (false, .go), (false, .go), (false, .go)] s ∧ Waits s Proc.initproc () () ∧
    ∃ t, Run (guarded (Promised ()) (Step ())) s
      [(true, .go), (true, .interrupt), (true, .acquire (.other ())), (true, .go)] t ∧
      (t.cpu true).pc = .handler 0 ∧ (t.cpu true).noff = 1 ∧ t.holder (.other ()) = some true ∧
      (t.cpu false).pc = .idle 1 :=
  have hfree : (none : Option Bool) ≠ some false := (Option.some_ne_none false).symm
  have hfree' : (none : Option Bool) ≠ some true := (Option.some_ne_none true).symm
  ⟨_, .cons ⟨trivial, rfl⟩ (.cons ⟨trivial, rfl⟩ (.cons ⟨trivial, rfl⟩ (.cons ⟨trivial, rfl⟩
    (.cons ⟨trivial, rfl⟩ (.cons ⟨hfree, rfl⟩ (.cons ⟨trivial, rfl⟩ (.cons ⟨⟨rfl, rfl⟩, rfl⟩
    (.cons ⟨trivial, rfl⟩ (.cons ⟨trivial, rfl⟩ (.cons ⟨trivial, rfl⟩
    (.cons ⟨trivial, rfl⟩ (.nil _)))))))))))), .inr ⟨rfl, rfl, _, rfl⟩, _,
    .cons ⟨trivial, rfl⟩ (.cons ⟨trivial, rfl⟩ (.cons ⟨hfree', rfl⟩
    (.cons ⟨trivial, rfl⟩ (.nil _)))), rfl, rfl, rfl, rfl⟩

theorem no_wakeup_lost_interrupt : ∃ (s : State Bool Unit Unit) (k : List (Bool × Act Unit Unit))
    (u : State Bool Unit Unit), Waits s Proc.initproc () () ∧
      Run (guarded (Promised ()) (Step ())) s k u ∧ (u.slot Proc.initproc).state = .runnable := by
  obtain ⟨s, hs, hw, t, ht, hpc, hnoff, hheld, hidle⟩ := asleep
  have hinv := run_inv (hs.append ht)
  obtain ⟨ls, hok, hcount⟩ := hinv.locks (c := true) (by rw [hpc]; rfl)
  obtain ⟨l, rfl⟩ := List.length_eq_one_iff.mp (hcount.symm.trans hnoff)
  have hl := hok.holds.eq_of_single hheld
  obtain ⟨ls', hok', -, rfl⟩ := hinv.at hidle
  have hfree : ∀ p, t.holder (.proc p) = none := by
    intro p
    cases hp : t.holder (.proc p) with
    | none => rfl
    | some c =>
      cases c with
      | false => exact absurd (hok'.holds.mem.mpr hp) List.not_mem_nil
      | true => cases (hok.holds.eq_of_single hp).trans hl.symm
  -- the interrupt calls `wakeup`
  have hwake : guarded (Promised ()) (Step ()) t (true, .wakeup ())
      (t.goto true (.wake () 0 (.handler 0))) := by
    refine ⟨⟨by rw [hnoff]; exact Nat.one_ne_zero, fun p => ?_⟩, ?_⟩
    · rw [hfree p]
      exact (Option.some_ne_none true).symm
    · show step () t true (.wakeup ()) = _
      unfold step
      rw [hpc]
  obtain ⟨k, u, hrun, hend, hholder⟩ := wakeup_ends (step_inv hinv hwake)
    (congrArg Cpu.pc put_self) (Nat.zero_le _) hfree
  obtain ⟨k₁, k₂, v, -, hv, hstate⟩ := no_wakeup_lost hs hw (ht.append (.cons hwake hrun)) hend
    (by rw [hholder]; exact hheld)
  exact ⟨s, k₁, v, hw, hv, hstate⟩

end

end Sched
