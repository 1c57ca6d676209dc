import Xv6.Pipe.Model

/-!
# Lost wakeups

`Sound`: nobody sleeps on a channel without a reason.  While a process holds the lock it may owe a
`wakeup`; `Care` says which, at each point of its call.  `pipewrite` pays on every way out but one,
the one for a writer that was killed: `Told` is the condition that it owes nothing there.
-/

namespace Pipe
open Lib

/-- a reader sleeps when there is nothing to read, and a writer when there is no room -/
def Sound (s : State) : Prop :=
  (∀ q, s.asleep q = some .nread → s.Empty ∧ s.buf.writeopen = true) ∧
    ∀ q, s.asleep q = some .nwrite → s.Full ∧ s.buf.readopen = true

/-- no wakeup is lost: whenever the lock is free, nobody sleeps without a reason -/
def NoLost (s : State) : Prop := s.lock = none → Sound s

/-- a writer that finds itself killed has stored nothing since it took the lock, or no reader
sleeps -/
def Told (s : State) (e : Nat × Act) : Prop :=
  ∀ src n i fresh, e.2 = .advance → s.pc e.1 = .writing src n i fresh → i < n →
    s.killed e.1 = true → fresh = 0 ∨ ∀ q, s.asleep q ≠ some .nread

/-- what holds while the process at this point has the lock -/
def Care (s : State) : Pc → Prop
  | .writing _ _ _ fresh =>
    (∀ q, s.asleep q = some .nread → s.buf.writeopen = true ∧ (fresh = 0 → s.Empty)) ∧
      (∀ q, s.asleep q = some .nwrite → s.Full ∧ s.buf.readopen = true) ∧
      (0 < fresh → s.buf.readopen = true)
  | .storing _ _ _ fresh =>
    (∀ q, s.asleep q = some .nread → s.buf.writeopen = true ∧ (fresh = 0 → s.Empty)) ∧
      (∀ q, s.asleep q = some .nwrite → s.Full ∧ s.buf.readopen = true) ∧
      s.buf.readopen = true
  | .dozing _ _ => Sound s ∧ s.Empty ∧ s.buf.writeopen = true
  | .copying _ _ _ =>
    (∀ q, s.asleep q = some .nread → s.Empty ∧ s.buf.writeopen = true) ∧
      ∀ q, s.asleep q = some .nwrite → s.buf.readopen = true
  | _ => Sound s

/-- the bytes that a writer stored since it took the lock -/
def Pc.fresh : Pc → Nat
  | .writing _ _ _ fresh => fresh
  | .storing _ _ _ fresh => fresh
  | _ => 0

structure Inv (s : State) : Prop where
  disc : Disc s
  /-- what the writer with the lock stored is still there -/
  queue : ∃ xs, s.buf.Holds word pipeSize xs ∧ ∀ p, s.lock = some p → (s.pc p).fresh ≤ xs.length
  free : NoLost s
  care : ∀ p, s.lock = some p → Care s (s.pc p)

section
variable {s t : State} {p q : Nat} {c : Chan} {pc : Pc}

theorem Disc.awake_of_lock (h : Disc s) (hl : s.lock = some p) : s.asleep p = none :=
  h.awake (Disc.waits_of_locked ((h.lock p).mpr hl))

theorem inv_fresh (data : Nat → UInt8) : Inv (fresh data) where
  disc := disc_fresh data
  queue := ⟨[], .empty data (by decide), nofun⟩
  free := fun _ => ⟨nofun, nofun⟩
  care := nofun

theorem Sound.mono (h : Sound s) (hb : t.buf = s.buf)
    (ha : ∀ q c, t.asleep q = some c → s.asleep q = some c) : Sound t := by
  unfold Sound State.Empty State.Full
  rw [hb]
  exact ⟨fun q hq => h.1 q (ha q _ hq), fun q hq => h.2 q (ha q _ hq)⟩

theorem Care.mono (h : Care s pc) (hb : t.buf = s.buf)
    (ha : ∀ q c, t.asleep q = some c → s.asleep q = some c) : Care t pc := by
  have hsound : Sound s → Sound t := fun hs => hs.mono hb ha
  have hempty : t.Empty ↔ s.Empty := by unfold State.Empty; rw [hb]
  have hfull : t.Full ↔ s.Full := by unfold State.Full; rw [hb]
  cases pc with
  | out | wantWrite | wantRead | reading => exact hsound h
  | writing | storing =>
    unfold Care at h ⊢
    rw [hb, hempty, hfull]
    exact ⟨fun q hq => h.1 q (ha q _ hq), fun q hq => h.2.1 q (ha q _ hq), h.2.2⟩
  | dozing =>
    unfold Care at h ⊢
    rw [hb, hempty]
    exact ⟨hsound h.1, h.2⟩
  | copying =>
    unfold Care at h ⊢
    rw [hb, hempty]
    exact ⟨fun q hq => h.1 q (ha q _ hq), fun q hq => h.2 q (ha q _ hq)⟩

theorem Inv.release (ht : Disc t) (hl : t.lock = none)
    (hq : ∃ xs, t.buf.Holds word pipeSize xs) (hs : Sound t) : Inv t := by
  obtain ⟨xs, hxs⟩ := hq
  exact ⟨ht, ⟨xs, hxs, fun p hp => absurd (hl.symm.trans hp) nofun⟩, fun _ => hs,
    fun p hp => absurd (hl.symm.trans hp) nofun⟩

/-- a step of process `p`, which has the lock then -/
theorem Inv.keep {xs : List UInt8} (ht : Disc t) (hl : t.lock = some p)
    (hxs : t.buf.Holds word pipeSize xs) (hf : (t.pc p).fresh ≤ xs.length)
    (hc : Care t (t.pc p)) : Inv t := by
  refine ⟨ht, ⟨xs, hxs, fun q hq => ?_⟩, fun hn => absurd (hn.symm.trans hl) nofun, fun q hq => ?_⟩
  · obtain rfl := Option.some.inj (hl.symm.trans hq)
    exact hf
  · obtain rfl := Option.some.inj (hl.symm.trans hq)
    exact hc

theorem Inv.holds (h : Inv s) : ∃ xs, s.buf.Holds word pipeSize xs := by
  obtain ⟨xs, hxs, -⟩ := h.queue
  exact ⟨xs, hxs⟩

theorem Inv.wrote {v : Int} (h : Inv s) (hl : s.lock = some p) (ht : Disc ((s.wakeup p .nread).ret p v))
    (hw : ∀ q, s.asleep q = some .nwrite → s.Full ∧ s.buf.readopen = true) :
    Inv ((s.wakeup p .nread).ret p v) := by
  have ha := h.disc.awake_of_lock hl
  refine Inv.release ht rfl h.holds ⟨fun q hq => ?_, fun q hq => ?_⟩
  · exact absurd rfl (State.asleep_wakeup_of_awake ha hq).2
  · exact hw q (State.asleep_wakeup_of_awake ha hq).1

theorem Inv.finish (h : Inv s) (hl : s.lock = some p) {got : List UInt8} (ht : Disc (s.finish p got))
    (hr : ∀ q, s.asleep q = some .nread → s.Empty ∧ s.buf.writeopen = true) :
    Inv (s.finish p got) := by
  have ha := h.disc.awake_of_lock hl
  refine Inv.release ht rfl h.holds ⟨fun q hq => ?_, fun q hq => ?_⟩
  · exact hr q (State.asleep_wakeup_of_awake ha hq).1
  · exact absurd rfl (State.asleep_wakeup_of_awake ha hq).2

theorem Inv.refused {src : Nat → Option UInt8} {n : Int} {i fresh : Nat} (h : Inv s)
    (e : s.pc p = .writing src n i fresh) (ht : Disc (s.ret p (-1)))
    (hz : fresh = 0 ∨ ∀ q, s.asleep q ≠ some .nread) : Inv (s.ret p (-1)) := by
  have hc := h.care p (h.disc.holds e rfl)
  rw [e] at hc
  refine Inv.release ht rfl h.holds ⟨fun q hq => ?_, hc.2.1⟩
  rcases hz with hz | hz
  · exact ⟨(hc.1 q hq).2 hz, (hc.1 q hq).1⟩
  · exact absurd hq (hz q)

theorem Inv.store {src : Nat → Option UInt8} {n : Int} {i fresh : Nat} {ch : UInt8} (h : Inv s)
    (e : s.pc p = .storing src n i fresh) (hf : ¬ s.Full)
    (ht : Disc ((s.put ch).goto p (.writing src n (i + 1) (fresh + 1)))) :
    Inv ((s.put ch).goto p (.writing src n (i + 1) (fresh + 1))) := by
  have hl := h.disc.holds e rfl
  have hc := h.care p hl
  obtain ⟨xs, hxs, hfresh⟩ := h.queue
  have hle := hfresh p hl
  rw [e] at hc hle
  have hroom : xs.length < pipeSize := by
    have hne : xs.length ≠ pipeSize := fun he => hf ((hxs.full_iff pipeSize_lt).mpr he)
    exact Nat.lt_of_le_of_ne hxs.le hne
  refine Inv.keep ht hl (hxs.push pipeSize_dvd hroom ch) ?_ ?_
  · rw [State.goto_self, List.length_append]
    exact Nat.succ_le_succ hle
  · rw [State.goto_self]
    exact ⟨fun q hq => ⟨(hc.1 q hq).1, nofun⟩, fun q hq => absurd (hc.2.1 q hq).1 hf, fun _ => hc.2.2⟩

theorem Inv.copy {dst : Nat → Bool} {n : Int} {got got' : List UInt8} (h : Inv s)
    (e : s.pc p = .copying dst n got) (he : ¬ s.Empty)
    (ht : Disc (s.take.goto p (.copying dst n got'))) :
    Inv (s.take.goto p (.copying dst n got')) := by
  have hl := h.disc.holds e rfl
  have hc := h.care p hl
  obtain ⟨xs, hxs⟩ := h.holds
  obtain ⟨x, ys, rfl⟩ : ∃ x ys, xs = x :: ys :=
    List.exists_cons_of_ne_nil (fun hn => he ((hxs.empty_iff pipeSize_lt).mpr hn))
  rw [e] at hc
  refine Inv.keep ht hl (hxs.pop pipeSize_dvd) ?_ ?_
  · rw [State.goto_self]
    exact Nat.zero_le _
  · rw [State.goto_self]
    exact ⟨fun q hq => absurd (hc.1 q hq).1 he, hc.2⟩

theorem Inv.move (h : Inv s) (hm : Move s p t) (htold : Told s (p, .advance)) : Inv t := by
  have ht := h.disc.move hm
  obtain ⟨xs, hxs, hfresh⟩ := h.queue
  cases hm with
  | lockWrite e hl ha =>
    have hs := h.free hl
    refine Inv.keep ht rfl hxs ?_ ?_
    · rw [State.goto_self]
      exact Nat.zero_le _
    · rw [State.goto_self]
      exact ⟨fun q hq => ⟨(hs.1 q hq).2, fun _ => (hs.1 q hq).1⟩, hs.2, nofun⟩
  | lockRead e hl ha =>
    refine Inv.keep ht rfl hxs ?_ ?_
    · rw [State.goto_self]
      exact Nat.zero_le _
    · rw [State.goto_self]
      exact h.free hl
  | refused e hi hk =>
    have hc := h.care p (h.disc.holds e rfl)
    rw [e] at hc
    refine h.refused e ht ?_
    rcases hk with hr | hk
    · -- the read end is open as long as the writer keeps the lock
      refine Or.inl (Nat.eq_zero_of_not_pos (fun hpos => ?_))
      exact absurd (hr.symm.trans (hc.2.2 hpos)) nofun
    · exact htold _ _ _ _ rfl e hi hk
  | @tested src n i fresh e hi hr =>
    have hl := h.disc.holds e rfl
    have hc := h.care p hl
    have hle := hfresh p hl
    rw [e] at hc hle
    refine Inv.keep (p := p) ht hl hxs ?_ ?_
    · rw [State.goto_self]
      exact hle
    · rw [State.goto_self]
      exact ⟨hc.1, hc.2.1, hr⟩
  | wrote e hi =>
    have hc := h.care p (h.disc.holds e rfl)
    rw [e] at hc
    exact h.wrote (h.disc.holds e rfl) ht hc.2.1
  | badSrc e hf hs =>
    have hc := h.care p (h.disc.holds e rfl)
    rw [e] at hc
    exact h.wrote (h.disc.holds e rfl) ht hc.2.1
  | full e hf =>
    have hl := h.disc.holds e rfl
    have hc := h.care p hl
    have ha := h.disc.awake_of_lock hl
    rw [e] at hc
    refine Inv.release ht rfl h.holds ⟨fun q hq => ?_, fun q hq => ?_⟩
    · change Function.update (s.wakeup p .nread).asleep p (some .nwrite) q = some .nread at hq
      by_cases hqp : q = p
      · subst hqp
        rw [Function.update_self] at hq
        exact absurd hq nofun
      · rw [Function.update_of_ne hqp] at hq
        exact absurd rfl (State.asleep_wakeup_of_awake ha hq).2
    · exact ⟨hf, hc.2.2⟩
  | store e hf hs => exact h.store e hf ht
  | killed e he hw =>
    have hc := h.care p (h.disc.holds e rfl)
    rw [e] at hc
    exact Inv.release ht rfl h.holds ⟨hc.1, hc.2⟩
  | doze e he hw =>
    have hl := h.disc.holds e rfl
    have hc := h.care p hl
    rw [e] at hc
    refine Inv.keep (p := p) ht hl hxs ?_ ?_
    · rw [State.goto_self]
      exact Nat.zero_le _
    · rw [State.goto_self]
      exact ⟨hc, he, hw⟩
  | start e he =>
    have hl := h.disc.holds e rfl
    have hc := h.care p hl
    rw [e] at hc
    refine Inv.keep (p := p) ht hl hxs ?_ ?_
    · rw [State.goto_self]
      exact Nat.zero_le _
    · rw [State.goto_self]
      exact ⟨hc.1, fun q hq => (hc.2 q hq).2⟩
  | sleep e =>
    have hc := h.care p (h.disc.holds e rfl)
    rw [e] at hc
    refine Inv.release ht rfl h.holds ⟨fun q _ => hc.2, fun q hq => ?_⟩
    change Function.update s.asleep p (some .nread) q = some .nwrite at hq
    by_cases hqp : q = p
    · subst hqp
      rw [Function.update_self] at hq
      exact absurd hq nofun
    · rw [Function.update_of_ne hqp] at hq
      exact hc.1.2 q hq
  | done e hd =>
    have hc := h.care p (h.disc.holds e rfl)
    rw [e] at hc
    exact h.finish (h.disc.holds e rfl) ht hc.1
  | copy e hi he hd => exact h.copy e he ht
  | badDst e hi he hd =>
    -- there was something to read, so no reader sleeps
    have hl := h.disc.holds e rfl
    have hc := h.care p hl
    have ha := h.disc.awake_of_lock hl
    rw [e] at hc
    obtain ⟨x, ys, rfl⟩ : ∃ x ys, xs = x :: ys :=
      List.exists_cons_of_ne_nil (fun hn => he ((hxs.empty_iff pipeSize_lt).mpr hn))
    refine Inv.release ht rfl ⟨ys, hxs.pop pipeSize_dvd⟩ ⟨fun q hq => ?_, fun q hq => ?_⟩
    · exact absurd (hc.1 q (State.asleep_wakeup_of_awake ha hq).1).1 he
    · exact absurd rfl (State.asleep_wakeup_of_awake ha hq).2

theorem Inv.call {v : Int} (h : Inv s) (e : s.pc p = .out v) (ht : Disc (s.goto p pc)) :
    Inv (s.goto p pc) := by
  have hne : ∀ q, s.lock = some q → q ≠ p := by
    rintro q hq rfl
    have hl := (h.disc.lock q).mpr hq
    rw [e] at hl
    exact absurd hl nofun
  obtain ⟨xs, hxs, hfresh⟩ := h.queue
  refine ⟨ht, ⟨xs, hxs, fun q hq => ?_⟩, h.free, fun q hq => ?_⟩
  · rw [State.goto_of_ne (hne q hq)]
    exact hfresh q hq
  · rw [State.goto_of_ne (hne q hq)]
    exact (h.care q hq).mono rfl (fun _ _ ha => ha)

theorem Inv.close {v : Int} (h : Inv s) (e : s.pc p = .out v) (hl : s.lock = none) (w : Bool)
    (ht : Disc (pipeclose s p w)) : Inv (pipeclose s p w) := by
  have ha : s.asleep p = none := h.disc.awake (by rw [e]; rfl)
  have hs := h.free hl
  cases w with
  | true =>
    refine Inv.release ht hl h.holds ⟨fun q hq => ?_, fun q hq => ?_⟩
    · exact absurd rfl (State.asleep_wakeup_of_awake ha hq).2
    · exact hs.2 q (State.asleep_wakeup_of_awake ha hq).1
  | false =>
    refine Inv.release ht hl h.holds ⟨fun q hq => ?_, fun q hq => ?_⟩
    · exact hs.1 q (State.asleep_wakeup_of_awake ha hq).1
    · exact absurd rfl (State.asleep_wakeup_of_awake ha hq).2

theorem Inv.step {e : Nat × Act} (h : Inv s) (hs : guarded Told Step s e t) : Inv t := by
  obtain ⟨htold, hstep⟩ := hs
  have htr := hstep.trans
  have ht := h.disc.trans htr
  cases htr with
  | kill p q =>
    have hsub : ∀ r c, (s.kill q).asleep r = some c → s.asleep r = some c :=
      fun r c => State.asleep_kill
    obtain ⟨xs, hxs, hfresh⟩ := h.queue
    exact ⟨ht, ⟨xs, hxs, hfresh⟩, fun hl => (h.free hl).mono rfl hsub,
      fun r hr => (h.care r hr).mono rfl hsub⟩
  | move hm => exact h.move hm htold
  | write src n e => exact h.call e ht
  | read dst n e => exact h.call e ht
  | close w e hl => exact h.close e hl w ht

/-- a killed writer that stored bytes and wakes nobody loses the wakeup of a reader -/
theorem Inv.lost {e : Nat × Act} (h : Inv s) (hs : Step s e t) (hn : ¬ Told s e) : ¬ NoLost t := by
  intro hlost
  obtain ⟨p, a⟩ := e
  apply hn
  intro src n i fresh ha e hi hk
  obtain rfl : a = .advance := ha
  dsimp only at e hk
  have hl := h.disc.holds e rfl
  have hret : t = s.ret p (-1) := by
    have hadv : advance s p = some t := hs
    unfold advance at hadv
    rw [e] at hadv
    dsimp only at hadv
    rw [if_pos hi, if_pos (Or.inr hk)] at hadv
    exact (Option.some.inj hadv).symm
  subst hret
  by_contra hno
  obtain ⟨hz, hq⟩ := not_or.mp hno
  obtain ⟨q, hq⟩ : ∃ q, s.asleep q = some .nread := by
    by_contra hall
    exact hq (fun q hq => hall ⟨q, hq⟩)
  have hempty : s.Empty := ((hlost rfl).1 q hq).1
  obtain ⟨xs, hxs, hfresh⟩ := h.queue
  have hle := hfresh p hl
  rw [e, (hxs.empty_iff pipeSize_lt).mp hempty] at hle
  exact hz (Nat.le_zero.mp hle)

end

/-- in any interleaving where killed writers owe nothing no wakeup is lost, and the first killed
writer that does owe one loses it -/
theorem noLost_iff (data : Nat → UInt8) (l : List (Nat × Act)) (s : State)
    (hrun : Run (guarded Told Step) (fresh data) l s) :
    NoLost s ∧ ∀ e t, Step s e t → (NoLost t ↔ Told s e) := by
  have h : Inv s := hrun.invariant (fun _ _ _ hi hs => hi.step hs) (inv_fresh data)
  refine ⟨h.free, fun e t hs => ⟨fun ht => ?_, fun ht => (h.step ⟨ht, hs⟩).free⟩⟩
  by_contra hn
  exact h.lost hs hn ht

def readerSleeps : List (Nat × Act) :=
  [(0, .read (fun _ => true) 1), (0, .advance), (0, .advance), (0, .advance)]

/-- a process that nobody kills is told nothing -/
theorem told_of_alive {s : State} {e : Nat × Act} (h : s.killed e.1 = false) : Told s e :=
  fun _ _ _ _ _ _ _ hk => absurd (h.symm.trans hk) nofun

theorem noLost_readerSleeps : ∃ s, Run (guarded Told Step) (fresh (fun _ => 0)) readerSleeps s ∧
    s.asleep 0 = some .nread ∧ NoLost s := by
  have hsome : (exec (fun s e => if s.killed e.1 = false then step s e.1 e.2 else none)
      (fresh (fun _ => 0)) readerSleeps).map (fun s => s.asleep 0) = some (some .nread) := by
    decide +kernel
  obtain ⟨s, hs, ha⟩ := Option.map_eq_some_iff.mp hsome
  have hrun : Run (guarded Told Step) (fresh (fun _ => 0)) readerSleeps s := by
    refine Run.of_exec (fun u e t h => ?_) hs
    split at h
    · rename_i hk
      exact ⟨told_of_alive hk, h⟩
    · exact absurd h nofun
  exact ⟨s, hrun, ha, (noLost_iff _ _ s hrun).1⟩

/-- a writer of two bytes is killed between them: the reader sleeps on, with a byte to read -/
theorem killed_writer_loses_wakeup : ∃ s, Run Step (fresh (fun _ => 0)) (readerSleeps ++
      [(1, .write (fun _ => some 7) 2), (1, .advance), (1, .advance), (1, .advance), (2, .kill 1),
        (1, .advance)]) s ∧
    ¬ NoLost s := by
  have hsome : (exec (fun s e => step s e.1 e.2) (fresh (fun _ => 0)) (readerSleeps ++
      [(1, .write (fun _ => some 7) 2), (1, .advance), (1, .advance), (1, .advance), (2, .kill 1),
        (1, .advance)])).map (fun s => (s.lock, s.asleep 0, s.buf.nread, s.buf.nwrite))
      = some (none, some .nread, 0, 1) := by
    decide +kernel
  obtain ⟨s, hs, he⟩ := Option.map_eq_some_iff.mp hsome
  simp only [Prod.mk.injEq] at he
  obtain ⟨hl, ha, h0, h1⟩ := he
  refine ⟨s, Run.of_exec (fun _ _ _ h => h) hs, fun hno => ?_⟩
  have hempty : s.buf.nread = s.buf.nwrite := ((hno hl).1 0 ha).1
  rw [h0, h1] at hempty
  exact absurd hempty (by decide)

end Pipe
