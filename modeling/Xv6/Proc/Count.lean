import Xv6.Proc.Steps

/-!
# The traced flag and the number of calls

`allocproc` and `freeproc` leave `strace` and `counter` alone, and `syscall` counts the call of
`benchmark_reset` itself.  Each process has its own flag and its own count exactly as long as `fork`
takes no slot in which a former process left them set, no `benchmark_reset` returns, and no count
leaves the range of an `int`.
-/

namespace Proc
open Lib

section
variable {s t : State} {p q np : Fin nproc}

/-- the flag and the count of a process are what it did itself, and `wait2` delivered such counts -/
structure Private (s : State) : Prop where
  strace : ∀ q, (s.slot q).state ≠ .unused →
    ((s.slot q).strace = true ↔ Mark.strace ∈ s.hist.log q)
  counter : ∀ q, (s.slot q).state ≠ .unused → (s.slot q).counter = since (s.hist.log q)
  reaped : ∀ x ∈ s.hist.reaped, x.count = x.calls

/-- `fork` takes a slot with a clear flag and a count of zero; a call that returns is not
`benchmark_reset`, and does not take the count out of the range of an `int` -/
def Clean (s : State) (e : Fin nproc × Act) : Prop :=
  match e.2, s.pc e.1 with
  | .fork true, _ => ∀ np, s.firstUnused = some np →
      (s.slot np).strace = false ∧ (s.slot np).counter = 0
  | .advance, .ret _ =>
      (s.hist.log e.1).head? ≠ some .reset ∧ since (s.hist.log e.1) + 1 < 2 ^ 31
  | _, _ => True

/-- what `Private` says of slot `q` does not change -/
structure Kept (s t : State) (q : Fin nproc) : Prop where
  used : (s.slot q).state ≠ .unused
  strace : (t.slot q).strace = (s.slot q).strace
  counter : (t.slot q).counter = (s.slot q).counter
  log : t.hist.log q = s.hist.log q

theorem Private.congr (h : Private s) (hk : ∀ q, (t.slot q).state ≠ .unused → Kept s t q)
    (hr : t.hist.reaped = s.hist.reaped) : Private t := by
  constructor
  · intro q hq
    have hkq := hk q hq
    rw [hkq.strace, hkq.log]
    exact h.strace q hkq.used
  · intro q hq
    have hkq := hk q hq
    rw [hkq.counter, hkq.log]
    exact h.counter q hkq.used
  · rw [hr]
    exact h.reaped

theorem Private.goto (h : Private s) (pc : Pc) : Private (s.goto p pc) :=
  ⟨h.strace, h.counter, h.reaped⟩

theorem Private.woken (h : Private s) (hw : Woken s t) : Private t := by
  refine h.congr (fun q hq => ?_) (by rw [hw.hist])
  rw [hw.slot] at hq
  exact ⟨hq, by rw [hw.slot], by rw [hw.slot], by rw [hw.hist]⟩

theorem Private.setSlot (h : Private s) {x : Slot} (hx : x.state ≠ .unused →
    (s.slot p).state ≠ .unused) (hs : x.strace = (s.slot p).strace)
    (hc : x.counter = (s.slot p).counter) : Private (s.setSlot p x) := by
  refine h.congr (fun q hq => ?_) rfl
  by_cases e : q = p
  · subst e
    rw [State.setSlot_self] at hq
    exact ⟨hx hq, by rw [State.setSlot_self, hs], by rw [State.setSlot_self, hc], rfl⟩
  · rw [State.setSlot_of_ne e] at hq
    exact ⟨hq, by rw [State.setSlot_of_ne e], by rw [State.setSlot_of_ne e], rfl⟩

theorem buried_strace (status : Int) : (buried s p status q).strace = (s.slot q).strace := by
  unfold buried
  dsimp only
  split
  · split
    · rfl
    · rfl
  · split
    · rfl
    · rfl

theorem buried_counter (status : Int) : (buried s p status q).counter = (s.slot q).counter := by
  unfold buried
  dsimp only
  split
  · split
    · rfl
    · rfl
  · split
    · rfl
    · rfl

theorem Private.exit (h : Private s) (hlive : (s.slot p).state = .live) (status : Int) :
    Private (exit s p status) := by
  obtain ⟨hslot, -, hhist, -⟩ := exit_eq s p status
  refine h.congr (fun q hq => ?_) (by rw [hhist])
  rw [hslot, buried_used (by rw [hlive]; exact nofun)] at hq
  exact ⟨hq, by rw [hslot, buried_strace], by rw [hslot, buried_counter], by rw [hhist]⟩

theorem Private.kill (h : Private s) (pid : Int) : Private (kill s pid).1 := by
  unfold Proc.kill
  split
  · exact h
  · exact (h.setSlot (x := { s.slot _ with killed := true }) id rfl rfl).woken (woken_wakeup _ _)

theorem Private.wait2 (h : Private s) (addr res : Option Bool) : Private (wait2 s p addr res) := by
  unfold Proc.wait2
  cases hz : s.findZombie p with
  | none =>
    dsimp only
    split
    · exact h.goto _
    · exact h.goto _
  | some q =>
    dsimp only
    split
    · exact h.goto _
    · have hfree : Private (s.setSlot q (freeproc (s.slot q))) :=
        h.setSlot (fun hx => absurd rfl hx) rfl rfl
      refine ⟨hfree.strace, hfree.counter, fun x hx => ?_⟩
      rcases List.mem_cons.mp hx with rfl | hx
      · refine h.counter q ?_
        rw [(findZombie_spec hz).2]
        exact nofun
      · exact h.reaped x hx

/-! ## what a call does to its own process -/

theorem mark_log_self {m : Mark} : (s.mark p m).hist.log p = m :: s.hist.log p :=
  Function.update_self ..

theorem mark_log_of_ne {m : Mark} (h : q ≠ p) : (s.mark p m).hist.log q = s.hist.log q :=
  Function.update_of_ne h _ _

/-- a process changes its own flag or count, and its log says so -/
theorem private_mark (h : Private s) {x : Slot} {m : Mark} {pc : Pc} (hst : x.state = .live) :
    Private (((s.setSlot p x).mark p m).goto p pc) ↔
      (x.strace = true ↔ Mark.strace ∈ m :: s.hist.log p) ∧
        x.counter = since (m :: s.hist.log p) := by
  have hu : x.state ≠ .unused := by
    rw [hst]
    exact nofun
  have hself : (((s.setSlot p x).mark p m).goto p pc).slot p = x := State.setSlot_self
  have hlog : (((s.setSlot p x).mark p m).goto p pc).hist.log p = m :: s.hist.log p :=
    mark_log_self
  have hother : ∀ q, q ≠ p → (((s.setSlot p x).mark p m).goto p pc).slot q = s.slot q ∧
      (((s.setSlot p x).mark p m).goto p pc).hist.log q = s.hist.log q :=
    fun q e => ⟨State.setSlot_of_ne e, mark_log_of_ne e⟩
  constructor
  · intro hp
    have h1 := hp.strace p (by rwa [hself])
    have h2 := hp.counter p (by rwa [hself])
    rw [hself, hlog] at h1 h2
    exact ⟨h1, h2⟩
  · intro hx
    refine ⟨fun q hq => ?_, fun q hq => ?_, h.reaped⟩
    · by_cases e : q = p
      · rw [e, hself, hlog]
        exact hx.1
      · rw [(hother q e).1] at hq ⊢
        rw [(hother q e).2]
        exact h.strace q hq
    · by_cases e : q = p
      · rw [e, hself, hlog]
        exact hx.2
      · rw [(hother q e).1] at hq ⊢
        rw [(hother q e).2]
        exact h.counter q hq

theorem incr_eq_iff (n : Nat) : incr n = (n + 1 : Nat) ↔ n + 1 < 2 ^ 31 := by
  unfold incr
  rw [Int.bmod_def]
  omega

/-- a call that returns is one more, but for `benchmark_reset` -/
theorem since_done (l : List Mark) :
    since (.done :: l) = if l.head? = some .reset then 0 else since l + 1 := by
  cases l with
  | nil => rfl
  | cons m l => cases m <;> rfl

/-- `counter++` is right unless it counts `benchmark_reset`, or overflows -/
theorem incr_since_iff (l : List Mark) :
    incr (since l) = since (.done :: l) ↔ l.head? ≠ some .reset ∧ since l + 1 < 2 ^ 31 := by
  rw [since_done]
  by_cases hreset : l.head? = some .reset
  · -- the count is 1 behind the call
    obtain ⟨k, rfl⟩ := List.head?_eq_some_iff.mp hreset
    refine iff_of_false ?_ (fun h => h.1 rfl)
    rw [if_pos hreset]
    show ¬ incr 0 = 0
    decide
  · rw [if_neg hreset, incr_eq_iff]
    exact (and_iff_right hreset).symm

theorem private_count (h : Private s) (hlive : (s.slot p).state = .live) (pc : Pc) :
    Private (((s.setSlot p { s.slot p with counter := incr (s.slot p).counter }).mark p .done).goto
      p pc) ↔ (s.hist.log p).head? ≠ some .reset ∧ since (s.hist.log p) + 1 < 2 ^ 31 := by
  have hu : (s.slot p).state ≠ .unused := by
    rw [hlive]
    exact nofun
  have hmem : Mark.strace ∈ Mark.done :: s.hist.log p ↔ Mark.strace ∈ s.hist.log p := by
    rw [List.mem_cons]
    exact or_iff_right nofun
  rw [private_mark h (x := { s.slot p with counter := incr (s.slot p).counter }) hlive, hmem]
  show _ ∧ incr (s.slot p).counter = _ ↔ _
  rw [h.counter p hu, incr_since_iff]
  exact and_iff_right (h.strace p hu)

/-! ## `fork` -/

theorem private_fork (h : Private s) :
    Private (fork s p true) ↔ ∀ np, s.firstUnused = some np →
      (s.slot np).strace = false ∧ (s.slot np).counter = 0 := by
  unfold fork
  cases hf : s.firstUnused with
  | none => exact iff_of_true (h.goto _) nofun
  | some np =>
    have hself : (s.allocproc p np).hist.log np = [] := Function.update_self ..
    have hother : ∀ q, q ≠ np → (s.allocproc p np).hist.log q = s.hist.log q :=
      fun q e => Function.update_of_ne e _ _
    show Private ((s.allocproc p np).goto p (.fork np)) ↔ _
    constructor
    · rintro hp np' e
      obtain rfl := Option.some.inj e
      have hu : ((s.allocproc p np).slot np).state ≠ .unused := by
        rw [allocproc_slot_self]
        exact nofun
      have h1 := hp.strace np hu
      have h2 := hp.counter np hu
      change ((s.allocproc p np).slot np).strace = true ↔ _ ∈ (s.allocproc p np).hist.log np at h1
      change ((s.allocproc p np).slot np).counter = since ((s.allocproc p np).hist.log np) at h2
      rw [allocproc_slot_self, hself] at h1 h2
      exact ⟨Bool.eq_false_iff.mpr (fun e => absurd (h1.mp e) List.not_mem_nil), h2⟩
    · intro hc
      obtain ⟨h1, h2⟩ := hc np rfl
      have ha : Private (s.allocproc p np) := by
        refine ⟨fun q hq => ?_, fun q hq => ?_, h.reaped⟩
        · by_cases e : q = np
          · rw [e, allocproc_slot_self, hself]
            show (s.slot np).strace = true ↔ _
            rw [h1]
            exact iff_of_false nofun List.not_mem_nil
          · rw [allocproc_slot_of_ne e] at hq ⊢
            rw [hother q e]
            exact h.strace q hq
        · by_cases e : q = np
          · rw [e, allocproc_slot_self, hself]
            exact h2
          · rw [allocproc_slot_of_ne e] at hq ⊢
            rw [hother q e]
            exact h.counter q hq
      exact ha.goto _

theorem Private.forkFails (h : Private s) : Private (fork s p false) := by
  unfold fork
  cases hf : s.firstUnused with
  | none => exact h.goto _
  | some np =>
    refine Private.goto ?_ _
    refine h.congr (fun q hq => ?_) rfl
    have e : q ≠ np := by
      rintro rfl
      rw [State.setSlot_self] at hq
      exact hq rfl
    have hslot : ((s.allocproc p np).setSlot np (freeproc ((s.allocproc p np).slot np))).slot q =
        s.slot q := by
      rw [State.setSlot_of_ne e, allocproc_slot_of_ne e]
    rw [hslot] at hq
    exact ⟨hq, by rw [hslot], by rw [hslot], Function.update_of_ne e _ _⟩

/-! ## every run -/

theorem private_start : Private start := by
  have hslot : ∀ q, (start.slot q).strace = false ∧ (start.slot q).counter = 0 := by
    intro q
    unfold start
    dsimp only
    split
    · exact ⟨rfl, rfl⟩
    · exact ⟨rfl, rfl⟩
  refine ⟨fun q _ => ?_, fun q _ => (hslot q).2, nofun⟩
  rw [(hslot q).1]
  exact iff_of_false nofun List.not_mem_nil

/-- a step keeps each process's flag and count its own exactly if it is clean -/
theorem private_step {e : Fin nproc × Act} (hi : Inv s) (h : Private s) (hs : Step s e t) :
    Private t ↔ Clean s e := by
  obtain ⟨p, a⟩ := e
  obtain ⟨hlive, ht⟩ := hs.trans
  have hu : (s.slot p).state ≠ .unused := by
    rw [hlive]
    exact nofun
  unfold Clean
  dsimp only
  cases ht with
  | fork memory hpc =>
    cases memory with
    | true => exact private_fork h
    | false => exact iff_of_true h.forkFails trivial
  | exiting status hpc hp => exact iff_of_true (h.goto _) trivial
  | waiting addr res hpc => exact iff_of_true (h.goto _) trivial
  | kill pid hpc => exact iff_of_true ((h.kill pid).goto _) trivial
  | strace hpc =>
    refine iff_of_true ((private_mark h (x := { s.slot p with strace := true }) hlive).mpr
      ⟨?_, h.counter p hu⟩) trivial
    exact iff_of_true rfl List.mem_cons_self
  | reset hpc =>
    refine iff_of_true ((private_mark h (x := { s.slot p with counter := 0 }) hlive).mpr
      ⟨?_, rfl⟩) trivial
    rw [List.mem_cons]
    exact (h.strace p hu).trans (or_iff_right nofun).symm
  | other v hpc => exact iff_of_true (h.goto _) trivial
  | parent hpc =>
    rw [hpc]
    exact iff_of_true ((h.setSlot (x := { s.slot _ with parent := some p }) id rfl rfl).goto _)
      trivial
  | child hpc =>
    rename_i np
    rw [hpc]
    have hnp : (s.slot np).state ≠ .unused := by
      rw [(hi.child p np true hlive (by rw [hpc]; rfl)).1]
      exact nofun
    exact iff_of_true (((h.setSlot (x := { s.slot np with state := .live }) (fun _ => hnp) rfl
      rfl).goto _).goto _) trivial
  | exit hpc =>
    rw [hpc]
    exact iff_of_true (h.exit hlive _) trivial
  | scan hpc =>
    rw [hpc]
    exact iff_of_true (h.wait2 _ _) trivial
  | count hpc =>
    rw [hpc]
    exact private_count h hlive _

/-- in a run of clean steps the flag and the count of each process are its own, and the next step
keeps them so exactly if it is clean -/
theorem private_iff (l : List (Fin nproc × Act)) (s : State)
    (hrun : Run (guarded Clean Step) start l s) :
    Private s ∧ ∀ e t, Step s e t → (Private t ↔ Clean s e) := by
  have hstep : ∀ s e t, Inv s ∧ Private s → guarded Clean Step s e t → Inv t ∧ Private t := by
    rintro s e t ⟨hi, h⟩ ⟨hc, hs⟩
    exact ⟨hi.step hs, (private_step hi h hs).mpr hc⟩
  obtain ⟨hi, h⟩ := hrun.invariant (I := fun s => Inv s ∧ Private s) hstep
    ⟨inv_start, private_start⟩
  exact ⟨h, fun e t hs => private_step hi h hs⟩

end

def forks : List (Fin nproc × Act) :=
  [(0, .fork true), (0, .advance), (0, .advance), (0, .advance)]

def traced : List (Fin nproc × Act) := forks ++ [(1, .strace), (1, .advance)]

def reused : List (Fin nproc × Act) :=
  traced ++ [(1, .exit 0), (1, .advance), (0, .wait2 none none), (0, .advance), (0, .advance)] ++ forks

theorem private_traced : ∃ s, Run (guarded Clean Step) start traced s ∧
    (s.slot 1).strace = true ∧ (s.slot 1).counter = 1 ∧ Private s := by
  have hsome : (exec (fun s e => if ((s.hist.log e.1).head? ≠ some .reset ∧
      since (s.hist.log e.1) = 0) ∧
      (s.firstUnused.map (fun np => ((s.slot np).strace, (s.slot np).counter))) = some (false, 0)
      then step s e.1 e.2 else none) start traced).map
      (fun s => ((s.slot 1).strace, (s.slot 1).counter)) = some (true, 1) := by
    decide +kernel
  obtain ⟨s, hs, he⟩ := Option.map_eq_some_iff.mp hsome
  obtain ⟨h1, h2⟩ := Prod.mk.inj he
  have hrun : Run (guarded Clean Step) start traced s := by
    refine Run.of_exec (fun u e t h => ?_) hs
    split at h
    · rename_i hc
      refine ⟨?_, h⟩
      unfold Clean
      split
      · intro np hnp
        rw [hnp] at hc
        exact Prod.mk.inj (Option.some.inj hc.2)
      · refine ⟨hc.1.1, ?_⟩
        rw [hc.1.2]
        decide
      · trivial
    · exact absurd h nofun
  exact ⟨s, hrun, h1, h2, (private_iff _ s hrun).1⟩

def reap : List (Fin nproc × Act) :=
  [(1, .exit 0), (1, .advance), (0, .wait2 none (some true)), (0, .advance)]

/-- the second child has called nothing: it is traced, and when it has exited at once `wait2`
delivers a count of 1; so it does for a child that only called `benchmark_reset` -/
theorem reused_slot_leaks :
    (∃ s, Run Step start reused s ∧ (s.slot 1).state = .live ∧ (s.slot 1).strace = true ∧
      s.hist.log 1 = [] ∧ ¬ Private s) ∧
    (∃ s, Run Step start (reused ++ reap) s ∧
      s.hist.reaped.head?.map (fun x => (x.child, x.count, x.calls)) = some (3, 1, 0)) ∧
    ∃ s, Run Step start (forks ++ [(1, .benchmarkReset), (1, .advance)] ++ reap) s ∧
      s.hist.reaped.head?.map (fun x => (x.child, x.count, x.calls)) = some (2, 1, 0) := by
  have hreap : ∀ {l x}, (exec (fun s e => step s e.1 e.2) start l).map (fun s =>
      s.hist.reaped.head?.map (fun x => (x.child, x.count, x.calls))) = some x →
      ∃ s, Run Step start l s ∧
        s.hist.reaped.head?.map (fun x => (x.child, x.count, x.calls)) = x := by
    intro l x hsome
    obtain ⟨s, hs, he⟩ := Option.map_eq_some_iff.mp hsome
    exact ⟨s, Run.of_exec (fun _ _ _ h => h) hs, he⟩
  refine ⟨?_, hreap (by decide +kernel), hreap (by decide +kernel)⟩
  have hsome : (exec (fun s e => step s e.1 e.2) start reused).map
      (fun s => ((s.slot 1).state, (s.slot 1).strace, s.hist.log 1)) = some (.live, true, []) := by
    decide +kernel
  obtain ⟨s, hs, he⟩ := Option.map_eq_some_iff.mp hsome
  simp only [Prod.mk.injEq] at he
  obtain ⟨h1, h2, h3⟩ := he
  refine ⟨s, Run.of_exec (fun _ _ _ h => h) hs, h1, h2, h3, fun hp => ?_⟩
  have hlog := (hp.strace 1 (by rw [h1]; exact nofun)).mp h2
  rw [h3] at hlog
  exact absurd hlog List.not_mem_nil

end Proc
