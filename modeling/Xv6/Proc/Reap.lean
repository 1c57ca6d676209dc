import Xv6.Proc.Steps

/-!
# Every child is reaped once, by its parent or by `initproc`
-/

namespace Proc
open Lib

section
variable {s t : State} {p q : Fin nproc} {addr res : Option Bool}

/-- process `p` has the child in slot `q`: it forked it, or the one that did has exited and `p` is
`initproc` -/
def Child (s : State) (p q : Fin nproc) : Prop :=
  q ≠ initproc ∧ ((s.slot q).state = .live ∨ (s.slot q).state = .zombie) ∧ Waits s p q

/-- `wait2` of process `p` returns the child in slot `q`, and its slot is free -/
structure Delivers (s : State) (p q : Fin nproc) (x : Reap) (t : State) : Prop where
  reaped : t.hist.reaped = x :: s.hist.reaped
  ret : t.pc p = .ret x.child
  waiter : x.waiter = (s.slot p).pid
  child : x.child = (s.slot q).pid
  forker : x.forker = s.hist.forker q
  exited : (x.child, x.status) ∈ s.hist.exited
  parent : x.waiter = x.forker ∨ x.waiter = initpid ∧ x.forker ∈ s.gone
  free : (t.slot q).state = .unused

/-- the parent pointer is the child relation -/
theorem parent_of_child (h : Inv s) (hp : (s.slot p).state = .live) (hc : Child s p q) :
    (s.slot q).parent = some p := by
  obtain ⟨hq, hs, hw⟩ := hc
  obtain ⟨r, hr, hw'⟩ := h.family q hq hs
  have hrl := (h.parent q r hr).1
  have hstay : ∀ {r}, (s.slot r).state = .live → (s.slot r).pid = s.hist.forker q →
      s.hist.forker q ∉ s.gone := by
    intro r hl e hm
    exact h.stays r (Or.inl hl) (e ▸ hm)
  suffices e : r = p by rw [hr, e]
  rcases hw with e | ⟨e, hg⟩
  · rcases hw' with e' | ⟨e', hg'⟩
    · exact h.pidInj r p (by rw [hrl]; decide) (by rw [hp]; decide) (e'.trans e.symm)
    · exact absurd hg' (hstay hp e)
  · rcases hw' with e' | ⟨e', hg'⟩
    · exact absurd hg (hstay hrl e')
    · exact e'.trans e.symm

theorem delivers_of_zombie (h : Inv s) (hz : s.findZombie p = some q) (ha : addr ≠ some false)
    (hr : res ≠ some false) : ∃ x, Delivers s p q x (wait2 s p addr res) := by
  obtain ⟨hpar, hstate⟩ := findZombie_spec hz
  have hlive := (h.parent q p hpar).1
  have hq : q ≠ initproc := by
    rintro rfl
    exact absurd (h.init.1.symm.trans hstate) nofun
  obtain ⟨r, hr', hw⟩ := h.family q hq (Or.inr hstate)
  obtain rfl := Option.some.inj (hpar.symm.trans hr')
  have hgood : ¬ (addr = some false ∨ res = some false) := not_or.mpr ⟨ha, hr⟩
  refine ⟨⟨(s.slot p).pid, (s.slot q).pid, s.hist.forker q, (s.slot q).xstate,
    (s.slot q).counter, since (s.hist.log q)⟩, ?_⟩
  unfold wait2
  rw [hz]
  dsimp only
  rw [if_neg hgood]
  refine ⟨rfl, State.goto_self, rfl, rfl, rfl, h.zombie q hstate, ?_, ?_⟩
  · rcases hw with e | ⟨rfl, hg⟩
    · exact Or.inl e
    · exact Or.inr ⟨h.init.2.1, hg⟩
  · show ((s.setSlot q (freeproc (s.slot q))).slot q).state = _
    rw [State.setSlot_self]
    rfl

/-- the scan of `wait2` returns a child, or -1, or goes to sleep -/
theorem wait2_cases (h : Inv s) (p : Fin nproc) (addr res : Option Bool) :
    (∃ q x, Delivers s p q x (wait2 s p addr res)) ∨
    (wait2 s p addr res = s.goto p (.ret (-1)) ∧ ((addr = some false ∨ res = some false) ∨
      (∀ q, (s.slot q).parent ≠ some p) ∨ (s.slot p).killed = true)) ∨
    wait2 s p addr res = s.goto p (.asleep addr res) := by
  cases hz : s.findZombie p with
  | some q =>
    by_cases hbad : addr = some false ∨ res = some false
    · refine Or.inr (Or.inl ⟨?_, Or.inl hbad⟩)
      unfold wait2
      rw [hz]
      exact if_pos hbad
    · obtain ⟨ha, hr⟩ := not_or.mp hbad
      exact Or.inl ⟨q, delivers_of_zombie h hz ha hr⟩
  | none =>
    have he : wait2 s p addr res = if (¬ ∃ q, (s.slot q).parent = some p) ∨ (s.slot p).killed = true
        then s.goto p (.ret (-1)) else s.goto p (.asleep addr res) := by
      unfold wait2
      rw [hz]
    by_cases hno : (¬ ∃ q, (s.slot q).parent = some p) ∨ (s.slot p).killed = true
    · refine Or.inr (Or.inl ⟨he.trans (if_pos hno), Or.inr ?_⟩)
      exact hno.imp (fun hn q hq => hn ⟨q, hq⟩) id
    · exact Or.inr (Or.inr (he.trans (if_neg hno)))

/-- only the scan of `wait2` adds to the children that were returned -/
theorem reaped_step {a : Act} (h : Inv s) (hs : Step s (p, a) t) :
    t.hist.reaped = s.hist.reaped ∨ ∃ q x, Delivers s p q x t := by
  obtain ⟨hlive, ht⟩ := hs.trans
  cases ht with
  | fork memory hpc =>
    left
    unfold fork
    split
    · rfl
    · dsimp only
      split
      · rfl
      · rfl
  | kill pid hpc =>
    left
    show (kill s pid).1.hist.reaped = _
    unfold kill
    split
    · rfl
    · dsimp only
      rw [(woken_wakeup _ _).hist]
      rfl
  | exit hpc =>
    left
    rw [(exit_eq s p _).2.2.1]
  | scan hpc =>
    rename_i addr res
    rcases wait2_cases h p addr res with hd | ⟨e, -⟩ | e
    · exact Or.inr hd
    · rw [e]
      exact Or.inl rfl
    · rw [e]
      exact Or.inl rfl
  | exiting | waiting | strace | reset | other | parent | child | count => exact Or.inl rfl

/-! ## every run -/

/-- at every interleaving: a child is returned once, by its parent or, where that one has exited,
by `initproc`, with its own status; a `wait2` that returns -1 changes no slot, so that a zombie it
could not deliver is there for the next; and it returns -1 to a live caller with good pointers only
where there is no child -/
theorem reaping (l : List (Fin nproc × Act)) (s : State) (hrun : Run Step start l s) :
    (s.hist.reaped.map Reap.child).Nodup ∧ s.gone.Nodup ∧
    ∀ p a t, Step s (p, a) t →
      (t.hist.reaped = s.hist.reaped ∨ ∃ q x, Delivers s p q x t) ∧
      ∀ addr res v, s.pc p = .wait addr res → t.pc p = .ret v →
        (∃ q x, Delivers s p q x t ∧ v = x.child) ∨
        (v = -1 ∧ t.slot = s.slot ∧ t.hist = s.hist ∧
          (∀ q, s.findZombie p = some q → ∃ x, Delivers t p q x (wait2 t p none none)) ∧
          (addr ≠ some false → res ≠ some false → (s.slot p).killed = false →
            ∀ q, ¬ Child s p q ∧ (s.slot q).parent ≠ some p)) := by
  have h : Inv s := hrun.invariant (fun _ _ _ => Inv.step) inv_start
  refine ⟨h.once, h.exitedNodup, fun p a t hs => ⟨reaped_step h hs, fun addr res v hpc hv => ?_⟩⟩
  have ht : Inv t := h.step hs
  obtain ⟨hlive, htr⟩ := hs.trans
  have he : t = wait2 s p addr res := by
    cases htr with
    | scan h' =>
      obtain ⟨rfl, rfl⟩ := Pc.wait.inj (hpc.symm.trans h')
      rfl
    | fork _ h' | exiting _ h' | waiting _ _ h' | kill _ h' | strace h' | reset h' | other _ h'
    | parent h' | child h' | exit h' | count h' => exact absurd (hpc.symm.trans h') nofun
  rcases wait2_cases h p addr res with ⟨q, x, hd⟩ | ⟨e, hwhy⟩ | e
  · rw [← he] at hd
    exact Or.inl ⟨q, x, hd, Pc.ret.inj (hv.symm.trans hd.ret)⟩
  · rw [← he] at e
    subst e
    rw [State.goto_self] at hv
    refine Or.inr ⟨(Pc.ret.inj hv).symm, rfl, rfl, fun q hq => ?_, fun ha hr hk => ?_⟩
    · exact delivers_of_zombie ht (show (s.goto p _).findZombie p = some q from hq) nofun nofun
    · have hno : ∀ q, (s.slot q).parent ≠ some p := by
        rcases hwhy with hbad | hno | hkill
        · exact absurd hbad (not_or.mpr ⟨ha, hr⟩)
        · exact hno
        · exact absurd (hk.symm.trans hkill) nofun
      exact fun q => ⟨fun hc => hno q (parent_of_child h hlive hc), hno q⟩
  · rw [he, e, State.goto_self] at hv
    exact absurd hv nofun

end

/-- `initproc` forks a child that exits with status 7, and waits for it: first with a pointer that
`copyout` cannot reach, then with a good one -/
def forkExitWait : List (Fin nproc × Act) :=
  [(0, .fork true), (0, .advance), (0, .advance), (0, .advance), (1, .exit 7), (1, .advance),
    (0, .wait2 (some false) none), (0, .advance), (0, .advance), (0, .wait2 (some true) none),
    (0, .advance)]

theorem reaping_forkExitWait : ∃ s, Run Step start forkExitWait s ∧
    s.pc 0 = .ret 2 ∧ s.hist.reaped = [⟨1, 2, 1, 7, 0, 0⟩] ∧
    (s.hist.reaped.map Reap.child).Nodup := by
  have hsome : (exec (fun s e => step s e.1 e.2) start forkExitWait).map
      (fun s => (s.pc 0, s.hist.reaped)) = some (.ret 2, [⟨1, 2, 1, 7, 0, 0⟩]) := by
    decide +kernel
  obtain ⟨s, hs, he⟩ := Option.map_eq_some_iff.mp hsome
  obtain ⟨h1, h2⟩ := Prod.mk.inj he
  have hrun : Run Step start forkExitWait s := Run.of_exec (fun _ _ _ h => h) hs
  exact ⟨s, hrun, h1, h2, (reaping _ s hrun).1⟩

end Proc
