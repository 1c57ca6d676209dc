import Xv6.Log.Steps

/-!
# Crash safety of the log

`World.Inv`: in every state a disk holds the content of the committed groups, and each operation
has all of its writes in one place.  `crash_atomic` is what follows for a crash in any reachable
state, in particular inside `commit` and inside a recovery.
-/

namespace Log
open Lib

/-! ## groups -/

theorem applyWrites_snoc (ws : List Write) (w : Write) (d : Disk) :
    applyWrites (ws ++ [w]) d = Function.update (applyWrites ws d) w.block w.data := by
  unfold applyWrites
  rw [List.foldl_append, List.foldl_cons, List.foldl_nil]

theorem applyGroups_snoc (gs : List (List Write)) (g : List Write) (d : Disk) :
    applyGroups (gs ++ [g]) d = applyWrites g (applyGroups gs d) := by
  unfold applyGroups
  rw [List.foldl_append, List.foldl_cons, List.foldl_nil]

@[simp] theorem opWrites_nil (op : Nat) : opWrites op [] = [] := rfl

@[simp] theorem opWrites_append (op : Nat) (ws ws' : List Write) :
    opWrites op (ws ++ ws') = opWrites op ws ++ opWrites op ws' := List.filter_append ws ws'

theorem opWrites_singleton (op : Nat) (w : Write) :
    opWrites op [w] = if w.op = op then [w] else [] := by
  simp [opWrites, List.filter_cons]

theorem opWrites_eq_nil {op : Nat} {ws : List Write} :
    opWrites op ws = [] ↔ ∀ w ∈ ws, w.op ≠ op := by
  simp [opWrites]

/-! ## operations -/

/-- where the writes of each operation are -/
structure Hist.Inv (h : Hist) : Prop where
  nodup : h.active.Nodup
  activeBegun : ∀ op ∈ h.active, op ∈ h.begun
  writtenBegun : ∀ w ∈ h.written, w.op ∈ h.begun
  pendingOps : ∀ w ∈ h.pending, w.op ∈ h.active ∨ w.op ∈ h.ended
  committedOps : ∀ w ∈ h.committed.flatten, w.op ∈ h.ended
  /-- an operation that runs has all its writes in the group to come -/
  running : ∀ op ∈ h.active, opWrites op h.written = opWrites op h.pending ∧
    opWrites op h.committed.flatten = []
  /-- so has one whose group is not committed yet -/
  waiting : ∀ op, opWrites op h.pending ≠ [] → opWrites op h.pending = opWrites op h.written ∧
    opWrites op h.committed.flatten = []
  whole : ∀ op, opWrites op h.committed.flatten = [] ∨
    opWrites op h.committed.flatten = opWrites op h.written

theorem Hist.Inv.begin {h : Hist} (hi : h.Inv) {op : Nat} (hop : op ∉ h.begun) :
    Hist.Inv { h with begun := op :: h.begun, active := op :: h.active } := by
  have hnone : ∀ ws, (∀ w ∈ ws, w ∈ h.written) → opWrites op ws = [] := fun ws hws =>
    opWrites_eq_nil.mpr (fun w hw e => hop (e ▸ hi.writtenBegun w (hws w hw)))
  have hw := hnone h.written (fun _ hw => hw)
  refine ⟨?_, fun o ho => ?_, fun w hw => List.mem_cons_of_mem _ (hi.writtenBegun w hw),
    fun w hw => ?_, hi.committedOps, fun o ho => ?_, hi.waiting, hi.whole⟩
  · exact List.nodup_cons.mpr ⟨fun ha => hop (hi.activeBegun op ha), hi.nodup⟩
  · rcases List.mem_cons.mp ho with rfl | h1
    · exact List.mem_cons_self
    · exact List.mem_cons_of_mem _ (hi.activeBegun o h1)
  · exact (hi.pendingOps w hw).imp (List.mem_cons_of_mem _) id
  · rcases List.mem_cons.mp ho with rfl | h1
    · refine ⟨?_, ?_⟩
      · by_cases hp : opWrites o h.pending = []
        · exact hw.trans hp.symm
        · exact (hi.waiting o hp).1.symm
      · rcases hi.whole o with h2 | h2
        · exact h2
        · exact h2.trans hw
    · exact hi.running o h1

theorem Hist.Inv.write {h : Hist} (hi : h.Inv) {op b : Nat} {x : Block} (hop : op ∈ h.active) :
    Hist.Inv { h with
      written := h.written ++ [⟨op, b, x⟩], pending := h.pending ++ [⟨op, b, x⟩] } := by
  refine ⟨hi.nodup, hi.activeBegun, fun w hw => ?_, fun w hw => ?_, hi.committedOps,
    fun o ho => ?_, fun o ho => ?_, fun o => ?_⟩
  · rcases List.mem_append.mp hw with h1 | h1
    · exact hi.writtenBegun w h1
    · rw [List.mem_singleton.mp h1]
      exact hi.activeBegun op hop
  · rcases List.mem_append.mp hw with h1 | h1
    · exact hi.pendingOps w h1
    · rw [List.mem_singleton.mp h1]
      exact Or.inl hop
  · obtain ⟨h1, h2⟩ := hi.running o ho
    exact ⟨by rw [opWrites_append, opWrites_append, h1], h2⟩
  · by_cases e : o = op
    · obtain ⟨h1, h2⟩ := hi.running op hop
      rw [e]
      exact ⟨by rw [opWrites_append, opWrites_append, h1], h2⟩
    · have hone : opWrites o [⟨op, b, x⟩] = [] := by
        rw [opWrites_singleton, if_neg (fun h => e h.symm)]
      rw [opWrites_append, hone, List.append_nil] at ho
      obtain ⟨h1, h2⟩ := hi.waiting o ho
      exact ⟨by rw [opWrites_append, opWrites_append, h1], h2⟩
  · by_cases e : o = op
    · rw [e]
      exact Or.inl (hi.running op hop).2
    · have hone : opWrites o [⟨op, b, x⟩] = [] := by
        rw [opWrites_singleton, if_neg (fun h => e h.symm)]
      rw [opWrites_append, hone, List.append_nil]
      exact hi.whole o

theorem Hist.Inv.end {h : Hist} (hi : h.Inv) (op : Nat) :
    Hist.Inv { h with active := h.active.erase op, ended := op :: h.ended } := by
  have hsub : ∀ o ∈ h.active.erase op, o ∈ h.active := fun o ho => List.mem_of_mem_erase ho
  refine ⟨hi.nodup.erase op, fun o ho => hi.activeBegun o (hsub o ho), hi.writtenBegun,
    fun w hw => ?_, fun w hw => List.mem_cons_of_mem _ (hi.committedOps w hw),
    fun o ho => hi.running o (hsub o ho), hi.waiting, hi.whole⟩
  rcases hi.pendingOps w hw with h1 | h1
  · by_cases e : w.op = op
    · exact Or.inr (e ▸ List.mem_cons_self)
    · exact Or.inl ((List.mem_erase_of_ne e).mpr h1)
  · exact Or.inr (List.mem_cons_of_mem _ h1)

theorem Hist.Inv.commit {h : Hist} (hi : h.Inv) (hq : h.active = []) :
    Hist.Inv { h with committed := h.committed ++ [h.pending], pending := [] } := by
  refine ⟨hi.nodup, hi.activeBegun, hi.writtenBegun, fun w hw => absurd hw List.not_mem_nil,
    fun w hw => ?_, fun o ho => ?_, fun o ho => absurd rfl ho, fun o => ?_⟩
  · rw [List.flatten_append, List.flatten_singleton] at hw
    rcases List.mem_append.mp hw with h1 | h1
    · exact hi.committedOps w h1
    · exact (hi.pendingOps w h1).resolve_left (by rw [hq]; exact List.not_mem_nil)
  · have ho' : o ∈ h.active := ho
    rw [hq] at ho'
    exact absurd ho' List.not_mem_nil
  · show opWrites o (h.committed ++ [h.pending]).flatten = [] ∨ _
    rw [List.flatten_append, List.flatten_singleton, opWrites_append]
    by_cases hp : opWrites o h.pending = []
    · rw [hp, List.append_nil]
      exact hi.whole o
    · obtain ⟨h1, h2⟩ := hi.waiting o hp
      rw [h2, List.nil_append]
      exact Or.inr h1

theorem Hist.Inv.crash {h : Hist} (hi : h.Inv) :
    Hist.Inv { h with active := [], pending := [] } := by
  refine ⟨List.nodup_nil, fun o ho => absurd ho List.not_mem_nil, hi.writtenBegun,
    fun w hw => absurd hw List.not_mem_nil, hi.committedOps,
    fun o ho => absurd ho List.not_mem_nil, fun o ho => absurd rfl ho, hi.whole⟩

/-! ## the machine and its history -/

/-- what the phase says of the machine, with `C` on disk and `V` before the operations' eyes -/
def PhaseInv (c : Config) (C V : Disk) (s : Sys) : Prop :=
  match s.phase with
  | .idle => s.committing = false ∧ Filling c C V s
  | .commit => s.committing = true ∧ Filling c C V s
  | .writeLog tail => s.committing = true ∧ Filling c C V s ∧ Copied c V s tail
  | .install tail => s.committing = true ∧ V = C ∧ Installing c C s tail
  | .readHead => s.committing = false ∧ V = C ∧ Shows c s.disk s
  | .recover tail => s.committing = false ∧ V = C ∧ Recovering c C s tail

def Hist.content (d : Disk) (h : Hist) : Disk := applyGroups h.committed d

def Hist.view (d : Disk) (h : Hist) : Disk := applyWrites h.pending (h.content d)

structure World.Inv (c : Config) (d : Disk) (w : World) : Prop where
  durable : Durable c (w.hist.content d) w.sys.disk
  phase : PhaseInv c (w.hist.content d) (w.hist.view d) w.sys
  count : w.sys.outstanding = w.hist.active.length
  quiet : w.sys.phase ≠ .idle → w.hist.active = []
  hist : w.hist.Inv

section
variable {c : Config} {d : Disk} {C V : Disk} {s s' : Sys}

theorem PhaseInv.bread (h : PhaseInv c C V s) (hd : Durable c C s.disk) (b : Nat) :
    PhaseInv c C V (bread s b) := by
  have e : (Log.bread s b).phase = s.phase := rfl
  unfold PhaseInv at h ⊢
  rw [e]
  cases hp : s.phase with
  | idle =>
    rw [hp] at h
    exact ⟨h.1, h.2.bread hd b⟩
  | commit =>
    rw [hp] at h
    exact ⟨h.1, h.2.bread hd b⟩
  | writeLog tail =>
    rw [hp] at h
    exact ⟨h.1, h.2.1.bread hd b, h.2.2⟩
  | install tail =>
    rw [hp] at h
    exact ⟨h.1, h.2.1, h.2.2.bread hd b⟩
  | readHead =>
    rw [hp] at h
    exact ⟨h.1, h.2.1, h.2.2.bread (fun _ => h.2.2.cached_disk b)⟩
  | recover tail =>
    rw [hp] at h
    exact ⟨h.1, h.2.1, h.2.2.bread b⟩

theorem PhaseInv.evict (h : PhaseInv c C V s) {b : Nat} (hb : s.pins b = 0) :
    PhaseInv c C V (evict s b) := by
  have e : (Log.evict s b).phase = s.phase := rfl
  unfold PhaseInv at h ⊢
  rw [e]
  cases hp : s.phase with
  | idle =>
    rw [hp] at h
    exact ⟨h.1, h.2.evict hb⟩
  | commit =>
    rw [hp] at h
    exact ⟨h.1, h.2.evict hb⟩
  | writeLog tail =>
    rw [hp] at h
    exact ⟨h.1, h.2.1.evict hb, h.2.2⟩
  | install tail =>
    rw [hp] at h
    exact ⟨h.1, h.2.1, h.2.2.evict hb⟩
  | readHead =>
    rw [hp] at h
    exact ⟨h.1, h.2.1, h.2.2.evict b⟩
  | recover tail =>
    rw [hp] at h
    exact ⟨h.1, h.2.1, h.2.2.evict b⟩

theorem World.Inv.idle_of_active {w : World} (h : w.Inv c d) (ha : w.hist.active ≠ []) :
    w.sys.phase = .idle := by
  by_contra hp
  exact ha (h.quiet hp)

theorem World.Inv.filling {w : World} (h : w.Inv c d) (hp : w.sys.phase = .idle) :
    w.sys.committing = false ∧ Filling c (w.hist.content d) (w.hist.view d) w.sys := by
  have h1 := h.phase
  unfold PhaseInv at h1
  rw [hp] at h1
  exact h1

theorem beginOp_eq (h : beginOp s = some s') :
    s.committing = false ∧ s.lh.length + (s.outstanding + 1) * maxOpBlocks ≤ logSize ∧
      s' = { s with outstanding := s.outstanding + 1 } := by
  unfold beginOp at h
  cases hc : s.committing with
  | true =>
    rw [hc, if_pos rfl] at h
    exact absurd h (by simp)
  | false =>
    rw [hc, if_neg (by simp)] at h
    split at h
    · exact absurd h (by simp)
    · rename_i hroom
      exact ⟨rfl, Nat.le_of_not_lt hroom, (Option.some.inj h).symm⟩

theorem endOp_eq (h : endOp s = some s') : s' = { s with
    outstanding := s.outstanding - 1
    committing := if s.outstanding - 1 = 0 then true else s.committing
    phase := if s.outstanding - 1 = 0 then .commit else s.phase } := by
  unfold endOp at h
  dsimp only at h
  split at h
  · exact absurd h (by simp)
  · split at h
    · rename_i h0
      rw [← Option.some.inj h, if_pos h0, if_pos h0]
    · rename_i h0
      rw [← Option.some.inj h, if_neg h0, if_neg h0]

theorem PhaseInv.idle (h : PhaseInv c C V s) (hc : s.committing = false)
    (hb : s.phase.booting = false) : s.phase = .idle := by
  unfold PhaseInv at h
  cases hp : s.phase with
  | idle => rfl
  | commit =>
    rw [hp, hc] at h
    exact absurd h.1 (by simp)
  | writeLog tail =>
    rw [hp, hc] at h
    exact absurd h.1 (by simp)
  | install tail =>
    rw [hp, hc] at h
    exact absurd h.1 (by simp)
  | readHead =>
    rw [hp] at hb
    exact absurd hb (by simp [Phase.booting])
  | recover tail =>
    rw [hp] at hb
    exact absurd hb (by simp [Phase.booting])

theorem Filling.congr (h : Filling c C V s) (ed : s'.disk = s.disk) (ec : s'.cache = s.cache)
    (ep : s'.pins = s.pins) (el : s'.lh = s.lh) : Filling c C V s' := by
  refine ⟨ed ▸ h.clean, el ▸ h.nodup, el ▸ h.home, el ▸ h.fits, el ▸ h.same, ?_, ?_⟩
  · intro b hb
    rw [el] at hb
    unfold Pinned
    rw [ep, ec]
    exact h.pinned b hb
  · refine ⟨?_, ?_⟩
    · rw [ec]
      exact h.cache.home
    · rw [ec, ed]
      exact h.cache.log

theorem phaseInv_idle (hp : s.phase = .idle) :
    PhaseInv c C V s ↔ s.committing = false ∧ Filling c C V s := by
  unfold PhaseInv
  rw [hp]

theorem phaseInv_commit (hp : s.phase = .commit) :
    PhaseInv c C V s ↔ s.committing = true ∧ Filling c C V s := by
  unfold PhaseInv
  rw [hp]

/-! ## one step -/

variable {w w' : World}

theorem World.Inv.beginOp {op : Nat} (h : w.Inv c d) (hs : Step c w (.beginOp op) w') :
    w'.Inv c d := by
  obtain ⟨t, k⟩ := w'
  obtain ⟨⟨hop, hboot⟩, hb, hh⟩ := hs
  obtain ⟨hcom, -, e⟩ := beginOp_eq hb
  change t = _ at e
  change k = _ at hh
  subst e hh
  have hp := h.phase.idle hcom hboot
  obtain ⟨h1, h2⟩ := h.filling hp
  refine ⟨h.durable, ?_, congrArg (· + 1) h.count, fun hne => absurd hp hne, h.hist.begin hop⟩
  have hp' : ({ w.sys with outstanding := w.sys.outstanding + 1 } : Sys).phase = .idle := hp
  exact (phaseInv_idle hp').mpr ⟨h1, h2.congr rfl rfl rfl rfl⟩

theorem World.Inv.logWrite {op b : Nat} {x : Block} (h : w.Inv c d)
    (hs : Step c w (.logWrite op b x) w') : w'.Inv c d := by
  obtain ⟨t, k⟩ := w'
  obtain ⟨⟨hop, hb⟩, hw, hh⟩ := hs
  change k = _ at hh
  subst hh
  have hp := h.idle_of_active (List.ne_nil_of_mem hop)
  obtain ⟨h1, h2⟩ := h.filling hp
  obtain ⟨h3, e1, e2, e3, e4, _⟩ := logWrite_inv h2 hb hw
  have hview : Hist.view d (record w (.logWrite op b x))
      = Function.update (w.hist.view d) b x := applyWrites_snoc _ _ _
  refine ⟨?_, ?_, e2.trans h.count, fun hne => absurd (e4.trans hp) hne, h.hist.write hop⟩
  · show Durable c (w.hist.content d) t.disk
    rw [e1]
    exact h.durable
  · rw [hview]
    exact (phaseInv_idle (e4.trans hp)).mpr ⟨e3.trans h1, h3⟩

theorem World.Inv.endOp {op : Nat} (h : w.Inv c d) (hs : Step c w (.endOp op) w') :
    w'.Inv c d := by
  obtain ⟨t, k⟩ := w'
  obtain ⟨hop, hb, hh⟩ := hs
  have e := endOp_eq hb
  change t = _ at e
  change k = _ at hh
  have hop' : op ∈ w.hist.active := hop
  have hp := h.idle_of_active (List.ne_nil_of_mem hop')
  obtain ⟨h1, h2⟩ := h.filling hp
  have hcount : w.sys.outstanding - 1 = (w.hist.active.erase op).length := by
    rw [List.length_erase_of_mem hop', h.count]
  by_cases h0 : w.sys.outstanding - 1 = 0
  · rw [if_pos h0, if_pos h0] at e
    subst e hh
    refine ⟨h.durable, (phaseInv_commit rfl).mpr ⟨rfl, h2.congr rfl rfl rfl rfl⟩, hcount,
      fun _ => ?_, h.hist.end op⟩
    exact List.length_eq_zero_iff.mp (hcount.symm.trans h0)
  · rw [if_neg h0, if_neg h0] at e
    subst e hh
    refine ⟨h.durable, ?_, hcount, fun hne => absurd hp hne, h.hist.end op⟩
    have hp' : ({ w.sys with outstanding := w.sys.outstanding - 1 } : Sys).phase = .idle := hp
    exact (phaseInv_idle hp').mpr ⟨h1, h2.congr rfl rfl rfl rfl⟩

theorem World.Inv.crash (h : w.Inv c d) (hs : Step c w .crash w') : w'.Inv c d := by
  obtain ⟨t, k⟩ := w'
  obtain ⟨-, hb, hh⟩ := hs
  have e : boot w.sys.disk = t := Option.some.inj hb
  change k = _ at hh
  subst e hh
  exact ⟨h.durable, ⟨rfl, rfl, boot_shows c _⟩, rfl, fun _ => rfl, h.hist.crash⟩

theorem World.Inv.load {b : Nat} (h : w.Inv c d) (hs : Step c w (.load b) w') : w'.Inv c d := by
  obtain ⟨t, k⟩ := w'
  obtain ⟨-, hb, hh⟩ := hs
  have e : bread w.sys b = t := Option.some.inj hb
  change k = _ at hh
  subst e hh
  exact ⟨h.durable, h.phase.bread h.durable b, h.count, h.quiet, h.hist⟩

theorem World.Inv.evict {b : Nat} (h : w.Inv c d) (hs : Step c w (.evict b) w') :
    w'.Inv c d := by
  obtain ⟨t, k⟩ := w'
  obtain ⟨-, hb, hh⟩ := hs
  change k = _ at hh
  subst hh
  unfold step at hb
  by_cases h0 : w.sys.pins b = 0
  · simp only [if_pos h0] at hb
    rw [← Option.some.inj hb]
    exact ⟨h.durable, h.phase.evict h0, h.count, h.quiet, h.hist⟩
  · simp only [if_neg h0] at hb
    exact absurd hb (by simp)

theorem World.Inv.advance (h : w.Inv c d) (hs : Step c w .advance w') : w'.Inv c d := by
  obtain ⟨t, k⟩ := w'
  obtain ⟨-, hb, hh⟩ := hs
  have h1 := h.phase
  unfold PhaseInv at h1
  unfold step Log.advance at hb
  unfold record at hh
  dsimp only at hb hh
  cases hp : w.sys.phase with
  | idle =>
    rw [hp] at hb
    exact absurd hb (by simp)
  | commit =>
    rw [hp] at hb hh h1
    have hq := h.quiet (by rw [hp]; simp)
    dsimp only at hb hh h1
    subst hh
    split at hb
    · rw [← Option.some.inj hb]
      exact ⟨h.durable, ⟨h1.1, h1.2.congr rfl rfl rfl rfl, Nat.zero_le _,
        fun i _ hi _ => absurd hi (Nat.not_lt_zero i)⟩, h.count, fun _ => hq, h.hist⟩
    · rw [← Option.some.inj hb]
      exact ⟨h.durable, ⟨rfl, h1.2.congr rfl rfl rfl rfl⟩, h.count, fun _ => hq, h.hist⟩
  | writeLog tail =>
    rw [hp] at hb hh h1
    have hq := h.quiet (by rw [hp]; simp)
    dsimp only at hb hh h1
    obtain ⟨h2, h3, h4⟩ := h1
    by_cases hlt : tail < w.sys.lh.length
    · rw [if_pos hlt] at hb hh
      subst hh
      rw [← Option.some.inj hb]
      obtain ⟨h5, h6, h7⟩ := writeLogOne_inv h3 h.durable h4 hlt
      exact ⟨h6, ⟨h2, h5.congr rfl rfl rfl rfl, h7⟩, h.count, fun _ => hq, h.hist⟩
    · -- the commit point
      rw [if_neg hlt] at hb hh
      subst hh
      rw [← Option.some.inj hb]
      have htail : tail = w.sys.lh.length := Nat.le_antisymm h4.1 (Nat.le_of_not_lt hlt)
      rw [htail] at h4
      obtain ⟨h5, h6⟩ := commit_inv h3 h.durable h4
      have hcont : Hist.content d { w.hist with
          committed := w.hist.committed ++ [w.hist.pending], pending := [] }
          = w.hist.view d := applyGroups_snoc _ _ _
      refine ⟨?_, ?_, h.count, fun _ => hq, h.hist.commit hq⟩
      · rw [hcont]
        exact h6
      · show PhaseInv c (Hist.content d _) (Hist.content d _) _
        rw [hcont]
        exact ⟨h2, rfl, ⟨h5.head, h5.le, h5.done⟩, h5.pinned, h5.cache.home, h5.cache.log⟩
  | install tail =>
    rw [hp] at hb hh h1
    have hq := h.quiet (by rw [hp]; simp)
    dsimp only at hb hh h1
    subst hh
    obtain ⟨h2, h3, h4⟩ := h1
    by_cases hlt : tail < w.sys.lh.length
    · rw [if_pos hlt] at hb
      rw [← Option.some.inj hb]
      obtain ⟨h5, h6⟩ := installOne_commit h4 h.durable hlt
      exact ⟨h6, ⟨h2, h3, ⟨h5.head, h5.le, h5.done⟩, h5.pinned, h5.cache.home, h5.cache.log⟩,
        h.count, fun _ => hq, h.hist⟩
    · rw [if_neg hlt] at hb
      rw [← Option.some.inj hb]
      have htail : tail = w.sys.lh.length := Nat.le_antisymm h4.le (Nat.le_of_not_lt hlt)
      rw [htail] at h4
      obtain ⟨h5, h6⟩ := clear_filling h.durable h4.toInstalled h4.cache
      refine ⟨h6, ?_, h.count, fun _ => hq, h.hist⟩
      rw [h3]
      exact ⟨rfl, h5.congr rfl rfl rfl rfl⟩
  | readHead =>
    rw [hp] at hb hh h1
    have hq := h.quiet (by rw [hp]; simp)
    dsimp only at hb hh h1
    subst hh
    rw [← Option.some.inj hb]
    have h5 := readHead_recovering (C := w.hist.content d) h1.2.2
    exact ⟨h.durable, ⟨h1.1, h1.2.1, ⟨h5.head, h5.le, h5.done⟩, h5.cache.home, h5.cache.log⟩,
      h.count, fun _ => hq, h.hist⟩
  | recover tail =>
    rw [hp] at hb hh h1
    have hq := h.quiet (by rw [hp]; simp)
    dsimp only at hb hh h1
    subst hh
    obtain ⟨h2, h3, h4⟩ := h1
    by_cases hlt : tail < w.sys.lh.length
    · rw [if_pos hlt] at hb
      rw [← Option.some.inj hb]
      obtain ⟨h5, h6⟩ := installOne_recover h4 h.durable hlt
      exact ⟨h6, ⟨h2, h3, ⟨h5.head, h5.le, h5.done⟩, h5.cache.home, h5.cache.log⟩,
        h.count, fun _ => hq, h.hist⟩
    · rw [if_neg hlt] at hb
      rw [← Option.some.inj hb]
      have htail : tail = w.sys.lh.length := Nat.le_antisymm h4.le (Nat.le_of_not_lt hlt)
      rw [htail] at h4
      obtain ⟨h5, h6⟩ := clear_filling h.durable h4.toInstalled (h4.shows h.durable)
      refine ⟨h6, ?_, h.count, fun _ => hq, h.hist⟩
      rw [h3]
      exact ⟨h2, h5.congr rfl rfl rfl rfl⟩

theorem World.Inv.step {e : Event} (h : w.Inv c d) (hs : Step c w e w') : w'.Inv c d := by
  cases e with
  | beginOp op => exact h.beginOp hs
  | logWrite op b x => exact h.logWrite hs
  | endOp op => exact h.endOp hs
  | advance => exact h.advance hs
  | load b => exact h.load hs
  | evict b => exact h.evict hs
  | crash => exact h.crash hs

theorem fresh_inv (h0 : d c.start 0 = 0) : (fresh d).Inv c d := by
  have hclean : headBlocks (d c.start) = [] := headBlocks_eq_nil.mpr h0
  refine ⟨?_, ⟨rfl, rfl, boot_shows c d⟩, rfl, fun _ => rfl, ?_⟩
  · refine ⟨?_, ?_, ?_, ?_, fun b _ _ => rfl⟩
    · exact hclean ▸ List.nodup_nil
    · exact fun b hb => absurd (hclean ▸ hb) List.not_mem_nil
    · exact hclean ▸ c.sizePos
    · exact fun i b hb => absurd (hclean ▸ hb) (by simp)
  · exact ⟨List.nodup_nil, fun _ h => absurd h List.not_mem_nil,
      fun _ h => absurd h List.not_mem_nil, fun _ h => absurd h List.not_mem_nil,
      fun _ h => absurd h List.not_mem_nil, fun _ h => absurd h List.not_mem_nil,
      fun _ h => absurd rfl h, fun _ => Or.inl rfl⟩

end

/-- a crash in any reachable state: recovery finds exactly the groups whose header reached the
disk, an operation is in them with all of its writes or with none, and with none before it ended -/
theorem crash_atomic (c : Config) (d : Disk) (l : List Event) (w : World)
    (h0 : d c.start 0 = 0) (hrun : Run (Step c) (fresh d) l w) :
    (∀ b, ¬ c.IsLog b →
      recoverFromLog c w.sys.disk b = applyGroups w.hist.committed d b) ∧
    (∀ op, opWrites op w.hist.committed.flatten = [] ∨
      opWrites op w.hist.committed.flatten = opWrites op w.hist.written) ∧
    ∀ op, op ∉ w.hist.ended → opWrites op w.hist.committed.flatten = [] := by
  have h : w.Inv c d := hrun.invariant (fun _ _ _ hi hs => hi.step hs) (fresh_inv h0)
  refine ⟨fun b hb => recoverFromLog_content h.durable hb, h.hist.whole, fun op hop => ?_⟩
  exact opWrites_eq_nil.mpr (fun w' hw e => hop (e ▸ h.hist.committedOps w' hw))

theorem run_of_runEvents {c : Config} {w w' : World} {l : List Event}
    (h : runEvents c w l = some w') : Run (Step c) w l w' := by
  induction l generalizing w with
  | nil =>
    rw [Option.some.inj h]
    exact .nil w'
  | cons e l ih =>
    unfold runEvents at h
    by_cases hl : Legal c w e
    · rw [if_pos hl] at h
      cases hs : step c w.sys e with
      | none =>
        rw [hs] at h
        exact absurd h (by simp)
      | some s =>
        rw [hs] at h
        exact .cons ⟨hl, hs, rfl⟩ (ih h)
    · rw [if_neg hl] at h
      exact absurd h (by simp)

/-- a crash right after the header write: the one block of the group is recovered -/
theorem crash_after_header_write : ∃ w, Run (Step ⟨2, 30, by decide⟩) (fresh (fun _ _ => 0))
      [.advance, .advance, .beginOp 1, .logWrite 1 100 (fun _ => 7), .endOp 1, .advance, .advance,
        .advance, .crash] w ∧
    w.sys.disk 100 0 = 0 ∧ recoverFromLog ⟨2, 30, by decide⟩ w.sys.disk 100 0 = 7 := by
  have hsome : (runEvents ⟨2, 30, by decide⟩ (fresh (fun _ _ => 0)) [.advance, .advance, .beginOp 1,
      .logWrite 1 100 (fun _ => 7), .endOp 1, .advance, .advance, .advance, .crash]).map
        (fun w => (w.sys.disk 100 0, applyGroups w.hist.committed (fun _ _ => 0) 100 0))
      = some (0, 7) := by decide +kernel
  obtain ⟨w, hw, e⟩ := Option.map_eq_some_iff.mp hsome
  obtain ⟨h1, h2⟩ := Prod.mk.inj e
  have hrun := run_of_runEvents hw
  refine ⟨w, hrun, h1, ?_⟩
  rw [(crash_atomic _ _ _ w rfl hrun).1 100 (by decide)]
  exact h2

end Log
