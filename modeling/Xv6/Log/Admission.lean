import Mathlib.Algebra.GroupWithZero.Nat
import Mathlib.Data.Finset.Card
import Mathlib.Algebra.Order.BigOperators.Group.List
import Mathlib.Algebra.Order.Group.Nat
import Xv6.Log.Crash

/-!
# Admission to the log (`begin_op`, `log_write`)

`begin_op` counts `MAXOPBLOCKS` blocks for each operation that runs; `log_write` tests the log
itself, before it looks for the block in it.  `Inv.reserved` is the reservation: what is in the log
and what the running operations may still add fit in `LOGSIZE` blocks.

The machine is the one of `Log.Model`.  Only what callers owe it differs: the blocks may be any, and
an operation logs at most `MAXOPBLOCKS` different ones.
-/

namespace Log.Admission
open Lib

/-! ## the model -/

inductive Panic where
  /-- `"too big a transaction"` -/
  | tooBig
  /-- `"log_write outside of trans"` -/
  | outside
  deriving DecidableEq

/-- the tests at the head of `log_write` -/
def logWritePanic (c : Config) (s : Sys) : Option Panic :=
  if s.lh.length ≥ logSize ∨ s.lh.length ≥ c.size - 1 then some .tooBig
  else if s.outstanding < 1 then some .outside
  else none

def logged (op : Nat) (ws : List Write) : Finset Nat := ((opWrites op ws).map Write.block).toFinset

/-- with block `b` too, operation `op` keeps to `MAXOPBLOCKS` -/
def Allowed (h : Hist) (op b : Nat) : Prop := (insert b (logged op h.written)).card ≤ maxOpBlocks

instance (h : Hist) (op b : Nat) : Decidable (Allowed h op b) := inferInstanceAs (Decidable (_ ≤ _))

/-- operations run after recovery, have names of their own and are bracketed -/
def Legal (w : World) : Event → Prop
  | .beginOp op => op ∉ w.hist.begun ∧ w.sys.phase.booting = false
  | .logWrite op b _ => op ∈ w.hist.active ∧ Allowed w.hist op b
  | .endOp op => op ∈ w.hist.active
  | _ => True

instance (w : World) (e : Event) : Decidable (Legal w e) :=
  match e with
  | .beginOp _ => inferInstanceAs (Decidable (_ ∧ _))
  | .logWrite _ _ _ => inferInstanceAs (Decidable (_ ∧ _))
  | .endOp _ => inferInstanceAs (Decidable (_ ∈ _))
  | .advance => inferInstanceAs (Decidable True)
  | .load _ => inferInstanceAs (Decidable True)
  | .evict _ => inferInstanceAs (Decidable True)
  | .crash => inferInstanceAs (Decidable True)

def Step (c : Config) (w : World) (e : Event) (w' : World) : Prop :=
  Legal w e ∧ step c w.sys e = some w'.sys ∧ w'.hist = record w e

def next (c : Config) (w : World) (e : Event) : Option World :=
  if Legal w e then (step c w.sys e).map (fun s => ⟨s, record w e⟩) else none

/-! ## the reservation -/

/-- what the running operations may still add -/
def reserve (h : Hist) : Nat :=
  (h.active.map (fun op => maxOpBlocks - (logged op h.written).card)).sum

structure Inv (w : World) : Prop where
  nodup : w.hist.active.Nodup
  activeBegun : ∀ op ∈ w.hist.active, op ∈ w.hist.begun
  writtenBegun : ∀ x ∈ w.hist.written, x.op ∈ w.hist.begun
  outstanding : w.sys.outstanding = w.hist.active.length
  /-- what a running operation logged is still in the log -/
  inLog : ∀ x ∈ w.hist.written, x.op ∈ w.hist.active → x.block ∈ w.sys.lh
  reserved : w.sys.phase.booting = false → w.sys.lh.length + reserve w.hist ≤ logSize
  committing : w.sys.committing = true → w.hist.active = [] ∧ w.sys.phase.booting = false
  booting : w.sys.phase.booting = true → w.hist.active = []
  idle : w.sys.committing = false → w.sys.phase.booting = false → w.sys.phase = .idle

section
variable {c : Config} {d : Disk} {w w' : World} {op b : Nat} {x : Block}

theorem next_sound (c : Config) (w : World) (e : Event) (w' : World) (h : next c w e = some w') :
    Step c w e w' := by
  unfold next at h
  by_cases hl : Legal w e
  · rw [if_pos hl] at h
    obtain ⟨s, hs, rfl⟩ := Option.map_eq_some_iff.mp h
    exact ⟨hl, hs, rfl⟩
  · rw [if_neg hl] at h
    exact absurd h nofun

theorem logWrite_isSome : (logWrite c w.sys b x).isSome = true ↔ logWritePanic c w.sys = none := by
  unfold logWrite logWritePanic
  split
  · simp
  · split
    · simp
    · dsimp only
      split <;> simp

theorem mem_logged {ws : List Write} : b ∈ logged op ws ↔ ∃ y ∈ ws, y.op = op ∧ y.block = b := by
  unfold logged opWrites
  rw [List.mem_toFinset, List.mem_map]
  constructor
  · rintro ⟨y, hy, e⟩
    obtain ⟨h1, h2⟩ := List.mem_filter.mp hy
    exact ⟨y, h1, by simpa using h2, e⟩
  · rintro ⟨y, h1, h2, e⟩
    exact ⟨y, List.mem_filter.mpr ⟨h1, by simpa using h2⟩, e⟩

theorem logged_snoc (ws : List Write) (o : Nat) :
    logged o (ws ++ [⟨op, b, x⟩]) = if op = o then insert b (logged o ws) else logged o ws := by
  ext k
  rw [mem_logged]
  constructor
  · rintro ⟨y, hy, h1, h2⟩
    rcases List.mem_append.mp hy with h | h
    · have hk := mem_logged.mpr ⟨y, h, h1, h2⟩
      split
      · exact Finset.mem_insert_of_mem hk
      · exact hk
    · obtain rfl := List.mem_singleton.mp h
      rw [if_pos h1, ← h2]
      exact Finset.mem_insert_self _ _
  · intro h
    split at h
    · rename_i e
      rcases Finset.mem_insert.mp h with rfl | h
      · exact ⟨_, List.mem_append_right _ (List.mem_singleton_self _), e, rfl⟩
      · obtain ⟨y, hy, h1, h2⟩ := mem_logged.mp h
        exact ⟨y, List.mem_append_left _ hy, h1, h2⟩
    · obtain ⟨y, hy, h1, h2⟩ := mem_logged.mp h
      exact ⟨y, List.mem_append_left _ hy, h1, h2⟩

theorem reserve_eq (h : Hist) (hop : op ∈ h.active) :
    reserve h = (maxOpBlocks - (logged op h.written).card) +
      ((h.active.erase op).map (fun o => maxOpBlocks - (logged o h.written).card)).sum := by
  unfold reserve
  rw [((List.perm_cons_erase hop).map _).sum_eq, List.map_cons, List.sum_cons]

theorem reserve_le (h : Hist) : reserve h ≤ h.active.length * maxOpBlocks := by
  unfold reserve
  refine le_trans (List.sum_le_card_nsmul _ maxOpBlocks ?_) (le_of_eq (by simp))
  intro k hk
  obtain ⟨o, -, rfl⟩ := List.mem_map.mp hk
  exact Nat.sub_le _ _

/-- a running operation that logs a block again, or one more, takes from its part only -/
theorem reserve_write {h h' : Hist} (hn : h.active.Nodup) (hop : op ∈ h.active)
    (hb : Allowed h op b) (ha : h'.active = h.active)
    (hw : h'.written = h.written ++ [⟨op, b, x⟩]) :
    reserve h' + (if b ∈ logged op h.written then 0 else 1) = reserve h := by
  have hrest : (h.active.erase op).map (fun o => maxOpBlocks - (logged o h'.written).card)
      = (h.active.erase op).map (fun o => maxOpBlocks - (logged o h.written).card) := by
    apply List.map_congr_left
    intro o ho
    rw [hw, logged_snoc, if_neg (fun e => hn.not_mem_erase (e ▸ ho))]
  rw [reserve_eq h hop, reserve_eq h' (ha ▸ hop), ha, hrest, hw, logged_snoc, if_pos rfl]
  unfold Allowed at hb
  by_cases hmem : b ∈ logged op h.written
  · rw [if_pos hmem, Finset.insert_eq_of_mem hmem, Nat.add_zero]
  · rw [Finset.card_insert_of_notMem hmem] at hb ⊢
    rw [if_neg hmem]
    omega

/-! ## the steps -/

theorem fresh_inv (d : Disk) : Inv (fresh d) where
  nodup := List.nodup_nil
  activeBegun := fun _ h => absurd h List.not_mem_nil
  writtenBegun := fun _ h => absurd h List.not_mem_nil
  outstanding := rfl
  inLog := fun _ h => absurd h List.not_mem_nil
  reserved := nofun
  committing := nofun
  booting := fun _ => rfl
  idle := nofun

theorem Inv.calm (h : Inv w) (hop : op ∈ w.hist.active) :
    w.sys.committing = false ∧ w.sys.phase.booting = false := by
  constructor
  · cases hc : w.sys.committing with
    | false => rfl
    | true => exact absurd hop (by rw [(h.committing hc).1]; exact List.not_mem_nil)
  · cases hb : w.sys.phase.booting with
    | false => rfl
    | true => exact absurd hop (by rw [h.booting hb]; exact List.not_mem_nil)

theorem Inv.beginOp (h : Inv w) (hs : Step c w (.beginOp op) w') : Inv w' := by
  rcases w' with ⟨s', h'⟩
  obtain ⟨⟨hnew, hboot⟩, hstep, hh⟩ := hs
  obtain ⟨hc, hroom, hsys⟩ := beginOp_eq hstep
  dsimp only at hsys hh
  subst hsys hh
  have hnone : ∀ y ∈ w.hist.written, y.op ≠ op := fun y hy e => hnew (e ▸ h.writtenBegun y hy)
  refine ⟨List.nodup_cons.mpr ⟨fun ha => hnew (h.activeBegun op ha), h.nodup⟩, ?_,
    fun y hy => List.mem_cons_of_mem _ (h.writtenBegun y hy), ?_, ?_, fun _ => ?_, ?_, ?_, h.idle⟩
  · intro o ho
    rcases List.mem_cons.mp ho with rfl | h1
    · exact List.mem_cons_self
    · exact List.mem_cons_of_mem _ (h.activeBegun o h1)
  · show w.sys.outstanding + 1 = (op :: w.hist.active).length
    rw [h.outstanding, List.length_cons]
  · intro y hy ho
    rcases List.mem_cons.mp ho with e | h1
    · exact absurd e (hnone y hy)
    · exact h.inLog y hy h1
  · -- the new operation and each of the others reserve `MAXOPBLOCKS` at most
    have hle := reserve_le (record w (.beginOp op))
    have hlen : (record w (.beginOp op)).active.length = w.sys.outstanding + 1 := by
      rw [h.outstanding]
      rfl
    rw [hlen] at hle
    exact le_trans (Nat.add_le_add_left hle _) hroom
  · intro hc'
    exact absurd (hc.symm.trans hc') nofun
  · intro hb'
    exact absurd (hboot.symm.trans hb') nofun

theorem logWrite_eq {s s' : Sys} (h : logWrite c s b x = some s') :
    s'.lh = (if b ∈ s.lh then s.lh else s.lh ++ [b]) ∧ s'.outstanding = s.outstanding ∧
      s'.committing = s.committing ∧ s'.phase = s.phase := by
  unfold logWrite at h
  split at h
  · exact absurd h nofun
  · split at h
    · exact absurd h nofun
    · dsimp only at h
      split at h
      · rename_i hm
        obtain rfl := Option.some.inj h
        exact ⟨(if_pos hm).symm, rfl, rfl, rfl⟩
      · rename_i hm
        obtain rfl := Option.some.inj h
        exact ⟨(if_neg hm).symm, rfl, rfl, rfl⟩

theorem Inv.logWrite (h : Inv w) (hs : Step c w (.logWrite op b x) w') : Inv w' := by
  rcases w' with ⟨s', h'⟩
  obtain ⟨⟨hop, hallowed⟩, hstep, hh⟩ := hs
  obtain ⟨hlh, hout, hcom, hph⟩ := logWrite_eq hstep
  dsimp only at hlh hout hcom hph hh
  subst hh
  have hsub : ∀ k ∈ w.sys.lh, k ∈ s'.lh := by
    intro k hk
    rw [hlh]
    split
    · exact hk
    · exact List.mem_append_left _ hk
  have hb : b ∈ s'.lh := by
    rw [hlh]
    split
    · rename_i hm
      exact hm
    · exact List.mem_append_right _ (List.mem_singleton_self b)
  refine ⟨h.nodup, h.activeBegun, ?_, hout.trans h.outstanding, ?_, fun hboot => ?_, ?_, ?_, ?_⟩
  · intro y hy
    rcases List.mem_append.mp hy with h1 | h1
    · exact h.writtenBegun y h1
    · rw [List.mem_singleton.mp h1]
      exact h.activeBegun op hop
  · intro y hy ho
    rcases List.mem_append.mp hy with h1 | h1
    · exact hsub _ (h.inLog y h1 ho)
    · rw [List.mem_singleton.mp h1]
      exact hb
  · have hres := h.reserved (hph ▸ hboot)
    have hw : reserve (record w (.logWrite op b x)) + (if b ∈ logged op w.hist.written then 0 else 1)
        = reserve w.hist := reserve_write h.nodup hop hallowed rfl rfl
    show s'.lh.length + reserve (record w (.logWrite op b x)) ≤ logSize
    rw [hlh]
    by_cases hm : b ∈ w.sys.lh
    · rw [if_pos hm]
      omega
    · have hnew : b ∉ logged op w.hist.written := by
        intro hl
        obtain ⟨y, hy, h1, rfl⟩ := mem_logged.mp hl
        exact hm (h.inLog y hy (h1 ▸ hop))
      rw [if_neg hnew] at hw
      rw [if_neg hm, List.length_append, List.length_singleton]
      omega
  · exact fun hc => hph ▸ h.committing (hcom ▸ hc)
  · exact fun hb => h.booting (hph ▸ hb)
  · exact fun hc hb => hph.trans (h.idle (hcom ▸ hc) (hph ▸ hb))

theorem Inv.endOp (h : Inv w) (hs : Step c w (.endOp op) w') : Inv w' := by
  rcases w' with ⟨s', h'⟩
  obtain ⟨hop, hstep, hh⟩ := hs
  have hsys := endOp_eq hstep
  dsimp only at hsys hh
  subst hsys hh
  have hmem : ∀ o ∈ w.hist.active.erase op, o ∈ w.hist.active := fun o ho => List.mem_of_mem_erase ho
  have hlen : (w.hist.active.erase op).length = w.sys.outstanding - 1 := by
    rw [List.length_erase_of_mem hop, h.outstanding]
  obtain ⟨hc, hboot⟩ := h.calm hop
  refine ⟨h.nodup.erase op, fun o ho => h.activeBegun o (hmem o ho), h.writtenBegun, hlen.symm,
    fun y hy ho => h.inLog y hy (hmem _ ho), fun _ => ?_, ?_, ?_, ?_⟩
  · have hres := h.reserved hboot
    rw [reserve_eq w.hist hop] at hres
    show w.sys.lh.length + ((w.hist.active.erase op).map
      (fun o => maxOpBlocks - (logged o w.hist.written).card)).sum ≤ logSize
    omega
  · dsimp only
    split
    · rename_i h0
      exact fun _ => ⟨List.length_eq_zero_iff.mp (hlen.trans h0), rfl⟩
    · intro hc'
      exact absurd (hc.symm.trans hc') nofun
  · dsimp only
    split
    · exact nofun
    · intro hb'
      exact absurd (hboot.symm.trans hb') nofun
  · dsimp only
    split
    · exact nofun
    · exact h.idle

/-- what a step of the process in `commit` or `recover_from_log` does to the reservation -/
theorem advance_eq {s s' : Sys} (h : advance c s = some s') :
    s'.outstanding = s.outstanding ∧ s.phase ≠ .idle ∧
      ((s'.lh = s.lh ∧ s'.committing = s.committing ∧ s'.phase.booting = s.phase.booting ∧
          s'.phase ≠ .idle) ∨
        (s.phase.booting = true ∧ s'.phase.booting = true ∧ s'.committing = s.committing) ∨
        (s'.lh = [] ∧ s'.phase = .idle ∧ (s'.committing = false ∨ s.phase.booting = true ∧
          s'.committing = s.committing))) := by
  unfold advance at h
  cases hp : s.phase with
  | idle =>
    rw [hp] at h
    exact absurd h nofun
  | commit =>
    rw [hp] at h
    dsimp only at h
    split at h
    · obtain rfl := Option.some.inj h
      exact ⟨rfl, nofun, Or.inl ⟨rfl, rfl, rfl, nofun⟩⟩
    · rename_i hl
      obtain rfl := Option.some.inj h
      exact ⟨rfl, nofun, Or.inr (Or.inr ⟨List.length_eq_zero_iff.mp (Nat.eq_zero_of_not_pos hl), rfl,
        Or.inl rfl⟩)⟩
  | writeLog tail =>
    rw [hp] at h
    dsimp only at h
    split at h
    · obtain rfl := Option.some.inj h
      exact ⟨rfl, nofun, Or.inl ⟨rfl, rfl, rfl, nofun⟩⟩
    · obtain rfl := Option.some.inj h
      exact ⟨rfl, nofun, Or.inl ⟨rfl, rfl, rfl, nofun⟩⟩
  | install tail =>
    rw [hp] at h
    dsimp only at h
    split at h
    · obtain rfl := Option.some.inj h
      exact ⟨rfl, nofun, Or.inl ⟨rfl, rfl, rfl, nofun⟩⟩
    · obtain rfl := Option.some.inj h
      exact ⟨rfl, nofun, Or.inr (Or.inr ⟨rfl, rfl, Or.inl rfl⟩)⟩
  | readHead =>
    rw [hp] at h
    obtain rfl := Option.some.inj h
    exact ⟨rfl, nofun, Or.inr (Or.inl ⟨rfl, rfl, rfl⟩)⟩
  | recover tail =>
    rw [hp] at h
    dsimp only at h
    split at h
    · obtain rfl := Option.some.inj h
      exact ⟨rfl, nofun, Or.inr (Or.inl ⟨rfl, rfl, rfl⟩)⟩
    · obtain rfl := Option.some.inj h
      exact ⟨rfl, nofun, Or.inr (Or.inr ⟨rfl, rfl, Or.inr ⟨rfl, rfl⟩⟩)⟩

theorem Inv.advance (h : Inv w) (hs : Step c w .advance w') : Inv w' := by
  rcases w' with ⟨s', h'⟩
  obtain ⟨-, hstep, hh⟩ := hs
  obtain ⟨hout, hidle, hcases⟩ := advance_eq hstep
  have hbegun : h'.begun = w.hist.begun ∧ h'.active = w.hist.active ∧
      h'.written = w.hist.written := by
    rw [show h' = record w .advance from hh]
    unfold record
    dsimp only
    split
    · split <;> exact ⟨rfl, rfl, rfl⟩
    · exact ⟨rfl, rfl, rfl⟩
  obtain ⟨e1, e2, e3⟩ := hbegun
  -- nobody runs in a commit or a recovery
  have hnone : w.hist.active = [] := by
    by_contra hne
    obtain ⟨op, hop⟩ := List.exists_mem_of_ne_nil _ hne
    obtain ⟨hc, hb⟩ := h.calm hop
    exact hidle (h.idle hc hb)
  have hnone' : h'.active = [] := e2.trans hnone
  refine ⟨hnone' ▸ List.nodup_nil, fun o ho => absurd ho (hnone' ▸ List.not_mem_nil), ?_, ?_,
    fun _ _ ho => absurd ho (hnone' ▸ List.not_mem_nil), fun hb => ?_, fun hc => ⟨hnone', ?_⟩,
    fun _ => hnone', fun hc hb => ?_⟩
  · show ∀ y ∈ h'.written, y.op ∈ h'.begun
    rw [e1, e3]
    exact h.writtenBegun
  · show s'.outstanding = h'.active.length
    rw [hout, e2, h.outstanding]
  · show s'.lh.length + reserve h' ≤ logSize
    have hzero : reserve h' = 0 := by
      unfold reserve
      rw [hnone']
      rfl
    rcases hcases with ⟨h1, -, h3, -⟩ | ⟨-, h2, -⟩ | ⟨h1, -, -⟩
    · have hres := h.reserved (h3 ▸ hb)
      rw [h1, hzero]
      omega
    · exact absurd (h2.symm.trans hb) nofun
    · rw [h1, hzero]
      exact Nat.zero_le _
  · show s'.phase.booting = false
    rcases hcases with ⟨-, h2, h3, -⟩ | ⟨h1, -, h3⟩ | ⟨-, h2, -⟩
    · exact h3.trans (h.committing (h2 ▸ hc)).2
    · exact absurd (h1.symm.trans (h.committing (h3 ▸ hc)).2) nofun
    · rw [h2]
      rfl
  · rcases hcases with ⟨-, h2, h3, -⟩ | ⟨-, h2, -⟩ | ⟨-, h2, -⟩
    · exact absurd (h.idle (h2 ▸ hc) (h3 ▸ hb)) hidle
    · exact absurd (h2.symm.trans hb) nofun
    · exact h2

theorem Inv.crash (h : Inv w) (hs : Step c w .crash w') : Inv w' := by
  rcases w' with ⟨s', h'⟩
  obtain ⟨-, hstep, hh⟩ := hs
  have hsys : s' = boot w.sys.disk := (Option.some.inj hstep).symm
  dsimp only at hh
  subst hsys hh
  exact ⟨List.nodup_nil, fun _ ho => absurd ho List.not_mem_nil, h.writtenBegun, rfl,
    fun _ _ ho => absurd ho List.not_mem_nil, nofun, nofun, fun _ => rfl, nofun⟩

theorem Inv.step {e : Event} (h : Inv w) (hs : Step c w e w') : Inv w' := by
  cases e with
  | beginOp op => exact h.beginOp hs
  | logWrite op b x => exact h.logWrite hs
  | endOp op => exact h.endOp hs
  | advance => exact h.advance hs
  | crash => exact h.crash hs
  | load b =>
    rcases w' with ⟨s', h'⟩
    obtain ⟨-, hstep, hh⟩ := hs
    obtain rfl : bread w.sys b = s' := Option.some.inj hstep
    dsimp only at hh
    subst hh
    exact ⟨h.nodup, h.activeBegun, h.writtenBegun, h.outstanding, h.inLog, h.reserved, h.committing,
      h.booting, h.idle⟩
  | evict b =>
    rcases w' with ⟨s', h'⟩
    obtain ⟨-, hstep, hh⟩ := hs
    dsimp only [Log.step] at hstep hh
    split at hstep
    · obtain rfl := Option.some.inj hstep
      subst hh
      exact ⟨h.nodup, h.activeBegun, h.writtenBegun, h.outstanding, h.inLog, h.reserved,
        h.committing, h.booting, h.idle⟩
    · exact absurd hstep nofun

/-! ## admission -/

/-- `log_write` of block `b` has room: where the block is in the log already, the log is not full
by the test of `log_write`; where it is not, a log of `LOGSIZE` blocks has room for it behind its
header -/
def Room (c : Config) (s : Sys) (b : Nat) : Prop :=
  (b ∈ s.lh → s.lh.length < min logSize (c.size - 1)) ∧
    (b ∉ s.lh → c.size = logSize → s.lh.length < logSize - 1)

theorem Inv.lt_logSize (h : Inv w) (hop : op ∈ w.hist.active) (ha : Allowed w.hist op b)
    (hb : b ∉ w.sys.lh) : w.sys.lh.length < logSize := by
  obtain ⟨-, hboot⟩ := h.calm hop
  have hres := h.reserved hboot
  have hnew : b ∉ logged op w.hist.written := by
    intro hl
    obtain ⟨y, hy, h1, rfl⟩ := mem_logged.mp hl
    exact hb (h.inLog y hy (h1 ▸ hop))
  rw [reserve_eq w.hist hop] at hres
  unfold Allowed at ha
  rw [Finset.card_insert_of_notMem hnew] at ha
  omega

theorem Inv.tooBig_iff (h : Inv w) (hsize : logSize ≤ c.size) (hop : op ∈ w.hist.active)
    (ha : Allowed w.hist op b) : logWritePanic c w.sys ≠ some .tooBig ↔ Room c w.sys b := by
  have hpanic : logWritePanic c w.sys = some .tooBig ↔
      w.sys.lh.length ≥ logSize ∨ w.sys.lh.length ≥ c.size - 1 := by
    unfold logWritePanic
    split
    · rename_i hfull
      exact ⟨fun _ => hfull, fun _ => rfl⟩
    · rename_i hfull
      refine ⟨fun e => ?_, fun e => absurd e hfull⟩
      split at e <;> exact absurd e nofun
  rw [ne_eq, hpanic]
  unfold Room
  by_cases hb : b ∈ w.sys.lh
  · constructor
    · intro hfull
      exact ⟨fun _ => by omega, fun hn => absurd hb hn⟩
    · intro hroom
      have := hroom.1 hb
      omega
  · have hlt := h.lt_logSize hop ha hb
    constructor
    · intro hfull
      exact ⟨fun hm => absurd hm hb, fun _ he => by omega⟩
    · intro hroom hfull
      have := hroom.2 hb
      omega

end

/-- a `log_write` of a running operation, in any state that bracketed operations can reach -/
theorem admission_iff (c : Config) (hsize : logSize ≤ c.size) (d : Disk) (l : List Event)
    (w : World) (hrun : Run (Step c) (fresh d) l w) (op b : Nat) (hop : op ∈ w.hist.active)
    (ha : Allowed w.hist op b) :
    logWritePanic c w.sys ≠ some .outside ∧ w.sys.committing = false ∧ w.sys.phase = .idle ∧
      (logWritePanic c w.sys ≠ some .tooBig ↔ Room c w.sys b) := by
  have h : Inv w := hrun.invariant (fun _ _ _ hi hs => hi.step hs) (fresh_inv d)
  obtain ⟨hc, hb⟩ := h.calm hop
  refine ⟨fun e => ?_, hc, h.idle hc hb, h.tooBig_iff hsize hop ha⟩
  have hpos : 0 < w.sys.outstanding := by
    rw [h.outstanding]
    exact List.length_pos_of_mem hop
  unfold logWritePanic at e
  split at e
  · exact absurd e nofun
  · rw [if_neg (by omega)] at e
    exact absurd e nofun

def fillEvents : List Event :=
  [.advance, .advance, .beginOp 0, .beginOp 1, .beginOp 2] ++
    (List.range 29).map (fun i => .logWrite (i / 10) (100 + i) (fun _ => 0))

/-- with one block more than `LOGSIZE`, the last block of the third operation is logged too -/
theorem admission_three : ∃ w, Run (Step ⟨2, 31, by decide⟩) (fresh (fun _ _ => 0)) fillEvents w ∧
    w.hist.active.length = 3 ∧ w.sys.lh.length = 29 ∧
    logWritePanic ⟨2, 31, by decide⟩ w.sys ≠ some .tooBig := by
  have hsome : ((exec (next ⟨2, 31, by decide⟩) (fresh (fun _ _ => 0)) fillEvents).any (fun w =>
      decide ((2 ∈ w.hist.active ∧ Allowed w.hist 2 129) ∧ w.hist.active.length = 3 ∧
        w.sys.lh.length = 29))) = true := by
    decide +kernel
  obtain ⟨w, hw, hp⟩ := (Option.any_eq_true _ _).mp hsome
  obtain ⟨⟨hop, ha⟩, hlen, hlh⟩ := of_decide_eq_true hp
  have hrun := Run.of_exec (next_sound ⟨2, 31, by decide⟩) hw
  have hiff := (admission_iff _ (by decide) _ _ w hrun 2 129 hop ha).2.2.2
  refine ⟨w, hrun, hlen, hlh, hiff.mpr ⟨fun _ => ?_, fun _ h => absurd h (by decide)⟩⟩
  rw [hlh]
  decide

/-- with `nlog = LOGSIZE`, the last block of the third operation is one too many -/
theorem thirtieth_block_panics : ∃ w, Run (Step ⟨2, logSize, by decide⟩) (fresh (fun _ _ => 0))
      fillEvents w ∧
    2 ∈ w.hist.active ∧ Allowed w.hist 2 129 ∧
    logWritePanic ⟨2, logSize, by decide⟩ w.sys = some .tooBig := by
  have hsome : ((exec (next ⟨2, logSize, by decide⟩) (fresh (fun _ _ => 0)) fillEvents).any
      (fun w => decide (2 ∈ w.hist.active ∧ Allowed w.hist 2 129 ∧
        logWritePanic ⟨2, logSize, by decide⟩ w.sys = some .tooBig))) = true := by
    decide +kernel
  obtain ⟨w, hw, hp⟩ := (Option.any_eq_true _ _).mp hsome
  exact ⟨w, Run.of_exec (next_sound _) hw, of_decide_eq_true hp⟩

end Log.Admission
