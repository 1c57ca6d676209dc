import Xv6.Bio.Commit

/-!
# Cache coherence

Every run of any number of processes: what they read is what was logged last.
-/

namespace Bio
open Lib
open Log (Config Block Disk putHead logSize maxOpBlocks)

section
variable {c : Config} {s t : State} {p : Fin nproc} {i : Fin nbuf}

/-! ## calls outside `commit` -/

theorem SameLog.unpinned (h : SameLog s t) : t.unpinned = s.unpinned := by
  unfold State.unpinned
  rw [h.commit]

theorem SameLog.installed (h : SameLog s t) : t.installed = s.installed := by
  unfold State.installed
  rw [h.commit]

/-- a step that the log does not see, and that leaves `commit` its buffers -/
theorem Inv.frame (h : Inv c s) (hl : SameLog s t)
    (hcore : Core c (s.lh.drop s.unpinned) (s.lh.drop s.installed) t)
    (hk : ∀ q pc, s.commit = some (q, pc) → ∀ y, Has s q y → Has t q y) : Inv c t := by
  constructor
  · rw [hl.lh, hl.unpinned, hl.installed]
    exact hcore
  · rw [hl.lh]
    exact h.nodup
  · rw [hl.lh]
    exact h.home
  · rw [hl.lh]
    exact h.len
  · intro q pc e
    rw [hl.commit] at e
    have hc := h.commit q pc e
    refine ⟨hl.outstanding.trans hc.outstanding, ?_, ?_, ?_⟩
    · rw [hl.lh]
      exact hc.range
    · rw [hl.lh]
      exact fun y hy => hk q pc e y (hc.vars y hy)
    · rw [hl.lh, hl.disk, hl.latest]
      exact hc.logged

theorem Inv.commit_none (h : Inv c s) (ho : s.outstanding ≠ 0) : s.commit = none := by
  cases e : s.commit with
  | none => rfl
  | some r => exact absurd (h.commit r.1 r.2 e).outstanding ho

theorem Inv.core_idle (h : Inv c s) (hc : s.commit = none) : Core c s.lh s.lh s := by
  have hcore := h.core
  unfold State.unpinned State.installed at hcore
  rw [hc] at hcore
  exact hcore

theorem Core.idle (h : Core c s.lh s.lh s) (hn : s.lh.Nodup) (hh : ∀ b ∈ s.lh, ¬ c.IsLog b)
    (hl : s.lh.length < c.size) (hc : s.commit = none) : Inv c s := by
  refine ⟨?_, hn, hh, hl, ?_⟩
  · unfold State.unpinned State.installed
    rw [hc]
    exact h
  · rw [hc]
    exact nofun

theorem logWrite_cases {x : Block} (hw : s.logWrite c p i x = some t) :
    (s.buf i).lock = some p ∧ s.lh.length < c.size - 1 ∧ s.outstanding ≠ 0 ∧
      let u := s.put i x s.disk (Function.update s.latest (s.buf i).blockno x)
      (((s.buf i).blockno ∈ s.lh ∧ t = u) ∨
        ((s.buf i).blockno ∉ s.lh ∧ t = { u.bpin i with lh := s.lh ++ [(s.buf i).blockno] })) := by
  unfold State.logWrite at hw
  dsimp only at hw
  split at hw
  · exact absurd hw nofun
  · rename_i hl
    split at hw
    · exact absurd hw nofun
    · rename_i hsize
      split at hw
      · exact absurd hw nofun
      · rename_i hout
        refine ⟨not_not.mp hl, by omega, by omega, ?_⟩
        split at hw
        · rename_i hm
          exact Or.inl ⟨hm, (Option.some.inj hw).symm⟩
        · rename_i hm
          exact Or.inr ⟨hm, (Option.some.inj hw).symm⟩

theorem Inv.logWrite {x : Block} (h : Inv c s) (hn : ¬ c.IsLog (s.buf i).blockno)
    (hw : s.logWrite c p i x = some t) : Inv c t := by
  obtain ⟨hl, hsize, hout, ht⟩ := logWrite_cases hw
  have hidle := h.commit_none hout
  have hcore := h.core_idle hidle
  have hput : ∀ D', (∀ b, b ∈ s.lh ∨ b = (s.buf i).blockno → b ∈ D') → Core c s.lh D'
      (s.put i x s.disk (Function.update s.latest (s.buf i).blockno x)) := by
    intro D' hD'
    refine hcore.put hl (fun _ _ => rfl) (fun b hne => Function.update_of_ne hne _ _) ?_
      (fun b hnl hd => ?_)
    · rw [if_neg hn, Function.update_self]
    · have hne : b ≠ (s.buf i).blockno := fun e => hd (hD' b (Or.inr e))
      rw [Function.update_of_ne hne]
      exact hcore.clean b hnl (fun hm => hd (hD' b (Or.inl hm)))
  rcases ht with ⟨hm, rfl⟩ | ⟨hm, rfl⟩
  · refine Core.idle (hput _ ?_) h.nodup h.home h.len hidle
    rintro b (hb | rfl)
    · exact hb
    · exact hm
  · have hself : (s.put i x s.disk (Function.update s.latest (s.buf i).blockno x)).buf i =
        { s.buf i with data := x } := put_self
    have hcore' := (hput (s.lh ++ [(s.buf i).blockno]) (by
      rintro b (hb | rfl)
      · exact List.mem_append_left _ hb
      · exact List.mem_append_right _ (List.mem_singleton_self _))).bpin (i := i) (p := p)
      (by rw [hself]; exact hl) (by rw [hself]; exact hm)
    rw [hself] at hcore'
    refine Core.idle (hcore'.relog _ _ _) ?_ ?_ ?_ hidle
    · refine List.nodup_append.mpr ⟨h.nodup, List.nodup_singleton _, ?_⟩
      intro a ha b hb e
      rw [List.mem_singleton.mp hb] at e
      exact hm (e ▸ ha)
    · intro b hb
      rcases List.mem_append.mp hb with hb | hb
      · exact h.home b hb
      · rw [List.mem_singleton.mp hb]
        exact hn
    · show (s.lh ++ [_]).length < _
      rw [List.length_append, List.length_singleton]
      omega

theorem Inv.beginOp (h : Inv c s) (hb : s.beginOp = some t) : Inv c t := by
  unfold State.beginOp at hb
  split at hb
  · exact absurd hb nofun
  · rename_i hc
    have hidle : s.commit = none := by
      cases e : s.commit with
      | none => rfl
      | some r =>
        rw [e] at hc
        exact absurd rfl hc
    split at hb
    · exact absurd hb nofun
    · obtain rfl := Option.some.inj hb
      exact Core.idle ((h.core_idle hidle).relog s.lh _ s.commit) h.nodup h.home h.len hidle

theorem Inv.endOp (h : Inv c s) (ho : 0 < s.outstanding) (he : s.endOp p = some t) : Inv c t := by
  have hidle := h.commit_none ho.ne'
  have hcore := h.core_idle hidle
  unfold State.endOp at he
  dsimp only at he
  split at he
  · exact absurd he nofun
  · split at he
    · rename_i hzero
      obtain rfl := Option.some.inj he
      refine ⟨?_, h.nodup, h.home, h.len, ?_⟩
      · unfold State.unpinned State.installed
        dsimp only
        split
        · exact hcore.relog _ _ _
        · exact hcore.relog _ _ _
      · intro q pc e
        obtain ⟨rfl, rfl⟩ := Prod.mk.inj (Option.some.inj e)
        split
        · exact ⟨hzero, Nat.zero_le _, nofun, nofun⟩
        · rename_i hlen
          refine ⟨hzero, trivial, nofun, fun j hj => ?_⟩
          have hj' : j < s.lh.length := hj
          exact absurd hj' (by omega)
    · obtain rfl := Option.some.inj he
      exact Core.idle (hcore.relog s.lh _ s.commit) h.nodup h.home h.len hidle

/-! ## every step -/

theorem State.Ready.ne (h : s.Ready p) {q : Fin nproc} {pc : Pc} (hc : s.commit = some (q, pc)) :
    q ≠ p := by
  rintro rfl
  refine h.2 ?_
  rw [hc]
  rfl

theorem Inv.step {e : Fin nproc × Event} (h : Inv c s) (hs : Step c s e t) : Inv c t := by
  obtain ⟨p, a⟩ := e
  unfold Step Bio.step at hs
  dsimp only at hs
  cases a with
  | acquire =>
    obtain ⟨y, -, hcore, hr⟩ := h.core.acquire s.dirty_subset hs
    exact h.frame hr.sameLog hcore (fun q _ _ => hr.keep q)
  | commit =>
    dsimp only at hs
    split at hs
    · rename_i q pc hc
      split at hs
      · rename_i hq
        obtain ⟨rfl, hw⟩ := hq
        exact h.advance hc hw hs
      · exact absurd hs nofun
    · exact absurd hs nofun
  | bread b =>
    dsimp only at hs
    split at hs
    · rename_i hready
      obtain ⟨⟨i, u⟩, hb, rfl⟩ := Option.map_eq_some_iff.mp hs
      obtain ⟨hcore, hg⟩ := h.core.bget hready.1 hb
      exact h.frame hg.sameLog hcore (fun q _ _ => hg.keep q)
    · exact absurd hs nofun
  | logWrite i x =>
    dsimp only at hs
    split at hs
    · rename_i hready
      exact h.logWrite hready.2 hs
    · exact absurd hs nofun
  | brelse i =>
    dsimp only at hs
    split at hs
    · rename_i hready
      obtain ⟨hcore, hf⟩ := h.core.brelse hs
      exact h.frame hf.sameLog hcore
        (fun q pc hc y hy => hf.keep q y hy (fun e => absurd e (hready.ne hc)))
    · exact absurd hs nofun
  | beginOp =>
    dsimp only at hs
    split at hs
    · exact h.beginOp hs
    · exact absurd hs nofun
  | endOp =>
    dsimp only at hs
    split at hs
    · rename_i hready
      exact h.endOp hready.2 hs
    · exact absurd hs nofun

/-! ## the start -/

theorem circ_binitLinks (bs l : List (Fin nbuf)) (k : DLinks Ptr) (hc : Circ none k (l.map some))
    (hn : (bs ++ l).Nodup) : Circ none (bs.foldl (fun k b => k.push none (some b)) k)
      ((bs.reverse ++ l).map some) := by
  induction bs generalizing l k with
  | nil => exact hc
  | cons b bs ih =>
    have hb : b ∉ bs ++ l := (List.nodup_cons.mp hn).1
    have hpush : Circ none (k.push none (some b)) ((b :: l).map some) := by
      rw [List.map_cons]
      refine hc.push nofun (fun hm => hb ?_)
      obtain ⟨b', hb', e⟩ := List.mem_map.mp hm
      exact List.mem_append_right _ (Option.some.inj e ▸ hb')
    have hn' : (bs ++ b :: l).Nodup := List.perm_middle.nodup_iff.mpr hn
    rw [List.reverse_cons, List.append_assoc, List.singleton_append]
    exact ih (b :: l) _ hpush hn'

theorem inv_binit (c : Config) (d : Disk) : Inv c (binit d) := by
  refine Core.idle (s := binit d) ?_ List.nodup_nil nofun c.sizePos rfl
  constructor
  · refine ⟨(List.finRange nbuf).reverse ++ [], ?_, ?_⟩
    · refine circ_binitLinks _ [] _ Circ.init ?_
      rw [List.append_nil]
      exact List.nodup_finRange nbuf
    · rw [List.append_nil]
      exact List.reverse_perm _
  · intro i j hi
    exact absurd hi nofun
  · intro i
    have hc : ¬ (binit d).Caches (binit d).lh i := fun h => absurd h.1 nofun
    rw [if_neg hc]
    unfold State.users
    show 0 = refs (fun _ => none) i + _ + 0
    rw [refs_empty]
    rfl
  · exact nofun
  · exact nofun
  · intro i hi
    exact absurd hi nofun
  · exact fun _ _ _ => rfl
  · exact nofun

/-! ## no buffer in use is recycled -/

theorem stable_bwrite {x : Block} (hb : s.bwrite p i x = some t) : Stable s t := by
  obtain ⟨-, rfl⟩ := bwrite_cases hb
  exact bytes_put.stable

theorem stable_advance {pc : Pc} (h : Inv c s) (hw : s.wait p = none)
    (ha : advance c s p pc = some t) : Stable s t := by
  cases pc with
  | writeLog tail | install tail =>
    dsimp only [advance] at ha
    split at ha
    · obtain ⟨⟨i, u⟩, hb, rfl⟩ := Option.map_eq_some_iff.mp ha
      exact (h.core.bget hw hb).2.stable
    · obtain rfl := Option.some.inj ha
      exact fun _ _ => ⟨rfl, rfl⟩
  | logFrom | writeHead | installDst =>
    obtain ⟨⟨i, u⟩, hb, rfl⟩ := Option.map_eq_some_iff.mp ha
    exact (h.core.bget hw hb).2.stable
  | logCopy | headPut | installCopy =>
    obtain ⟨u, hb, rfl⟩ := Option.map_eq_some_iff.mp ha
    have hst : Stable s u := stable_bwrite hb
    exact hst
  | logFreeFrom | logFreeTo | headFree | freeLbuf | freeDbuf =>
    obtain ⟨u, hb, rfl⟩ := Option.map_eq_some_iff.mp ha
    exact (h.core.brelse hb).2.quiet.stable
  | unpin =>
    obtain rfl := Option.some.inj ha
    exact counts_bunpin.stable
  | done =>
    obtain rfl := Option.some.inj ha
    exact fun _ _ => ⟨rfl, rfl⟩

theorem stable_logWrite {x : Block} (hw : s.logWrite c p i x = some t) : Stable s t := by
  obtain ⟨-, -, -, ⟨-, rfl⟩ | ⟨-, rfl⟩⟩ := logWrite_cases hw
  · exact bytes_put.stable
  · intro j hj
    have hp := counts_bpin (i := i)
      (s := s.put i x s.disk (Function.update s.latest (s.buf i).blockno x))
    exact ⟨(hp.dev j).trans (bytes_put.dev j), (hp.blockno j).trans (bytes_put.blockno j)⟩

theorem stable_step {e : Fin nproc × Event} (h : Inv c s) (hs : Step c s e t) : Stable s t := by
  obtain ⟨p, a⟩ := e
  unfold Step Bio.step at hs
  cases a with
  | acquire =>
    obtain ⟨y, -, -, hr⟩ := h.core.acquire s.dirty_subset hs
    exact hr.quiet.stable
  | commit =>
    dsimp only at hs
    split at hs
    · split at hs
      · rename_i hq
        exact stable_advance h hq.2 hs
      · exact absurd hs nofun
    · exact absurd hs nofun
  | bread b =>
    dsimp only at hs
    split at hs
    · rename_i hready
      obtain ⟨⟨i, u⟩, hb, rfl⟩ := Option.map_eq_some_iff.mp hs
      exact (h.core.bget hready.1 hb).2.stable
    · exact absurd hs nofun
  | logWrite i x =>
    dsimp only at hs
    split at hs
    · exact stable_logWrite hs
    · exact absurd hs nofun
  | brelse i =>
    dsimp only at hs
    split at hs
    · exact (h.core.brelse hs).2.quiet.stable
    · exact absurd hs nofun
  | beginOp =>
    dsimp only at hs
    split at hs
    · unfold State.beginOp at hs
      split at hs
      · exact absurd hs nofun
      · split at hs
        · exact absurd hs nofun
        · obtain rfl := Option.some.inj hs
          exact fun _ _ => ⟨rfl, rfl⟩
    · exact absurd hs nofun
  | endOp =>
    dsimp only at hs
    split at hs
    · unfold State.endOp at hs
      dsimp only at hs
      split at hs
      · exact absurd hs nofun
      · split at hs
        · obtain rfl := Option.some.inj hs
          exact fun _ _ => ⟨rfl, rfl⟩
        · obtain rfl := Option.some.inj hs
          exact fun _ _ => ⟨rfl, rfl⟩
    · exact absurd hs nofun

/-! ## every run -/

/-- `log.lh` in the order of its blocks without those that `commit` has unpinned already -/
def State.pins (s : State) : List Nat := s.lh.drop s.unpinned

/-- in every state of every run: a block is in one buffer at most; the list is a circle of all
buffers; a buffer that a process has or waits for, and the buffer of a pinned block, have a count
above zero; and in every step such buffers keep their blocks, and `bread` returns a buffer of the
block that was asked for, locked and with the bytes that were logged last -/
theorem coherent (c : Config) (d : Disk) (l : List (Fin nproc × Event)) (s : State)
    (hrun : Run (Step c) (binit d) l s) :
    (∀ i j, (s.buf i).dev = rootdev → (s.buf j).dev = rootdev →
      (s.buf i).blockno = (s.buf j).blockno → i = j) ∧
    (∃ l : List (Fin nbuf), l.Perm (List.finRange nbuf) ∧
      Seg s.links.next (s.links.next none) (l.map some) none ∧
      Seg s.links.prev (s.links.prev none) (l.map some).reverse none) ∧
    (∀ x, s.links.prev (s.links.next x) = x ∧ s.links.next (s.links.prev x) = x) ∧
    (∀ p i, (s.buf i).lock = some p ∨ (∃ b, s.wait p = some (i, b)) → 0 < (s.buf i).refcnt) ∧
    (∀ b ∈ s.pins, ∃ i, (s.buf i).dev = rootdev ∧ (s.buf i).blockno = b ∧
      (s.buf i).data = s.latest b ∧ 0 < (s.buf i).refcnt) ∧
    ∀ p a t, Step c s (p, a) t →
      (∀ i, 0 < (s.buf i).refcnt →
        (t.buf i).dev = (s.buf i).dev ∧ (t.buf i).blockno = (s.buf i).blockno) ∧
      (∀ b, a = .bread b → ∃ i, t.wait p = some (i, b)) ∧
      (a = .acquire → ∃ i b, s.wait p = some (i, b) ∧ t.wait p = none ∧
        (t.buf i).lock = some p ∧ (t.buf i).dev = rootdev ∧ (t.buf i).blockno = b ∧
        (¬ c.IsLog b → (t.buf i).data = s.latest b)) := by
  have h : Inv c s := hrun.invariant (fun _ _ _ => Inv.step) (inv_binit c d)
  obtain ⟨l', hcirc, hperm⟩ := h.core.circ
  have hmem : ∀ x : Ptr, x ∈ none :: l'.map some := by
    intro x
    cases x with
    | none => exact List.mem_cons_self
    | some i =>
      refine List.mem_cons_of_mem _ (List.mem_map_of_mem ?_)
      exact hperm.mem_iff.mpr (List.mem_finRange i)
  refine ⟨h.core.unique, ⟨l', hperm, hcirc.fwd.2, hcirc.bwd.2⟩,
    fun x => ⟨hcirc.prev_next (hmem x), hcirc.next_prev (hmem x)⟩, ?_, fun b hb => ?_, ?_⟩
  · rintro p i (hl | ⟨b, hw⟩)
    · exact h.core.refcnt_pos_of_lock hl
    · exact h.core.refcnt_pos_of_wait hw
  · obtain ⟨i, h1, h2, h3⟩ := h.core.pinned b hb
    refine ⟨i, h1, h2, ?_, h.core.refcnt_pos_of_pin ⟨h1, h2 ▸ hb⟩⟩
    rw [h.core.data i h1 h3, h2]
    exact if_neg (h.home b (List.drop_subset _ _ hb))
  · intro p a t hs
    refine ⟨stable_step h hs, ?_, ?_⟩
    · rintro b rfl
      unfold Step step at hs
      dsimp only at hs
      split at hs
      · rename_i hready
        obtain ⟨⟨i, u⟩, hb, rfl⟩ := Option.map_eq_some_iff.mp hs
        exact ⟨i, (h.core.bget hready.1 hb).2.wait⟩
      · exact absurd hs nofun
    · rintro rfl
      obtain ⟨y, hw, -, hr⟩ := h.core.acquire s.dirty_subset hs
      refine ⟨y.1, y.2, hw, hr.wait, hr.lock, hr.has.1, hr.has.2.1, fun hn => ?_⟩
      rw [hr.data, ← hr.sameLog.latest]
      exact if_neg hn

end

def smallLog : Config := ⟨2, 31, by decide⟩

def logAndRead : List (Fin nproc × Event) :=
  [(0, .beginOp), (0, .bread 40), (0, .acquire), (0, .logWrite 0 (fun _ => 7)), (0, .brelse 0),
    (0, .endOp), (0, .commit), (1, .bread 40), (1, .acquire)]

theorem coherent_logAndRead : ∃ s, Run (Step smallLog) (binit (fun _ _ => 0)) logAndRead s ∧
    (s.buf 0).lock = some 1 ∧ (s.buf 0).blockno = 40 ∧ (s.buf 0).data 0 = 7 ∧
    0 < (s.buf 0).refcnt := by
  have hsome : (exec (fun s e => step smallLog s e.1 e.2) (binit (fun _ _ => 0)) logAndRead).map
      (fun s => ((s.buf 0).lock, (s.buf 0).blockno, (s.buf 0).data 0)) = some (some 1, 40, 7) := by
    decide +kernel
  obtain ⟨s, hs, he⟩ := Option.map_eq_some_iff.mp hsome
  simp only [Prod.mk.injEq] at he
  obtain ⟨h1, h2, h3⟩ := he
  have hrun : Run (Step smallLog) (binit (fun _ _ => 0)) logAndRead s :=
    Run.of_exec (fun _ _ _ h => h) hs
  exact ⟨s, hrun, h1, h2, h3, (coherent _ _ _ s hrun).2.2.2.1 1 0 (Or.inl h1)⟩

end Bio
