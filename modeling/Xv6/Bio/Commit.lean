import Mathlib.Data.List.GetD
import Xv6.Bio.Steps

/-!
# `commit` through the buffer cache

`Inv` holds in every state.  What `commit` has at each point is in `Pc.vars`; how far it is, in
`Pc.logged` (blocks of the log that are written), `Pc.installed` (home blocks that are written) and
`Pc.unpinned`.
-/

namespace Bio
open Lib
open Log (Config Block Disk putHead logSize maxOpBlocks)

def Pc.unpinned : Pc → Nat
  | .install tail => tail
  | .installDst tail _ => tail
  | .installCopy tail _ _ => tail
  | .unpin tail _ _ => tail
  | .freeLbuf tail _ _ => tail + 1
  | .freeDbuf tail _ => tail + 1
  | _ => 0

def Pc.installed : Pc → Nat
  | .unpin tail _ _ => tail + 1
  | pc => pc.unpinned

/-- `n` is `log.lh.n` -/
def Pc.logged (n : Nat) : Pc → Nat
  | .writeLog tail => tail
  | .logFrom tail _ => tail
  | .logCopy tail _ _ => tail
  | .logFreeFrom tail _ _ => tail + 1
  | .logFreeTo tail _ => tail + 1
  | _ => n

/-- the loops are within `log.lh.n` -/
def Pc.InRange (n : Nat) : Pc → Prop
  | .writeLog tail => tail ≤ n
  | .logFrom tail _ => tail < n
  | .logCopy tail _ _ => tail < n
  | .logFreeFrom tail _ _ => tail < n
  | .logFreeTo tail _ => tail < n
  | .install tail => tail ≤ n
  | .installDst tail _ => tail < n
  | .installCopy tail _ _ => tail < n
  | .unpin tail _ _ => tail < n
  | .freeLbuf tail _ _ => tail < n
  | .freeDbuf tail _ => tail < n
  | _ => True

/-- the buffers that `commit` has, with their blocks -/
def Pc.vars (c : Config) (lh : List Nat) : Pc → List (Fin nbuf × Nat)
  | .logFrom tail dst => [(dst, c.start + tail + 1)]
  | .logCopy tail dst src => [(dst, c.start + tail + 1), (src, lh.getD tail 0)]
  | .logFreeFrom tail dst src => [(dst, c.start + tail + 1), (src, lh.getD tail 0)]
  | .logFreeTo tail dst => [(dst, c.start + tail + 1)]
  | .headPut _ buf => [(buf, c.start)]
  | .headFree _ buf => [(buf, c.start)]
  | .installDst tail lbuf => [(lbuf, c.start + tail + 1)]
  | .installCopy tail lbuf dbuf => [(lbuf, c.start + tail + 1), (dbuf, lh.getD tail 0)]
  | .unpin tail lbuf dbuf => [(lbuf, c.start + tail + 1), (dbuf, lh.getD tail 0)]
  | .freeLbuf tail lbuf dbuf => [(lbuf, c.start + tail + 1), (dbuf, lh.getD tail 0)]
  | .freeDbuf tail dbuf => [(dbuf, lh.getD tail 0)]
  | _ => []

structure Committing (c : Config) (s : State) (p : Fin nproc) (pc : Pc) : Prop where
  outstanding : s.outstanding = 0
  range : pc.InRange s.lh.length
  vars : ∀ y ∈ pc.vars c s.lh, Has s p y
  logged : ∀ j < pc.logged s.lh.length, s.disk (c.start + j + 1) = s.latest (s.lh.getD j 0)

/-- how many blocks of the log header are not pinned any more -/
def State.unpinned (s : State) : Nat := (s.commit.map (fun r => r.2.unpinned)).getD 0

def State.installed (s : State) : Nat := (s.commit.map (fun r => r.2.installed)).getD 0

structure Inv (c : Config) (s : State) : Prop where
  core : Core c (s.lh.drop s.unpinned) (s.lh.drop s.installed) s
  nodup : s.lh.Nodup
  home : ∀ b ∈ s.lh, ¬ c.IsLog b
  len : s.lh.length < c.size
  commit : ∀ p pc, s.commit = some (p, pc) → Committing c s p pc

section
variable {c : Config} {P D : List Nat} {s t : State} {p q : Fin nproc} {i : Fin nbuf} {pc : Pc}
  {tail : Nat}

theorem Pc.unpinned_le (pc : Pc) : pc.unpinned ≤ pc.installed := by
  cases pc with
  | unpin tail _ _ => exact Nat.le_succ tail
  | writeLog | logFrom | logCopy | logFreeFrom | logFreeTo | writeHead | headPut | headFree
  | install | installDst | installCopy | freeLbuf | freeDbuf | done => exact le_rfl

theorem State.dirty_subset (s : State) : s.lh.drop s.installed ⊆ s.lh.drop s.unpinned := by
  refine List.drop_subset_drop_left _ ?_
  unfold State.unpinned State.installed
  cases s.commit with
  | none => exact le_rfl
  | some r => exact r.2.unpinned_le

theorem Core.relog (h : Core c P D s) (lh : List Nat) (n : Nat) (k : Option (Fin nproc × Pc)) :
    Core c P D { s with lh := lh, outstanding := n, commit := k } :=
  ⟨h.circ, h.unique, h.refcnt, h.waits, h.locked, h.data, h.clean, h.pinned⟩

/-! ## steps of `commit` -/

/-- the state in which `commit` goes on at `pc` -/
structure Next (c : Config) (s : State) (p : Fin nproc) (pc : Pc) (t : State) : Prop where
  core : Core c (s.lh.drop pc.unpinned) (s.lh.drop pc.installed) t
  lh : t.lh = s.lh
  outstanding : t.outstanding = 0
  range : pc.InRange s.lh.length
  vars : ∀ y ∈ pc.vars c s.lh, Has t p y
  logged : ∀ j < pc.logged s.lh.length, t.disk (c.start + j + 1) = t.latest (s.lh.getD j 0)

theorem Inv.goto (h : Inv c s) (ht : Next c s p pc t) : Inv c (t.goto p pc) where
  core := by
    show Core c (t.lh.drop pc.unpinned) (t.lh.drop pc.installed) _
    rw [ht.lh]
    exact ht.core.relog _ _ _
  nodup := by
    show t.lh.Nodup
    rw [ht.lh]
    exact h.nodup
  home := by
    show ∀ b ∈ t.lh, _
    rw [ht.lh]
    exact h.home
  len := by
    show t.lh.length < _
    rw [ht.lh]
    exact h.len
  commit := by
    intro q pc' e
    obtain ⟨rfl, rfl⟩ := Prod.mk.inj (Option.some.inj e)
    refine ⟨ht.outstanding, ?_, ?_, ?_⟩
    · show pc.InRange t.lh.length
      rw [ht.lh]
      exact ht.range
    · show ∀ y ∈ pc.vars c t.lh, _
      rw [ht.lh]
      exact ht.vars
    · show ∀ j < pc.logged t.lh.length, t.disk _ = t.latest (t.lh.getD j 0)
      rw [ht.lh]
      exact ht.logged

theorem Inv.core_at (h : Inv c s) (hc : s.commit = some (p, pc)) :
    Core c (s.lh.drop pc.unpinned) (s.lh.drop pc.installed) s := by
  have hcore := h.core
  unfold State.unpinned State.installed at hcore
  rw [hc] at hcore
  exact hcore

theorem Inv.commitBread {pc' : Pc} {b : Nat} (h : Inv c s) (hc : s.commit = some (p, pc))
    (hw : s.wait p = none) (hb : s.bget p b = some (i, t)) (hu : pc'.unpinned = pc.unpinned)
    (hi : pc'.installed = pc.installed) (hr : pc'.InRange s.lh.length)
    (hv : pc'.vars c s.lh = pc.vars c s.lh ++ [(i, b)])
    (hl : pc'.logged s.lh.length = pc.logged s.lh.length) : Inv c (t.goto p pc') := by
  obtain ⟨hcore, hg⟩ := (h.core_at hc).bget hw hb
  have hk := h.commit p pc hc
  refine h.goto ⟨?_, hg.sameLog.lh, hg.sameLog.outstanding.trans hk.outstanding, hr, ?_, ?_⟩
  · rw [hu, hi]
    exact hcore
  · rw [hv]
    intro y hy
    rcases List.mem_append.mp hy with hy | hy
    · exact hg.keep p y (hk.vars y hy)
    · rw [List.mem_singleton.mp hy]
      exact hg.has
  · rw [hl, hg.sameLog.disk, hg.sameLog.latest]
    exact hk.logged

theorem Inv.commitBrelse {pc' : Pc} (h : Inv c s) (hc : s.commit = some (p, pc))
    (hb : s.brelse p i = some t) (hu : pc'.unpinned = pc.unpinned)
    (hi : pc'.installed = pc.installed) (hr : pc'.InRange s.lh.length)
    (hv : ∀ y ∈ pc'.vars c s.lh, y ∈ pc.vars c s.lh ∧ y.1 ≠ i)
    (hl : pc'.logged s.lh.length = pc.logged s.lh.length) : Inv c (t.goto p pc') := by
  obtain ⟨hcore, hf⟩ := (h.core_at hc).brelse hb
  have hk := h.commit p pc hc
  refine h.goto ⟨?_, hf.sameLog.lh, hf.sameLog.outstanding.trans hk.outstanding, hr, ?_, ?_⟩
  · rw [hu, hi]
    exact hcore
  · intro y hy
    obtain ⟨h1, h2⟩ := hv y hy
    exact hf.keep p y (hk.vars y h1) (fun _ => h2)
  · rw [hl, hf.sameLog.disk, hf.sameLog.latest]
    exact hk.logged

theorem bwrite_cases {x : Block} (hb : s.bwrite p i x = some t) : (s.buf i).lock = some p ∧
    t = s.put i x (Function.update s.disk (s.buf i).blockno x) s.latest := by
  unfold State.bwrite at hb
  split at hb
  · rename_i hl
    exact ⟨hl, (Option.some.inj hb).symm⟩
  · exact absurd hb nofun

/-- `commit` writes a block of the log or its header -/
theorem Inv.commitBwrite {pc' : Pc} {x : Block} (h : Inv c s) (hc : s.commit = some (p, pc))
    (hb : s.bwrite p i x = some t) (hlog : c.IsLog (s.buf i).blockno)
    (hu : pc'.unpinned = pc.unpinned) (hi : pc'.installed = pc.installed)
    (hr : pc'.InRange s.lh.length) (hv : pc'.vars c s.lh = pc.vars c s.lh)
    (hl : ∀ j < pc'.logged s.lh.length,
      Function.update s.disk (s.buf i).blockno x (c.start + j + 1) = s.latest (s.lh.getD j 0)) :
    Inv c (t.goto p pc') := by
  obtain ⟨hlock, rfl⟩ := bwrite_cases hb
  have hk := h.commit p pc hc
  have hcore := h.core_at hc
  refine h.goto ⟨?_, rfl, hk.outstanding, hr, ?_, hl⟩
  · rw [hu, hi]
    refine hcore.put hlock (fun b hne => Function.update_of_ne hne _ _) (fun _ _ => rfl) ?_
      (fun b hnl hd => ?_)
    · rw [if_pos hlog, Function.update_self]
    · have hne : b ≠ (s.buf i).blockno := fun e => hnl (e ▸ hlog)
      rw [Function.update_of_ne hne]
      exact hcore.clean b hnl hd
  · rw [hv]
    exact fun y hy => bytes_put.has.mpr (hk.vars y hy)

theorem isLog_tail (h : Inv c s) (ht : tail < s.lh.length) : c.IsLog (c.start + tail + 1) := by
  have hlen := h.len
  refine ⟨?_, ?_⟩
  · omega
  · omega

theorem home_tail (h : Inv c s) (ht : tail < s.lh.length) : ¬ c.IsLog (s.lh.getD tail 0) := by
  rw [List.getD_eq_getElem s.lh 0 ht]
  exact h.home _ (List.getElem_mem ht)

theorem ne_home (h : Inv c s) (ht : tail < s.lh.length) : c.start + tail + 1 ≠ s.lh.getD tail 0 := by
  intro e
  exact home_tail h ht (e ▸ isLog_tail h ht)

theorem Has.ne {y z : Fin nbuf × Nat} (hy : Has s p y) (hz : Has s q z) (h : y.2 ≠ z.2) :
    y.1 ≠ z.1 := by
  intro e
  exact h (hy.2.1.symm.trans ((congrArg (fun i => (s.buf i).blockno) e).trans hz.2.1))

theorem Committing.data {y : Fin nbuf × Nat} (hk : Committing c s p pc) (hcore : Core c P D s)
    (hw : s.wait p = none) (hy : y ∈ pc.vars c s.lh) : (s.buf y.1).data = s.content c y.2 := by
  have hh := hk.vars y hy
  obtain ⟨h1, h2⟩ := hcore.locked p y.1 (hh.lock hw)
  rw [hcore.data y.1 h1 h2, hh.2.1]

theorem drop_tail (l : List Nat) (h : tail < l.length) :
    l.drop tail = l.getD tail 0 :: l.drop (tail + 1) := by
  rw [List.drop_eq_getElem_cons h, List.getD_eq_getElem l 0 h]

/-- one iteration of `write_log` copies a home block to the log -/
theorem Inv.logCopy {dst src : Fin nbuf} (h : Inv c s)
    (hc : s.commit = some (p, .logCopy tail dst src)) (hw : s.wait p = none)
    (hb : s.bwrite p dst (s.buf src).data = some t) :
    Inv c (t.goto p (.logFreeFrom tail dst src)) := by
  have hk := h.commit p _ hc
  have ht : tail < s.lh.length := hk.range
  have hdst : (s.buf dst).blockno = c.start + tail + 1 :=
    (hk.vars (dst, c.start + tail + 1) List.mem_cons_self).2.1
  have hdata : (s.buf src).data = s.latest (s.lh.getD tail 0) := by
    have hd := hk.data (h.core_at hc) hw (y := (src, s.lh.getD tail 0))
      (List.mem_cons_of_mem _ List.mem_cons_self)
    refine hd.trans (if_neg (home_tail h ht))
  refine h.commitBwrite hc hb (hdst ▸ isLog_tail h ht) rfl rfl ht rfl (fun j hj => ?_)
  rw [hdst]
  by_cases e : j = tail
  · rw [e, Function.update_self, hdata]
  · rw [Function.update_of_ne (by omega)]
    exact hk.logged j (by have hj' : j < tail + 1 := hj; show j < tail; omega)

theorem Inv.headPut {erase : Bool} {buf : Fin nbuf} {x : Block} (h : Inv c s)
    (hc : s.commit = some (p, .headPut erase buf)) (hb : s.bwrite p buf x = some t) :
    Inv c (t.goto p (.headFree erase buf)) := by
  have hk := h.commit p _ hc
  have hbuf : (s.buf buf).blockno = c.start := (hk.vars (buf, c.start) List.mem_cons_self).2.1
  have hlog : c.IsLog c.start := ⟨le_rfl, Nat.lt_add_of_pos_right c.sizePos⟩
  refine h.commitBwrite hc hb (hbuf ▸ hlog) rfl rfl trivial rfl (fun j hj => ?_)
  rw [hbuf, Function.update_of_ne (by omega)]
  exact hk.logged j hj

/-- one iteration of `install_trans` copies a block of the log home -/
theorem Inv.installCopy {lbuf dbuf : Fin nbuf} (h : Inv c s)
    (hc : s.commit = some (p, .installCopy tail lbuf dbuf)) (hw : s.wait p = none)
    (hb : s.bwrite p dbuf (s.buf lbuf).data = some t) :
    Inv c (t.goto p (.unpin tail lbuf dbuf)) := by
  have hk := h.commit p _ hc
  have hcore := h.core_at hc
  have ht : tail < s.lh.length := hk.range
  have hdst : (s.buf dbuf).blockno = s.lh.getD tail 0 :=
    (hk.vars (dbuf, s.lh.getD tail 0) (List.mem_cons_of_mem _ List.mem_cons_self)).2.1
  have hdata : (s.buf lbuf).data = s.latest (s.lh.getD tail 0) := by
    have hd := hk.data hcore hw (y := (lbuf, c.start + tail + 1)) List.mem_cons_self
    rw [hd]
    show (if _ then _ else _) = _
    rw [if_pos (isLog_tail h ht)]
    exact hk.logged tail ht
  obtain ⟨hlock, rfl⟩ := bwrite_cases hb
  refine h.goto ⟨?_, rfl, hk.outstanding, ht, fun y hy => bytes_put.has.mpr (hk.vars y hy), ?_⟩
  · refine hcore.put hlock (fun b hne => Function.update_of_ne hne _ _) (fun _ _ => rfl) ?_
      (fun b hnl hd => ?_)
    · rw [hdst, if_neg (home_tail h ht), hdata]
    · by_cases e : b = s.lh.getD tail 0
      · rw [e, hdst, Function.update_self, hdata]
      · rw [hdst, Function.update_of_ne e]
        refine hcore.clean b hnl ?_
        show b ∉ s.lh.drop tail
        rw [drop_tail _ ht, List.mem_cons]
        exact not_or.mpr ⟨e, hd⟩
  · intro j hj
    show Function.update s.disk _ _ _ = _
    have hlog : c.IsLog (c.start + j + 1) := isLog_tail h hj
    have hne : c.start + j + 1 ≠ s.lh.getD tail 0 := fun e => home_tail h ht (e ▸ hlog)
    rw [hdst, Function.update_of_ne hne]
    exact hk.logged j hj

theorem Inv.unpin {lbuf dbuf : Fin nbuf} (h : Inv c s)
    (hc : s.commit = some (p, .unpin tail lbuf dbuf)) :
    Inv c ((s.bunpin dbuf).goto p (.freeLbuf tail lbuf dbuf)) := by
  have hk := h.commit p _ hc
  have ht : tail < s.lh.length := hk.range
  have hd := hk.vars (dbuf, s.lh.getD tail 0) (List.mem_cons_of_mem _ List.mem_cons_self)
  have hcore : Core c (s.lh.getD tail 0 :: s.lh.drop (tail + 1)) (s.lh.drop (tail + 1)) s := by
    rw [← drop_tail _ ht]
    exact h.core_at hc
  have hn : s.lh.getD tail 0 ∉ s.lh.drop (tail + 1) := by
    have hnd : (s.lh.drop tail).Nodup := h.nodup.sublist (List.drop_sublist _ _)
    rw [drop_tail _ ht] at hnd
    exact (List.nodup_cons.mp hnd).1
  refine h.goto ⟨hcore.bunpin hd.1 hd.2.1 hn, rfl, hk.outstanding, ht, ?_, hk.logged⟩
  exact fun y hy => (counts_bunpin.has rfl).mpr (hk.vars y hy)

theorem Inv.clear (h : Inv c s) (hc : s.commit = some (p, .install tail))
    (ht : ¬ tail < s.lh.length) : Inv c ({ s with lh := [] }.goto p (.writeHead true)) := by
  have hk := h.commit p _ hc
  have hcore := h.core_at hc
  change Core c (s.lh.drop tail) (s.lh.drop tail) s at hcore
  rw [List.drop_of_length_le (not_lt.mp ht)] at hcore
  refine ⟨hcore.relog _ _ _, List.nodup_nil, nofun, c.sizePos, ?_⟩
  intro q pc e
  obtain ⟨rfl, rfl⟩ := Prod.mk.inj (Option.some.inj e)
  exact ⟨hk.outstanding, trivial, nofun, nofun⟩

theorem Inv.advance (h : Inv c s) (hc : s.commit = some (p, pc)) (hw : s.wait p = none)
    (ha : advance c s p pc = some t) : Inv c t := by
  have hk := h.commit p pc hc
  cases pc with
  | writeLog tail =>
    dsimp only [Bio.advance] at ha
    split at ha
    · rename_i ht
      obtain ⟨⟨i, u⟩, hb, rfl⟩ := Option.map_eq_some_iff.mp ha
      exact h.commitBread hc hw hb rfl rfl ht rfl rfl
    · rename_i ht
      obtain rfl := Option.some.inj ha
      have hle : tail ≤ s.lh.length := hk.range
      have hl : s.lh.length = tail := le_antisymm (not_lt.mp ht) hle
      have hcore : Core c (s.lh.drop 0) (s.lh.drop 0) s := h.core_at hc
      refine h.goto ⟨hcore, rfl, hk.outstanding, trivial, nofun, fun j hj => ?_⟩
      exact hk.logged j (hl ▸ hj)
  | logFrom tail dst =>
    obtain ⟨⟨i, u⟩, hb, rfl⟩ := Option.map_eq_some_iff.mp ha
    exact h.commitBread hc hw hb rfl rfl hk.range rfl rfl
  | logCopy tail dst src =>
    obtain ⟨u, hb, rfl⟩ := Option.map_eq_some_iff.mp ha
    exact h.logCopy hc hw hb
  | logFreeFrom tail dst src =>
    obtain ⟨u, hb, rfl⟩ := Option.map_eq_some_iff.mp ha
    refine h.commitBrelse hc hb rfl rfl hk.range (fun y hy => ?_) rfl
    obtain rfl := List.mem_singleton.mp hy
    exact ⟨List.mem_cons_self, Has.ne (hk.vars _ List.mem_cons_self)
      (hk.vars (src, s.lh.getD tail 0) (List.mem_cons_of_mem _ List.mem_cons_self))
      (ne_home h hk.range)⟩
  | logFreeTo tail dst =>
    obtain ⟨u, hb, rfl⟩ := Option.map_eq_some_iff.mp ha
    exact h.commitBrelse hc hb rfl rfl (Nat.succ_le_of_lt hk.range) nofun rfl
  | writeHead erase =>
    obtain ⟨⟨i, u⟩, hb, rfl⟩ := Option.map_eq_some_iff.mp ha
    exact h.commitBread hc hw hb rfl rfl trivial rfl rfl
  | headPut erase buf =>
    obtain ⟨u, hb, rfl⟩ := Option.map_eq_some_iff.mp ha
    exact h.headPut hc hb
  | headFree erase buf =>
    obtain ⟨u, hb, rfl⟩ := Option.map_eq_some_iff.mp ha
    cases erase with
    | true => exact h.commitBrelse hc hb rfl rfl trivial nofun rfl
    | false => exact h.commitBrelse hc hb rfl rfl (Nat.zero_le _) nofun rfl
  | install tail =>
    dsimp only [Bio.advance] at ha
    split at ha
    · rename_i ht
      obtain ⟨⟨i, u⟩, hb, rfl⟩ := Option.map_eq_some_iff.mp ha
      exact h.commitBread hc hw hb rfl rfl ht rfl rfl
    · rename_i ht
      obtain rfl := Option.some.inj ha
      exact h.clear hc ht
  | installDst tail lbuf =>
    obtain ⟨⟨i, u⟩, hb, rfl⟩ := Option.map_eq_some_iff.mp ha
    exact h.commitBread hc hw hb rfl rfl hk.range rfl rfl
  | installCopy tail lbuf dbuf =>
    obtain ⟨u, hb, rfl⟩ := Option.map_eq_some_iff.mp ha
    exact h.installCopy hc hw hb
  | unpin tail lbuf dbuf =>
    obtain rfl := Option.some.inj ha
    exact h.unpin hc
  | freeLbuf tail lbuf dbuf =>
    obtain ⟨u, hb, rfl⟩ := Option.map_eq_some_iff.mp ha
    refine h.commitBrelse hc hb rfl rfl hk.range (fun y hy => ?_) rfl
    obtain rfl := List.mem_singleton.mp hy
    exact ⟨List.mem_cons_of_mem _ List.mem_cons_self,
      Has.ne (hk.vars (dbuf, s.lh.getD tail 0) (List.mem_cons_of_mem _ List.mem_cons_self))
        (hk.vars (lbuf, c.start + tail + 1) List.mem_cons_self) (ne_home h hk.range).symm⟩
  | freeDbuf tail dbuf =>
    obtain ⟨u, hb, rfl⟩ := Option.map_eq_some_iff.mp ha
    exact h.commitBrelse hc hb rfl rfl (Nat.succ_le_of_lt hk.range) nofun rfl
  | done =>
    obtain rfl := Option.some.inj ha
    exact ⟨(h.core_at hc).relog _ _ _, h.nodup, h.home, h.len, nofun⟩

end

end Bio
