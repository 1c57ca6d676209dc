import Xv6.Bio.Model
import Xv6.Lib.Refs

/-!
# What the buffer cache keeps

`Core c P D`: the list is circular and has all buffers, no block of the root device is in two
buffers, the reference count of a buffer is the number of processes that wait for it or hold it,
plus the pin of the log for the blocks of `P`, and valid buffers have the bytes that were logged
last.  The disk has them too, but for the blocks of `D`.
-/

namespace Bio
open Lib
open Log (Config Block Disk putHead logSize maxOpBlocks)

/-- what a buffer of block `b` has to hold -/
def State.content (s : State) (c : Config) (b : Nat) : Block :=
  if c.IsLog b then s.disk b else s.latest b

def State.users (s : State) (i : Fin nbuf) : Nat :=
  refs (fun p => (s.wait p).map Prod.fst) i + if (s.buf i).lock = none then 0 else 1

def State.Caches (s : State) (P : List Nat) (i : Fin nbuf) : Prop :=
  (s.buf i).dev = rootdev ∧ (s.buf i).blockno ∈ P

instance (s : State) (P : List Nat) (i : Fin nbuf) : Decidable (s.Caches P i) :=
  inferInstanceAs (Decidable (_ ∧ _))

structure Core (c : Config) (P D : List Nat) (s : State) : Prop where
  circ : ∃ l : List (Fin nbuf), Circ none s.links (l.map some) ∧ l.Perm (List.finRange nbuf)
  unique : ∀ i j, (s.buf i).dev = rootdev → (s.buf j).dev = rootdev →
    (s.buf i).blockno = (s.buf j).blockno → i = j
  refcnt : ∀ i, (s.buf i).refcnt = s.users i + if s.Caches P i then 1 else 0
  waits : ∀ p i b, s.wait p = some (i, b) → (s.buf i).dev = rootdev ∧ (s.buf i).blockno = b
  locked : ∀ p i, (s.buf i).lock = some p → (s.buf i).dev = rootdev ∧ (s.buf i).valid = true
  data : ∀ i, (s.buf i).dev = rootdev → (s.buf i).valid = true →
    (s.buf i).data = s.content c (s.buf i).blockno
  clean : ∀ b, ¬ c.IsLog b → b ∉ D → s.disk b = s.latest b
  pinned : ∀ b ∈ P, ∃ i, (s.buf i).dev = rootdev ∧ (s.buf i).blockno = b ∧ (s.buf i).valid = true

section
variable {c : Config} {P D : List Nat} {s t : State} {p q : Fin nproc} {i j : Fin nbuf} {b : Nat}
  {x : Buf}

@[simp] theorem State.setBuf_self : (s.setBuf i x).buf i = x := Function.update_self ..

theorem State.setBuf_of_ne (h : j ≠ i) : (s.setBuf i x).buf j = s.buf j :=
  Function.update_of_ne h _ _

/-! ## references -/

theorem map_update (w : Fin nproc → Option (Fin nbuf × Nat)) (p : Fin nproc)
    (v : Option (Fin nbuf × Nat)) :
    (fun q => (Function.update w p v q).map Prod.fst) =
      Function.update (fun q => (w q).map Prod.fst) p (v.map Prod.fst) := by
  funext q
  by_cases e : q = p
  · subst e
    rw [Function.update_self, Function.update_self]
  · rw [Function.update_of_ne e, Function.update_of_ne e]

/-- a process that waits for a buffer or holds it, or a pin, is counted -/
theorem Core.refcnt_pos_of_wait (h : Core c P D s) (hw : s.wait p = some (i, b)) :
    0 < (s.buf i).refcnt := by
  rw [h.refcnt]
  refine Nat.add_pos_left (Nat.add_pos_left (Nat.pos_of_ne_zero ?_) _) _
  intro e
  refine refs_eq_zero_iff.mp e p ?_
  rw [hw]
  rfl

theorem Core.refcnt_pos_of_lock (h : Core c P D s) (hl : (s.buf i).lock = some p) :
    0 < (s.buf i).refcnt := by
  rw [h.refcnt]
  refine Nat.add_pos_left (Nat.add_pos_right _ ?_) _
  rw [hl, if_neg nofun]
  exact Nat.one_pos

theorem Core.refcnt_pos_of_pin (h : Core c P D s) (hc : s.Caches P i) : 0 < (s.buf i).refcnt := by
  rw [h.refcnt, if_pos hc]
  exact Nat.succ_pos _

/-! ## the list -/

theorem scan_eq {k : DLinks Ptr} {l : List (Fin nbuf)} (hc : Circ none k (l.map some))
    (hl : l.length ≤ nbuf) : scan k.next = l := by
  unfold scan
  rw [walk_eq hc.fwd (by rwa [List.length_map])]
  unfold List.reduceOption
  rw [List.filterMap_map]
  exact List.filterMap_some

theorem mem_scan_next (h : Core c P D s) (i : Fin nbuf) : i ∈ scan s.links.next := by
  obtain ⟨l, hc, hp⟩ := h.circ
  rw [scan_eq hc (by rw [hp.length_eq, List.length_finRange]), hp.mem_iff]
  exact List.mem_finRange i

theorem circ_moveToFront {k : DLinks Ptr} {l : List (Fin nbuf)} (hc : Circ none k (l.map some))
    (hp : l.Perm (List.finRange nbuf)) (i : Fin nbuf) :
    ∃ l' : List (Fin nbuf), Circ none ((k.unlink (some i)).push none (some i)) (l'.map some) ∧
      l'.Perm (List.finRange nbuf) := by
  obtain ⟨l₁, l₂, rfl⟩ := List.append_of_mem (hp.mem_iff.mpr (List.mem_finRange i))
  refine ⟨i :: (l₁ ++ l₂), ?_, List.perm_middle.symm.trans hp⟩
  rw [List.map_append, List.map_cons] at hc
  rw [List.map_cons, List.map_append]
  exact hc.moveToFront

/-! ## steps that leave blocks where they are -/

/-- every buffer keeps its block, and no disk block changes -/
structure Quiet (s t : State) : Prop where
  dev : ∀ j, (t.buf j).dev = (s.buf j).dev
  blockno : ∀ j, (t.buf j).blockno = (s.buf j).blockno
  disk : t.disk = s.disk
  latest : t.latest = s.latest

theorem Quiet.caches (hq : Quiet s t) : t.Caches P j ↔ s.Caches P j := by
  unfold State.Caches
  rw [hq.dev, hq.blockno]

theorem Core.congr (h : Core c P D s) (hq : Quiet s t)
    (hcirc : ∃ l : List (Fin nbuf), Circ none t.links (l.map some) ∧ l.Perm (List.finRange nbuf))
    (href : ∀ j, (t.buf j).refcnt = t.users j + if s.Caches P j then 1 else 0)
    (hwait : ∀ p x, t.wait p = some x → s.wait p = some x ∨
      (s.buf x.1).dev = rootdev ∧ (s.buf x.1).blockno = x.2)
    (hlock : ∀ p j, (t.buf j).lock = some p → (s.buf j).lock = some p ∨
      (s.buf j).dev = rootdev ∧ (t.buf j).valid = true)
    (hkeep : ∀ j, (s.buf j).valid = true →
      (t.buf j).valid = true ∧ (t.buf j).data = (s.buf j).data)
    (hnew : ∀ j, (s.buf j).dev = rootdev → (s.buf j).valid = false → (t.buf j).valid = true →
      (t.buf j).data = s.content c (s.buf j).blockno) : Core c P D t := by
  have hcontent : ∀ b, t.content c b = s.content c b := by
    intro b
    unfold State.content
    rw [hq.disk, hq.latest]
  constructor
  · exact hcirc
  · intro i j hi hj e
    rw [hq.dev] at hi hj
    rw [hq.blockno, hq.blockno] at e
    exact h.unique i j hi hj e
  · intro j
    rw [href j]
    exact congrArg _ (if_congr hq.caches.symm rfl rfl)
  · intro p i b hw
    rw [hq.dev, hq.blockno]
    rcases hwait p _ hw with e | e
    · exact h.waits p i b e
    · exact e
  · intro p i hl
    rw [hq.dev]
    rcases hlock p i hl with e | e
    · obtain ⟨h1, h2⟩ := h.locked p i e
      exact ⟨h1, (hkeep i h2).1⟩
    · exact e
  · intro i hd hv
    rw [hq.dev] at hd
    rw [hq.blockno, hcontent]
    cases hs : (s.buf i).valid with
    | true =>
      rw [(hkeep i hs).2]
      exact h.data i hd hs
    | false => exact hnew i hd hs hv
  · rw [hq.disk, hq.latest]
    exact h.clean
  · intro b hb
    obtain ⟨i, h1, h2, h3⟩ := h.pinned b hb
    exact ⟨i, (hq.dev i).trans h1, (hq.blockno i).trans h2, (hkeep i h3).1⟩

theorem quiet_setBuf (hd : x.dev = (s.buf i).dev) (hb : x.blockno = (s.buf i).blockno) :
    Quiet s (s.setBuf i x) := by
  refine ⟨fun j => ?_, fun j => ?_, rfl, rfl⟩
  · by_cases e : j = i
    · rw [e, State.setBuf_self, hd]
    · rw [State.setBuf_of_ne e]
  · by_cases e : j = i
    · rw [e, State.setBuf_self, hb]
    · rw [State.setBuf_of_ne e]

/-- a process has buffer `x.1`, with block `x.2`, or waits for it -/
def Has (s : State) (p : Fin nproc) (x : Fin nbuf × Nat) : Prop :=
  (s.buf x.1).dev = rootdev ∧ (s.buf x.1).blockno = x.2 ∧
    (s.wait p = some x ∨ (s.buf x.1).lock = some p)

theorem Has.lock {x : Fin nbuf × Nat} (h : Has s p x) (hw : s.wait p = none) :
    (s.buf x.1).lock = some p := by
  rcases h.2.2 with e | e
  · exact absurd (hw.symm.trans e) nofun
  · exact e

theorem Core.refcnt_pos_of_has {x : Fin nbuf × Nat} (h : Core c P D s) (hx : Has s p x) :
    0 < (s.buf x.1).refcnt := by
  rcases hx.2.2 with e | e
  · exact h.refcnt_pos_of_wait e
  · exact h.refcnt_pos_of_lock e

structure SameLog (s t : State) : Prop where
  disk : t.disk = s.disk
  latest : t.latest = s.latest
  lh : t.lh = s.lh
  outstanding : t.outstanding = s.outstanding
  commit : t.commit = s.commit

/-! ## `bget` -/

theorem users_setBuf (hl : x.lock = (s.buf i).lock) (j : Fin nbuf) :
    (s.setBuf i x).users j = s.users j := by
  unfold State.users
  have hlock : ((s.setBuf i x).buf j).lock = (s.buf j).lock := by
    by_cases e : j = i
    · rw [e, State.setBuf_self, hl]
    · rw [State.setBuf_of_ne e]
  rw [hlock]
  rfl

theorem users_await (hw : s.wait p = none) (j : Fin nbuf) :
    (s.await p i b).users j = s.users j + if j = i then 1 else 0 := by
  unfold State.users State.await
  dsimp only
  rw [map_update, Nat.add_right_comm]
  refine congrArg (· + _) ?_
  exact refs_add (by rw [hw]; rfl) i

/-- the buffer that `bget` recycles -/
def State.recycled (s : State) (i : Fin nbuf) (b : Nat) : State :=
  s.setBuf i { s.buf i with dev := rootdev, blockno := b, valid := false, refcnt := 1 }

theorem recycled_self : (s.recycled i b).buf i =
    { s.buf i with dev := rootdev, blockno := b, valid := false, refcnt := 1 } := State.setBuf_self

theorem recycled_of_ne (h : j ≠ i) : (s.recycled i b).buf j = s.buf j := State.setBuf_of_ne h

theorem bget_cases (h : Core c P D s) (hb : s.bget p b = some (i, t)) :
    ((s.buf i).dev = rootdev ∧ (s.buf i).blockno = b ∧
      t = (s.bpin i).await p i b) ∨
    ((∀ j, (s.buf j).dev = rootdev → (s.buf j).blockno ≠ b) ∧ (s.buf i).refcnt = 0 ∧
      t = (s.recycled i b).await p i b) := by
  unfold State.bget at hb
  split at hb
  · rename_i k hk
    obtain ⟨rfl, rfl⟩ := Prod.mk.inj (Option.some.inj hb)
    have hc := List.find?_some hk
    simp only [decide_eq_true_eq] at hc
    exact Or.inl ⟨hc.1, hc.2, rfl⟩
  · rename_i hk
    split at hb
    · rename_i k hk'
      obtain ⟨rfl, rfl⟩ := Prod.mk.inj (Option.some.inj hb)
      have hc := List.find?_some hk'
      simp only [decide_eq_true_eq] at hc
      refine Or.inr ⟨fun j hd e => ?_, hc, rfl⟩
      have hn := List.find?_eq_none.mp hk j (mem_scan_next h j)
      exact hn (decide_eq_true ⟨hd, e⟩)
    · exact absurd hb nofun

theorem bpin_self : (s.bpin i).buf i = { s.buf i with refcnt := (s.buf i).refcnt + 1 } :=
  State.setBuf_self

theorem bpin_of_ne (h : j ≠ i) : (s.bpin i).buf j = s.buf j := State.setBuf_of_ne h

theorem users_bpin (j : Fin nbuf) : (s.bpin i).users j = s.users j :=
  users_setBuf (x := { s.buf i with refcnt := (s.buf i).refcnt + 1 }) rfl j

/-- only the count of one buffer changes -/
structure Counts (s t : State) : Prop extends Quiet s t where
  valid : ∀ j, (t.buf j).valid = (s.buf j).valid
  data : ∀ j, (t.buf j).data = (s.buf j).data
  lock : ∀ j, (t.buf j).lock = (s.buf j).lock
  links : t.links = s.links

theorem counts_bpin : Counts s (s.bpin i) := by
  refine ⟨quiet_setBuf rfl rfl, fun j => ?_, fun j => ?_, fun j => ?_, rfl⟩
  · by_cases e : j = i
    · rw [e, bpin_self]
    · rw [bpin_of_ne e]
  · by_cases e : j = i
    · rw [e, bpin_self]
    · rw [bpin_of_ne e]
  · by_cases e : j = i
    · rw [e, bpin_self]
    · rw [bpin_of_ne e]

theorem Core.counts (h : Core c P D s) (hc : Counts s t)
    (href : ∀ j, (t.buf j).refcnt = t.users j + if s.Caches P j then 1 else 0)
    (hwait : ∀ p x, t.wait p = some x → s.wait p = some x ∨
      (s.buf x.1).dev = rootdev ∧ (s.buf x.1).blockno = x.2) : Core c P D t := by
  refine h.congr hc.toQuiet ?_ href hwait (fun r j hl => ?_) (fun j hv => ?_) (fun j _ hv hv' => ?_)
  · rw [hc.links]
    exact h.circ
  · rw [hc.lock] at hl
    exact Or.inl hl
  · rw [hc.valid, hc.data]
    exact ⟨hv, rfl⟩
  · rw [hc.valid] at hv'
    exact absurd (hv.symm.trans hv') nofun

theorem Core.hit (h : Core c P D s) (hw : s.wait p = none) (hd : (s.buf i).dev = rootdev)
    (hb : (s.buf i).blockno = b) : Core c P D ((s.bpin i).await p i b) := by
  have hc : Counts s ((s.bpin i).await p i b) := by
    have hp := counts_bpin (s := s) (i := i)
    exact ⟨⟨hp.dev, hp.blockno, rfl, rfl⟩, hp.valid, hp.data, hp.lock, rfl⟩
  refine h.counts hc (fun j => ?_) (fun r x hx => ?_)
  · rw [users_await (show (s.bpin i).wait p = none from hw), users_bpin]
    show ((s.bpin i).buf j).refcnt = _
    have hu := h.refcnt j
    by_cases e : j = i
    · subst e
      rw [bpin_self, if_pos rfl]
      dsimp only
      omega
    · rw [bpin_of_ne e, if_neg e, hu]
      rfl
  · change Function.update s.wait p (some (i, b)) r = some x at hx
    by_cases e : r = p
    · rw [e, Function.update_self] at hx
      obtain rfl := Option.some.inj hx
      exact Or.inr ⟨hd, hb⟩
    · rw [Function.update_of_ne e] at hx
      exact Or.inl hx

theorem users_recycled (j : Fin nbuf) : (s.recycled i b).users j = s.users j :=
  users_setBuf
    (x := { s.buf i with dev := rootdev, blockno := b, valid := false, refcnt := 1 }) rfl j

/-- a buffer with a count of zero: nobody waits for it, holds it or pinned it -/
theorem Core.unused (h : Core c P D s) (h0 : (s.buf i).refcnt = 0) :
    (∀ p x, s.wait p = some x → x.1 ≠ i) ∧ (s.buf i).lock = none ∧ ¬ s.Caches P i := by
  refine ⟨fun p x hw e => ?_, ?_, fun hc => ?_⟩
  · obtain ⟨j, b⟩ := x
    subst e
    exact absurd h0 (h.refcnt_pos_of_wait hw).ne'
  · cases hl : (s.buf i).lock with
    | none => rfl
    | some p => exact absurd h0 (h.refcnt_pos_of_lock hl).ne'
  · exact absurd h0 (h.refcnt_pos_of_pin hc).ne'

theorem Core.recycle (h : Core c P D s) (hw : s.wait p = none)
    (hno : ∀ j, (s.buf j).dev = rootdev → (s.buf j).blockno ≠ b) (h0 : (s.buf i).refcnt = 0) :
    Core c P D ((s.recycled i b).await p i b) := by
  obtain ⟨hnw, hnl, hnp⟩ := h.unused h0
  have hbP : b ∉ P := by
    intro hb
    obtain ⟨k, h1, h2, -⟩ := h.pinned b hb
    exact hno k h1 h2
  have hself : ((s.recycled i b).await p i b).buf i =
      { s.buf i with dev := rootdev, blockno := b, valid := false, refcnt := 1 } := recycled_self
  have hother : ∀ {j}, j ≠ i → ((s.recycled i b).await p i b).buf j = s.buf j := recycled_of_ne
  constructor
  · exact h.circ
  · intro j k hj hk e
    by_cases ej : j = i
    · by_cases ek : k = i
      · rw [ej, ek]
      · rw [hother ek] at hk e
        rw [ej, hself] at e
        exact absurd e.symm (hno k hk)
    · rw [hother ej] at hj e
      by_cases ek : k = i
      · rw [ek, hself] at e
        exact absurd e (hno j hj)
      · rw [hother ek] at hk e
        exact h.unique j k hj hk e
  · intro j
    rw [users_await (show (s.recycled i b).wait p = none from hw), users_recycled]
    have hu := h.refcnt j
    by_cases e : j = i
    · subst e
      have hc : ¬ ((s.recycled j b).await p j b).Caches P j := by
        unfold State.Caches
        rw [hself]
        exact fun hm => hbP hm.2
      show (((s.recycled j b).await p j b).buf j).refcnt = s.users j + _ +
        if ((s.recycled j b).await p j b).Caches P j then 1 else 0
      rw [hself, if_pos rfl, if_neg hc]
      rw [if_neg hnp] at hu
      dsimp only
      omega
    · have hc : ((s.recycled i b).await p i b).Caches P j ↔ s.Caches P j := by
        unfold State.Caches
        rw [hother e]
      show (((s.recycled i b).await p i b).buf j).refcnt = s.users j + _ +
        if ((s.recycled i b).await p i b).Caches P j then 1 else 0
      rw [hother e, hu, if_neg e, if_congr hc rfl rfl]
      rfl
  · intro r j b' hx
    change Function.update s.wait p (some (i, b)) r = some (j, b') at hx
    by_cases e : r = p
    · rw [e, Function.update_self] at hx
      obtain ⟨rfl, rfl⟩ := Prod.mk.inj (Option.some.inj hx)
      rw [hself]
      exact ⟨rfl, rfl⟩
    · rw [Function.update_of_ne e] at hx
      rw [hother (hnw r _ hx)]
      exact h.waits r j b' hx
  · intro r j hl
    by_cases e : j = i
    · subst e
      rw [hself] at hl
      exact absurd (hnl.symm.trans hl) nofun
    · rw [hother e] at hl ⊢
      exact h.locked r j hl
  · intro j hd hv
    by_cases e : j = i
    · subst e
      rw [hself] at hv
      exact absurd hv nofun
    · rw [hother e] at hd hv ⊢
      exact h.data j hd hv
  · exact h.clean
  · intro b' hb'
    obtain ⟨k, h1, h2, h3⟩ := h.pinned b' hb'
    have e : k ≠ i := by
      rintro rfl
      exact hnp ⟨h1, h2 ▸ hb'⟩
    refine ⟨k, ?_⟩
    rw [hother e]
    exact ⟨h1, h2, h3⟩

end

end Bio
