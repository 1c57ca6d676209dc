import Xv6.Bio.Inv

/-!
# What `bread`, `brelse` and the rest do to the buffer cache
-/

namespace Bio
open Lib
open Log (Config Block Disk putHead logSize maxOpBlocks)

section
variable {c : Config} {P D D' : List Nat} {s t : State} {p q : Fin nproc} {i j : Fin nbuf} {b : Nat}
  {x : Buf} {y : Fin nbuf × Nat}

/-- buffers with a count above zero keep their blocks -/
def Stable (s t : State) : Prop := ∀ j, 0 < (s.buf j).refcnt →
  (t.buf j).dev = (s.buf j).dev ∧ (t.buf j).blockno = (s.buf j).blockno

theorem Quiet.stable (h : Quiet s t) : Stable s t := fun j _ => ⟨h.dev j, h.blockno j⟩

theorem Counts.has (h : Counts s t) (hw : t.wait = s.wait) : Has t q y ↔ Has s q y := by
  unfold Has
  rw [h.dev, h.blockno, h.lock, hw]

/-! ## `bget` -/

/-- what `bget` did: the buffer is there for `p`, and all that others have is as before -/
structure Got (s : State) (p : Fin nproc) (y : Fin nbuf × Nat) (t : State) : Prop where
  sameLog : SameLog s t
  stable : Stable s t
  wait : t.wait p = some y
  has : Has t p y
  keep : ∀ q y, Has s q y → Has t q y

theorem has_await (hw : s.wait p = none) (h : Has s q y) : Has (s.await p i b) q y := by
  refine ⟨h.1, h.2.1, ?_⟩
  rcases h.2.2 with e | e
  · have hne : q ≠ p := by
      rintro rfl
      exact absurd (hw.symm.trans e) nofun
    exact Or.inl ((Function.update_of_ne hne _ _).trans e)
  · exact Or.inr e

theorem Core.bget (h : Core c P D s) (hw : s.wait p = none) (hb : s.bget p b = some (i, t)) :
    Core c P D t ∧ Got s p (i, b) t := by
  rcases bget_cases h hb with ⟨hd, hn, rfl⟩ | ⟨hno, h0, rfl⟩
  · have hcore := h.hit hw hd hn
    have hc := counts_bpin (s := s) (i := i)
    have hself : ((s.bpin i).await p i b).wait p = some (i, b) := Function.update_self ..
    obtain ⟨h1, h2⟩ := hcore.waits p i b hself
    refine ⟨hcore, ⟨⟨rfl, rfl, rfl, rfl, rfl⟩, hc.stable, hself, ⟨h1, h2, Or.inl hself⟩, ?_⟩⟩
    intro q y hy
    exact has_await hw ((hc.has rfl).mpr hy)
  · have hcore := h.recycle hw hno h0
    have hself : ((s.recycled i b).await p i b).wait p = some (i, b) := Function.update_self ..
    obtain ⟨h1, h2⟩ := hcore.waits p i b hself
    have hother : ∀ {j}, 0 < (s.buf j).refcnt → (s.recycled i b).buf j = s.buf j := by
      intro j hj
      refine recycled_of_ne ?_
      rintro rfl
      exact absurd h0 hj.ne'
    refine ⟨hcore, ⟨⟨rfl, rfl, rfl, rfl, rfl⟩, ?_, hself, ⟨h1, h2, Or.inl hself⟩, ?_⟩⟩
    · intro j hj
      have hbuf : ((s.recycled i b).await p i b).buf j = s.buf j := hother hj
      rw [hbuf]
      exact ⟨rfl, rfl⟩
    · intro q y hy
      refine has_await hw ?_
      unfold Has
      rw [hother (h.refcnt_pos_of_has hy)]
      exact hy

/-! ## the rest of `bread` -/

/-- buffer `i` when process `p` has its lock -/
def State.filled (s : State) (p : Fin nproc) (i : Fin nbuf) : Buf :=
  { s.buf i with
    lock := some p
    data := if (s.buf i).valid then (s.buf i).data else s.disk (s.buf i).blockno
    valid := true }

theorem acquire_cases (ha : s.acquire p = some t) : ∃ i b, s.wait p = some (i, b) ∧
    (s.buf i).lock = none ∧
    t = { s.setBuf i (s.filled p i) with wait := Function.update s.wait p none } := by
  unfold State.acquire at ha
  split at ha
  · exact absurd ha nofun
  · rename_i i b hw
    dsimp only at ha
    split at ha
    · rename_i hl
      obtain rfl := Option.some.inj ha
      exact ⟨i, b, hw, hl, rfl⟩
    · exact absurd ha nofun

/-- what `bread` returned: `p` holds the buffer, with the bytes of the block -/
structure Returned (c : Config) (s : State) (p : Fin nproc) (y : Fin nbuf × Nat) (t : State) :
    Prop where
  sameLog : SameLog s t
  quiet : Quiet s t
  has : Has t p y
  lock : (t.buf y.1).lock = some p
  data : (t.buf y.1).data = t.content c y.2
  wait : t.wait p = none
  keep : ∀ q y, Has s q y → Has t q y

theorem Core.acquire (h : Core c P D s) (hsub : D ⊆ P) (ha : s.acquire p = some t) :
    ∃ y, s.wait p = some y ∧ Core c P D t ∧ Returned c s p y t := by
  obtain ⟨i, b, hw, hl, rfl⟩ := acquire_cases ha
  obtain ⟨hd, hb⟩ := h.waits p i b hw
  have hq := quiet_setBuf (s := s) (i := i) (x := s.filled p i) rfl rfl
  have hself : ∀ w, ({ s.setBuf i (s.filled p i) with wait := w } : State).buf i = s.filled p i :=
    fun _ => State.setBuf_self
  have hother : ∀ w j, j ≠ i →
      ({ s.setBuf i (s.filled p i) with wait := w } : State).buf j = s.buf j :=
    fun _ j e => State.setBuf_of_ne e
  have hcore : Core c P D
      { s.setBuf i (s.filled p i) with wait := Function.update s.wait p none } := by
    refine h.congr ⟨hq.dev, hq.blockno, rfl, rfl⟩ h.circ (fun j => ?_) (fun r y hy => ?_)
      (fun r j hr => ?_) (fun j hv => ?_) (fun j hd' hv _ => ?_)
    · have hu := h.refcnt j
      unfold State.users at hu ⊢
      have hdrop := refs_drop (m := fun q => (s.wait q).map Prod.fst) (i := p) (a := j) (b := i)
        (by rw [hw]; rfl)
      dsimp only
      rw [map_update]
      show _ = refs (Function.update (fun q => (s.wait q).map Prod.fst) p none) j + _ + _
      by_cases e : j = i
      · subst e
        rw [State.setBuf_self]
        show (s.buf j).refcnt = _
        rw [hl, if_pos rfl] at hu
        rw [if_pos rfl] at hdrop
        rw [show (s.filled p j).lock = some p from rfl, if_neg nofun, hu, ← hdrop]
      · rw [State.setBuf_of_ne e, hu]
        rw [if_neg e] at hdrop
        rw [← hdrop]
        rfl
    · change Function.update s.wait p none r = some y at hy
      by_cases e : r = p
      · rw [e, Function.update_self] at hy
        exact absurd hy nofun
      · rw [Function.update_of_ne e] at hy
        exact Or.inl hy
    · by_cases e : j = i
      · subst e
        rw [hself]
        exact Or.inr ⟨hd, rfl⟩
      · rw [hother _ _ e] at hr
        exact Or.inl hr
    · by_cases e : j = i
      · subst e
        rw [hself]
        refine ⟨rfl, ?_⟩
        show (if (s.buf j).valid then (s.buf j).data else _) = _
        rw [if_pos hv]
      · rw [hother _ _ e]
        exact ⟨hv, rfl⟩
    · -- the block of a buffer that is not valid is not pinned, and the disk has its last bytes
      by_cases e : j = i
      · subst e
        rw [hself]
        show (if (s.buf j).valid then (s.buf j).data else s.disk (s.buf j).blockno) = _
        rw [if_neg (by rw [hv]; exact nofun)]
        unfold State.content
        split
        · rfl
        · rename_i hlog
          refine h.clean _ hlog (fun hm => ?_)
          obtain ⟨k, h1, h2, h3⟩ := h.pinned _ (hsub hm)
          rw [h.unique k j h1 hd' h2] at h3
          exact absurd (hv.symm.trans h3) nofun
      · rename_i hv'
        rw [hother _ _ e] at hv'
        exact absurd (hv.symm.trans hv') nofun
  have hlock : ({ s.setBuf i (s.filled p i) with
      wait := Function.update s.wait p none } : State).buf i = s.filled p i := State.setBuf_self
  have hdata := hcore.data i (by rw [hlock]; exact hd) (by rw [hlock]; rfl)
  refine ⟨(i, b), hw, hcore, ⟨rfl, rfl, rfl, rfl, rfl⟩, ⟨hq.dev, hq.blockno, rfl, rfl⟩, ?_, ?_, ?_,
    Function.update_self .., ?_⟩
  · refine ⟨(hq.dev i).trans hd, (hq.blockno i).trans hb, Or.inr ?_⟩
    rw [hlock]
    rfl
  · rw [hlock]
    rfl
  · rw [hdata]
    exact congrArg _ ((hq.blockno i).trans hb)
  · intro q y hy
    refine ⟨(hq.dev _).trans hy.1, (hq.blockno _).trans hy.2.1, ?_⟩
    rcases hy.2.2 with e' | e'
    · by_cases e : q = p
      · subst e
        obtain rfl := Option.some.inj (e'.symm.trans hw)
        refine Or.inr ?_
        rw [hlock]
        rfl
      · exact Or.inl ((Function.update_of_ne e _ _).trans e')
    · have hne : y.1 ≠ i := by
        rintro rfl
        exact absurd (hl.symm.trans e') nofun
      refine Or.inr ?_
      rw [hother _ _ hne]
      exact e'

/-! ## `brelse` -/

def State.released (s : State) (i : Fin nbuf) : State :=
  s.setBuf i { s.buf i with lock := none, refcnt := (s.buf i).refcnt - 1 }

theorem released_self : (s.released i).buf i =
    { s.buf i with lock := none, refcnt := (s.buf i).refcnt - 1 } := State.setBuf_self

theorem released_of_ne (h : j ≠ i) : (s.released i).buf j = s.buf j := State.setBuf_of_ne h

theorem brelse_cases (hb : s.brelse p i = some t) : (s.buf i).lock = some p ∧
    (t = s.released i ∨ t = { s.released i with
      links := (s.links.unlink (some i)).push none (some i) }) := by
  unfold State.brelse at hb
  split at hb
  · rename_i hl
    refine ⟨hl, ?_⟩
    dsimp only at hb
    split at hb
    · exact Or.inr (Option.some.inj hb).symm
    · exact Or.inl (Option.some.inj hb).symm
  · exact absurd hb nofun

/-- what `brelse` did: `p` does not have the buffer any more -/
structure Freed (s : State) (p : Fin nproc) (i : Fin nbuf) (t : State) : Prop where
  sameLog : SameLog s t
  quiet : Quiet s t
  wait : t.wait = s.wait
  keep : ∀ q y, Has s q y → (q = p → y.1 ≠ i) → Has t q y

theorem Core.brelse (h : Core c P D s) (hb : s.brelse p i = some t) :
    Core c P D t ∧ Freed s p i t := by
  obtain ⟨hl, ht⟩ := brelse_cases hb
  have hq := quiet_setBuf (s := s) (i := i)
    (x := { s.buf i with lock := none, refcnt := (s.buf i).refcnt - 1 }) rfl rfl
  have hcirc : ∃ l : List (Fin nbuf), Circ none t.links (l.map some) ∧
      l.Perm (List.finRange nbuf) := by
    rcases ht with rfl | rfl
    · exact h.circ
    · obtain ⟨l, hc, hp⟩ := h.circ
      exact circ_moveToFront hc hp i
  have hbuf : t.buf = (s.released i).buf := by
    rcases ht with rfl | rfl
    · rfl
    · rfl
  have hsame : SameLog s t ∧ t.wait = s.wait := by
    rcases ht with rfl | rfl
    · exact ⟨⟨rfl, rfl, rfl, rfl, rfl⟩, rfl⟩
    · exact ⟨⟨rfl, rfl, rfl, rfl, rfl⟩, rfl⟩
  have hquiet : Quiet s t := by
    refine ⟨fun j => ?_, fun j => ?_, hsame.1.disk, hsame.1.latest⟩
    · rw [hbuf]
      exact hq.dev j
    · rw [hbuf]
      exact hq.blockno j
  have hother : ∀ {j}, j ≠ i → t.buf j = s.buf j := by
    intro j e
    rw [hbuf]
    exact released_of_ne e
  have hself : t.buf i = { s.buf i with lock := none, refcnt := (s.buf i).refcnt - 1 } := by
    rw [hbuf]
    exact released_self
  refine ⟨h.congr hquiet hcirc (fun j => ?_) (fun r y hy => ?_) (fun r j hr => ?_) (fun j hv => ?_)
    (fun j _ hv hv' => ?_), hsame.1, hquiet, hsame.2, fun q y hy hne => ?_⟩
  · have hu := h.refcnt j
    unfold State.users at hu ⊢
    rw [hsame.2]
    by_cases e : j = i
    · subst e
      rw [hself]
      rw [hl, if_neg nofun] at hu
      dsimp only
      rw [if_pos rfl, hu]
      omega
    · rw [hother e, hu]
  · rw [hsame.2] at hy
    exact Or.inl hy
  · by_cases e : j = i
    · subst e
      rw [hself] at hr
      exact absurd hr nofun
    · rw [hother e] at hr
      exact Or.inl hr
  · by_cases e : j = i
    · subst e
      rw [hself]
      exact ⟨hv, rfl⟩
    · rw [hother e]
      exact ⟨hv, rfl⟩
  · by_cases e : j = i
    · subst e
      rw [hself] at hv'
      exact absurd (hv.symm.trans hv') nofun
    · rw [hother e] at hv'
      exact absurd (hv.symm.trans hv') nofun
  · refine ⟨(hquiet.dev _).trans hy.1, (hquiet.blockno _).trans hy.2.1, ?_⟩
    rcases hy.2.2 with e | e
    · exact Or.inl (hsame.2 ▸ e)
    · have hi : y.1 ≠ i := by
        rintro rfl
        exact hne (Option.some.inj (e.symm.trans hl)) rfl
      rw [hother hi]
      exact Or.inr e

/-! ## a buffer is filled -/

def State.put (s : State) (i : Fin nbuf) (x : Block) (disk latest : Disk) : State :=
  { s.setBuf i { s.buf i with data := x } with disk := disk, latest := latest }

theorem put_self {x : Block} {disk latest : Disk} :
    (s.put i x disk latest).buf i = { s.buf i with data := x } := State.setBuf_self

theorem put_of_ne {x : Block} {disk latest : Disk} (h : j ≠ i) :
    (s.put i x disk latest).buf j = s.buf j := State.setBuf_of_ne h

structure Bytes (s t : State) : Prop where
  dev : ∀ j, (t.buf j).dev = (s.buf j).dev
  blockno : ∀ j, (t.buf j).blockno = (s.buf j).blockno
  valid : ∀ j, (t.buf j).valid = (s.buf j).valid
  lock : ∀ j, (t.buf j).lock = (s.buf j).lock
  refcnt : ∀ j, (t.buf j).refcnt = (s.buf j).refcnt
  links : t.links = s.links
  wait : t.wait = s.wait

theorem bytes_put {x : Block} {disk latest : Disk} : Bytes s (s.put i x disk latest) := by
  have hall : ∀ j, (s.put i x disk latest).buf j = s.buf j ∨
      (s.put i x disk latest).buf j = { s.buf j with data := x } := by
    intro j
    by_cases e : j = i
    · rw [e]
      exact Or.inr put_self
    · exact Or.inl (put_of_ne e)
  refine ⟨fun j => ?_, fun j => ?_, fun j => ?_, fun j => ?_, fun j => ?_, rfl, rfl⟩
  · rcases hall j with e | e
    · rw [e]
    · rw [e]
  · rcases hall j with e | e
    · rw [e]
    · rw [e]
  · rcases hall j with e | e
    · rw [e]
    · rw [e]
  · rcases hall j with e | e
    · rw [e]
    · rw [e]
  · rcases hall j with e | e
    · rw [e]
    · rw [e]

theorem Bytes.has (h : Bytes s t) : Has t q y ↔ Has s q y := by
  unfold Has
  rw [h.dev, h.blockno, h.lock, h.wait]

theorem Bytes.stable (h : Bytes s t) : Stable s t := fun j _ => ⟨h.dev j, h.blockno j⟩

theorem Core.put (h : Core c P D s) {x : Block} {disk latest : Disk}
    (hl : (s.buf i).lock = some p)
    (hdisk : ∀ b, b ≠ (s.buf i).blockno → disk b = s.disk b)
    (hlatest : ∀ b, b ≠ (s.buf i).blockno → latest b = s.latest b)
    (hx : x = if c.IsLog (s.buf i).blockno then disk (s.buf i).blockno
      else latest (s.buf i).blockno)
    (hclean : ∀ b, ¬ c.IsLog b → b ∉ D' → disk b = latest b) :
    Core c P D' (s.put i x disk latest) := by
  have hb : Bytes s (s.put i x disk latest) := bytes_put
  obtain ⟨hdi, -⟩ := h.locked p i hl
  constructor
  · exact h.circ
  · intro j k hj hk e
    rw [hb.dev] at hj hk
    rw [hb.blockno, hb.blockno] at e
    exact h.unique j k hj hk e
  · intro j
    unfold State.users State.Caches
    rw [hb.refcnt, hb.wait, hb.lock, h.refcnt]
    refine congrArg _ (if_congr ?_ rfl rfl)
    rw [hb.dev, hb.blockno]
    rfl
  · intro r j b hw
    rw [hb.dev, hb.blockno]
    exact h.waits r j b hw
  · intro r j hr
    rw [hb.lock] at hr
    rw [hb.dev, hb.valid]
    exact h.locked r j hr
  · intro j hd hv
    rw [hb.dev] at hd
    rw [hb.valid] at hv
    rw [hb.blockno]
    by_cases e : j = i
    · subst e
      rw [put_self]
      exact hx
    · have hne : (s.buf j).blockno ≠ (s.buf i).blockno := fun e' => e (h.unique j i hd hdi e')
      rw [put_of_ne e, h.data j hd hv]
      show (if _ then _ else _) = if _ then disk _ else latest _
      rw [hdisk _ hne, hlatest _ hne]
  · exact hclean
  · intro b hb'
    obtain ⟨k, h1, h2, h3⟩ := h.pinned b hb'
    exact ⟨k, (hb.dev k).trans h1, (hb.blockno k).trans h2, (hb.valid k).trans h3⟩

/-! ## pins -/

theorem bunpin_self : (s.bunpin i).buf i = { s.buf i with refcnt := (s.buf i).refcnt - 1 } :=
  State.setBuf_self

theorem bunpin_of_ne (h : j ≠ i) : (s.bunpin i).buf j = s.buf j := State.setBuf_of_ne h

theorem counts_bunpin : Counts s (s.bunpin i) := by
  refine ⟨quiet_setBuf rfl rfl, fun j => ?_, fun j => ?_, fun j => ?_, rfl⟩
  · by_cases e : j = i
    · rw [e, bunpin_self]
    · rw [bunpin_of_ne e]
  · by_cases e : j = i
    · rw [e, bunpin_self]
    · rw [bunpin_of_ne e]
  · by_cases e : j = i
    · rw [e, bunpin_self]
    · rw [bunpin_of_ne e]

theorem Core.repin (h : Core c P D s) {P' : List Nat} (hc : Counts s t) (hw : t.wait = s.wait)
    (href : ∀ j, (t.buf j).refcnt = s.users j + if s.Caches P' j then 1 else 0)
    (hpin : ∀ b ∈ P', ∃ j, (s.buf j).dev = rootdev ∧ (s.buf j).blockno = b ∧
      (s.buf j).valid = true) : Core c P' D t := by
  constructor
  · rw [hc.links]
    exact h.circ
  · intro i j hi hj e
    rw [hc.dev] at hi hj
    rw [hc.blockno, hc.blockno] at e
    exact h.unique i j hi hj e
  · intro j
    have hu : t.users j = s.users j := by
      unfold State.users
      rw [hw, hc.lock]
    rw [href j, hu]
    exact congrArg _ (if_congr hc.toQuiet.caches.symm rfl rfl)
  · intro r j b hr
    rw [hw] at hr
    rw [hc.dev, hc.blockno]
    exact h.waits r j b hr
  · intro r j hr
    rw [hc.lock] at hr
    rw [hc.dev, hc.valid]
    exact h.locked r j hr
  · intro j hd hv
    rw [hc.dev] at hd
    rw [hc.valid] at hv
    rw [hc.blockno, hc.data, h.data j hd hv]
    unfold State.content
    rw [hc.disk, hc.latest]
  · rw [hc.disk, hc.latest]
    exact h.clean
  · intro b hb
    obtain ⟨j, h1, h2, h3⟩ := hpin b hb
    exact ⟨j, (hc.dev j).trans h1, (hc.blockno j).trans h2, (hc.valid j).trans h3⟩

theorem Core.bpin (h : Core c P D s) (hl : (s.buf i).lock = some p)
    (hn : (s.buf i).blockno ∉ P) : Core c (P ++ [(s.buf i).blockno]) D (s.bpin i) := by
  obtain ⟨hd, hv⟩ := h.locked p i hl
  refine h.repin counts_bpin rfl (fun j => ?_) (fun b hb => ?_)
  · have hu := h.refcnt j
    by_cases e : j = i
    · subst e
      rw [if_neg (fun hc => hn hc.2)] at hu
      rw [bpin_self, if_pos ⟨hd, by simp⟩]
      exact congrArg (· + 1) hu
    · rw [bpin_of_ne e, hu]
      refine congrArg _ (if_congr (and_congr_right fun hdj => ?_) rfl rfl)
      rw [List.mem_append, List.mem_singleton]
      exact (or_iff_left (fun e' => e (h.unique j i hdj hd e'))).symm
  · rcases List.mem_append.mp hb with hb | hb
    · exact h.pinned b hb
    · exact ⟨i, hd, (List.mem_singleton.mp hb).symm, hv⟩

theorem Core.bunpin (h : Core c (b :: P) D s) (hd : (s.buf i).dev = rootdev)
    (hb : (s.buf i).blockno = b) (hn : b ∉ P) : Core c P D (s.bunpin i) := by
  refine h.repin counts_bunpin rfl (fun j => ?_) (fun b hb => h.pinned b (List.mem_cons_of_mem _ hb))
  have hu := h.refcnt j
  by_cases e : j = i
  · subst e
    rw [if_pos ⟨hd, hb ▸ List.mem_cons_self⟩] at hu
    rw [bunpin_self, if_neg (fun hc => hn (hb ▸ hc.2))]
    dsimp only
    rw [hu]
    rfl
  · rw [bunpin_of_ne e, hu]
    refine congrArg _ (if_congr (and_congr_right fun hdj => ?_) rfl rfl)
    rw [List.mem_cons]
    exact or_iff_right (fun e' => e (h.unique j i hdj hd (e'.trans hb.symm)))

end

end Bio
