import Mathlib.Data.List.Nodup
import Mathlib.Data.List.Perm.Subperm
import Xv6.Virtio.Model

/-!
# The invariant of the disk driver

Each descriptor that is not free belongs to the chain of one process that waits for its request, and
the first descriptor of that chain is in exactly one place until the buffer is done: in `avail`,
with the device, or in `used`.
-/

namespace Virtio
open Lib

section
variable {T B S : Type} {s t : State T B S} {i j k : Nat}

/-! ## descriptors -/

theorem allocDesc_none (h : allocDesc s = none) {n : Nat} (hn : n < num) : s.free n = false := by
  unfold allocDesc at h
  rw [Option.map_eq_none_iff, List.find?_eq_none] at h
  exact Bool.eq_false_iff.mpr (h n (List.mem_range.mpr hn))

theorem allocDesc_some (h : allocDesc s = some (i, t)) : i < num ∧ s.free i = true ∧
    t = { s with free := Function.update s.free i false } := by
  unfold allocDesc at h
  obtain ⟨n, hn, he⟩ := Option.map_eq_some_iff.mp h
  obtain ⟨rfl, rfl⟩ := Prod.mk.inj he
  exact ⟨List.mem_range.mp (List.mem_of_find?_eq_some hn), List.find?_some hn, rfl⟩

theorem freeDesc_ok (hi : i < num) (hfree : s.free i = false) : freeDesc s i = .ok { s with
    desc := Function.update s.desc i zeroDesc
    free := Function.update s.free i true } := by
  unfold freeDesc
  rw [if_neg (Nat.not_le.mpr hi), hfree, if_neg Bool.false_ne_true]

theorem give_back {f : Nat → Bool} (hi : f i = true) :
    Function.update (Function.update f i false) i true = f := by
  rw [Function.update_idem, ← hi, Function.update_eq_self]

theorem give_back_two {f : Nat → Bool} (hij : i ≠ j) (hi : f i = true) (hj : f j = true) :
    Function.update (Function.update (Function.update (Function.update f i false) j false) i true) j
      true = f := by
  rw [Function.update_comm hij.symm, give_back hi, give_back hj]

def State.take (s : State T B S) (i j k : Nat) : State T B S :=
  { s with
    free := Function.update (Function.update (Function.update s.free i false) j false) k false }

theorem free_of_take {f : Nat → Bool} (h : Function.update f i false j = true) :
    i ≠ j ∧ f j = true := by
  by_cases hij : j = i
  · rw [hij, Function.update_self] at h
    cases h
  · rw [Function.update_of_ne hij] at h
    exact ⟨fun e => hij e.symm, h⟩

/-- three descriptors were free, or the table is as before but for free descriptors -/
theorem alloc3Desc_ok (s : State T B S) :
    (∃ D, alloc3Desc s = .ok ({ s with desc := D }, none) ∧
      ∀ n, s.free n = false → D n = s.desc n) ∨
    ∃ i j k, alloc3Desc s = .ok (s.take i j k, some (i, j, k)) ∧ i ≠ j ∧ i ≠ k ∧ j ≠ k ∧
      ∀ n, n = i ∨ n = j ∨ n = k → n < num ∧ s.free n = true := by
  unfold alloc3Desc
  cases h₁ : allocDesc s with
  | none => exact .inl ⟨s.desc, rfl, fun _ _ => rfl⟩
  | some r =>
    obtain ⟨i, s₁⟩ := r
    obtain ⟨hi, hfi, rfl⟩ := allocDesc_some h₁
    dsimp only
    cases h₂ : allocDesc { s with free := Function.update s.free i false } with
    | none =>
      left
      refine ⟨Function.update s.desc i zeroDesc, ?_, fun n hn => ?_⟩
      · dsimp only
        rw [freeDesc_ok hi (Function.update_self ..)]
        show Except.ok _ = Except.ok _
        dsimp only
        rw [give_back hfi]
      · refine Function.update_of_ne ?_ ..
        rintro rfl
        cases hfi.symm.trans hn
    | some r =>
      obtain ⟨j, s₂⟩ := r
      obtain ⟨hj, hfj, rfl⟩ := allocDesc_some h₂
      obtain ⟨hij, hfj⟩ := free_of_take hfj
      dsimp only
      cases h₃ : allocDesc { s with
          free := Function.update (Function.update s.free i false) j false } with
      | none =>
        left
        refine ⟨Function.update (Function.update s.desc i zeroDesc) j zeroDesc, ?_, fun n hn => ?_⟩
        · dsimp only
          rw [freeDesc_ok hi (by
            show Function.update (Function.update s.free i false) j false i = false
            rw [Function.update_of_ne hij, Function.update_self])]
          show Except.map _ (freeDesc _ j) = _
          rw [freeDesc_ok hj (by
            show Function.update (Function.update (Function.update s.free i false) j false) i true j
              = false
            rw [Function.update_of_ne hij.symm, Function.update_self])]
          show Except.ok _ = Except.ok _
          dsimp only
          rw [give_back_two hij hfi hfj]
        · rw [Function.update_of_ne, Function.update_of_ne]
          · rintro rfl
            cases hfi.symm.trans hn
          · rintro rfl
            cases hfj.symm.trans hn
      | some r =>
        obtain ⟨k, s₃⟩ := r
        obtain ⟨hk, hfk, rfl⟩ := allocDesc_some h₃
        obtain ⟨hjk, hfk⟩ := free_of_take hfk
        obtain ⟨hik, hfk⟩ := free_of_take hfk
        refine .inr ⟨i, j, k, rfl, hij, hik, hjk, fun n hn => ?_⟩
        obtain rfl | rfl | rfl := hn
        · exact ⟨hi, hfi⟩
        · exact ⟨hj, hfj⟩
        · exact ⟨hk, hfk⟩

/-- a chain of three descriptors is given back -/
theorem freeChain_ok (hij : i ≠ j) (hik : i ≠ k) (hjk : j ≠ k)
    (hfree : ∀ n, n = i ∨ n = j ∨ n = k → n < num ∧ s.free n = false)
    (hi : (s.desc i).chained = true ∧ (s.desc i).next = j)
    (hj : (s.desc j).chained = true ∧ (s.desc j).next = k) (hk : (s.desc k).chained = false) :
    freeChain s i = .ok { s with
      desc := Function.update (Function.update (Function.update s.desc i zeroDesc) j zeroDesc) k
        zeroDesc
      free := Function.update (Function.update (Function.update s.free i true) j true) k
        true } := by
  obtain ⟨hbi, hfi⟩ := hfree i (.inl rfl)
  obtain ⟨hbj, hfj⟩ := hfree j (.inr (.inl rfl))
  obtain ⟨hbk, hfk⟩ := hfree k (.inr (.inr rfl))
  unfold freeChain freeChainLoop
  rw [hi.1, hi.2, freeDesc_ok hbi hfi]
  show freeChainLoop num _ j = _
  unfold num freeChainLoop
  dsimp only
  rw [Function.update_of_ne hij.symm, hj.1, hj.2, freeDesc_ok hbj (by
    show Function.update s.free i true j = false
    rw [Function.update_of_ne hij.symm, hfj])]
  show freeChainLoop 7 _ k = _
  unfold freeChainLoop
  dsimp only
  rw [Function.update_of_ne hjk.symm, Function.update_of_ne hik.symm, hk, freeDesc_ok hbk (by
    show Function.update (Function.update s.free i true) j true k = false
    rw [Function.update_of_ne hjk.symm, Function.update_of_ne hik.symm, hfk])]
  rfl

/-! ## requests -/

/-- the chain of a request for the buffer `b` -/
structure Chained (s : State T B S) (b : B) (i j k : Nat) : Prop where
  head : s.desc i = ⟨.op i, reqSize, false, true, j⟩
  body : s.desc j = ⟨.data b, bsize, !(s.ops i).out, true, k⟩
  tail : s.desc k = ⟨.status i, 1, true, false, 0⟩
  sector : (s.ops i).sector = (s.buf b).blockno * 2
  buf : (s.info i).b = some b
  ne : i ≠ j ∧ i ≠ k ∧ j ≠ k

theorem Chained.congr {b : B} (h : Chained s b i j k)
    (hdesc : ∀ n, n = i ∨ n = j ∨ n = k → t.desc n = s.desc n) (hops : t.ops i = s.ops i)
    (hblock : (t.buf b).blockno = (s.buf b).blockno) (hinfo : (t.info i).b = (s.info i).b) :
    Chained t b i j k := by
  refine ⟨?_, ?_, ?_, ?_, hinfo.trans h.buf, h.ne⟩
  · rw [hdesc i (.inl rfl)]
    exact h.head
  · rw [hdesc j (.inr (.inl rfl)), hops]
    exact h.body
  · rw [hdesc k (.inr (.inr rfl))]
    exact h.tail
  · rw [hops, hblock]
    exact h.sector

/-- a record that the machine does not read: whose descriptors they are, and the two queues -/
structure Ghost (T : Type) where
  own : Nat → Option T
  avail : List Nat
  used : List Nat

/-- the first descriptors of the requests that are not done -/
def Ghost.queue (g : Ghost T) (s : State T B S) : List Nat := g.avail ++ s.fetched ++ g.used

structure Inv (s : State T B S) (g : Ghost T) : Prop where
  own : ∀ n t, g.own n = some t → n < num ∧ s.free n = false ∧ ∃ b i, s.thread t = .wait b i
  free : ∀ n < num, g.own n = none → s.free n = true
  waits : ∀ t b i, s.thread t = .wait b i → ∃ j k, Chained s b i j k ∧
    ∀ n, g.own n = some t ↔ n = i ∨ n = j ∨ n = k
  alone : ∀ t t' b, (s.thread t).buf = some b → (s.thread t').buf = some b → t = t'
  block : ∀ t b, (s.thread t).buf = some b → (s.buf b).blockno * 2 < word
  avail : s.avail.Holds half num g.avail
  used : s.used.Holds half num g.used
  nodup : (g.queue s).Nodup
  queue : ∀ n, n ∈ g.queue s ↔ ∃ t b, s.thread t = .wait b n ∧ (s.buf b).disk = true
  status : ∀ t b i, s.thread t = .wait b i →
    ((s.info i).status = 0 ↔ i ∈ g.used ∨ (s.buf b).disk = false)

section
variable {g : Ghost T} {b : B} {p q : T}

theorem Inv.head (h : Inv s g) (hp : s.thread p = .wait b i) : g.own i = some p := by
  obtain ⟨j, k, -, hown⟩ := h.waits p b i hp
  exact (hown i).mpr (.inl rfl)

/-- the chains of two processes have nothing in common -/
theorem Inv.thread_of_head (h : Inv s g) (hp : s.thread p = .wait b i) {c : B}
    (hq : s.thread q = .wait c i) : p = q :=
  Option.some.inj ((h.head hp).symm.trans (h.head hq))

theorem Inv.owned_of_queue (h : Inv s g) {n : Nat} (hn : n ∈ g.queue s) :
    n < num ∧ s.free n = false := by
  obtain ⟨q, c, hq, -⟩ := (h.queue n).mp hn
  obtain ⟨hlt, hfree, -⟩ := h.own n q (h.head hq)
  exact ⟨hlt, hfree⟩

/-- while a descriptor is free the rings are not full -/
theorem Inv.room (h : Inv s g) {n : Nat} (hn : n < num) (hfree : s.free n = true) :
    (g.queue s).length < num := by
  have hnot : n ∉ g.queue s := by
    intro hmem
    cases hfree.symm.trans (h.owned_of_queue hmem).2
  have hsub : n :: g.queue s ⊆ List.range num := by
    intro m hm
    obtain rfl | hm := List.mem_cons.mp hm
    · exact List.mem_range.mpr hn
    · exact List.mem_range.mpr (h.owned_of_queue hm).1
  have hle := ((List.nodup_cons.mpr ⟨hnot, h.nodup⟩).subperm hsub).length_le
  rw [List.length_cons, List.length_range] at hle
  exact hle

theorem start_inv (buf : B → Buf S) (sectors : Nat → S) :
    Inv (start buf sectors : State T B S) ⟨fun _ => none, [], []⟩ where
  own := fun n t h => by cases h
  free := fun n _ _ => rfl
  waits := fun t b i h => by cases h
  alone := fun t t' b h => by cases h
  block := fun t b h => by cases h
  avail := RingBuf.Holds.empty _ (by decide)
  used := RingBuf.Holds.empty _ (by decide)
  nodup := List.nodup_nil
  queue := fun n => ⟨fun h => absurd h List.not_mem_nil, fun ⟨t, b, h, _⟩ => by cases h⟩
  status := fun t b i h => by cases h

end

end

end Virtio
