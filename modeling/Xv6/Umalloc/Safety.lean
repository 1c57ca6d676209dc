import Mathlib.Order.CompletePartialOrder
import Mathlib.Data.Set.BooleanAlgebra
import Xv6.Lib.Run
import Xv6.Umalloc.Fit
import Mathlib.Order.Interval.Set.Basic

/-!
# Blocks do not overlap, as long as no free block is split

A session of `malloc`, `free`, `malloc_setfsm` and writes of the callers.  `Geometry` is what the
allocator owes its callers.  It survives every call that meets `OkCall`
(`geometry_of_ok_calls`), and fails for two requests of 100 bytes (`split_overlaps`): the free bit
is in the size that `first_fit` hands to `split`, so the new block ends one byte past the old one.
-/

namespace Umalloc
open Lib

/-! ## sessions -/

inductive Call where
  | malloc (nbytes : Nat)
  | free (ap : Nat)
  | setfsm (choice : Int)
  /-- the caller stores `v` at offset `off` of the bytes it asked for -/
  | write (ap off : Nat) (v : UInt8)

/-- `live` pairs the pointers that were returned and not freed yet with their requests -/
structure Session where
  heap : Heap
  live : List (Nat × Nat)

def start (mem : Mem) (base : Nat) : Session where
  heap := Heap.init mem base
  live := []

/-- one call; `none` is a call outside the contract, or one that finds no memory -/
def call (s : Session) : Call → Option Session
  | .malloc nbytes =>
    if nbytes < 2 ^ 32 then
      (malloc s.heap nbytes).map (fun r => { heap := r.1, live := (r.2, nbytes) :: s.live })
    else none
  | .free ap =>
    (s.live.find? (fun q => q.1 == ap)).map (fun q =>
      { heap := free s.heap ap, live := s.live.erase q })
  | .setfsm choice => some { s with heap := mallocSetfsm s.heap choice }
  | .write ap off v =>
    match s.live.find? (fun q => q.1 == ap) with
    | none => none
    | some q =>
      if off < q.2 then
        some { s with heap := { s.heap with mem := Function.update s.heap.mem (ap + off) v } }
      else none

def Step (s : Session) (c : Call) (t : Session) : Prop := call s c = some t

/-- the calls that return, with what they do -/
inductive Called (s : Session) : Call → Session → Prop
  | malloc (n : Nat) (h' : Heap) (p : Nat) (hn : n < 2 ^ 32) (hm : malloc s.heap n = some (h', p)) :
      Called s (.malloc n) { heap := h', live := (p, n) :: s.live }
  | free (q : Nat × Nat) (hq : q ∈ s.live) :
      Called s (.free q.1) { heap := free s.heap q.1, live := s.live.erase q }
  | setfsm (choice : Int) :
      Called s (.setfsm choice) { s with heap := mallocSetfsm s.heap choice }
  | write (q : Nat × Nat) (off : Nat) (v : UInt8) (hq : q ∈ s.live) (hoff : off < q.2) :
      Called s (.write q.1 off v)
        { s with heap := { s.heap with mem := Function.update s.heap.mem (q.1 + off) v } }

theorem call_cases {s t : Session} {c : Call} (hc : Step s c t) : Called s c t := by
  cases c with
  | malloc n =>
    unfold Step call at hc
    by_cases hn : n < 2 ^ 32
    · simp only [if_pos hn, Option.map_eq_some_iff] at hc
      obtain ⟨⟨h', p⟩, hm, rfl⟩ := hc
      exact .malloc n h' p hn hm
    · simp only [if_neg hn] at hc
      exact absurd hc nofun
  | free p =>
    simp only [Step, call, Option.map_eq_some_iff] at hc
    obtain ⟨q, hq, rfl⟩ := hc
    obtain rfl : q.1 = p := by simpa using List.find?_some hq
    exact .free q (List.mem_of_find?_eq_some hq)
  | setfsm choice =>
    obtain rfl : { s with heap := mallocSetfsm s.heap choice } = t := Option.some.inj hc
    exact .setfsm choice
  | write p off v =>
    unfold Step call at hc
    dsimp only at hc
    cases hq : s.live.find? (fun q => q.1 == p) with
    | none =>
      rw [hq] at hc
      exact absurd hc nofun
    | some q =>
      rw [hq] at hc
      dsimp only at hc
      obtain rfl : q.1 = p := by simpa using List.find?_some hq
      by_cases hoff : off < q.2
      · rw [if_pos hoff] at hc
        obtain rfl := Option.some.inj hc
        exact .write q off v (List.mem_of_find?_eq_some hq) hoff
      · rw [if_neg hoff] at hc
        exact absurd hc nofun

def runCalls : Session → List Call → Option Session
  | s, [] => some s
  | s, c :: l => match call s c with
    | none => none
    | some t => runCalls t l

theorem run_of_runCalls {s t : Session} {l : List Call} (h : runCalls s l = some t) :
    Run Step s l t := by
  induction l generalizing s with
  | nil =>
    have e : s = t := Option.some.inj h
    rw [e]
    exact .nil t
  | cons c l ih =>
    unfold runCalls at h
    cases e : call s c with
    | none =>
      rw [e] at h
      exact absurd h (by simp)
    | some u =>
      rw [e] at h
      exact .cons e (ih h)

/-! ## what the allocator owes its callers -/

def Heap.range (h : Heap) (b : Nat) : Set Nat := Set.Ico b (b + h.real b)

structure Geometry (base : Nat) (s : Session) : Prop where
  disjoint : s.heap.created.Pairwise (fun b c => Disjoint (s.heap.range b) (s.heap.range c))
  inside : ∀ b ∈ s.heap.created, s.heap.range b ⊆ Set.Ico base s.heap.brk
  served : ∀ q ∈ s.live, headerSz ≤ q.1 ∧ q.1 - headerSz ∈ s.heap.created ∧
    headerSz + q.2 ≤ s.heap.real (q.1 - headerSz)

/-- the calls that do not reach a defect: `malloc` asks the kernel for less than 2 GB and splits
no free block, `free` is given a block with room for the links of the free list -/
def OkCall (s : Session) : Call → Prop
  | .malloc nbytes => totalSize nbytes < 2 ^ 31 ∧ WholeFit s.heap nbytes
  | .free ap => minBlockSz ≤ s.heap.real (ap - headerSz)
  | .setfsm _ => True
  | .write _ _ _ => True

instance (s : Session) (c : Call) : Decidable (OkCall s c) := by
  unfold OkCall
  exact match c with
  | .malloc _ => inferInstance
  | .free _ => inferInstance
  | .setfsm _ => inferInstance
  | .write _ _ _ => inferInstance

/-- the invariant of a session: some list of free blocks fits the heap -/
def Safe (base : Nat) (s : Session) : Prop :=
  ∃ F, HeapInv base s.heap F s.live ∧ Tagged s.heap F s.live

theorem HeapInv.init (mem : Mem) {base : Nat} (h0 : 0 < base) (hle : base ≤ maxVa) :
    HeapInv base (Heap.init mem base) [] [] where
  basePos := h0
  baseLe := Nat.le_refl base
  brkLe := hle
  nodup := List.nodup_nil
  lo := fun _ hb => absurd hb List.not_mem_nil
  hi := fun _ hb => absurd hb List.not_mem_nil
  small := fun _ hb => absurd hb List.not_mem_nil
  room := fun _ hb => absurd hb List.not_mem_nil
  apart := fun _ hb => absurd hb List.not_mem_nil
  freeList := Dll.empty
  free := fun _ hb => absurd hb List.not_mem_nil
  used := fun _ hb => absurd hb List.not_mem_nil
  once := List.nodup_nil
  tail := fun h => absurd rfl h

theorem safe_start (mem : Mem) {base : Nat} (h0 : 0 < base) (hle : base ≤ maxVa) :
    Safe base (start mem base) :=
  ⟨[], HeapInv.init mem h0 hle, fun _ hb => absurd hb List.not_mem_nil,
    fun _ hb => absurd hb List.not_mem_nil⟩

/-- what a call does to the blocks: nothing, or it makes new ones of fresh memory -/
def Moved (h h' : Heap) : Prop :=
  SameBlocks h h' ∨ ∃ n < 2 ^ 32, totalSize n < 2 ^ 31 ∧ Grew h h' n

theorem safe_step {base : Nat} {s t : Session} {c : Call} (hs : Safe base s)
    (h : guarded OkCall Step s c t) : Safe base t ∧ Moved s.heap t.heap := by
  obtain ⟨F, hi, ht⟩ := hs
  obtain ⟨hok, hc⟩ := h
  cases call_cases hc with
  | malloc n h' p hn hm =>
    obtain ⟨hmv, hF'⟩ := malloc_inv hi ht hn hok.1 hok.2 hm
    exact ⟨hF', hmv.imp_right (fun hg => ⟨n, hn, hok.1, hg⟩)⟩
  | free q hq =>
    obtain ⟨h0, h1, h2⟩ := free_inv hi ht hq hok
    exact ⟨⟨_, h1, h2⟩, Or.inl h0⟩
  | setfsm choice =>
    refine ⟨⟨F, hi.congr (fun _ _ => rfl) (fun _ _ => rfl) rfl rfl rfl rfl rfl rfl, ?_⟩,
      Or.inl ⟨rfl, rfl, fun _ _ => rfl⟩⟩
    exact ⟨ht.free, ht.used⟩
  | write q off v hq hoff =>
    obtain ⟨h0, h1⟩ := write_inv hi ht hq hoff v
    exact ⟨⟨F, h1⟩, Or.inl h0⟩

theorem HeapInv.disjoint {base : Nat} {h : Heap} {F : List Nat} {live : List (Nat × Nat)}
    (hi : HeapInv base h F live) {b c : Nat} (hb : b ∈ h.created) (hc : c ∈ h.created)
    (hne : b ≠ c) : Disjoint (h.range b) (h.range c) := by
  rw [Set.disjoint_left]
  intro x hx hx'
  have h1 := hi.apart b hb c hc hne
  obtain ⟨h2, h3⟩ := hx
  obtain ⟨h4, h5⟩ := hx'
  omega

theorem Safe.geometry {base : Nat} {s : Session} (h : Safe base s) : Geometry base s := by
  obtain ⟨F, hi, -⟩ := h
  refine ⟨?_, ?_, ?_⟩
  · exact List.Pairwise.imp_of_mem (fun hb hc hne => hi.disjoint hb hc hne) hi.nodup
  · intro b hb x hx
    obtain ⟨h1, h2⟩ := hx
    have h3 := hi.lo b hb
    have h4 := hi.hi b hb
    exact ⟨by omega, by omega⟩
  · intro q hq
    obtain ⟨h1, h2, _, h4⟩ := hi.used q hq
    exact ⟨h1, h2, h4⟩

/-- in every session whose calls reach no defect the blocks lie apart, in memory from `sbrk`, with
room for what was asked -/
theorem geometry_of_ok_calls (mem : Mem) (base : Nat) (l : List Call) (s : Session) (h0 : 0 < base)
    (hle : base ≤ maxVa) (hrun : Run (guarded OkCall Step) (start mem base) l s) :
    Geometry base s :=
  Safe.geometry (hrun.invariant (fun _ _ _ hs h => (safe_step hs h).1) (safe_start mem h0 hle))

/-- one request of 100 bytes meets the condition: there is no free block to split -/
theorem geometry_of_one_malloc : ∃ s, Run (guarded OkCall Step) (start (fun _ => 0) 16384)
    [.malloc 100] s ∧ Geometry 16384 s := by
  have hok : OkCall (start (fun _ => 0) 16384) (.malloc 100) := by decide +kernel
  have hsome : (call (start (fun _ => 0) 16384) (.malloc 100)).isSome = true := by decide +kernel
  obtain ⟨s, hs⟩ := Option.isSome_iff_exists.mp hsome
  have hrun : Run (guarded OkCall Step) (start (fun _ => 0) 16384) [.malloc 100] s :=
    .single ⟨hok, hs⟩
  exact ⟨s, hrun, geometry_of_ok_calls _ 16384 _ s (by norm_num) (by decide) hrun⟩

/-- two requests of 100 bytes: the second block covers the first byte of the first one -/
theorem split_overlaps : ¬ ∀ (mem : Mem) (base : Nat) (l : List Call) (s : Session),
    0 < base → base % pageSz = 0 → base ≤ maxVa → Run Step (start mem base) l s →
      Geometry base s := by
  intro hall
  have hrun : (runCalls (start (fun _ => 0) 16384) [.malloc 100, .malloc 100]).map
      (fun s => (s.heap.created, s.heap.created.map s.heap.real))
      = some ([16384, 20336, 20193], [3808, 144, 144]) := by decide +kernel
  obtain ⟨s, hs, e⟩ := Option.map_eq_some_iff.mp hrun
  obtain ⟨hc, hr⟩ := Prod.mk.inj e
  have hd := (hall _ 16384 _ s (by norm_num) (by decide) (by decide) (run_of_runCalls hs)).disjoint
  rw [hc] at hr
  simp only [List.map_cons, List.cons.injEq] at hr
  obtain ⟨-, h1, h2, -⟩ := hr
  rw [hc] at hd
  have hdis : Disjoint (s.heap.range 20336) (s.heap.range 20193) := by
    simp only [List.pairwise_cons] at hd
    exact hd.2.1 20193 (by simp)
  have hfirst : 20336 ∈ s.heap.range 20336 := ⟨by omega, by omega⟩
  have hsecond : 20336 ∈ s.heap.range 20193 := ⟨by omega, by omega⟩
  exact Set.disjoint_left.mp hdis hfirst hsecond

end Umalloc
