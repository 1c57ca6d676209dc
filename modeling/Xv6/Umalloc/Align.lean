import Xv6.Umalloc.Safety

/-!
# Pointers and sizes are multiples of 16, as long as no free block is split

Fresh memory is cut at multiples of 16, and a block that is handed out whole stays where it is
(`Moved.grid`).  A free block that is split is cut at an odd address, since its stored size carries
the free bit (`split_off_grid`).
-/

namespace Umalloc
open Lib

/-- what the callers may rely on: pointers and real sizes are multiples of 16 -/
structure Aligned (s : Session) : Prop where
  pointers : ∀ q ∈ s.live, q.1 % 16 = 0
  sizes : ∀ b ∈ s.heap.created, s.heap.real b % 16 = 0

/-- the break lies on a page, and blocks begin and end on multiples of 16 -/
structure Grid (h : Heap) : Prop where
  brk : h.brk % pageSz = 0
  blocks : ∀ b ∈ h.created, b % 16 = 0 ∧ h.real b % 16 = 0

theorem Grid.init (mem : Mem) {base : Nat} (hb : base % pageSz = 0) : Grid (Heap.init mem base) :=
  ⟨hb, fun _ hb => absurd hb List.not_mem_nil⟩

theorem SameBlocks.grid {h h' : Heap} (hs : SameBlocks h h') (hg : Grid h) : Grid h' := by
  refine ⟨hs.brk ▸ hg.brk, fun b hb => ?_⟩
  rw [hs.created] at hb
  rw [hs.real b hb]
  exact hg.blocks b hb

theorem Grew.grid {h h' : Heap} {n : Nat} (hn : n < 2 ^ 32) (hgr : Grew h h' n) (hg : Grid h) :
    Grid h' := by
  have hT := totalSizeNeeded_spec hn
  have hS := totalSize_spec hn
  have hbrk := hg.brk
  unfold pageSz at hbrk
  refine ⟨?_, fun b hb => ?_⟩
  · rw [hgr.brk]
    unfold pageSz
    omega
  · rcases hgr.new b hb with h1 | ⟨rfl, h1⟩ | ⟨rfl, h1⟩
    · have h2 : h'.real b = h.real b := congrArg realSize (hgr.old b h1)
      rw [h2]
      exact hg.blocks b h1
    · exact ⟨by omega, by omega⟩
    · exact ⟨by omega, by omega⟩

theorem Moved.grid {h h' : Heap} (hm : Moved h h') (hg : Grid h) : Grid h' := by
  rcases hm with hs | ⟨n, hn, _, hgr⟩
  · exact hs.grid hg
  · exact hgr.grid hn hg

/-- a live pointer stands one header behind its block -/
theorem Grid.aligned {base : Nat} {s : Session} (hg : Grid s.heap) (hs : Safe base s) :
    Aligned s := by
  obtain ⟨F, hi, _⟩ := hs
  refine ⟨fun q hq => ?_, fun b hb => (hg.blocks b hb).2⟩
  obtain ⟨h1, h2, _⟩ := hi.used q hq
  have h3 := (hg.blocks _ h2).1
  unfold headerSz at h1 h3
  omega

/-- calls that reach no defect keep the heap on the grid -/
theorem safe_grid_of_ok_calls {mem : Mem} {base : Nat} {l : List Call} {s : Session}
    (h0 : 0 < base) (hpage : base % pageSz = 0) (hle : base ≤ maxVa)
    (hrun : Run (guarded OkCall Step) (start mem base) l s) : Safe base s ∧ Grid s.heap := by
  refine Run.invariant (I := fun s => Safe base s ∧ Grid s.heap) ?_ hrun
    ⟨safe_start mem h0 hle, Grid.init mem hpage⟩
  intro s c t hs hc
  obtain ⟨ht, hm⟩ := safe_step hs.1 hc
  exact ⟨ht, hm.grid hs.2⟩

/-- in every session whose calls reach no defect -/
theorem aligned_of_ok_calls (mem : Mem) (base : Nat) (l : List Call) (s : Session) (h0 : 0 < base)
    (hpage : base % pageSz = 0) (hle : base ≤ maxVa)
    (hrun : Run (guarded OkCall Step) (start mem base) l s) : Aligned s := by
  have hinv := safe_grid_of_ok_calls h0 hpage hle hrun
  exact hinv.2.aligned hinv.1

/-- one request of 100 bytes -/
theorem aligned_after_one_malloc : ∃ s, Run (guarded OkCall Step) (start (fun _ => 0) 16384)
    [.malloc 100] s ∧ Aligned s := by
  have hok : OkCall (start (fun _ => 0) 16384) (.malloc 100) := by decide +kernel
  have hsome : (call (start (fun _ => 0) 16384) (.malloc 100)).isSome = true := by decide +kernel
  obtain ⟨s, hs⟩ := Option.isSome_iff_exists.mp hsome
  have hrun : Run (guarded OkCall Step) (start (fun _ => 0) 16384) [.malloc 100] s :=
    .single ⟨hok, hs⟩
  exact ⟨s, hrun, aligned_of_ok_calls _ 16384 _ s (by decide) (by decide) (by decide) hrun⟩

/-- two requests of 100 bytes: the second pointer is odd -/
theorem split_off_grid : ¬ ∀ (mem : Mem) (base : Nat) (l : List Call) (s : Session),
    0 < base → base % pageSz = 0 → base ≤ maxVa → Run Step (start mem base) l s → Aligned s := by
  intro hall
  have hrun : (runCalls (start (fun _ => 0) 16384) [.malloc 100, .malloc 100]).map
      (fun s => s.live) = some [(20225, 100), (20368, 100)] := by decide +kernel
  obtain ⟨s, hs, e⟩ := Option.map_eq_some_iff.mp hrun
  have hp := (hall _ 16384 _ s (by decide) (by decide) (by decide) (run_of_runCalls hs)).pointers
  rw [e] at hp
  have hodd := hp (20225, 100) List.mem_cons_self
  exact absurd hodd (by decide)

end Umalloc
