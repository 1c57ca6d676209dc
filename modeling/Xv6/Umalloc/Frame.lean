import Xv6.Umalloc.Align

/-!
# What `free` writes

`free` writes the size of the block, the links that it puts behind the header and one link of the
block at the tail of the free list (`freeStores`).  The header has 32 bytes and the links end at
byte 48, so a block of 32 bytes, which `malloc(0)` returns, has no room for them: they go over
the header of the block behind it.
-/

namespace Umalloc
open Lib

/-- the stores of `add_free`, in order: address and value -/
def linkStores (h : Heap) (block : Nat) : List (Nat × Nat) :=
  if h.freeListHead = 0 then [(block + 32, 0), (block + 40, 0)]
  else [(h.freeListTail + 32, block), (block + 40, h.freeListTail), (block + 32, 0)]

def freeStores (h : Heap) (ap : Nat) : List (Nat × Nat) :=
  (ap - headerSz + 8, h.size (ap - headerSz) ||| 1) :: linkStores h (ap - headerSz)

/-- `free(q.1)` writes its own block and the links of listed blocks, and changes no byte of another
block in use -/
structure Framed (s : Session) (q : Nat × Nat) : Prop where
  inside : ∀ w ∈ freeStores s.heap q.1, ∀ x, w.1 ≤ x → x < w.1 + 8 →
    x ∈ s.heap.range (q.1 - headerSz) ∨ Linked (freeBlocks s.heap) x
  others : ∀ r ∈ s.live, r ≠ q → ∀ x, r.1 - headerSz ≤ x → x < r.1 + r.2 →
    (free s.heap q.1).mem x = s.heap.mem x

theorem free_mem (h : Heap) (ap : Nat) :
    (free h ap).mem = (freeStores h ap).foldl (fun m w => store64 m w.1 w.2) h.mem := by
  show (addFree (setFree h (ap - headerSz)) (ap - headerSz)).mem = _
  unfold freeStores linkStores
  by_cases e : h.freeListHead = 0
  · rw [addFree_of_nil _ (show (setFree h (ap - headerSz)).freeListHead = 0 from e), if_pos e]
    rfl
  · rw [addFree_of_cons _ (show (setFree h (ap - headerSz)).freeListHead ≠ 0 from e), if_neg e]
    rfl

section
variable {base : Nat} {s : Session} {F : List Nat} {q : Nat × Nat}

/-- the links of a listed block are not in another block -/
theorem HeapInv.not_linked (hi : HeapInv base s.heap F s.live) {b x : Nat}
    (hb : b ∈ s.heap.created) (hF : b ∉ F) (hx : x ∈ s.heap.range b) : ¬ Linked F x := by
  rintro ⟨c, hc, h1, h2⟩
  obtain ⟨hcc, h3⟩ := hi.free c hc
  obtain ⟨h4, h5⟩ := hx
  have h6 := hi.apart b hb c hcc (fun e => hF (e ▸ hc))
  omega

theorem HeapInv.inside (hi : HeapInv base s.heap F s.live)
    (hr : minBlockSz ≤ s.heap.real (q.1 - headerSz)) {w : Nat × Nat}
    (hw : w ∈ freeStores s.heap q.1) {x : Nat} (h1 : w.1 ≤ x) (h2 : x < w.1 + 8) :
    x ∈ s.heap.range (q.1 - headerSz) ∨ Linked F x := by
  unfold minBlockSz at hr
  -- an eighth of the block, from offset `k` on
  have own : ∀ k, k + 8 ≤ 48 → w.1 = q.1 - headerSz + k →
      x ∈ s.heap.range (q.1 - headerSz) ∨ Linked F x := by
    intro k hk e
    exact Or.inl ⟨by omega, by omega⟩
  rcases List.mem_cons.mp hw with rfl | hw
  · exact own 8 (by decide) rfl
  · unfold linkStores at hw
    by_cases e : s.heap.freeListHead = 0
    · rw [if_pos e] at hw
      rcases List.mem_cons.mp hw with rfl | hw
      · exact own 32 (by decide) rfl
      · obtain rfl := List.mem_singleton.mp hw
        exact own 40 (by decide) rfl
    · rw [if_neg e] at hw
      rcases List.mem_cons.mp hw with rfl | hw
      · have hne : F ≠ [] := fun h0 => e (hi.freeList.head_eq_zero_iff.mpr h0)
        obtain ⟨l, t, rfl⟩ : ∃ l t, F = l ++ [t] :=
          ⟨F.dropLast, F.getLast hne, (List.dropLast_append_getLast hne).symm⟩
        have ht : s.heap.freeListTail = t := hi.freeList.tail_eq
        dsimp only at h1 h2
        exact Or.inr ⟨t, by simp, by omega, by omega⟩
      · rcases List.mem_cons.mp hw with rfl | hw
        · exact own 40 (by decide) rfl
        · obtain rfl := List.mem_singleton.mp hw
          exact own 32 (by decide) rfl

theorem HeapInv.others (hi : HeapInv base s.heap F s.live) (hq : q ∈ s.live)
    (hr : minBlockSz ≤ s.heap.real (q.1 - headerSz)) {r : Nat × Nat} (hrl : r ∈ s.live)
    (hne : r ≠ q) {x : Nat} (h1 : r.1 - headerSz ≤ x) (h2 : x < r.1 + r.2) :
    (Umalloc.free s.heap q.1).mem x = s.heap.mem x := by
  obtain ⟨hq1, hqb, hqF, -⟩ := hi.used q hq
  obtain ⟨hr1, hrb, hrF, hroom⟩ := hi.used r hrl
  have hbne : r.1 - headerSz ≠ q.1 - headerSz := fun e =>
    hne (List.inj_on_of_nodup_map hi.once hrl hq (by omega))
  have hx : x ∈ s.heap.range (r.1 - headerSz) := ⟨h1, by omega⟩
  have hap := hi.apart _ hrb _ hqb hbne
  obtain ⟨h3, h4⟩ := hx
  unfold minBlockSz at hr
  have hset : (setFree s.heap (q.1 - headerSz)).mem x = s.heap.mem x :=
    put_frame _ _ _ _ (by omega)
  refine (addFree_frame (setFree_inv hi hqb).freeList ?_).trans hset
  rintro ⟨c, hc, h5, h6⟩
  rcases List.mem_append.mp hc with hc | hc
  · exact hi.not_linked hrb hrF ⟨h3, h4⟩ ⟨c, hc, h5, h6⟩
  · obtain rfl := List.mem_singleton.mp hc
    omega

/-- the links of a smaller block reach into the block behind it -/
theorem HeapInv.min_of_inside (hi : HeapInv base s.heap F s.live) (hq : q ∈ s.live)
    (hin : ∀ w ∈ freeStores s.heap q.1, ∀ x, w.1 ≤ x → x < w.1 + 8 →
      x ∈ s.heap.range (q.1 - headerSz) ∨ Linked F x) :
    minBlockSz ≤ s.heap.real (q.1 - headerSz) := by
  obtain ⟨-, hqb, hqF, -⟩ := hi.used q hq
  obtain ⟨v, hw⟩ : ∃ v, (q.1 - headerSz + 40, v) ∈ freeStores s.heap q.1 := by
    unfold freeStores linkStores
    by_cases e : s.heap.freeListHead = 0
    · exact ⟨0, by simp [e]⟩
    · exact ⟨s.heap.freeListTail, by simp [e]⟩
  rcases hin _ hw (q.1 - headerSz + 47) (by dsimp only; omega) (by dsimp only; omega) with
    h | ⟨c, hc, h1, h2⟩
  · have h3 := h.2
    unfold minBlockSz
    omega
  · obtain ⟨hcc, h3⟩ := hi.free c hc
    have h4 := hi.apart _ hqb c hcc (fun e => hqF (e ▸ hc))
    have h5 : 32 ≤ s.heap.real (q.1 - headerSz) := hi.room _ hqb
    omega

theorem Safe.framed_iff_min (hs : Safe base s) (hq : q ∈ s.live) :
    Framed s q ↔ minBlockSz ≤ s.heap.real (q.1 - headerSz) := by
  obtain ⟨F, hi, -⟩ := hs
  constructor
  · intro hf
    have hin := hf.inside
    rw [hi.freeBlocks_eq] at hin
    exact hi.min_of_inside hq hin
  · intro hr
    refine ⟨fun w hw x h1 h2 => ?_, fun r hrl hne x h1 h2 => hi.others hq hr hrl hne h1 h2⟩
    rw [hi.freeBlocks_eq]
    exact hi.inside hr hw h1 h2

theorem Safe.min_of_request (hs : Safe base s) (hg : Grid s.heap) (hq : q ∈ s.live) (hn : 0 < q.2) :
    minBlockSz ≤ s.heap.real (q.1 - headerSz) := by
  obtain ⟨F, hi, -⟩ := hs
  obtain ⟨-, hqb, -, hroom⟩ := hi.used q hq
  have h16 := (hg.blocks _ hqb).2
  unfold minBlockSz headerSz at *
  omega

end

/-- in every session whose calls reach no defect, `free` keeps to its block exactly when that has 48
bytes; a request of at least one byte gets such a block -/
theorem framed_iff (mem : Mem) (base : Nat) (l : List Call) (s : Session) (q : Nat × Nat)
    (h0 : 0 < base) (hpage : base % pageSz = 0) (hle : base ≤ maxVa)
    (hrun : Run (guarded OkCall Step) (start mem base) l s) (hq : q ∈ s.live) :
    (Framed s q ↔ minBlockSz ≤ s.heap.real (q.1 - headerSz)) ∧ (0 < q.2 → Framed s q) := by
  have hinv := safe_grid_of_ok_calls h0 hpage hle hrun
  have hiff := hinv.1.framed_iff_min hq
  exact ⟨hiff, fun hn => hiff.mpr (hinv.1.min_of_request hinv.2 hq hn)⟩

/-- one request of one byte -/
theorem framed_after_one_byte : ∃ s q, Run (guarded OkCall Step) (start (fun _ => 0) 16384)
    [.malloc 1] s ∧ q ∈ s.live ∧ Framed s q := by
  have hok : OkCall (start (fun _ => 0) 16384) (.malloc 1) := by decide +kernel
  have hlive : (call (start (fun _ => 0) 16384) (.malloc 1)).map (fun s => s.live)
      = some [(20464, 1)] := by decide +kernel
  obtain ⟨s, hs, e⟩ := Option.map_eq_some_iff.mp hlive
  have hrun : Run (guarded OkCall Step) (start (fun _ => 0) 16384) [.malloc 1] s :=
    .single ⟨hok, hs⟩
  have hq : (20464, 1) ∈ s.live := e ▸ List.mem_singleton_self _
  exact ⟨s, _, hrun, hq, (framed_iff _ 16384 _ s _ (by decide) (by decide) (by decide) hrun hq).2
    (by decide)⟩

/-- the size in the header of the pointer `ap`, before and after `free(p)` -/
def sizesAt (s : Session) (p ap : Nat) : Nat × Nat :=
  (s.heap.size (ap - headerSz), (free s.heap p).size (ap - headerSz))

/-- `malloc(0)` and the whole pages behind it: `free` of the first one sets the size of the second
one to the address of the tail of the free list -/
theorem free_zero_overwrites : ∃ s, Run (guarded OkCall Step) (start (fun _ => 0) 16384)
    [.malloc 0, .malloc 8160] s ∧ (20480, 0) ∈ s.live ∧ (20512, 8160) ∈ s.live ∧
      sizesAt s 20480 20512 = (8192, 16384) ∧ ¬ Framed s (20480, 0) := by
  have hrun : (exec (fun s c => if OkCall s c then call s c else none) (start (fun _ => 0) 16384)
      [.malloc 0, .malloc 8160]).map (fun s => (s.live, sizesAt s 20480 20512,
        s.heap.mem 20489, (free s.heap 20480).mem 20489))
      = some ([(20512, 8160), (20480, 0)], (8192, 16384), 32, 64) := by decide +kernel
  obtain ⟨s, hs, e⟩ := Option.map_eq_some_iff.mp hrun
  obtain ⟨hlive, e1⟩ := Prod.mk.inj e
  obtain ⟨hsizes, e2⟩ := Prod.mk.inj e1
  obtain ⟨hold, hnew⟩ := Prod.mk.inj e2
  have hr : (20512, 8160) ∈ s.live := hlive ▸ List.mem_cons_self
  refine ⟨s, Run.of_exec (fun s c t h => ?_) hs, by simp [hlive], hr, hsizes, fun hf => ?_⟩
  · split at h
    · next hok => exact ⟨hok, h⟩
    · exact absurd h nofun
  · have hsame := hf.others _ hr (by decide) 20489 (by decide) (by decide)
    rw [hold, hnew] at hsame
    exact absurd hsame (by decide)

/-- two requests of 16 bytes: the second block, which is cut from a free one, covers the first byte
of the other block, and the last byte of `prev_free` goes over it -/
theorem free_split_overwrites : ∃ s, Run Step (start (fun _ => 0) 16384)
    [.malloc 16, .malloc 16] s ∧ (20417, 16) ∈ s.live ∧ (20464, 16) ∈ s.live ∧
      s.heap.mem 20432 = 115 ∧ (free s.heap 20417).mem 20432 = 0 := by
  have hrun : (runCalls (start (fun _ => 0) 16384) [.malloc 16, .malloc 16]).map
      (fun s => (s.live, s.heap.mem 20432, (free s.heap 20417).mem 20432))
      = some ([(20417, 16), (20464, 16)], 115, 0) := by decide +kernel
  obtain ⟨s, hs, e⟩ := Option.map_eq_some_iff.mp hrun
  obtain ⟨hlive, e1⟩ := Prod.mk.inj e
  obtain ⟨hold, hnew⟩ := Prod.mk.inj e1
  exact ⟨s, run_of_runCalls hs, by simp [hlive], by simp [hlive], hold, hnew⟩

end Umalloc
