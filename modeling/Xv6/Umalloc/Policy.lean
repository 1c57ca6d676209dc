import Xv6.Umalloc.Fit
import Xv6.Umalloc.Safety

/-!
# The block that a request is served from

`usedBlock h n` is the block that the policy in force settles on for `n` bytes, `serve` what it does
with that block, and `fsmFind_eq` says that `fsm_find` is one after the other, on every heap.  The
search compares stored sizes with `n`, while `check_can_split` works with the bytes needed for
header and padding: a block in the band between the two is taken and cut too far
(`fitPolicy_iff`), and one that fits with less than a minimal block to spare is refused, which
`first_fit` answers by stepping over it (`served_iff`).
-/

namespace Umalloc
open Lib

/-! ## sizes against a request -/

/-- the stored size of a block without its free bit -/
def Heap.bytes (h : Heap) (b : Nat) : Nat := h.size b / 2 * 2

/-- the block has room for the header and the padded request -/
def Adequate (h : Heap) (n b : Nat) : Prop := totalSizeNeeded n ≤ h.bytes b

/-- the search takes the block for large enough, but it is not -/
def Band (h : Heap) (n b : Nat) : Prop := n ≤ h.size b ∧ h.size b < totalSizeNeeded n

/-- `check_can_split` leaves the block whole and clears `safe` -/
def Refused (h : Heap) (n b : Nat) : Prop :=
  totalSizeNeeded n ≤ h.size b % 2 ^ 32 ∧ h.size b % 2 ^ 32 < totalSizeNeeded n + minBlockSz

/-- `first_fit` takes such a block -/
def Accepted (h : Heap) (n b : Nat) : Prop := n ≤ h.size b ∧ ¬ Refused h n b

instance (h : Heap) (n b : Nat) : Decidable (Adequate h n b) := inferInstanceAs (Decidable (_ ≤ _))
instance (h : Heap) (n b : Nat) : Decidable (Band h n b) := inferInstanceAs (Decidable (_ ∧ _))
instance (h : Heap) (n b : Nat) : Decidable (Refused h n b) := inferInstanceAs (Decidable (_ ∧ _))
instance (h : Heap) (n b : Nat) : Decidable (Accepted h n b) := inferInstanceAs (Decidable (_ ∧ _))

section
variable {h : Heap} {n b : Nat} (hn : n < 2 ^ 32)
include hn

theorem adequate_iff : Adequate h n b ↔ totalSizeNeeded n ≤ h.size b := by
  have hT := totalSizeNeeded_spec hn
  unfold Adequate Heap.bytes
  omega

theorem le_of_adequate (ha : totalSizeNeeded n ≤ h.size b) : n ≤ h.size b := by
  have hT := totalSizeNeeded_spec hn
  omega

omit hn in
theorem Band.not_refused (hb : Band h n b) : ¬ Refused h n b := by
  intro hr
  have h1 := Nat.mod_le (h.size b) (2 ^ 32)
  have h2 := hb.2
  have h3 := hr.1
  omega

end

/-! ## the walk over the list -/

/-- the walk from `free` reaches NULL before its fuel is gone -/
def walkEnds (h : Heap) : Nat → Nat → Bool
  | 0, free => free == 0
  | fuel + 1, free => free == 0 || walkEnds h fuel (h.nextFree free)

/-- the links of the free list lead to NULL -/
def ListEnds (h : Heap) : Prop := walkEnds h h.created.length h.freeListHead = true

instance (h : Heap) : Decidable (ListEnds h) := inferInstanceAs (Decidable (_ = true))

theorem walkFree_length (h : Heap) (fuel free : Nat) : (walkFree h fuel free).length ≤ fuel := by
  induction fuel generalizing free with
  | zero => exact Nat.le_refl 0
  | succ fuel ih =>
    unfold walkFree
    split
    · exact Nat.zero_le _
    · exact Nat.succ_le_succ (ih _)

theorem walkFree_ne_zero {h : Heap} {fuel free b : Nat} (hb : b ∈ walkFree h fuel free) :
    b ≠ 0 := by
  induction fuel generalizing free with
  | zero => exact absurd hb List.not_mem_nil
  | succ fuel ih =>
    unfold walkFree at hb
    split at hb
    · exact absurd hb List.not_mem_nil
    · next h0 =>
      rcases List.mem_cons.mp hb with rfl | h1
      · exact h0
      · exact ih h1

/-- a walk that ends has seen a chain -/
theorem walkEnds_chain {h : Heap} {fuel free : Nat} (he : walkEnds h fuel free = true) :
    Chain 0 h.nextFree free (walkFree h fuel free) := by
  induction fuel generalizing free with
  | zero => exact chain_nil.mpr (by simpa [walkEnds] using he)
  | succ fuel ih =>
    unfold walkFree
    by_cases h0 : free = 0
    · rw [if_pos h0]
      exact chain_nil.mpr h0
    · rw [if_neg h0]
      refine chain_cons.mpr ⟨rfl, h0, ih ?_⟩
      simpa [walkEnds, h0] using he

theorem ListEnds.chain {h : Heap} (he : ListEnds h) :
    Chain 0 h.nextFree h.freeListHead (freeBlocks h) := walkEnds_chain he

theorem freeBlocks_length (h : Heap) : (freeBlocks h).length ≤ h.created.length :=
  walkFree_length _ _ _

/-! ## serving from one block -/

/-- what the policies do with the block that they settle on -/
def serve (h : Heap) (n b : Nat) : Heap × Nat :=
  match checkCanSplit h b (h.size b % 2 ^ 32) n with
  | (h, ret) => if ret ≠ 0 then (h, ret) else (removeFree (setUsed h b) b, b)

theorem checkCanSplit_refused {h : Heap} {n b : Nat} (hb : b ≠ 0) (hr : Refused h n b) :
    checkCanSplit h b (h.size b % 2 ^ 32) n = ({ h with safe := false }, 0) := by
  obtain ⟨h1, h2⟩ := hr
  unfold minBlockSz at h2
  have e : (h.size b % 2 ^ 32 + 2 ^ 64 - totalSizeNeeded n) % 2 ^ 64
      = h.size b % 2 ^ 32 - totalSizeNeeded n := by omega
  unfold checkCanSplit
  dsimp only
  rw [if_neg hb, e, if_pos (by unfold minBlockSz; omega)]

theorem checkCanSplit_accepted {h : Heap} {n b : Nat} (hn : n < 2 ^ 32) (hb : b ≠ 0)
    (hr : ¬ Refused h n b) : checkCanSplit h b (h.size b % 2 ^ 32) n
      = split { h with safe := true } b (h.size b % 2 ^ 32) (totalSizeNeeded n % 2 ^ 32) := by
  have hT := totalSizeNeeded_spec hn
  have hB : h.size b % 2 ^ 32 < 2 ^ 32 := Nat.mod_lt _ (by norm_num)
  unfold Refused minBlockSz at hr
  unfold headerSz at hT
  have e : ¬ (h.size b % 2 ^ 32 + 2 ^ 64 - totalSizeNeeded n) % 2 ^ 64 < minBlockSz := by
    unfold minBlockSz
    omega
  unfold checkCanSplit
  dsimp only
  rw [if_neg hb, if_neg e, if_neg (by omega)]

theorem serve_ne_zero {h : Heap} {n b : Nat} (hb : b ≠ 0) : (serve h n b).2 ≠ 0 := by
  unfold serve
  generalize checkCanSplit h b (h.size b % 2 ^ 32) n = r
  dsimp only
  split
  · assumption
  · exact hb

theorem serve_refused {h : Heap} {n b : Nat} (hb : b ≠ 0) (hr : Refused h n b) :
    serve h n b = (removeFree (setUsed { h with safe := false } b) b, b) := by
  unfold serve
  rw [checkCanSplit_refused hb hr]
  rfl

/-! ## the block that a policy settles on -/

/-- the block from which `fsm_find` serves the request: `0` when it finds none, `none` when it
does not return -/
def usedBlock (h : Heap) (n : Nat) : Option Nat :=
  match h.fsm with
  | .firstFit =>
    match (freeBlocks h).find? (fun b => decide (Accepted h n b)) with
    | some b => some b
    | none => if ListEnds h then some 0 else none
  | .bestFit => extremeLoop (fun a b => decide (b > a)) h n h.created.length h.freeListHead 0
  | .worstFit => extremeLoop (fun a b => decide (b < a)) h n h.created.length h.freeListHead 0

theorem usedBlock_firstFit {h : Heap} (n : Nat) (hf : h.fsm = .firstFit) : usedBlock h n
    = match (freeBlocks h).find? (fun b => decide (Accepted h n b)) with
      | some b => some b
      | none => if ListEnds h then some 0 else none := by
  unfold usedBlock
  rw [hf]

theorem usedBlock_bestFit {h : Heap} (n : Nat) (hf : h.fsm = .bestFit) : usedBlock h n
    = extremeLoop (fun a b => decide (b > a)) h n h.created.length h.freeListHead 0 := by
  unfold usedBlock
  rw [hf]

theorem usedBlock_worstFit {h : Heap} (n : Nat) (hf : h.fsm = .worstFit) : usedBlock h n
    = extremeLoop (fun a b => decide (b < a)) h n h.created.length h.freeListHead 0 := by
  unfold usedBlock
  rw [hf]

theorem walkFree_withSafe (h : Heap) (v : Bool) (fuel free : Nat) :
    walkFree { h with safe := v } fuel free = walkFree h fuel free := by
  induction fuel generalizing free with
  | zero => rfl
  | succ fuel ih =>
    unfold walkFree
    rw [ih]
    rfl

theorem walkEnds_withSafe (h : Heap) (v : Bool) (fuel free : Nat) :
    walkEnds { h with safe := v } fuel free = walkEnds h fuel free := by
  induction fuel generalizing free with
  | zero => rfl
  | succ fuel ih =>
    unfold walkEnds
    rw [ih]
    rfl

/-- `first_fit` serves from the first block that is large enough and not refused -/
theorem firstFitLoop_eq {n : Nat} (hn : n < 2 ^ 32) (h : Heap) (fuel free : Nat) :
    ∃ v, firstFitLoop n fuel h free
      = match (walkFree h fuel free).find? (fun b => decide (Accepted h n b)) with
        | some b => some (serve h n b)
        | none => if walkEnds h fuel free then some ({ h with safe := v }, 0) else none := by
  induction fuel generalizing h free with
  | zero =>
    refine ⟨h.safe, ?_⟩
    unfold firstFitLoop
    by_cases h0 : free = 0
    · simp [h0, walkFree, walkEnds]
    · simp [h0, walkFree, walkEnds]
  | succ fuel ih =>
    unfold firstFitLoop walkFree walkEnds
    by_cases h0 : free = 0
    · refine ⟨h.safe, ?_⟩
      simp [h0]
    · rw [if_neg h0, if_neg h0]
      dsimp only
      by_cases hle : n ≤ h.size free
      · rw [if_pos hle]
        by_cases hr : Refused h n free
        · -- the block is left, with `safe` cleared
          obtain ⟨v, e⟩ := ih { h with safe := false } (h.nextFree free)
          refine ⟨v, ?_⟩
          rw [walkFree_withSafe, walkEnds_withSafe] at e
          have hz : (free == 0) = false := by simpa using h0
          rw [checkCanSplit_refused h0 hr, List.find?_cons_of_neg (by simp [Accepted, hr]), hz,
            Bool.false_or]
          dsimp only
          rw [if_neg (by simp), if_pos (by simp)]
          exact e
        · refine ⟨h.safe, ?_⟩
          rw [List.find?_cons_of_pos (by simp [Accepted, hle, hr])]
          dsimp only
          unfold serve
          have hsafe : (checkCanSplit h free (h.size free % 2 ^ 32) n).1.safe = true := by
            obtain ⟨m, g, _⟩ := split_eq { h with safe := true } free (h.size free % 2 ^ 32)
              (totalSizeNeeded n % 2 ^ 32)
            rw [checkCanSplit_accepted hn h0 hr, g]
          generalize checkCanSplit h free (h.size free % 2 ^ 32) n = r at hsafe
          dsimp only
          rw [hsafe]
          split <;> rfl
      · obtain ⟨v, e⟩ := ih h (h.nextFree free)
        refine ⟨v, ?_⟩
        rw [if_neg hle, List.find?_cons_of_neg (by simp [Accepted, hle])]
        simpa [h0] using e

/-- `best_fit` and `worst_fit` return only when the list ends -/
theorem extremeLoop_none (better : Nat → Nat → Bool) (h : Heap) (n fuel free pick : Nat)
    (he : walkEnds h fuel free = false) : extremeLoop better h n fuel free pick = none := by
  induction fuel generalizing free pick with
  | zero =>
    have h0 : free ≠ 0 := by simpa [walkEnds] using he
    unfold extremeLoop
    rw [if_neg h0]
  | succ fuel ih =>
    have h0 : free ≠ 0 ∧ walkEnds h fuel (h.nextFree free) = false := by simpa [walkEnds] using he
    unfold extremeLoop
    rw [if_neg h0.1]
    exact ih _ _ h0.2

theorem extremeFit_eq (better : Nat → Nat → Bool) (h : Heap) (n : Nat) : extremeFit better h n
    = (extremeLoop better h n h.created.length h.freeListHead 0).map
        (fun b => if b = 0 then (h, 0) else serve h n b) := by
  unfold extremeFit serve
  cases extremeLoop better h n h.created.length h.freeListHead 0 with
  | none => rfl
  | some b =>
    change (if b = 0 then some (h, 0) else match checkCanSplit h b (h.size b % 2 ^ 32) n with
      | (h, ret) => if ret ≠ 0 then some (h, ret) else some (removeFree (setUsed h b) b, b)) = _
    rw [Option.map_some]
    by_cases hb : b = 0
    · rw [if_pos hb, if_pos hb]
    · rw [if_neg hb, if_neg hb]
      generalize checkCanSplit h b (h.size b % 2 ^ 32) n = r
      dsimp only
      split <;> rfl

/-- `fsm_find` finds the block and then serves from it -/
theorem fsmFind_eq {n : Nat} (hn : n < 2 ^ 32) (h : Heap) : ∃ v, fsmFind h n
    = (usedBlock h n).map (fun b => if b = 0 then ({ h with safe := v }, 0) else serve h n b) := by
  unfold fsmFind
  split
  case h_1 hf =>
    obtain ⟨v, e⟩ := firstFitLoop_eq hn h h.created.length h.freeListHead
    refine ⟨v, ?_⟩
    unfold firstFit
    rw [e, usedBlock_firstFit n hf]
    change (match (freeBlocks h).find? (fun b => decide (Accepted h n b)) with
      | some b => some (serve h n b)
      | none => if ListEnds h then some ({ h with safe := v }, 0) else none) = _
    cases hb : (freeBlocks h).find? (fun b => decide (Accepted h n b)) with
    | none =>
      dsimp only
      split <;> rfl
    | some b =>
      have hb0 : b ≠ 0 := walkFree_ne_zero (List.mem_of_find?_eq_some hb)
      simp [hb0]
  case h_2 hf =>
    rw [usedBlock_bestFit n hf]
    exact ⟨h.safe, extremeFit_eq _ h n⟩
  case h_3 hf =>
    rw [usedBlock_worstFit n hf]
    exact ⟨h.safe, extremeFit_eq _ h n⟩

theorem first_used {h : Heap} {n b : Nat} (hf : h.fsm = .firstFit) (hb : b ≠ 0)
    (e : usedBlock h n = some b) : ∃ l₁ l₂, freeBlocks h = l₁ ++ b :: l₂ ∧ Accepted h n b ∧
      ∀ c ∈ l₁, ¬ Accepted h n c := by
  rw [usedBlock_firstFit n hf] at e
  cases hs : (freeBlocks h).find? (fun b => decide (Accepted h n b)) with
  | none =>
    rw [hs] at e
    dsimp only at e
    split at e
    · exact absurd (Option.some.inj e).symm hb
    · exact absurd e nofun
  | some c =>
    rw [hs] at e
    obtain rfl := Option.some.inj e
    obtain ⟨hacc, l₁, l₂, hl, hno⟩ := List.find?_eq_some_iff_append.mp hs
    exact ⟨l₁, l₂, hl, of_decide_eq_true hacc, fun c hc => by simpa using hno c hc⟩

/-- the block that `best_fit` or `worst_fit` settles on: no other large enough block is better -/
theorem extreme_used {better : Nat → Nat → Bool} (hbet : Ranks better) {h : Heap} {n b : Nat}
    (hb : b ≠ 0) (e : extremeLoop better h n h.created.length h.freeListHead 0 = some b) :
    ListEnds h ∧ b ∈ freeBlocks h ∧ n ≤ h.size b ∧
      ∀ c ∈ freeBlocks h, n ≤ h.size c → better (h.size c) (h.size b) = false := by
  have hends : ListEnds h := by
    cases he : walkEnds h h.created.length h.freeListHead with
    | true => exact he
    | false =>
      rw [extremeLoop_none better h n _ _ 0 he] at e
      exact absurd e nofun
  obtain ⟨r, e', hfrom, hbest⟩ := extremeLoop_spec hbet (n := n) 0 hends.chain
    (freeBlocks_length h)
  obtain rfl : r = b := Option.some.inj (e'.symm.trans e)
  obtain ⟨h1, h2⟩ := hfrom.resolve_left hb
  exact ⟨hends, h1, h2, fun c hc hn => (hbest c (Or.inl ⟨hc, hn⟩)).2⟩

/-- on a list that ends, `best_fit` and `worst_fit` settle on a block if one is large enough -/
theorem extreme_found {better : Nat → Nat → Bool} (hbet : Ranks better) {h : Heap} {n c : Nat}
    (he : ListEnds h) (hc : c ∈ freeBlocks h) (hn : n ≤ h.size c) :
    ∃ b, b ≠ 0 ∧ extremeLoop better h n h.created.length h.freeListHead 0 = some b := by
  obtain ⟨r, e, _, hbest⟩ := extremeLoop_spec hbet (n := n) 0 he.chain (freeBlocks_length h)
  exact ⟨r, (hbest c (Or.inl ⟨hc, hn⟩)).1, e⟩

/-- a request that is served from the list is served from the block that was settled on -/
theorem fsmFind_used {h h' : Heap} {n r : Nat} (hn : n < 2 ^ 32) (hr : r ≠ 0)
    (e : fsmFind h n = some (h', r)) :
    ∃ b, b ≠ 0 ∧ usedBlock h n = some b ∧ (h', r) = serve h n b := by
  obtain ⟨v, e'⟩ := fsmFind_eq hn h
  rw [e'] at e
  obtain ⟨b, hb, hs⟩ := Option.map_eq_some_iff.mp e
  by_cases h0 : b = 0
  · rw [if_pos h0] at hs
    exact absurd (Prod.mk.inj hs).2.symm hr
  · rw [if_neg h0] at hs
    exact ⟨b, h0, hb, hs.symm⟩

theorem fsmFind_of_used {h : Heap} {n b : Nat} (hn : n < 2 ^ 32) (hb : b ≠ 0)
    (e : usedBlock h n = some b) : fsmFind h n = some (serve h n b) := by
  obtain ⟨v, e'⟩ := fsmFind_eq hn h
  rw [e', e, Option.map_some, if_neg hb]

theorem used_mem {h : Heap} {n b : Nat} (hb : b ≠ 0) (e : usedBlock h n = some b) :
    b ∈ freeBlocks h := by
  cases hf : h.fsm with
  | firstFit =>
    obtain ⟨l₁, l₂, hl, _⟩ := first_used hf hb e
    rw [hl]
    exact List.mem_append_right l₁ List.mem_cons_self
  | bestFit => exact (extreme_used ranks_gt hb ((usedBlock_bestFit n hf).symm.trans e)).2.1
  | worstFit => exact (extreme_used ranks_lt hb ((usedBlock_worstFit n hf).symm.trans e)).2.1

/-- `malloc` grows the heap, hands out a whole free block, or splits one -/
theorem malloc_cases {h h' : Heap} {n p : Nat} (hn : n < 2 ^ 32)
    (hm : malloc h n = some (h', p)) :
    (∃ v, usedBlock h n = some 0 ∧ growHeap { h with safe := v } n = some (h', p)) ∨
    (∃ b, b ≠ 0 ∧ usedBlock h n = some b ∧ Refused h n b ∧
      h' = removeFree (setUsed { h with safe := false } b) b ∧ p = b + headerSz) ∨
    (∃ b, b ≠ 0 ∧ usedBlock h n = some b ∧ ¬ Refused h n b ∧
      (splitAt b (h.size b % 2 ^ 32) (totalSizeNeeded n % 2 ^ 32) ≠ 0 →
        h' = (split { h with safe := true } b (h.size b % 2 ^ 32)
          (totalSizeNeeded n % 2 ^ 32)).1 ∧
        p = splitAt b (h.size b % 2 ^ 32) (totalSizeNeeded n % 2 ^ 32) + headerSz)) := by
  obtain ⟨v, e⟩ := fsmFind_eq hn h
  unfold malloc at hm
  rw [e] at hm
  cases hu : usedBlock h n with
  | none =>
    rw [hu] at hm
    exact absurd hm nofun
  | some b =>
    rw [hu, Option.map_some] at hm
    dsimp only at hm
    by_cases hb : b = 0
    · rw [if_pos hb] at hm
      dsimp only at hm
      rw [if_neg (by simp)] at hm
      exact Or.inl ⟨v, by rw [hb], hm⟩
    · have hne := serve_ne_zero (h := h) (n := n) hb
      rw [if_neg hb, if_pos hne] at hm
      obtain ⟨e1, e2⟩ := Prod.mk.inj (Option.some.inj hm)
      by_cases hr : Refused h n b
      · rw [serve_refused hb hr] at e1 e2
        exact Or.inr (Or.inl ⟨b, hb, rfl, hr, e1.symm, e2.symm⟩)
      · refine Or.inr (Or.inr ⟨b, hb, rfl, hr, fun h0 => ?_⟩)
        unfold serve at e1 e2
        rw [checkCanSplit_accepted hn hb hr] at e1 e2
        dsimp only at e1 e2
        rw [split_snd, if_pos h0] at e1 e2
        exact ⟨e1.symm, e2.symm⟩

/-! ## which block is taken -/

/-- `best_fit` owes its callers the smallest adequate block, `worst_fit` the largest one -/
def Optimal (h : Heap) (n b : Nat) : Prop :=
  match h.fsm with
  | .firstFit => True
  | .bestFit => ∀ c ∈ freeBlocks h, Adequate h n c → h.bytes b ≤ h.bytes c
  | .worstFit => ∀ c ∈ freeBlocks h, Adequate h n c → h.bytes c ≤ h.bytes b

/-- a request that is served from the free list is served from an adequate block, the one that
the policy promises -/
def FitPolicy (h : Heap) (n : Nat) : Prop :=
  ∀ h' r, fsmFind h n = some (h', r) → r ≠ 0 → ∃ b ∈ freeBlocks h,
    usedBlock h n = some b ∧ (h', r) = serve h n b ∧ Adequate h n b ∧ Optimal h n b

/-- no block of the band is taken: `first_fit` meets an adequate block that it accepts before it
meets one of the band, `best_fit` has none of the band on the list, `worst_fit` has an adequate
one beside those of the band -/
def NoBand (h : Heap) (n : Nat) : Prop :=
  match h.fsm with
  | .firstFit => ∀ l₁ b l₂, freeBlocks h = l₁ ++ b :: l₂ → Band h n b →
      ∃ c ∈ l₁, Adequate h n c ∧ ¬ Refused h n c
  | .bestFit => ListEnds h → ∀ b ∈ freeBlocks h, ¬ Band h n b
  | .worstFit => ListEnds h → ∀ b ∈ freeBlocks h, Band h n b → ∃ c ∈ freeBlocks h, Adequate h n c

section
variable {h : Heap} {n : Nat} (hn : n < 2 ^ 32)
include hn

theorem fitPolicy_of_used (hp : ∀ b, b ≠ 0 → usedBlock h n = some b →
    b ∈ freeBlocks h ∧ Adequate h n b ∧ Optimal h n b) : FitPolicy h n := by
  intro h' r e hr
  obtain ⟨b, hb, hu, hs⟩ := fsmFind_used hn hr e
  obtain ⟨h1, h2, h3⟩ := hp b hb hu
  exact ⟨b, h1, hu, hs, h2, h3⟩

theorem FitPolicy.used (hp : FitPolicy h n) {b : Nat} (hb : b ≠ 0)
    (e : usedBlock h n = some b) : Adequate h n b := by
  obtain ⟨c, _, hu, _, ha, _⟩ := hp (serve h n b).1 (serve h n b).2 (fsmFind_of_used hn hb e)
    (serve_ne_zero hb)
  obtain rfl := Option.some.inj (e.symm.trans hu)
  exact ha

theorem band_of_not_adequate {b : Nat} (hle : n ≤ h.size b) (ha : ¬ Adequate h n b) :
    Band h n b := ⟨hle, Nat.lt_of_not_le (fun h1 => ha ((adequate_iff hn).mpr h1))⟩

theorem Band.not_adequate {b : Nat} (hb : Band h n b) : ¬ Adequate h n b :=
  fun ha => Nat.not_lt.mpr ((adequate_iff hn).mp ha) hb.2

theorem Adequate.le {b : Nat} (ha : Adequate h n b) : n ≤ h.size b :=
  le_of_adequate hn ((adequate_iff hn).mp ha)

theorem fitPolicy_firstFit (hf : h.fsm = .firstFit) : FitPolicy h n ↔
    ∀ l₁ b l₂, freeBlocks h = l₁ ++ b :: l₂ → Band h n b →
      ∃ c ∈ l₁, Adequate h n c ∧ ¬ Refused h n c := by
  constructor
  · intro hp l₁ b l₂ hl hband
    have hacc : Accepted h n b := ⟨hband.1, hband.not_refused⟩
    have hfind := usedBlock_firstFit n hf
    rw [hl, List.find?_append, List.find?_cons_of_pos (by simpa using hacc)] at hfind
    cases hc : l₁.find? (fun b => decide (Accepted h n b)) with
    | none =>
      rw [hc] at hfind
      have hb0 : b ≠ 0 := walkFree_ne_zero (hl ▸ List.mem_append_right l₁ List.mem_cons_self)
      exact absurd (hp.used hn hb0 hfind) (hband.not_adequate hn)
    | some c =>
      rw [hc] at hfind
      have hmem := List.mem_of_find?_eq_some hc
      have hc0 : c ≠ 0 := walkFree_ne_zero (hl ▸ List.mem_append_left _ hmem)
      have hca : Accepted h n c := by simpa using List.find?_some hc
      exact ⟨c, hmem, hp.used hn hc0 hfind, hca.2⟩
  · intro hcond
    refine fitPolicy_of_used hn (fun b hb e => ?_)
    obtain ⟨l₁, l₂, hl, hacc, hno⟩ := first_used hf hb e
    refine ⟨hl ▸ List.mem_append_right l₁ List.mem_cons_self, ?_, ?_⟩
    · by_contra ha
      obtain ⟨c, hc, hca, hcr⟩ := hcond l₁ b l₂ hl (band_of_not_adequate hn hacc.1 ha)
      exact hno c hc ⟨hca.le hn, hcr⟩
    · unfold Optimal
      rw [hf]
      trivial

theorem fitPolicy_bestFit (hf : h.fsm = .bestFit) : FitPolicy h n ↔
    (ListEnds h → ∀ b ∈ freeBlocks h, ¬ Band h n b) := by
  have hu := usedBlock_bestFit n hf
  constructor
  · intro hp he b hb hband
    obtain ⟨r, hr, e⟩ := extreme_found ranks_gt he hb hband.1
    obtain ⟨_, _, _, hbest⟩ := extreme_used ranks_gt hr e
    have hmin : h.size r ≤ h.size b := Nat.le_of_not_lt (of_decide_eq_false (hbest b hb hband.1))
    have hadq := (adequate_iff hn).mp (hp.used hn hr (hu.trans e))
    have hlt := hband.2
    omega
  · intro hcond
    refine fitPolicy_of_used hn (fun b hb e => ?_)
    obtain ⟨he, hmem, hle, hbest⟩ := extreme_used ranks_gt hb (hu.symm.trans e)
    refine ⟨hmem, ?_, ?_⟩
    · by_contra ha
      exact hcond he b hmem (band_of_not_adequate hn hle ha)
    · unfold Optimal
      rw [hf]
      intro c hc hca
      have hmin : h.size b ≤ h.size c := Nat.le_of_not_lt
        (of_decide_eq_false (hbest c hc (hca.le hn)))
      exact Nat.mul_le_mul_right 2 (Nat.div_le_div_right hmin)

theorem fitPolicy_worstFit (hf : h.fsm = .worstFit) : FitPolicy h n ↔
    (ListEnds h → ∀ b ∈ freeBlocks h, Band h n b → ∃ c ∈ freeBlocks h, Adequate h n c) := by
  have hu := usedBlock_worstFit n hf
  constructor
  · intro hp he b hb hband
    obtain ⟨r, hr, e⟩ := extreme_found ranks_lt he hb hband.1
    obtain ⟨_, hmem, _, _⟩ := extreme_used ranks_lt hr e
    exact ⟨r, hmem, hp.used hn hr (hu.trans e)⟩
  · intro hcond
    refine fitPolicy_of_used hn (fun b hb e => ?_)
    obtain ⟨he, hmem, hle, hbest⟩ := extreme_used ranks_lt hb (hu.symm.trans e)
    have hmax : ∀ c ∈ freeBlocks h, Adequate h n c → h.size c ≤ h.size b := fun c hc hca =>
      Nat.le_of_not_lt (of_decide_eq_false (hbest c hc (hca.le hn)))
    refine ⟨hmem, ?_, ?_⟩
    · by_contra ha
      obtain ⟨c, hc, hca⟩ := hcond he b hmem (band_of_not_adequate hn hle ha)
      have h1 := (adequate_iff hn).mp hca
      have h2 := hmax c hc hca
      exact ha ((adequate_iff hn).mpr (h1.trans h2))
    · unfold Optimal
      rw [hf]
      intro c hc hca
      exact Nat.mul_le_mul_right 2 (Nat.div_le_div_right (hmax c hc hca))

end

/-- on every heap and for every request the policy is kept exactly when no block of the band is
taken -/
theorem fitPolicy_iff (h : Heap) (n : Nat) (hn : n < 2 ^ 32) : FitPolicy h n ↔ NoBand h n := by
  unfold NoBand
  split
  case h_1 hf => exact fitPolicy_firstFit hn hf
  case h_2 hf => exact fitPolicy_bestFit hn hf
  case h_3 hf => exact fitPolicy_worstFit hn hf

/-- best fit with one free block of 3952 bytes and a request of 100 -/
theorem fitPolicy_after_malloc : ∃ s, Run Step (start (fun _ => 0) 16384)
    [.setfsm 1, .malloc 100] s ∧ FitPolicy s.heap 100 := by
  have hrun : (runCalls (start (fun _ => 0) 16384) [.setfsm 1, .malloc 100]).map
      (fun s : Session => (s.heap.fsm, decide (∀ b ∈ freeBlocks s.heap, ¬ Band s.heap 100 b)))
      = some (.bestFit, true) := by decide +kernel
  obtain ⟨s, hs, e⟩ := Option.map_eq_some_iff.mp hrun
  obtain ⟨hf, hb⟩ := Prod.mk.inj e
  refine ⟨s, run_of_runCalls hs, (fitPolicy_iff s.heap 100 (by decide)).mpr ?_⟩
  unfold NoBand
  rw [hf]
  exact fun _ => of_decide_eq_true hb

/-- best fit, a freed block of 144 bytes, and a request of 120, which needs 160: it is served from
that block -/
theorem band_is_taken : ¬ ∀ (mem : Mem) (base : Nat) (l : List Call) (s : Session) (n : Nat),
    0 < base → base % pageSz = 0 → base ≤ maxVa → n < 2 ^ 32 → Run Step (start mem base) l s →
      FitPolicy s.heap n := by
  intro hall
  have hrun : (runCalls (start (fun _ => 0) 16384) [.setfsm 1, .malloc 100, .free 20368]).map
      (fun s => (usedBlock s.heap 120, decide (Adequate s.heap 120 20336)))
      = some (some 20336, false) := by decide +kernel
  obtain ⟨s, hs, e⟩ := Option.map_eq_some_iff.mp hrun
  obtain ⟨hu, ha⟩ := Prod.mk.inj e
  have hp := hall _ 16384 _ s 120 (by decide) (by decide) (by decide) (by decide)
    (run_of_runCalls hs)
  exact of_decide_eq_false ha (hp.used (by decide) (by decide) hu)

end Umalloc
