import Xv6.Umalloc.Grow

/-!
# Searching the free list

`freeBlocks h` reads the free list from memory.  A block is `Snug` for a request when taking it
whole leaves less than a minimal block over; `WholeFit` says that the policy in force meets no
other kind.  Then `fsm_find` takes nothing or a whole block (`fsmFind_inv`).
-/

namespace Umalloc
open Lib

/-! ## the listed blocks -/

def walkFree (h : Heap) : Nat → Nat → List Nat
  | 0, _ => []
  | fuel + 1, free => if free = 0 then [] else free :: walkFree h fuel (h.nextFree free)

def freeBlocks (h : Heap) : List Nat := walkFree h h.created.length h.freeListHead

theorem walkFree_eq {h : Heap} {F : List Nat} {a fuel : Nat} (hc : Chain 0 h.nextFree a F)
    (hl : F.length ≤ fuel) : walkFree h fuel a = F := by
  induction F generalizing a fuel with
  | nil =>
    rw [chain_nil.mp hc]
    cases fuel with
    | zero => rfl
    | succ fuel => rfl
  | cons x F ih =>
    obtain ⟨rfl, h0, hr⟩ := chain_cons.mp hc
    cases fuel with
    | zero => exact absurd hl (by simp)
    | succ fuel =>
      show (if a = 0 then [] else a :: walkFree h fuel (h.nextFree a)) = a :: F
      rw [if_neg h0, ih hr (by simpa using hl)]

/-- taking the free block `b` whole for `n` bytes leaves less than a minimal block over -/
def Snug (h : Heap) (n b : Nat) : Prop :=
  totalSizeNeeded n ≤ h.size b ∧ h.size b < totalSizeNeeded n + minBlockSz

instance (h : Heap) (n b : Nat) : Decidable (Snug h n b) := inferInstanceAs (Decidable (_ ∧ _))

/-- `b` is a listed block that `best_fit` or `worst_fit` may pick -/
def Extreme (better : Nat → Nat → Bool) (h : Heap) (n b : Nat) : Prop :=
  n ≤ h.size b ∧ ∀ c ∈ freeBlocks h, n ≤ h.size c → better (h.size c) (h.size b) = false

instance (better : Nat → Nat → Bool) (h : Heap) (n b : Nat) : Decidable (Extreme better h n b) :=
  inferInstanceAs (Decidable (_ ∧ _))

/-- the policy in force does not meet a free block that it would have to split, nor one that is
too small for the header -/
def WholeFit (h : Heap) (n : Nat) : Prop :=
  match h.fsm with
  | .firstFit => ∀ b ∈ freeBlocks h, n ≤ h.size b → Snug h n b
  | .bestFit => ∀ b ∈ freeBlocks h, Extreme (fun a b => decide (b > a)) h n b → Snug h n b
  | .worstFit => ∀ b ∈ freeBlocks h, Extreme (fun a b => decide (b < a)) h n b → Snug h n b

instance (h : Heap) (n : Nat) : Decidable (WholeFit h n) := by
  unfold WholeFit
  exact match h.fsm with
  | .firstFit => inferInstance
  | .bestFit => inferInstance
  | .worstFit => inferInstance

/-! ## the two searches -/

/-- a snug block is not split -/
theorem checkCanSplit_snug {h : Heap} {n b : Nat} (hb : b ≠ 0) (hs : Snug h n b)
    (hlt : h.size b < 2 ^ 32) :
    checkCanSplit h b (h.size b % 2 ^ 32) n = ({ h with safe := false }, 0) := by
  obtain ⟨h1, h2⟩ := hs
  have e : (h.size b + 2 ^ 64 - totalSizeNeeded n) % 2 ^ 64 = h.size b - totalSizeNeeded n := by
    omega
  unfold checkCanSplit
  dsimp only
  rw [if_neg hb, Nat.mod_eq_of_lt hlt, e, if_pos (by omega)]

/-- `first_fit` steps over snug blocks, since `check_can_split` clears `safe` on them -/
theorem firstFitLoop_snug {h : Heap} {n : Nat} {l : List Nat} {free fuel : Nat}
    (hc : Chain 0 h.nextFree free l) (hl : l.length ≤ fuel)
    (hs : ∀ b ∈ l, n ≤ h.size b → Snug h n b) (hlt : ∀ b ∈ l, h.size b < 2 ^ 32) :
    ∃ v, firstFitLoop n fuel h free = some ({ h with safe := v }, 0) := by
  induction l generalizing h free fuel with
  | nil =>
    rw [chain_nil.mp hc]
    refine ⟨h.safe, ?_⟩
    unfold firstFitLoop
    rw [if_pos rfl]
  | cons b l ih =>
    obtain ⟨rfl, h0, hr⟩ := chain_cons.mp hc
    cases fuel with
    | zero => exact absurd hl (by simp)
    | succ fuel =>
      have hl' : l.length ≤ fuel := by simpa using hl
      have hs' : ∀ b ∈ l, n ≤ h.size b → Snug h n b := fun b hb => hs b (List.mem_cons_of_mem _ hb)
      have hlt' : ∀ b ∈ l, h.size b < 2 ^ 32 := fun b hb => hlt b (List.mem_cons_of_mem _ hb)
      unfold firstFitLoop
      rw [if_neg h0]
      dsimp only
      by_cases hn : n ≤ h.size free
      · rw [if_pos hn, checkCanSplit_snug h0 (hs free List.mem_cons_self hn)
          (hlt free List.mem_cons_self)]
        exact ih (h := { h with safe := false }) hr hl' hs' hlt'
      · rw [if_neg hn]
        exact ih hr hl' hs' hlt'

/-- `better` compares sizes like a strict order whose incomparability is transitive -/
structure Ranks (better : Nat → Nat → Bool) : Prop where
  asymm : ∀ a b, better a b = true → better b a = false
  trans : ∀ a b c, better a b = false → better b c = false → better a c = false

theorem ranks_gt : Ranks (fun a b => decide (b > a)) := by
  refine ⟨fun a b h => ?_, fun a b c h1 h2 => ?_⟩
  · simp only [decide_eq_true_eq, decide_eq_false_iff_not] at *
    omega
  · simp only [decide_eq_false_iff_not] at *
    omega

theorem ranks_lt : Ranks (fun a b => decide (b < a)) := by
  refine ⟨fun a b h => ?_, fun a b c h1 h2 => ?_⟩
  · simp only [decide_eq_true_eq, decide_eq_false_iff_not] at *
    omega
  · simp only [decide_eq_false_iff_not] at *
    omega

section
variable {better : Nat → Nat → Bool} (hbet : Ranks better)
include hbet

theorem Ranks.irrefl (a : Nat) : better a a = false := by
  cases e : better a a with
  | false => rfl
  | true => exact (e ▸ hbet.asymm a a e : true = false) ▸ rfl

/-- the search ends; what it picks fits, and no block seen is better -/
theorem extremeLoop_spec {h : Heap} {n : Nat} {l : List Nat} {free fuel : Nat} (pick : Nat)
    (hc : Chain 0 h.nextFree free l) (hl : l.length ≤ fuel) :
    ∃ r, extremeLoop better h n fuel free pick = some r ∧
      (r = pick ∨ r ∈ l ∧ n ≤ h.size r) ∧
      (∀ b, b ∈ l ∧ n ≤ h.size b ∨ b = pick ∧ pick ≠ 0 →
        r ≠ 0 ∧ better (h.size b) (h.size r) = false) := by
  induction l generalizing free fuel pick with
  | nil =>
    rw [chain_nil.mp hc]
    refine ⟨pick, ?_, Or.inl rfl, ?_⟩
    · unfold extremeLoop
      rw [if_pos rfl]
    · intro b hb
      rcases hb with ⟨h1, _⟩ | ⟨rfl, h2⟩
      · exact absurd h1 (by simp)
      · exact ⟨h2, hbet.irrefl _⟩
  | cons x l ih =>
    obtain ⟨rfl, h0, hr⟩ := chain_cons.mp hc
    cases fuel with
    | zero => exact absurd hl (by simp)
    | succ fuel =>
      unfold extremeLoop
      rw [if_neg h0]
      dsimp only
      by_cases hcond : n ≤ h.size free ∧ (pick = 0 ∨ better (h.size free) (h.size pick) = true)
      · -- `free` becomes the choice
        rw [if_pos hcond]
        obtain ⟨r, e, hfrom, hbest⟩ := ih free hr (by simpa using hl)
        have hfree := hbest free (Or.inr ⟨rfl, h0⟩)
        refine ⟨r, e, Or.inr ?_, fun b hb => ?_⟩
        · rcases hfrom with rfl | ⟨h1, h2⟩
          · exact ⟨List.mem_cons_self, hcond.1⟩
          · exact ⟨List.mem_cons_of_mem _ h1, h2⟩
        · rcases hb with ⟨h1, h2⟩ | ⟨rfl, h2⟩
          · rcases List.mem_cons.mp h1 with rfl | h3
            · exact hfree
            · exact hbest b (Or.inl ⟨h3, h2⟩)
          · have h3 := hbet.asymm _ _ (hcond.2.resolve_left h2)
            exact ⟨hfree.1, hbet.trans _ _ _ h3 hfree.2⟩
      · -- the choice stays
        rw [if_neg hcond]
        obtain ⟨r, e, hfrom, hbest⟩ := ih pick hr (by simpa using hl)
        refine ⟨r, e, ?_, fun b hb => ?_⟩
        · rcases hfrom with h1 | ⟨h1, h2⟩
          · exact Or.inl h1
          · exact Or.inr ⟨List.mem_cons_of_mem _ h1, h2⟩
        · rcases hb with ⟨h1, h2⟩ | h1
          · rcases List.mem_cons.mp h1 with rfl | h3
            · have hne : pick ≠ 0 := fun e => hcond ⟨h2, Or.inl e⟩
              have hnb : better (h.size b) (h.size pick) = false := by
                cases e : better (h.size b) (h.size pick) with
                | false => rfl
                | true => exact absurd ⟨h2, Or.inr e⟩ hcond
              have h4 := hbest pick (Or.inr ⟨rfl, hne⟩)
              exact ⟨h4.1, hbet.trans _ _ _ hnb h4.2⟩
            · exact hbest b (Or.inl ⟨h3, h2⟩)
          · exact hbest b (Or.inr h1)

end

/-! ## a whole block is handed out -/

section
variable {base : Nat} {h h' : Heap} {F : List Nat} {live : List (Nat × Nat)}

theorem HeapInv.length_le (hi : HeapInv base h F live) : F.length ≤ h.created.length :=
  List.Nodup.length_le_of_subset hi.freeList.nodup (fun b hb => (hi.free b hb).1)

theorem HeapInv.freeBlocks_eq (hi : HeapInv base h F live) : freeBlocks h = F :=
  walkFree_eq hi.freeList.fwd hi.length_le

theorem HeapInv.mem_lt (hi : HeapInv base h F live) {b : Nat} (hb : b ∈ F) : h.size b < 2 ^ 32 :=
  hi.small b (hi.free b hb).1

structure SameBlocks (h h' : Heap) : Prop where
  brk : h'.brk = h.brk
  created : h'.created = h.created
  real : ∀ b ∈ h.created, h'.real b = h.real b

theorem take_inv (hi : HeapInv base h F live) (ht : Tagged h F live) {b n : Nat} (hb : b ∈ F)
    (hn : n < 2 ^ 32) (hs : Snug h n b) : SameBlocks h (removeFree (setUsed h b) b) ∧ ∃ F',
    HeapInv base (removeFree (setUsed h b) b) F' ((b + headerSz, n) :: live) ∧
      Tagged (removeFree (setUsed h b) b) F' ((b + headerSz, n) :: live) := by
  obtain ⟨l₁, l₂, rfl⟩ := List.append_of_mem hb
  have hbc := (hi.free b hb).1
  have hodd := ht.free b hb
  have hT := totalSizeNeeded_spec hn
  have hlt := hi.small b hbc
  have hmid := FreeList.mid_not_mem hi.freeList
  have hnot : b ∉ l₁ ++ l₂ := fun hm => (List.mem_append.mp hm).elim hmid.1 hmid.2
  have hlive : ∀ q ∈ live, q.1 - headerSz ≠ b := fun q hq e => (hi.used q hq).2.2.1 (e ▸ hb)
  have hi1 := setUsed_inv hi hbc hodd
  have hi2 := removeFree_inv hi1
  have hsize : ∀ c ∈ h.created, (removeFree (setUsed h b) b).size c
      = if c = b then h.size b - 1 else h.size c := fun c hc =>
    (removeFree_size hi1 hc).trans (setUsed_size hi hbc hc hodd)
  have hreal : headerSz + n ≤ (removeFree (setUsed h b) b).real b := by
    show headerSz + n ≤ realSize ((removeFree (setUsed h b) b).size b)
    rw [hsize b hbc, if_pos rfl, realSize_of_lt (by omega)]
    have := hs.1
    omega
  have hsub : ∀ c ∈ l₁ ++ l₂, c ∈ l₁ ++ b :: l₂ := fun c hc => by
    rcases List.mem_append.mp hc with h1 | h1 <;> simp [h1]
  refine ⟨⟨by rw [removeFree_brk]; rfl, by rw [removeFree_created]; rfl, fun c hc => ?_⟩, l₁ ++ l₂,
    hi2.take (by rw [removeFree_created]; exact hbc) hnot hlive hreal, ?_, ?_⟩
  · unfold Heap.real
    rw [hsize c hc]
    split
    · next e =>
      rw [e, realSize_of_lt (by omega), realSize_of_lt hlt]
      omega
    · rfl
  · intro c hc
    have hne : c ≠ b := fun e => hnot (e ▸ hc)
    rw [hsize c (hi.free c (hsub c hc)).1, if_neg hne]
    exact ht.free c (hsub c hc)
  · intro q hq
    rcases List.mem_cons.mp hq with rfl | h1
    · show (removeFree (setUsed h b) b).size (b + headerSz - headerSz) % 2 = 0
      rw [Nat.add_sub_cancel, hsize b hbc, if_pos rfl]
      omega
    · rw [hsize _ (hi.used q h1).2.1, if_neg (hlive q h1)]
      exact ht.used q h1

theorem Tagged.withSafe (ht : Tagged h F live) (v : Bool) : Tagged { h with safe := v } F live :=
  ⟨ht.free, ht.used⟩

/-- what a search may leave behind: nothing taken, or a whole block handed out -/
def Found (base : Nat) (h h' : Heap) (live : List (Nat × Nat)) (n b : Nat) : Prop :=
  (b = 0 ∧ ∃ v, h' = { h with safe := v }) ∨
  (b ≠ 0 ∧ SameBlocks h h' ∧ ∃ F', HeapInv base h' F' ((b + headerSz, n) :: live) ∧
    Tagged h' F' ((b + headerSz, n) :: live))

theorem firstFit_inv (hi : HeapInv base h F live) {n : Nat}
    (hw : ∀ b ∈ F, n ≤ h.size b → Snug h n b) :
    ∃ h' b, firstFit h n = some (h', b) ∧ Found base h h' live n b := by
  obtain ⟨v, e⟩ := firstFitLoop_snug hi.freeList.fwd hi.length_le hw (fun b hb => hi.mem_lt hb)
  exact ⟨_, 0, e, Or.inl ⟨rfl, v, rfl⟩⟩

theorem extremeFit_inv {better : Nat → Nat → Bool} (hbet : Ranks better)
    (hi : HeapInv base h F live) (ht : Tagged h F live) {n : Nat} (hn : n < 2 ^ 32)
    (hw : ∀ b ∈ F, Extreme better h n b → Snug h n b) :
    ∃ h' b, extremeFit better h n = some (h', b) ∧ Found base h h' live n b := by
  obtain ⟨r, e, hfrom, hbest⟩ := extremeLoop_spec hbet (n := n) 0 hi.freeList.fwd
    hi.length_le
  unfold extremeFit
  rw [e]
  dsimp only
  by_cases hr : r = 0
  · rw [if_pos hr]
    exact ⟨h, 0, rfl, Or.inl ⟨rfl, h.safe, rfl⟩⟩
  · obtain ⟨hrF, hrn⟩ := hfrom.resolve_left hr
    have hsnug : Snug h n r := by
      refine hw r hrF ⟨hrn, fun c hc hcn => ?_⟩
      rw [hi.freeBlocks_eq] at hc
      exact (hbest c (Or.inl ⟨hc, hcn⟩)).2
    rw [if_neg hr, checkCanSplit_snug hr hsnug (hi.mem_lt hrF)]
    obtain ⟨hsame, hF'⟩ := take_inv (hi.withSafe false) (ht.withSafe false) hrF hn hsnug
    exact ⟨_, r, rfl, Or.inr ⟨hr, ⟨hsame.brk, hsame.created, hsame.real⟩, hF'⟩⟩

theorem fsmFind_inv (hi : HeapInv base h F live) (ht : Tagged h F live) {n : Nat}
    (hn : n < 2 ^ 32) (hw : WholeFit h n) :
    ∃ h' b, fsmFind h n = some (h', b) ∧ Found base h h' live n b := by
  unfold WholeFit at hw
  rw [hi.freeBlocks_eq] at hw
  unfold fsmFind
  cases e : h.fsm with
  | firstFit =>
    rw [e] at hw
    exact firstFit_inv hi hw
  | bestFit =>
    rw [e] at hw
    exact extremeFit_inv ranks_gt hi ht hn hw
  | worstFit =>
    rw [e] at hw
    exact extremeFit_inv ranks_lt hi ht hn hw

/-! ## `malloc` and `free` -/

theorem malloc_inv (hi : HeapInv base h F live) (ht : Tagged h F live) {n p : Nat}
    (hn : n < 2 ^ 32) (hS : totalSize n < 2 ^ 31) (hw : WholeFit h n)
    (hm : malloc h n = some (h', p)) :
    (SameBlocks h h' ∨ Grew h h' n) ∧
    ∃ F', HeapInv base h' F' ((p, n) :: live) ∧ Tagged h' F' ((p, n) :: live) := by
  obtain ⟨h1, b, e, hf⟩ := fsmFind_inv hi ht hn hw
  unfold malloc at hm
  rw [e] at hm
  dsimp only at hm
  rcases hf with ⟨rfl, v, rfl⟩ | ⟨hb, hF⟩
  · rw [if_neg (by simp)] at hm
    obtain ⟨hg, hF⟩ := growHeap_inv (hi.withSafe v) (ht.withSafe v) hn hS hm
    exact ⟨Or.inr ⟨hg.brk, hg.old, hg.new⟩, hF⟩
  · rw [if_pos hb] at hm
    obtain ⟨rfl, rfl⟩ := Prod.mk.inj (Option.some.inj hm)
    exact ⟨Or.inl hF.1, hF.2⟩

theorem free_inv (hi : HeapInv base h F live) (ht : Tagged h F live) {q : Nat × Nat}
    (hq : q ∈ live) (hr : 48 ≤ h.real (q.1 - headerSz)) : SameBlocks h (free h q.1) ∧
    HeapInv base (free h q.1) (F ++ [q.1 - headerSz]) (live.erase q) ∧
      Tagged (free h q.1) (F ++ [q.1 - headerSz]) (live.erase q) := by
  obtain ⟨h1, hb, hF, _⟩ := hi.used q hq
  have hsub : ∀ c ∈ live.erase q, c ∈ live := fun c hc => List.mem_of_mem_erase hc
  have hlive : ∀ c ∈ live.erase q, c.1 - headerSz ≠ q.1 - headerSz := by
    intro c hc e
    have h2 := (hi.used c (hsub c hc)).1
    have h3 : c.1 = q.1 := by omega
    have h4 : (q :: live.erase q).map Prod.fst |>.Nodup :=
      (List.perm_cons_erase hq).map Prod.fst |>.nodup_iff.mp hi.once
    rw [List.map_cons, List.nodup_cons] at h4
    exact h4.1 (h3 ▸ List.mem_map_of_mem hc)
  have hi1 := (setFree_inv hi hb).drop (List.erase_sublist (a := q) (l := live))
  have hr1 : 48 ≤ (setFree h (q.1 - headerSz)).real (q.1 - headerSz) := by
    have hs := hi.small _ hb
    unfold Heap.real at hr ⊢
    rw [setFree_size hi hb hb, if_pos rfl, realSize_of_lt (by omega)]
    rw [realSize_of_lt hs] at hr
    omega
  have hsize : ∀ c ∈ h.created, (free h q.1).size c
      = if c = q.1 - headerSz then h.size (q.1 - headerSz) / 2 * 2 + 1 else h.size c := fun c hc =>
    (addFree_size hi1 hb hr1 hc).trans (setFree_size hi hb hc)
  refine ⟨⟨addFree_brk _ _, addFree_created _ _, fun c hc => ?_⟩,
    addFree_inv hi1 hb hF hlive hr1, ?_, ?_⟩
  · have hs := hi.small _ hb
    unfold Heap.real
    rw [hsize c hc]
    split
    · next e =>
      rw [e, realSize_of_lt (by omega), realSize_of_lt hs]
      omega
    · rfl
  · intro c hc
    rcases List.mem_append.mp hc with h2 | h2
    · have hne : c ≠ q.1 - headerSz := fun e => hF (e ▸ h2)
      rw [hsize c (hi.free c h2).1, if_neg hne]
      exact ht.free c h2
    · rw [List.mem_singleton.mp h2, hsize _ hb, if_pos rfl]
      omega
  · intro c hc
    rw [hsize _ (hi.used c (hsub c hc)).2.1, if_neg (hlive c hc)]
    exact ht.used c (hsub c hc)

theorem write_inv (hi : HeapInv base h F live) (ht : Tagged h F live) {q : Nat × Nat}
    (hq : q ∈ live) {off : Nat} (hoff : off < q.2) (v : UInt8) :
    SameBlocks h { h with mem := Function.update h.mem (q.1 + off) v } ∧
    HeapInv base { h with mem := Function.update h.mem (q.1 + off) v } F live ∧
      Tagged { h with mem := Function.update h.mem (q.1 + off) v } F live := by
  obtain ⟨h1, hb, hF, hroom⟩ := hi.used q hq
  unfold headerSz at h1 hb hF hroom
  -- a size field or a link of a block is not among the bytes of the caller's block
  have hs : ∀ x, Sized h x → Function.update h.mem (q.1 + off) v x = h.mem x := by
    intro x hx
    obtain ⟨c, hc, h2, h3⟩ := hx
    refine Function.update_of_ne ?_ _ _
    by_cases e : c = q.1 - 32
    · omega
    · have h4 := hi.apart c hc _ hb e
      have h5 := hi.room c hc
      unfold headerSz at h5
      omega
  have hl : ∀ x, Linked F x → Function.update h.mem (q.1 + off) v x = h.mem x := by
    intro x hx
    obtain ⟨c, hc, h2, h3⟩ := hx
    obtain ⟨h4, h5⟩ := hi.free c hc
    have h6 := hi.apart c h4 _ hb (fun e => hF (e ▸ hc))
    exact Function.update_of_ne (by omega) _ _
  refine ⟨⟨rfl, rfl, fun c hc => congrArg realSize (size_congr hc hs)⟩,
    hi.congr hs hl rfl rfl rfl rfl rfl rfl, fun c hc => ?_, fun c hc => ?_⟩
  · rw [size_congr (hi.free c hc).1 hs]
    exact ht.free c hc
  · rw [size_congr (hi.used c hc).2.1 hs]
    exact ht.used c hc

end

end Umalloc
