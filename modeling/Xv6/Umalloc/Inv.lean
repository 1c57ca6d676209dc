import Xv6.Umalloc.FreeList

/-!
# The heap invariant of the allocator

`Layout base h`: the blocks made so far lie between `base` and the break and do not overlap, and
each has room for its header.  `HeapInv base h F live` adds that the blocks `F` of the free list
have room for their links and that every pointer of `live` heads a block with room for the request
it was returned for.  The free
bit is kept apart from it (`Tagged`), since `set_used` clears it while the block is still listed.

Each operation on a block that exists gets one lemma: `setSize_inv`, `addFree_inv`,
`removeFree_inv`.
-/

namespace Umalloc
open Lib

/-- bytes of a block, the free bit left out -/
def Heap.real (h : Heap) (b : Nat) : Nat := realSize (h.size b)

structure Layout (base : Nat) (h : Heap) : Prop where
  basePos : 0 < base
  baseLe : base ≤ h.brk
  brkLe : h.brk ≤ maxVa
  nodup : h.created.Nodup
  lo : ∀ b ∈ h.created, base ≤ b
  hi : ∀ b ∈ h.created, b + h.real b ≤ h.brk
  small : ∀ b ∈ h.created, h.size b < 2 ^ 32
  room : ∀ b ∈ h.created, headerSz ≤ h.real b
  apart : ∀ b ∈ h.created, ∀ c ∈ h.created, b ≠ c → b + h.real b ≤ c ∨ c + h.real c ≤ b

/-- `live` pairs a returned pointer with the request it was returned for -/
structure HeapInv (base : Nat) (h : Heap) (F : List Nat) (live : List (Nat × Nat)) : Prop
    extends Layout base h where
  freeList : FreeList h F
  free : ∀ b ∈ F, b ∈ h.created ∧ 48 ≤ h.real b
  used : ∀ q ∈ live, headerSz ≤ q.1 ∧ q.1 - headerSz ∈ h.created ∧ q.1 - headerSz ∉ F ∧
    headerSz + q.2 ≤ h.real (q.1 - headerSz)
  once : (live.map Prod.fst).Nodup
  tail : h.blockListHead ≠ 0 → h.blockListTail ∈ h.created

/-- free blocks carry the free bit, live ones do not -/
structure Tagged (h : Heap) (F : List Nat) (live : List (Nat × Nat)) : Prop where
  free : ∀ b ∈ F, h.size b % 2 = 1
  used : ∀ q ∈ live, h.size (q.1 - headerSz) % 2 = 0

/-- `x` is a byte of the size field of a block -/
def Sized (h : Heap) (x : Nat) : Prop := ∃ b ∈ h.created, b + 8 ≤ x ∧ x < b + 16

/-! ## sizes -/

theorem realSize_of_lt {s : Nat} (h : s < 2 ^ 32) : realSize s = s / 2 * 2 := by
  unfold realSize
  rw [Nat.mod_eq_of_lt h]

theorem or_one (s : Nat) : s ||| 1 = s / 2 * 2 + 1 := by
  apply Nat.eq_of_testBit_eq
  intro i
  have e : s / 2 * 2 + 1 = 2 * (s / 2) + 1 := by omega
  rw [Nat.testBit_or, e]
  cases i with
  | zero => simp
  | succ i => simp [Nat.testBit_add_one, show (2 * (s / 2) + 1) / 2 = s / 2 by omega]

theorem xor_one_of_odd {s : Nat} (h : s % 2 = 1) : s ^^^ 1 = s - 1 := by
  apply Nat.eq_of_testBit_eq
  intro i
  rw [Nat.testBit_xor]
  cases i with
  | zero =>
    have h2 : (s - 1) % 2 = 0 := by omega
    simp [Nat.testBit_zero, h, h2]
  | succ i => simp [Nat.testBit_add_one, show (s - 1) / 2 = s / 2 by omega]

theorem isFree_eq (h : Heap) (b : Nat) : isFree h b = decide (h.size b % 2 = 1) := by
  unfold isFree
  rw [Nat.and_one_is_mod]
  rcases Nat.mod_two_eq_zero_or_one (h.size b) with e | e <;> simp [e]

/-! ## one more block -/

theorem forall_concat {P : Nat → Prop} {l : List Nat} {a : Nat} (hl : ∀ x ∈ l, P x) (ha : P a) :
    ∀ x ∈ l ++ [a], P x :=
  List.forall_mem_append.mpr ⟨hl, List.forall_mem_singleton.mpr ha⟩

theorem nodup_concat {l : List Nat} {a : Nat} (hl : l.Nodup) (ha : a ∉ l) : (l ++ [a]).Nodup := by
  rw [← List.concat_eq_append]
  exact hl.concat ha

theorem apart_concat {R : Nat → Nat → Prop} {l : List Nat} {a : Nat}
    (hl : ∀ x ∈ l, ∀ y ∈ l, x ≠ y → R x y) (hr : ∀ x ∈ l, R x a) (ha : ∀ x ∈ l, R a x) :
    ∀ x ∈ l ++ [a], ∀ y ∈ l ++ [a], x ≠ y → R x y := by
  intro x hx
  refine forall_concat (fun y hy hne => ?_) (fun hne => ?_)
  · rcases List.mem_append.mp hx with h1 | h1
    · exact hl x h1 y hy hne
    · rw [List.mem_singleton.mp h1]
      exact ha y hy
  · rcases List.mem_append.mp hx with h1 | h1
    · exact hr x h1
    · exact absurd (List.mem_singleton.mp h1) hne

section
variable {base : Nat} {h h' : Heap} {F : List Nat} {live : List (Nat × Nat)}

theorem size_congr {b : Nat} (hb : b ∈ h.created) (em : ∀ x, Sized h x → h'.mem x = h.mem x) :
    h'.size b = h.size b :=
  load64_congr (fun x h1 h2 => em x ⟨b, hb, h1, h2⟩)

theorem Layout.of_real (hl : Layout base h) (eb : h'.brk = h.brk) (ec : h'.created = h.created)
    (hr : ∀ b ∈ h.created, h'.real b = h.real b) (hs : ∀ b ∈ h.created, h'.size b < 2 ^ 32) :
    Layout base h' := by
  refine ⟨hl.basePos, eb ▸ hl.baseLe, eb ▸ hl.brkLe, ec ▸ hl.nodup, ec ▸ hl.lo, ?_, ec ▸ hs, ?_, ?_⟩
  · intro b hb
    rw [ec] at hb
    rw [eb, hr b hb]
    exact hl.hi b hb
  · intro b hb
    rw [ec] at hb
    rw [hr b hb]
    exact hl.room b hb
  · intro b hb c hc hne
    rw [ec] at hb hc
    rw [hr b hb, hr c hc]
    exact hl.apart b hb c hc hne

theorem HeapInv.of_real (hi : HeapInv base h F live) {F' : List Nat} (eb : h'.brk = h.brk)
    (ec : h'.created = h.created) (ebh : h'.blockListHead = h.blockListHead)
    (ebt : h'.blockListTail = h.blockListTail) (hr : ∀ b ∈ h.created, h'.real b = h.real b)
    (hs : ∀ b ∈ h.created, h'.size b < 2 ^ 32) (hF : FreeList h' F')
    (hf : ∀ b ∈ F', b ∈ h.created ∧ 48 ≤ h.real b) (hu : ∀ q ∈ live, q.1 - headerSz ∉ F') :
    HeapInv base h' F' live := by
  refine ⟨hi.toLayout.of_real eb ec hr hs, hF, ?_, ?_, hi.once, ?_⟩
  · intro b hb
    obtain ⟨h1, h2⟩ := hf b hb
    rw [ec, hr b h1]
    exact ⟨h1, h2⟩
  · intro q hq
    obtain ⟨h1, h2, _, h4⟩ := hi.used q hq
    rw [ec, hr _ h2]
    exact ⟨h1, h2, hu q hq, h4⟩
  · rw [ebh, ebt, ec]
    exact hi.tail

theorem HeapInv.congr (hi : HeapInv base h F live) (es : ∀ x, Sized h x → h'.mem x = h.mem x)
    (el : ∀ x, Linked F x → h'.mem x = h.mem x) (eb : h'.brk = h.brk)
    (ec : h'.created = h.created) (eh : h'.freeListHead = h.freeListHead)
    (et : h'.freeListTail = h.freeListTail) (ebh : h'.blockListHead = h.blockListHead)
    (ebt : h'.blockListTail = h.blockListTail) : HeapInv base h' F live := by
  refine hi.of_real eb ec ebh ebt (fun b hb => congrArg realSize (size_congr hb es))
    (fun b hb => ?_) (hi.freeList.congr el eh et) hi.free (fun q hq => (hi.used q hq).2.2.1)
  rw [size_congr hb es]
  exact hi.small b hb

theorem HeapInv.drop (hi : HeapInv base h F live) {live' : List (Nat × Nat)}
    (hs : List.Sublist live' live) : HeapInv base h F live' :=
  ⟨hi.toLayout, hi.freeList, hi.free, fun q hq => hi.used q (hs.subset hq),
    hi.once.sublist (hs.map Prod.fst), hi.tail⟩

theorem HeapInv.take (hi : HeapInv base h F live) {b n : Nat} (hb : b ∈ h.created) (hF : b ∉ F)
    (hl : ∀ q ∈ live, q.1 - headerSz ≠ b) (hn : headerSz + n ≤ h.real b) :
    HeapInv base h F ((b + headerSz, n) :: live) := by
  refine { hi with used := ?_, once := ?_ }
  · intro q hq
    rcases List.mem_cons.mp hq with rfl | h1
    · rw [Nat.add_sub_cancel]
      exact ⟨Nat.le_add_left _ _, hb, hF, hn⟩
    · exact hi.used q h1
  · rw [List.map_cons, List.nodup_cons]
    refine ⟨fun hm => ?_, hi.once⟩
    obtain ⟨q, hq, e⟩ := List.mem_map.mp hm
    exact hl q hq (by rw [e]; exact Nat.add_sub_cancel b headerSz)

theorem HeapInv.lt_maxVa (hi : HeapInv base h F live) {b : Nat} (hb : b ∈ h.created) :
    b + 32 ≤ maxVa := by
  have h1 := hi.room b hb
  have h2 := hi.hi b hb
  have h3 := hi.brkLe
  unfold headerSz at h1
  omega

/-- two blocks have their headers, and free blocks their links, in different places -/
theorem HeapInv.far (hi : HeapInv base h F live) {b c : Nat} (hb : b ∈ h.created)
    (hc : c ∈ h.created) (hne : b ≠ c) : b + 32 ≤ c ∨ c + 32 ≤ b := by
  have h1 := hi.room b hb
  have h2 := hi.room c hc
  have h3 := hi.apart b hb c hc hne
  unfold headerSz at h1 h2
  omega

theorem HeapInv.linksApart (hi : HeapInv base h F live) : AllLinksApart F := by
  intro b hb c hc hne
  have h3 := hi.far (hi.free b hb).1 (hi.free c hc).1 hne
  unfold LinksApart
  omega

/-- no byte of a size field is a byte of a link -/
theorem HeapInv.sized_not_linked (hi : HeapInv base h F live) {G : List Nat}
    (hG : ∀ b ∈ G, b ∈ h.created ∧ 48 ≤ h.real b) {x : Nat} (hx : Sized h x) : ¬ Linked G x := by
  rintro ⟨c, hc, h1, h2⟩
  obtain ⟨b, hb, h3, h4⟩ := hx
  obtain ⟨hcc, h5⟩ := hG c hc
  by_cases e : b = c
  · omega
  · have h6 := hi.room b hb
    have h7 := hi.apart b hb c hcc e
    unfold headerSz at h6
    omega

/-! ## `size` is written -/

theorem setSize_size (hi : HeapInv base h F live) {b c v : Nat} (hb : b ∈ h.created)
    (hc : c ∈ h.created) (hv : v < 2 ^ 64) :
    (h.setSize b v).size c = if c = b then v else h.size c := by
  by_cases e : c = b
  · rw [if_pos e, e]
    exact load64_store64_of_lt _ _ _ hv
  · rw [if_neg e]
    have hf := hi.far hc hb e
    exact load64_store64_of_disjoint _ _ _ _ (by omega)

theorem setSize_inv (hi : HeapInv base h F live) {b v : Nat} (hb : b ∈ h.created)
    (hv : v < 2 ^ 32) (hr : realSize v = h.real b) : HeapInv base (h.setSize b v) F live := by
  have hv64 : v < 2 ^ 64 := by omega
  have hre : ∀ c ∈ h.created, (h.setSize b v).real c = h.real c := by
    intro c hc
    show realSize ((h.setSize b v).size c) = _
    rw [setSize_size hi hb hc hv64]
    by_cases e : c = b
    · rw [if_pos e, e, hr]
    · rw [if_neg e]
      rfl
  refine hi.of_real rfl rfl rfl rfl hre (fun c hc => ?_) ?_ hi.free
    (fun q hq => (hi.used q hq).2.2.1)
  · rw [setSize_size hi hb hc hv64]
    split
    · exact hv
    · exact hi.small c hc
  · refine hi.freeList.congr (fun x hx => put_frame _ _ _ _ ?_) rfl rfl
    have hns : ¬ Sized h x := fun hs => hi.sized_not_linked hi.free hs hx
    by_contra hcon
    exact hns ⟨b, hb, by omega, by omega⟩

theorem setFree_size (hi : HeapInv base h F live) {b c : Nat} (hb : b ∈ h.created)
    (hc : c ∈ h.created) :
    (setFree h b).size c = if c = b then h.size b / 2 * 2 + 1 else h.size c := by
  have hs := hi.small b hb
  unfold setFree
  rw [or_one, setSize_size hi hb hc (by omega)]

theorem setFree_inv (hi : HeapInv base h F live) {b : Nat} (hb : b ∈ h.created) :
    HeapInv base (setFree h b) F live := by
  have hs := hi.small b hb
  unfold setFree
  rw [or_one]
  refine setSize_inv hi hb (by omega) ?_
  unfold Heap.real
  rw [realSize_of_lt (by omega), realSize_of_lt hs]
  omega

theorem setUsed_size (hi : HeapInv base h F live) {b c : Nat} (hb : b ∈ h.created)
    (hc : c ∈ h.created) (hodd : h.size b % 2 = 1) :
    (setUsed h b).size c = if c = b then h.size b - 1 else h.size c := by
  have hs := hi.small b hb
  unfold setUsed
  rw [xor_one_of_odd hodd, setSize_size hi hb hc (by omega)]

theorem setUsed_inv (hi : HeapInv base h F live) {b : Nat} (hb : b ∈ h.created)
    (hodd : h.size b % 2 = 1) : HeapInv base (setUsed h b) F live := by
  have hs := hi.small b hb
  unfold setUsed
  rw [xor_one_of_odd hodd]
  refine setSize_inv hi hb (by omega) ?_
  unfold Heap.real
  rw [realSize_of_lt (by omega), realSize_of_lt hs]
  omega

/-! ## the free list is changed -/

theorem addFree_size (hi : HeapInv base h F live) {b c : Nat} (hb : b ∈ h.created)
    (hr : 48 ≤ h.real b) (hc : c ∈ h.created) : (addFree h b).size c = h.size c := by
  refine size_congr hc (fun x hx => addFree_frame hi.freeList (hi.sized_not_linked ?_ hx))
  intro d hd
  rcases List.mem_append.mp hd with h1 | h1
  · exact hi.free d h1
  · rw [List.mem_singleton] at h1
    exact h1 ▸ ⟨hb, hr⟩

theorem addFree_inv (hi : HeapInv base h F live) {b : Nat} (hb : b ∈ h.created) (hF : b ∉ F)
    (hl : ∀ q ∈ live, q.1 - headerSz ≠ b) (hr : 48 ≤ h.real b) :
    HeapInv base (addFree h b) (F ++ [b]) live := by
  have hb0 : b ≠ 0 := by
    have h1 := hi.lo b hb
    have h2 := hi.basePos
    omega
  have hre : ∀ c ∈ h.created, (addFree h b).real c = h.real c := fun c hc =>
    congrArg realSize (addFree_size hi hb hr hc)
  have hlt : ∀ c ∈ h.created, c < 2 ^ 64 := fun c hc => by
    have := hi.lt_maxVa hc
    unfold maxVa at this
    omega
  have hap : ∀ c ∈ F, LinksApart c b := fun c hc => by
    have h3 := hi.far (hi.free c hc).1 hb (fun e => hF (e ▸ hc))
    unfold LinksApart
    omega
  have hF' : FreeList (addFree h b) (F ++ [b]) :=
    addFree_freeList hi.freeList hb0 (hlt b hb) (fun c hc => hlt c (hi.free c hc).1) hap
      hi.linksApart
  refine hi.of_real (by simp) (by simp) (by simp) (by simp) hre (fun c hc => ?_) hF' ?_ ?_
  · rw [addFree_size hi hb hr hc]
    exact hi.small c hc
  · intro c hc
    rcases List.mem_append.mp hc with h1 | h1
    · exact hi.free c h1
    · rw [List.mem_singleton] at h1
      exact h1 ▸ ⟨hb, hr⟩
  · intro q hq hm
    rcases List.mem_append.mp hm with h5 | h5
    · exact (hi.used q hq).2.2.1 h5
    · exact hl q hq (List.mem_singleton.mp h5)

theorem removeFree_size {l₁ l₂ : List Nat} {r : Nat} (hi : HeapInv base h (l₁ ++ r :: l₂) live)
    {c : Nat} (hc : c ∈ h.created) : (removeFree h r).size c = h.size c := by
  refine size_congr hc (fun x hx =>
    removeFree_frame hi.freeList hi.linksApart (hi.sized_not_linked (fun d hd => hi.free d ?_) hx))
  rcases List.mem_append.mp hd with h1 | h1 <;> simp [h1]

theorem removeFree_inv {l₁ l₂ : List Nat} {r : Nat} (hi : HeapInv base h (l₁ ++ r :: l₂) live) :
    HeapInv base (removeFree h r) (l₁ ++ l₂) live := by
  have hsub : ∀ c ∈ l₁ ++ l₂, c ∈ l₁ ++ r :: l₂ := fun c hc => by
    rcases List.mem_append.mp hc with h1 | h1 <;> simp [h1]
  refine hi.of_real (by simp) (by simp) (by simp) (by simp)
    (fun c hc => congrArg realSize (removeFree_size hi hc)) (fun c hc => ?_)
    (removeFree_freeList hi.freeList hi.linksApart) (fun c hc => hi.free c (hsub c hc))
    (fun q hq hm => (hi.used q hq).2.2.1 (hsub _ hm))
  rw [removeFree_size hi hc]
  exact hi.small c hc

end

end Umalloc
