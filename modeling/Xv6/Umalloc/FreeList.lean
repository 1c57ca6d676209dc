import Xv6.Umalloc.Model
import Xv6.Lib.Links

/-!
# The free list of the allocator

`FreeList h F`: the links `next_free`, `prev_free` in memory and the two end pointers form a
doubly linked list of the blocks `F`.  `addFree_freeList` and `removeFree_freeList` say what
`add_free` and `remove_free` make of it, `addFree_frame` and `removeFree_frame` that they write
only into links (`Linked F`: the bytes of the links of `F`).
-/

namespace Umalloc
open Lib

/-! ## reading back a field -/

section
variable (h : Heap) (v a b : Nat)

@[simp] theorem put_mem : (h.put v a).mem = store64 h.mem a v := rfl
@[simp] theorem put_brk : (h.put v a).brk = h.brk := rfl
@[simp] theorem put_fsm : (h.put v a).fsm = h.fsm := rfl
@[simp] theorem put_safe : (h.put v a).safe = h.safe := rfl
@[simp] theorem put_blockListHead : (h.put v a).blockListHead = h.blockListHead := rfl
@[simp] theorem put_blockListTail : (h.put v a).blockListTail = h.blockListTail := rfl
@[simp] theorem put_freeListHead : (h.put v a).freeListHead = h.freeListHead := rfl
@[simp] theorem put_freeListTail : (h.put v a).freeListTail = h.freeListTail := rfl
@[simp] theorem put_created : (h.put v a).created = h.created := rfl

theorem nextFree_lt : h.nextFree b < 2 ^ 64 := load64_lt _ _

theorem prevFree_lt : h.prevFree b < 2 ^ 64 := load64_lt _ _

theorem put_frame (x : Nat) (hx : x < a ∨ a + 8 ≤ x) : (h.put v a).mem x = h.mem x :=
  store64_of_disjoint h.mem a v x hx

end

/-! ## the list in memory -/

def FreeList (h : Heap) (F : List Nat) : Prop :=
  Dll 0 h.nextFree h.prevFree h.freeListHead h.freeListTail F

/-- the link fields of two blocks do not overlap -/
def LinksApart (b c : Nat) : Prop := b + 16 ≤ c ∨ c + 16 ≤ b

def AllLinksApart (F : List Nat) : Prop := ∀ b ∈ F, ∀ c ∈ F, b ≠ c → LinksApart b c

/-- `x` is a byte of the links of a block of `F` -/
def Linked (F : List Nat) (x : Nat) : Prop := ∃ b ∈ F, b + 32 ≤ x ∧ x < b + 48

theorem LinksApart.ne {b c : Nat} (h : LinksApart b c) : b ≠ c := by
  unfold LinksApart at h
  omega

theorem LinksApart.symm {b c : Nat} (h : LinksApart b c) : LinksApart c b := Or.symm h

/-- the free list depends only on the bytes of its links and on the end pointers -/
theorem FreeList.congr {h h' : Heap} {F : List Nat} (hF : FreeList h F)
    (hm : ∀ x, Linked F x → h'.mem x = h.mem x) (eh : h'.freeListHead = h.freeListHead)
    (et : h'.freeListTail = h.freeListTail) : FreeList h' F := by
  unfold FreeList
  rw [eh, et]
  refine Dll.congr hF (fun b hb => ?_) (fun b hb => ?_)
  · exact load64_congr (fun x h1 h2 => hm x ⟨b, hb, by omega, by omega⟩)
  · exact load64_congr (fun x h1 h2 => hm x ⟨b, hb, by omega, by omega⟩)

theorem FreeList.head_eq_zero_iff {h : Heap} {F : List Nat} (hF : FreeList h F) :
    h.freeListHead = 0 ↔ F = [] := hF.fwd.head_eq_null_iff

theorem FreeList.tail_eq {h : Heap} {l : List Nat} {t : Nat} (hF : FreeList h (l ++ [t])) :
    h.freeListTail = t := Dll.tail_eq hF

/-! ## `add_free` -/

theorem addFree_of_nil {h : Heap} (f : Nat) (e : h.freeListHead = 0) :
    addFree h f = ((({ h with freeListHead := f, freeListTail := f } : Heap).put 0 (f + 32)).put 0
      (f + 40)) := if_pos e

theorem addFree_of_cons {h : Heap} (f : Nat) (e : h.freeListHead ≠ 0) :
    addFree h f = { ((h.put f (h.freeListTail + 32)).put h.freeListTail (f + 40)).put 0 (f + 32)
      with freeListTail := f } := if_neg e

@[simp] theorem addFree_brk (h : Heap) (f : Nat) : (addFree h f).brk = h.brk := by
  unfold addFree; split <;> rfl
@[simp] theorem addFree_created (h : Heap) (f : Nat) : (addFree h f).created = h.created := by
  unfold addFree; split <;> rfl
@[simp] theorem addFree_blockListHead (h : Heap) (f : Nat) :
    (addFree h f).blockListHead = h.blockListHead := by
  unfold addFree; split <;> rfl
@[simp] theorem addFree_blockListTail (h : Heap) (f : Nat) :
    (addFree h f).blockListTail = h.blockListTail := by
  unfold addFree; split <;> rfl
@[simp] theorem addFree_fsm (h : Heap) (f : Nat) : (addFree h f).fsm = h.fsm := by
  unfold addFree; split <;> rfl

/-- `add_free` appends the block at the tail of the list -/
theorem addFree_freeList {h : Heap} {F : List Nat} {f : Nat} (hF : FreeList h F) (hf : f ≠ 0)
    (hlt : f < 2 ^ 64) (hFlt : ∀ c ∈ F, c < 2 ^ 64) (hfF : ∀ c ∈ F, LinksApart c f)
    (hFF : AllLinksApart F) : FreeList (addFree h f) (F ++ [f]) := by
  rcases List.eq_nil_or_concat F with hl | ⟨l, t, hl⟩
  · subst hl
    rw [addFree_of_nil f (hF.head_eq_zero_iff.mpr rfl)]
    refine Dll.singleton hf ?_ ?_
    · simp (disch := omega) [Heap.nextFree, load64_store64_of_disjoint]
    · simp [Heap.prevFree]
  · rw [List.concat_eq_append] at hl
    subst hl
    have htail : h.freeListTail = t := hF.tail_eq
    have htf : LinksApart t f := hfF t (by simp)
    have htlt : t < 2 ^ 64 := hFlt t (by simp)
    have hlt' : ∀ y ∈ l, LinksApart y t := fun y hy =>
      hFF y (by simp [hy]) t (by simp) (List.disjoint_of_nodup_append hF.nodup hy |> fun hne e =>
        hne (by simp [e]))
    rw [addFree_of_cons f (fun e => by simpa using hF.head_eq_zero_iff.mp e), htail]
    have key : ∀ y ∈ l ++ [t], LinksApart y f := hfF
    unfold LinksApart at key htf hlt'
    have hdll : Dll 0 h.nextFree h.prevFree h.freeListHead t (l ++ [t]) := htail ▸ hF
    refine hdll.snoc hf
      (fun hm => (hfF f hm).ne rfl) ?_ ?_ ?_ ?_ ?_
    · intro y hy
      have h1 := key y (by simp [hy])
      have h2 := hlt' y hy
      simp (disch := omega) [Heap.nextFree, load64_store64_of_disjoint]
    · intro y hy
      have h1 := key y hy
      rcases List.mem_append.mp hy with h3 | h3
      · have h2 := hlt' y h3
        simp (disch := omega) [Heap.prevFree, load64_store64_of_disjoint]
      · rw [List.mem_singleton] at h3
        subst h3
        simp (disch := omega) [Heap.prevFree, load64_store64_of_disjoint]
    · simp (disch := omega) [Heap.nextFree, load64_store64_of_disjoint]
    · simp [Heap.nextFree]
    · simp (disch := omega) [Heap.prevFree, load64_store64_of_disjoint]

/-- `add_free` writes only links: those of the new block and of the old tail -/
theorem addFree_frame {h : Heap} {F : List Nat} {f x : Nat} (hF : FreeList h F)
    (hx : ¬ Linked (F ++ [f]) x) : (addFree h f).mem x = h.mem x := by
  have hxf : x < f + 32 ∨ f + 48 ≤ x := by
    by_contra hc
    exact hx ⟨f, by simp, by omega, by omega⟩
  by_cases e : h.freeListHead = 0
  · rw [addFree_of_nil f e, put_frame _ _ _ _ (by omega), put_frame _ _ _ _ (by omega)]
  · rcases List.eq_nil_or_concat F with hl | ⟨l, t, hl⟩
    · exact absurd (hF.head_eq_zero_iff.mpr hl) e
    · rw [List.concat_eq_append] at hl
      subst hl
      have hxt : x < t + 32 ∨ t + 48 ≤ x := by
        by_contra hc
        exact hx ⟨t, by simp, by omega, by omega⟩
      rw [addFree_of_cons f e, hF.tail_eq]
      show ((((h.put f (t + 32)).put t (f + 40)).put 0 (f + 32)).mem x) = h.mem x
      rw [put_frame _ _ _ _ (by omega), put_frame _ _ _ _ (by omega), put_frame _ _ _ _ (by omega)]

/-! ## `remove_free` -/

theorem linkNext_eq (h : Heap) (r : Nat) : linkNext h r = { h with
    mem := if h.nextFree r ≠ 0 then store64 h.mem (h.nextFree r + 40) (h.prevFree r) else h.mem } := by
  unfold linkNext
  split <;> rfl

theorem linkPrev_eq (h : Heap) (r : Nat) : linkPrev h r = { h with
    mem := if h.prevFree r ≠ 0 then store64 h.mem (h.prevFree r + 32) (h.nextFree r) else h.mem } := by
  unfold linkPrev
  split <;> rfl

@[simp] theorem removeFree_brk (h : Heap) (r : Nat) : (removeFree h r).brk = h.brk := by
  unfold removeFree
  split
  · rfl
  · rw [linkPrev_eq, linkNext_eq]; rfl
@[simp] theorem removeFree_created (h : Heap) (r : Nat) :
    (removeFree h r).created = h.created := by
  unfold removeFree
  split
  · rfl
  · rw [linkPrev_eq, linkNext_eq]; rfl
@[simp] theorem removeFree_blockListHead (h : Heap) (r : Nat) :
    (removeFree h r).blockListHead = h.blockListHead := by
  unfold removeFree
  split
  · rfl
  · rw [linkPrev_eq, linkNext_eq]; rfl
@[simp] theorem removeFree_blockListTail (h : Heap) (r : Nat) :
    (removeFree h r).blockListTail = h.blockListTail := by
  unfold removeFree
  split
  · rfl
  · rw [linkPrev_eq, linkNext_eq]; rfl

section
variable {h : Heap} {l₁ l₂ : List Nat} {r : Nat} (hF : FreeList h (l₁ ++ r :: l₂))
include hF

theorem FreeList.mem_ne_zero {y : Nat} (hy : y ∈ l₁ ++ r :: l₂) : y ≠ 0 :=
  fun e => hF.fwd.1 (e ▸ hy)

theorem FreeList.next_mem (hn : h.nextFree r ≠ 0) : h.nextFree r ∈ l₂ := by
  have hc := Dll.next hF
  cases l₂ with
  | nil => exact absurd (chain_nil.mp hc) hn
  | cons y l => simp [(chain_cons.mp hc).1]

theorem FreeList.prev_mem (hp : h.prevFree r ≠ 0) : h.prevFree r ∈ l₁ := by
  have hc := Dll.prev hF
  rw [← List.mem_reverse]
  cases hl : l₁.reverse with
  | nil => exact absurd (chain_nil.mp (hl ▸ hc)) hp
  | cons y l => simp [(chain_cons.mp (hl ▸ hc)).1]

theorem FreeList.mid_not_mem : r ∉ l₁ ∧ r ∉ l₂ := by
  have hn := List.nodup_append.mp hF.nodup
  exact ⟨fun hm => hn.2.2 r hm r (by simp) rfl, (List.nodup_cons.mp hn.2.1).1⟩

theorem removeFree_eq : removeFree h r = linkPrev (linkNext (moveEnds h r) r) r := by
  have hhead : h.freeListHead ≠ 0 := fun e => by simpa using hF.head_eq_zero_iff.mp e
  have hr : r ≠ 0 := FreeList.mem_ne_zero hF (by simp)
  unfold removeFree
  rw [if_neg (by simp [hhead, hr])]

variable (hap : AllLinksApart (l₁ ++ r :: l₂))
include hap

theorem linkNext_links : (linkNext h r).nextFree r = h.nextFree r ∧
    (linkNext h r).prevFree r = h.prevFree r := by
  rw [linkNext_eq]
  by_cases hn : h.nextFree r = 0
  · rw [if_neg (not_not.mpr hn)]
    exact ⟨rfl, rfl⟩
  · rw [if_pos hn]
    have hmem : h.nextFree r ∈ l₂ := FreeList.next_mem hF hn
    have hne : h.nextFree r ≠ r := fun e => (FreeList.mid_not_mem hF).2 (e ▸ hmem)
    have hd := hap (h.nextFree r) (by simp [hmem]) r (by simp) hne
    unfold LinksApart at hd
    exact ⟨load64_store64_of_disjoint _ _ _ _ (by omega),
      load64_store64_of_disjoint _ _ _ _ (by omega)⟩

/-- the memory after `remove_free`, in terms of the links before -/
theorem removeFree_mem : (removeFree h r).mem
    = if h.prevFree r ≠ 0 then store64 (linkNext h r).mem (h.prevFree r + 32) (h.nextFree r)
      else (linkNext h r).mem := by
  obtain ⟨hn, hp⟩ := linkNext_links hF hap
  have e : (linkNext (moveEnds h r) r).mem = (linkNext h r).mem := by
    rw [linkNext_eq, linkNext_eq]
    rfl
  have en : (linkNext (moveEnds h r) r).nextFree r = h.nextFree r := by
    show load64 (linkNext (moveEnds h r) r).mem (r + 32) = _
    rw [e]
    exact hn
  have ep : (linkNext (moveEnds h r) r).prevFree r = h.prevFree r := by
    show load64 (linkNext (moveEnds h r) r).mem (r + 40) = _
    rw [e]
    exact hp
  rw [removeFree_eq hF, linkPrev_eq, en, ep, e]

theorem removeFree_nextFree {y : Nat} (hy : y ∈ l₁ ++ l₂) : (removeFree h r).nextFree y
    = if y = h.prevFree r then h.nextFree r else h.nextFree y := by
  have hyF : y ∈ l₁ ++ r :: l₂ := by
    rcases List.mem_append.mp hy with h1 | h1 <;> simp [h1]
  have hy0 : y ≠ 0 := FreeList.mem_ne_zero hF hyF
  have hback : load64 (linkNext h r).mem (y + 32) = h.nextFree y := by
    rw [linkNext_eq]
    by_cases hn : h.nextFree r = 0
    · rw [if_neg (not_not.mpr hn)]
      rfl
    · rw [if_pos hn]
      refine load64_store64_of_disjoint _ _ _ _ ?_
      by_cases e : y = h.nextFree r
      · omega
      · have hd := hap y hyF _ (by simp [FreeList.next_mem hF hn]) e
        unfold LinksApart at hd
        omega
  show load64 (removeFree h r).mem (y + 32) = _
  rw [removeFree_mem hF hap]
  by_cases hp : h.prevFree r = 0
  · rw [if_neg (not_not.mpr hp), if_neg (by omega), hback]
  · rw [if_pos hp]
    by_cases e : y = h.prevFree r
    · rw [if_pos e, ← e]
      exact load64_store64_of_lt _ _ _ (nextFree_lt h r)
    · have hd := hap y hyF _ (by simp [FreeList.prev_mem hF hp]) e
      unfold LinksApart at hd
      rw [if_neg e, load64_store64_of_disjoint _ _ _ _ (by omega), hback]

theorem removeFree_prevFree {y : Nat} (hy : y ∈ l₁ ++ l₂) : (removeFree h r).prevFree y
    = if y = h.nextFree r then h.prevFree r else h.prevFree y := by
  have hyF : y ∈ l₁ ++ r :: l₂ := by
    rcases List.mem_append.mp hy with h1 | h1 <;> simp [h1]
  have hy0 : y ≠ 0 := FreeList.mem_ne_zero hF hyF
  have hback : load64 (linkNext h r).mem (y + 40)
      = if y = h.nextFree r then h.prevFree r else h.prevFree y := by
    rw [linkNext_eq]
    by_cases hn : h.nextFree r = 0
    · rw [if_neg (not_not.mpr hn), if_neg (by omega)]
      rfl
    · rw [if_pos hn]
      by_cases e : y = h.nextFree r
      · rw [if_pos e, ← e]
        exact load64_store64_of_lt _ _ _ (prevFree_lt h r)
      · have hd := hap y hyF _ (by simp [FreeList.next_mem hF hn]) e
        unfold LinksApart at hd
        rw [if_neg e, load64_store64_of_disjoint _ _ _ _ (by omega)]
        rfl
  show load64 (removeFree h r).mem (y + 40) = _
  rw [removeFree_mem hF hap]
  by_cases hp : h.prevFree r = 0
  · rw [if_neg (not_not.mpr hp), hback]
  · rw [if_pos hp, load64_store64_of_disjoint _ _ _ _ ?_, hback]
    by_cases e : y = h.prevFree r
    · omega
    · have hd := hap y hyF _ (by simp [FreeList.prev_mem hF hp]) e
      unfold LinksApart at hd
      omega

/-- `remove_free` takes the block out of the list -/
theorem removeFree_freeList : FreeList (removeFree h r) (l₁ ++ l₂) := by
  refine Dll.remove hF ?_ ?_ (fun y hy => removeFree_nextFree hF hap hy)
    (fun y hy => removeFree_prevFree hF hap hy)
  · rw [removeFree_eq hF, linkPrev_eq, linkNext_eq]
    rfl
  · rw [removeFree_eq hF, linkPrev_eq, linkNext_eq]
    rfl

/-- `remove_free` writes only links of the blocks that stay on the list -/
theorem removeFree_frame {x : Nat} (hx : ¬ Linked (l₁ ++ l₂) x) :
    (removeFree h r).mem x = h.mem x := by
  have e : (linkNext h r).mem x = h.mem x := by
    rw [linkNext_eq]
    by_cases hn : h.nextFree r = 0
    · rw [if_neg (not_not.mpr hn)]
    · rw [if_pos hn]
      refine store64_of_disjoint _ _ _ _ ?_
      by_contra hc
      exact hx ⟨_, List.mem_append_right _ (FreeList.next_mem hF hn), by omega, by omega⟩
  rw [removeFree_mem hF hap]
  by_cases hp : h.prevFree r = 0
  · rw [if_neg (not_not.mpr hp), e]
  · rw [if_pos hp, store64_of_disjoint _ _ _ _ ?_, e]
    by_contra hc
    exact hx ⟨_, List.mem_append_left _ (FreeList.prev_mem hF hp), by omega, by omega⟩

end

end Umalloc
