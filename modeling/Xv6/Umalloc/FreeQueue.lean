import Mathlib.Data.List.Induction
import Xv6.Umalloc.FreeList

/-!
# The free list as a queue of blocks

`add_free` and `remove_free` in any order, on blocks that do not overlap.  `listed l` is what the
calls `l` leave on the list: the blocks that were added and not removed since, first to last.
`freeList_queue` finds them in memory, forwards from `free_list_head` and backwards from
`free_list_tail`.
-/

namespace Umalloc
open Lib

/-! ## the calls -/

inductive FreeOp where
  | add (b : Nat)
  | remove (b : Nat)
  deriving DecidableEq, Repr

def FreeOp.call (h : Heap) : FreeOp → Heap
  | .add b => addFree h b
  | .remove b => removeFree h b

def calls (h : Heap) (l : List FreeOp) : Heap := l.foldl FreeOp.call h

/-- the blocks added and not removed since, in the order of the `add_free` calls -/
def listed : List FreeOp → List Nat
  | [] => []
  | .add b :: l => if .remove b ∈ l then listed l else b :: listed l
  | .remove _ :: l => listed l

def freeBlockSz : Nat := 48

/-- what a call is given when the blocks `F` are listed: a block that is not there and shares no
memory with one that is, or a block that is there -/
def FreeOp.Allowed (F : List Nat) : FreeOp → Prop
  | .add b => b ∉ F ∧ 0 < b ∧ b + freeBlockSz ≤ 2 ^ 64 ∧
      ∀ c ∈ F, b + freeBlockSz ≤ c ∨ c + freeBlockSz ≤ b
  | .remove b => b ∈ F

instance (F : List Nat) (o : FreeOp) : Decidable (o.Allowed F) :=
  match o with
  | .add b => inferInstanceAs (Decidable (b ∉ F ∧ 0 < b ∧ b + freeBlockSz ≤ 2 ^ 64 ∧
      ∀ c ∈ F, b + freeBlockSz ≤ c ∨ c + freeBlockSz ≤ b))
  | .remove b => inferInstanceAs (Decidable (b ∈ F))

/-- every call of `l` is allowed where it is made -/
def Legal (l : List FreeOp) : Prop :=
  ∀ i (hi : i < l.length), l[i].Allowed (listed (l.take i))

instance (l : List FreeOp) : Decidable (Legal l) :=
  inferInstanceAs (Decidable (∀ i (hi : i < l.length), l[i].Allowed (listed (l.take i))))

/-! ## one more call -/

section
variable {l : List FreeOp} {F : List Nat} {h : Heap} {o : FreeOp} {b : Nat}

theorem calls_snoc : calls h (l ++ [o]) = o.call (calls h l) := List.foldl_append

theorem listed_add : listed (l ++ [.add b]) = listed l ++ [b] := by
  induction l with
  | nil => rfl
  | cons o l ih =>
    cases o with
    | remove c => exact ih
    | add c =>
      have hmem : FreeOp.remove c ∈ l ++ [.add b] ↔ FreeOp.remove c ∈ l := by simp
      rw [List.cons_append]
      unfold listed
      rw [ih]
      by_cases hc : FreeOp.remove c ∈ l
      · rw [if_pos hc, if_pos (hmem.mpr hc)]
      · rw [if_neg hc, if_neg (fun hm => hc (hmem.mp hm)), List.cons_append]

theorem listed_remove : listed (l ++ [.remove b]) = (listed l).filter (· ≠ b) := by
  induction l with
  | nil => rfl
  | cons o l ih =>
    cases o with
    | remove c => exact ih
    | add c =>
      have hmem : FreeOp.remove c ∈ l ++ [.remove b] ↔ FreeOp.remove c ∈ l ∨ c = b := by simp
      rw [List.cons_append]
      unfold listed
      rw [ih]
      by_cases hc : FreeOp.remove c ∈ l
      · rw [if_pos hc, if_pos (hmem.mpr (.inl hc))]
      · rw [if_neg hc]
        by_cases hb : c = b
        · rw [if_pos (hmem.mpr (.inr hb)), List.filter_cons_of_neg (by simp [hb])]
        · rw [if_neg (fun hm => (hmem.mp hm).elim hc hb), List.filter_cons_of_pos (by simp [hb])]

theorem Legal.init (hl : Legal (l ++ [o])) : Legal l := by
  intro i hi
  have hi' : i < (l ++ [o]).length := by
    rw [List.length_append]
    omega
  have ha := hl i hi'
  rwa [List.getElem_append_left hi, List.take_append_of_le_length (by omega)] at ha

theorem Legal.last (hl : Legal (l ++ [o])) : o.Allowed (listed l) := by
  have ha := hl l.length (by simp)
  simpa using ha

theorem filter_ne_mid {l₁ l₂ : List Nat} (h₁ : b ∉ l₁) (h₂ : b ∉ l₂) :
    (l₁ ++ b :: l₂).filter (· ≠ b) = l₁ ++ l₂ := by
  have hid : ∀ {l : List Nat}, b ∉ l → l.filter (· ≠ b) = l := by
    intro l hl
    refine List.filter_eq_self.mpr (fun c hc => decide_eq_true ?_)
    rintro rfl
    exact hl hc
  rw [List.filter_append, List.filter_cons_of_neg (by simp), hid h₁, hid h₂]

/-! ## the list in memory -/

/-- the memory has the list `F`, whose blocks are apart -/
structure Queued (h : Heap) (F : List Nat) : Prop where
  freeList : FreeList h F
  lt : ∀ c ∈ F, c < 2 ^ 64
  apart : AllLinksApart F

theorem Queued.add (hq : Queued h F) (ha : (FreeOp.add b).Allowed F) :
    Queued (addFree h b) (F ++ [b]) := by
  obtain ⟨hnew, hpos, hlt, hd⟩ := ha
  unfold freeBlockSz at hlt hd
  have hap : ∀ c ∈ F, LinksApart c b := by
    intro c hc
    have hcb := hd c hc
    unfold LinksApart
    omega
  refine ⟨?_, ?_, ?_⟩
  · exact addFree_freeList hq.freeList (by omega) (by omega) hq.lt hap hq.apart
  · intro c hc
    rcases List.mem_append.mp hc with hc | hc
    · exact hq.lt c hc
    · rw [List.mem_singleton.mp hc]
      omega
  · intro c hc d hd hne
    rcases List.mem_append.mp hc with hc | hc
    · rcases List.mem_append.mp hd with hd | hd
      · exact hq.apart c hc d hd hne
      · rw [List.mem_singleton.mp hd]
        exact hap c hc
    · rw [List.mem_singleton.mp hc] at hne ⊢
      rcases List.mem_append.mp hd with hd | hd
      · exact (hap d hd).symm
      · exact absurd (List.mem_singleton.mp hd).symm hne

theorem Queued.remove (hq : Queued h F) (hb : b ∈ F) :
    Queued (removeFree h b) (F.filter (· ≠ b)) := by
  obtain ⟨l₁, l₂, rfl⟩ := List.append_of_mem hb
  have hno := FreeList.mid_not_mem hq.freeList
  rw [filter_ne_mid hno.1 hno.2]
  have hsub : ∀ c ∈ l₁ ++ l₂, c ∈ l₁ ++ b :: l₂ := by
    intro c hc
    rcases List.mem_append.mp hc with hc | hc
    · exact List.mem_append_left _ hc
    · exact List.mem_append_right _ (List.mem_cons_of_mem _ hc)
  exact ⟨removeFree_freeList hq.freeList hq.apart, fun c hc => hq.lt c (hsub c hc),
    fun c hc d hd => hq.apart c (hsub c hc) d (hsub d hd)⟩

theorem Queued.call (hq : Queued h (listed l)) (ha : o.Allowed (listed l)) :
    Queued (o.call h) (listed (l ++ [o])) := by
  cases o with
  | add b =>
    rw [listed_add]
    exact hq.add ha
  | remove b =>
    rw [listed_remove]
    exact hq.remove ha

theorem Queued.calls (h0 : h.freeListHead = 0) (t0 : h.freeListTail = 0) (hl : Legal l) :
    Queued (calls h l) (listed l) := by
  induction l using List.reverseRecOn with
  | nil =>
    refine ⟨?_, fun c hc => absurd hc List.not_mem_nil, fun c hc => absurd hc List.not_mem_nil⟩
    show Dll 0 h.nextFree h.prevFree h.freeListHead h.freeListTail []
    rw [h0, t0]
    exact Dll.empty
  | append_singleton l o ih =>
    rw [calls_snoc]
    exact (ih hl.init).call hl.last

end

/-- after any calls the list is `listed l` forwards and its reverse backwards, NULL at both ends -/
theorem freeList_queue (h : Heap) (l : List FreeOp) (h0 : h.freeListHead = 0)
    (t0 : h.freeListTail = 0) (hl : Legal l) :
    (listed l).Nodup ∧
    Chain 0 (calls h l).nextFree (calls h l).freeListHead (listed l) ∧
    Chain 0 (calls h l).prevFree (calls h l).freeListTail (listed l).reverse := by
  have hf := (Queued.calls h0 t0 hl).freeList
  exact ⟨hf.nodup, hf.fwd, hf.bwd⟩

theorem freeList_queue_three :
    let l : List FreeOp := [.add 4096, .add 8192, .add 16384, .remove 8192, .add 8192, .remove 4096]
    let h := calls (.init (fun _ => 0) 0) l
    (listed l).Nodup ∧ Chain 0 h.nextFree h.freeListHead (listed l) ∧
    Chain 0 h.prevFree h.freeListTail (listed l).reverse ∧ listed l = [16384, 8192] := by
  intro l h
  obtain ⟨hn, hf, hb⟩ := freeList_queue (.init (fun _ => 0) 0) l rfl rfl (by decide)
  exact ⟨hn, hf, hb, by decide⟩

end Umalloc
