import Mathlib.Logic.Function.Basic
import Xv6.Lib.Links

/-!
# Circular doubly linked lists with a head

`Circ h k l`: the links `k` lead from the head `h` through the nodes `l`, in order, and back to `h`,
and the same way in reverse.  `unlink` and `push` are the pointer assignments that take a node out
and put it behind the head, and `walk` is the loop that visits the nodes.
-/

namespace Lib

structure DLinks (α : Type*) where
  next : α → α
  prev : α → α

section
variable {α : Type*}

def DLinks.flip (k : DLinks α) : DLinks α := ⟨k.prev, k.next⟩

/-- all nodes point to the head -/
def DLinks.init (h : α) : DLinks α := ⟨fun _ => h, fun _ => h⟩

variable [DecidableEq α]

/-- `b->next->prev = b->prev; b->prev->next = b->next` -/
def DLinks.unlink (k : DLinks α) (b : α) : DLinks α :=
  let prev := Function.update k.prev (k.next b) (k.prev b)
  ⟨Function.update k.next (prev b) (k.next b), prev⟩

/-- `b->next = h->next; b->prev = h; h->next->prev = b; h->next = b` -/
def DLinks.push (k : DLinks α) (h b : α) : DLinks α :=
  let next := Function.update k.next b (k.next h)
  let prev := Function.update k.prev b h
  ⟨Function.update next h b, Function.update prev (next h) b⟩

/-- the nodes that a loop visits which follows `nxt` from `a` until it is at `h` -/
def walk (nxt : α → α) (h : α) : Nat → α → List α
  | 0, _ => []
  | n + 1, a => if a = h then [] else a :: walk nxt h n (nxt a)

end

section
variable {α : Type*} {h b x : α} {k : DLinks α} {l l₁ l₂ : List α}

def Circ (h : α) (k : DLinks α) (l : List α) : Prop := Dll h k.next k.prev (k.next h) (k.prev h) l

theorem Circ.flip (hc : Circ h k l) : Circ h k.flip l.reverse := Dll.reverse hc

theorem Circ.init : Circ h (DLinks.init h) [] := Dll.empty

theorem Circ.nodup (hc : Circ h k l) : l.Nodup := Dll.nodup hc

theorem Circ.head_notMem (hc : Circ h k l) : h ∉ l := hc.fwd.1

theorem Circ.prev_next (hc : Circ h k l) (hx : x ∈ h :: l) : k.prev (k.next x) = x := by
  rcases List.mem_cons.mp hx with rfl | hx
  · cases l with
    | nil => rw [chain_nil.mp hc.fwd, chain_nil.mp hc.bwd]
    | cons y l =>
      rw [(chain_cons.mp hc.fwd).1]
      exact chain_nil.mp (Dll.prev (show Dll x k.next k.prev _ _ ([] ++ y :: l) from hc))
  · obtain ⟨l₁, l₂, rfl⟩ := List.append_of_mem hx
    cases l₂ with
    | nil =>
      rw [chain_nil.mp (Dll.next hc)]
      exact Dll.tail_eq hc
    | cons y l₂ =>
      rw [(chain_cons.mp (Dll.next hc)).1]
      have hc' : Circ h k ((l₁ ++ [x]) ++ y :: l₂) := by
        rw [List.append_assoc]
        exact hc
      have hp := Dll.prev hc'
      rw [List.reverse_append, List.reverse_singleton, List.singleton_append] at hp
      exact (chain_cons.mp hp).1

theorem Circ.next_prev (hc : Circ h k l) (hx : x ∈ h :: l) : k.next (k.prev x) = x := by
  refine hc.flip.prev_next ?_
  rw [List.mem_cons, List.mem_reverse, ← List.mem_cons]
  exact hx

/-- `b` is behind the head exactly if the head is before `b` -/
theorem Circ.next_head_iff (hc : Circ h k (l₁ ++ b :: l₂)) : k.next h = b ↔ h = k.prev b := by
  constructor
  · rintro rfl
    exact (hc.prev_next List.mem_cons_self).symm
  · intro e
    rw [e]
    exact hc.next_prev (List.mem_cons_of_mem _ (by simp))

variable [DecidableEq α]

theorem Circ.unlink (hc : Circ h k (l₁ ++ b :: l₂)) : Circ h (k.unlink b) (l₁ ++ l₂) := by
  have hprev : ∀ y, (k.unlink b).prev y = if y = k.next b then k.prev b else k.prev y :=
    fun y => Function.update_apply ..
  have hself : (k.unlink b).prev b = k.prev b := by
    rw [hprev]
    split
    · rfl
    · rfl
  have hnext : ∀ y, (k.unlink b).next y = if y = k.prev b then k.next b else k.next y := by
    intro y
    rw [← hself]
    exact Function.update_apply ..
  refine Dll.remove hc ?_ ?_ (fun y _ => hnext y) (fun y _ => hprev y)
  · rw [hnext]
    exact if_congr hc.next_head_iff.symm rfl rfl
  · have hc' := hc.flip
    rw [List.reverse_append, List.reverse_cons, List.append_assoc, List.singleton_append] at hc'
    rw [hprev]
    exact if_congr hc'.next_head_iff.symm rfl rfl

theorem Circ.push (hc : Circ h k l) (hb : b ≠ h) (hl : b ∉ l) : Circ h (k.push h b) (b :: l) := by
  have hnext : ∀ y, (k.push h b).next y = if y = h then b else if y = b then k.next h else k.next y := by
    intro y
    unfold DLinks.push
    dsimp only
    rw [Function.update_apply, Function.update_apply]
  have hprev : ∀ y, (k.push h b).prev y =
      if y = k.next h then b else if y = b then h else k.prev y := by
    intro y
    unfold DLinks.push
    dsimp only
    rw [Function.update_of_ne hb.symm, Function.update_apply, Function.update_apply]
  have hnb : b ≠ k.next h := by
    intro e
    cases l with
    | nil => exact hb (e.trans (chain_nil.mp hc.fwd))
    | cons y l => exact hl (List.mem_cons.mpr (Or.inl (e.trans (chain_cons.mp hc.fwd).1)))
  have hne : ∀ y ∈ l, y ≠ h ∧ y ≠ b := by
    intro y hy
    refine ⟨?_, ?_⟩
    · rintro rfl
      exact hc.head_notMem hy
    · rintro rfl
      exact hl hy
  refine ⟨List.nodup_cons.mpr ⟨hl, hc.nodup⟩, ?_, ?_⟩
  · refine chain_cons.mpr ⟨?_, hb, ?_⟩
    · rw [hnext, if_pos rfl]
    · rw [hnext, if_neg hb, if_pos rfl]
      refine hc.fwd.congr (fun y hy => ?_)
      rw [hnext, if_neg (hne y hy).1, if_neg (hne y hy).2]
  · have hpb : (k.push h b).prev b = h := by
      rw [hprev, if_neg hnb, if_pos rfl]
    refine ⟨?_, ?_⟩
    · rw [List.mem_reverse, List.mem_cons]
      rintro (e | hm)
      · exact hb e.symm
      · exact hc.head_notMem hm
    · rw [List.reverse_cons]
      refine seg_snoc.mpr ⟨?_, hpb⟩
      cases l with
      | nil =>
        show (k.push h b).prev h = b
        rw [hprev, if_pos (chain_nil.mp hc.fwd).symm]
      | cons y l =>
        have hy : k.next h = y := (chain_cons.mp hc.fwd).1
        have hnd := List.nodup_cons.mp hc.nodup
        have hph : (k.push h b).prev h = k.prev h := by
          rw [hprev, hy, if_neg (hne y List.mem_cons_self).1.symm, if_neg hb.symm]
        have hseg : Seg k.prev (k.prev h) (l.reverse ++ [y]) h := by
          rw [← List.reverse_cons]
          exact hc.bwd.2
        rw [List.reverse_cons, hph]
        refine hseg.redirect (fun z hz => ?_) ?_
        · have hz' := List.mem_reverse.mp hz
          have hzy : z ≠ y := by
            rintro rfl
            exact hnd.1 hz'
          rw [hprev, hy, if_neg hzy, if_neg (hne z (List.mem_cons_of_mem _ hz')).2]
        · rw [hprev, hy, if_pos rfl]

theorem Circ.moveToFront (hc : Circ h k (l₁ ++ b :: l₂)) :
    Circ h ((k.unlink b).push h b) (b :: (l₁ ++ l₂)) := by
  refine hc.unlink.push ?_ ?_
  · rintro rfl
    exact hc.head_notMem (by simp)
  · have hp : (l₁ ++ b :: l₂).Perm (b :: (l₁ ++ l₂)) := List.perm_middle
    exact (List.nodup_cons.mp (hp.nodup_iff.mp hc.nodup)).1

theorem walk_eq {nxt : α → α} {a : α} {n : Nat} (hc : Chain h nxt a l) (hn : l.length ≤ n) :
    walk nxt h n a = l := by
  induction l generalizing a n with
  | nil =>
    rw [chain_nil.mp hc]
    cases n with
    | zero => rfl
    | succ n => exact if_pos rfl
  | cons x l ih =>
    obtain ⟨rfl, hne, ht⟩ := chain_cons.mp hc
    cases n with
    | zero => exact absurd hn (Nat.not_succ_le_zero _)
    | succ n =>
      show (if a = h then [] else _) = _
      rw [if_neg hne, ih ht (Nat.le_of_succ_le_succ hn)]

end

end Lib
