import Xv6.Ftable.Logs
import Xv6.Kmem.Model
import Xv6.Vm.Isolation

/-!
# No call that fails keeps a page

Each page is free, of a process, in use as a pipe, or lost.  The process table and the file table
agree on who is there.  Every call keeps that, and one that returns -1 leaves the free list as it
was, but for `getcwd` when it cannot copy the name out.
-/

namespace Kmem
open Lib Vm

def inUse (w : Ftable.World) : Multiset Nat := (w.allocs : Multiset Nat) - w.frees

/-- the file table and the process table say the same of a process -/
structure Agree (x : Ftable.ProcState) (y : Vm.ProcState) : Prop where
  unused : x = .unused ↔ y = .unused
  running : x = .running ↔ y = .live

structure Inv (trampoline : Nat) (A : Multiset Nat) (k : State) : Prop where
  agree : ∀ q, Agree (k.files.state q) (k.vm.proc q).state
  files : Ftable.Inv k.files
  /-- the rest is lost -/
  pages : ∃ A' L, Vm.Inv trampoline A' k.vm ∧ A' + inUse k.files + L = A

section
variable {kend trampoline pi buf : Nat} {A : Multiset Nat} {k k' : State} {p : Fin Vm.nproc}
  {w w' : Ftable.World} {free l : List Nat} {s s' : Vm.Sys} {b ok : Bool} {c : Call}

/-! ## the process table -/

theorem Agree.update {f : Fin Vm.nproc → Ftable.ProcState} {g g' : Fin Vm.nproc → Vm.ProcState}
    {x : Ftable.ProcState} {y : Vm.ProcState} {np : Fin Vm.nproc}
    (h : ∀ q, Agree (f q) (g q)) (hxy : Agree x y) (hg : ∀ q, g' q = if q = np then y else g q)
    (q : Fin Vm.nproc) : Agree (Function.update f np x q) (g' q) := by
  rw [hg q]
  by_cases e : q = np
  · rw [e, if_pos rfl, Function.update_self]
    exact hxy
  · rw [if_neg e, Function.update_of_ne e]
    exact h q

theorem freeproc_state (e : freeproc kend s p = some s') (q : Fin Vm.nproc) :
    (s'.proc q).state = if q = p then .unused else (s.proc q).state := by
  unfold freeproc at e
  obtain ⟨free, -, rfl⟩ := Option.map_eq_some_iff.mp e
  show ((s.put p (Proc.absent none) free).proc q).state = _
  exact put_state

theorem growproc_state {n : Int} (e : growproc kend s p n = some (s', b)) (q : Fin Vm.nproc) :
    (s'.proc q).state = (s.proc q).state := by
  have hput : ∀ (sz : Nat) (pt : PageTable) (free : List Nat),
      ((s.put p { s.proc p with sz := sz, pagetable := some pt } free).proc q).state =
        (s.proc q).state := by
    intro sz pt free
    rw [put_state]
    by_cases h : q = p
    · rw [if_pos h, h]
    · rw [if_neg h]
  unfold growproc at e
  split at e
  · exact absurd e nofun
  · dsimp only at e
    split at e
    · split at e
      · exact absurd e nofun
      · obtain ⟨rfl, -⟩ := Prod.mk.inj (Option.some.inj e)
        exact hput (s.proc p).sz _ _
      · obtain ⟨rfl, -⟩ := Prod.mk.inj (Option.some.inj e)
        exact hput _ _ _
    · split at e
      · split at e
        · exact absurd e nofun
        · obtain ⟨rfl, -⟩ := Prod.mk.inj (Option.some.inj e)
          exact hput _ _ _
      · obtain ⟨rfl, -⟩ := Prod.mk.inj (Option.some.inj e)
        rfl

theorem exit_state (e : Vm.exit s p = some s') (q : Fin Vm.nproc) :
    (s'.proc q).state = if q = p then .zombie else (s.proc q).state := by
  unfold Vm.exit at e
  split at e
  · exact absurd e nofun
  · obtain rfl := Option.some.inj e
    have hrep : ((reparent s p).proc q).state = (s.proc q).state := by
      unfold reparent
      dsimp only
      split <;> rfl
    rw [← hrep]
    show (((reparent s p).put p { (reparent s p).proc p with state := .zombie } s.free).proc q).state
      = _
    exact put_state

/-- what `wait` does to the process table: the zombie it finds is freed, or nothing happens -/
theorem wait_state {copy : Bool} (e : Vm.wait kend s p copy = some (s', b)) :
    (∃ q, Fin.find? (fun q => decide ((s.proc q).parent = some p ∧ (s.proc q).state = .zombie)) =
      some q ∧ b = true ∧ (s.proc q).state = .zombie ∧
        ∀ r, (s'.proc r).state = if r = q then .unused else (s.proc r).state) ∨
    b = false ∧ s' = s := by
  unfold Vm.wait at e
  split at e
  case h_1 q hq =>
    have hz := (of_decide_eq_true (Fin.find?_eq_some_iff.mp hq).1).2
    cases copy with
    | false =>
      obtain ⟨rfl, rfl⟩ := Prod.mk.inj (Option.some.inj e)
      exact Or.inr ⟨rfl, rfl⟩
    | true =>
      rw [if_pos rfl] at e
      obtain ⟨u, hu, e⟩ := Option.map_eq_some_iff.mp e
      obtain ⟨rfl, rfl⟩ := Prod.mk.inj e
      exact Or.inl ⟨q, hq, rfl, hz, freeproc_state hu⟩
  case h_2 =>
    split at e
    · exact absurd e nofun
    · obtain ⟨rfl, rfl⟩ := Prod.mk.inj (Option.some.inj e)
      exact Or.inr ⟨rfl, rfl⟩

/-! ## pages that are pipes -/

theorem count_inUse (h : Ftable.PipeInv w) (pi : Nat) :
    (inUse w).count pi = if (w.pipes pi).isSome then 1 else 0 := by
  unfold inUse
  rw [Multiset.count_sub, Multiset.coe_count, Multiset.coe_count, h.count pi,
    Nat.add_sub_cancel_left]

theorem inUse_frees (h : Ftable.PipeInv w) (h' : Ftable.PipeInv w') (ha : w'.allocs = w.allocs)
    (hf : w'.frees = l ++ w.frees) : inUse w = l + inUse w' := by
  apply Multiset.ext.mpr
  intro pi
  have h1 := h.count pi
  have h2 := h'.count pi
  rw [ha, hf, List.count_append] at h2
  rw [Multiset.count_add, count_inUse h, count_inUse h', Multiset.coe_count]
  omega

theorem inUse_take (h : Ftable.PipeInv w) (h' : Ftable.PipeInv w') (ha : w'.allocs = pi :: w.allocs)
    (hf : w'.frees = w.frees) : inUse w' = {pi} + inUse w := by
  apply Multiset.ext.mpr
  intro k
  have h1 := h.count k
  have h2 := h'.count k
  rw [ha, hf, List.count_cons] at h2
  rw [Multiset.count_add, count_inUse h, count_inUse h', Multiset.count_singleton]
  by_cases e : k = pi
  · rw [if_pos e]
    rw [e, beq_self_eq_true, if_pos rfl] at h2
    rw [e] at h1 ⊢
    omega
  · rw [if_neg e]
    rw [beq_false_of_ne (Ne.symm e), if_neg nofun] at h2
    omega

theorem settle_frees (ha : w'.allocs = w.allocs) (hf : w'.frees = l ++ w.frees)
    (hl : ∀ pa ∈ l, Managed kend pa) (free : List Nat) : ∃ free',
    settle kend w w' free = some free' ∧ (free' : Multiset Nat) = free + l := by
  obtain ⟨free', he, hfree⟩ := kfrees_spec (l := l.reverse)
    (fun pa hpa => hl pa (List.mem_reverse.mp hpa)) free
  refine ⟨free', ?_, ?_⟩
  · unfold settle
    rw [hf, ha, List.length_append, Nat.add_sub_cancel, List.take_left, Nat.sub_self, List.drop_zero]
    exact he
  · rw [hfree, Multiset.coe_reverse]

theorem Inv.le (h : Inv trampoline A k) : (k.vm.free : Multiset Nat) + inUse k.files ≤ A := by
  obtain ⟨A', L, hvm, e⟩ := h.pages
  rw [← e]
  exact (add_le_add_left hvm.free_le _).trans (Multiset.le_add_right _ L)

theorem Inv.fresh (h : Inv trampoline A k) (hnd : A.Nodup) (hpi : pi ∈ k.vm.free) :
    k.files.pipes pi = none := by
  have hle := Multiset.count_le_of_le pi h.le
  have hone := Multiset.nodup_iff_count_le_one.mp hnd pi
  have hpos : 0 < (k.vm.free : Multiset Nat).count pi := Multiset.count_pos.mpr hpi
  rw [Multiset.count_add, count_inUse h.files.held.pipe] at hle
  cases hw : k.files.pipes pi with
  | none => rfl
  | some e =>
    rw [hw, Option.isSome_some, if_pos rfl] at hle
    omega

theorem Inv.settle (h : Inv trampoline A k) (hr : Ram kend A) (hw : Ftable.Inv w)
    (ha : w.allocs = k.files.allocs) (hf : w.frees = l ++ k.files.frees) : ∃ free,
    k.setFiles kend w = some ⟨{ k.vm with free := free }, w⟩ ∧
      ∃ A' L, Vm.Inv trampoline A' { k.vm with free := free } ∧ A' + inUse w + L = A := by
  obtain ⟨A', L, hvm, e⟩ := h.pages
  have huse := inUse_frees h.files.held.pipe hw.held.pipe ha hf
  have hl : ∀ pa ∈ l, Managed kend pa := fun pa hpa => by
    refine hr.managed pa ?_
    rw [← e, huse]
    exact Multiset.mem_add.mpr (Or.inl (Multiset.mem_add.mpr
      (Or.inr (Multiset.mem_add.mpr (Or.inl hpa)))))
  obtain ⟨free, he, hfree⟩ := settle_frees ha hf hl k.vm.free
  obtain ⟨A'', hA, hvm'⟩ := hvm.move (R := 0) (T := l)
    (show (free : Multiset Nat) + 0 = k.vm.free + l by rw [hfree, add_zero])
  rw [add_zero] at hA
  refine ⟨free, ?_, A'', L, hvm', ?_⟩
  · unfold State.setFiles
    rw [he]
    rfl
  · rw [hA, ← e, huse, add_assoc A']

end

end Kmem
