import Xv6.Vm.Alloc
import Xv6.Vm.Proc

/-!
# Making, copying and freeing an address space

`freewalk`, `uvmfree`, `uvmcopy`, `proc_pagetable` and `proc_freepagetable`.
-/

namespace Vm
open Lib

/-- the leaves that every process has above its user pages -/
structure PageTable.Tops (t : PageTable) (trampoline tf : Nat) : Prop where
  trapframe : t.pte userTop = some ⟨tf, ⟨true, true, false, false⟩⟩
  trampoline : t.pte (userTop + 1) = some ⟨trampoline, ⟨true, false, true, false⟩⟩

/-- a free list with the address space of a process that has `n` pages -/
structure Complete (T : Multiset Nat) (trampoline tf n : Nat) (m : Mem) : Prop where
  space : Space T m
  upto : m.pt.Upto n
  tops : m.pt.Tops trampoline tf

section
variable {kend trampoline tf pa i k n v sz : Nat} {T T' : Multiset Nat} {m m' : Mem}
  {t old : PageTable} {free : List Nat}

/-! ## `freewalk` -/

theorem freewalkLow_spec (hm : Managed kend pa) (hp : ∀ v, t.pte v = none) (k : Nat)
    (free : List Nat) : freewalkLow kend t k pa free = some (pa :: free) := by
  unfold freewalkLow
  rw [if_neg, kfree_eq hm]
  simp [hp]

theorem freewalkMid_spec (hm : Managed kend pa) (hp : ∀ v, t.pte v = none)
    (hlow : ∀ k c, t.low k = some c → Managed kend c) (k : Nat) (free : List Nat) : ∃ free',
    freewalkMid kend t k pa free = some free' ∧ (free' : Multiset Nat) =
      free + (held (Finset.range 512) (fun i => t.low (512 * k + i)) + {pa}) := by
  obtain ⟨f, hnone, hsome, hf⟩ : ∃ f : List Nat → Nat → Option (List Nat),
      (∀ free i, t.low (512 * k + i) = none → f free i = some free) ∧
      (∀ free i c, t.low (512 * k + i) = some c →
        f free i = freewalkLow kend t (512 * k + i) c free) ∧
      freewalkMid kend t k pa free = ((List.range 512).foldlM f free).bind (kfree kend pa) := by
    refine ⟨_, ?_, ?_, rfl⟩
    · intro free i hc
      rw [hc]
    · intro free i c hc
      rw [hc]
  obtain ⟨l, h, e⟩ := foldlM_held (f := f) (w := fun i => single (t.low (512 * k + i))) 512 free (by
      intro i _ l
      cases hc : t.low (512 * k + i) with
      | none => exact ⟨l, hnone l i hc, (add_zero _).symm⟩
      | some c =>
        refine ⟨c :: l, (hsome l i c hc).trans (freewalkLow_spec (hlow _ c hc) hp _ l), ?_⟩
        rw [← Multiset.cons_coe, ← Multiset.singleton_add, add_comm]
        rfl)
  refine ⟨pa :: l, ?_, ?_⟩
  · rw [hf, h]
    exact kfree_eq hm
  · rw [← Multiset.cons_coe, e, ← Multiset.singleton_add, add_comm, add_assoc]
    unfold held
    rfl

theorem mem_tables_root : t.root ∈ t.tables := Multiset.mem_cons_self _ _

theorem mem_tables_mid (h : t.mid i = some pa) (hi : i < 512) : pa ∈ t.tables := by
  refine Multiset.mem_cons_of_mem (Multiset.mem_add.mpr (Or.inl ?_))
  rw [mem_held]
  exact ⟨i, Finset.mem_range.mpr hi, h⟩

theorem mem_tables_low (h : t.low k = some pa) (hk : k < 512 * 512) : pa ∈ t.tables := by
  refine Multiset.mem_cons_of_mem (Multiset.mem_add.mpr (Or.inr ?_))
  rw [mem_held]
  exact ⟨k, Finset.mem_range.mpr hk, h⟩

theorem Space.managed_tables (hs : Space T m) (hr : Ram kend T) (h : pa ∈ m.pt.tables) :
    Managed kend pa := by
  refine hr.managed pa ?_
  rw [← hs.total]
  exact Multiset.mem_add.mpr (Or.inl (Multiset.mem_add.mpr (Or.inr h)))

/-- without a leaf, all page-table pages go to the free list -/
theorem freewalk_spec (hs : Space T m) (hr : Ram kend T) (hp : ∀ v, m.pt.pte v = none) :
    ∃ free, freewalk kend m = some free ∧ (free : Multiset Nat) = T := by
  have hmid : ∀ i c, m.pt.mid i = some c → Managed kend c := fun i c hc => by
    have hlt := hs.ok.midLt i (by rw [hc]; rfl)
    exact hs.managed_tables hr (mem_tables_mid hc (by omega))
  have hlow : ∀ k c, m.pt.low k = some c → Managed kend c := fun k c hc => by
    have hlt := hs.ok.midLt _ (hs.ok.lowMid k (by rw [hc]; rfl))
    exact hs.managed_tables hr (mem_tables_low hc (by omega))
  obtain ⟨f, hnone, hsome, hf⟩ : ∃ f : List Nat → Nat → Option (List Nat),
      (∀ free i, m.pt.mid i = none → f free i = some free) ∧
      (∀ free i c, m.pt.mid i = some c → f free i = freewalkMid kend m.pt i c free) ∧
      freewalk kend m = ((List.range 512).foldlM f m.free).bind (kfree kend m.pt.root) := by
    refine ⟨_, ?_, ?_, rfl⟩
    · intro free i hc
      rw [hc]
    · intro free i c hc
      rw [hc]
  obtain ⟨l, h, e⟩ := foldlM_held (f := f)
    (w := fun i => held (Finset.range 512) (fun j => m.pt.low (512 * i + j)) + single (m.pt.mid i))
    512 m.free (by
      intro i _ l
      cases hc : m.pt.mid i with
      | none =>
        refine ⟨l, hnone l i hc, ?_⟩
        rw [held_none]
        · exact (add_zero _).symm
        · intro j hj
          refine Option.not_isSome_iff_eq_none.mp (fun hsome => ?_)
          have hm := hs.ok.lowMid _ hsome
          have hlt := Finset.mem_range.mp hj
          rw [show (512 * i + j) / 512 = i by omega, hc] at hm
          cases hm
      | some c =>
        rw [hsome l i c hc]
        exact freewalkMid_spec (hmid i c hc) hp hlow i l)
  have hleaves : m.pt.leaves = 0 := held_none (fun v _ => by
    unfold PageTable.page
    rw [hp]
    rfl)
  refine ⟨m.pt.root :: l, ?_, ?_⟩
  · rw [hf, h]
    exact kfree_eq (hs.managed_tables hr mem_tables_root)
  · rw [Finset.sum_add_distrib, ← held_rows m.pt.low 512 512] at e
    rw [← hs.total, hleaves, add_zero, ← Multiset.cons_coe, e]
    unfold PageTable.tables
    rw [Multiset.add_cons, add_comm (held (Finset.range 512) m.pt.mid)]
    unfold held
    rfl

/-! ## `uvmfree`, `proc_freepagetable` -/

theorem PageTable.Ok.lt (h : t.Ok) (hv : (t.pte v).isSome = true) : v < userTop + 2 := by
  have hlt := h.midLt _ (h.lowMid _ (h.pteLow v hv))
  rw [userTop_eq]
  omega

theorem uvmfree_spec (hs : Space T m) (hr : Ram kend T) (hu : m.pt.Upto (pages sz))
    (htop : ∀ v, userTop ≤ v → m.pt.pte v = none) :
    ∃ free, uvmfree kend m sz = some free ∧ (free : Multiset Nat) = T := by
  have hle := hs.upto_le hr hu
  unfold uvmfree
  by_cases h : 0 < sz
  · obtain ⟨m', he, hres⟩ := uvmunmap_all hs hr hu
    rw [if_pos h, pgroundup_eq (le_of_pages hle), mul_div_pgsize, he, Option.bind_some]
    refine freewalk_spec hres.space hr (fun v => ?_)
    by_cases hv : v < userTop
    · refine Option.not_isSome_iff_eq_none.mp (fun hsome => ?_)
      exact absurd ((hres.upto v hv).mp hsome) (Nat.not_lt_zero v)
    · rw [hres.top v (not_lt.mp hv)]
      exact htop v (not_lt.mp hv)
  · rw [if_neg h]
    refine freewalk_spec hs hr (fun v => ?_)
    by_cases hv : v < userTop
    · refine Option.not_isSome_iff_eq_none.mp (fun hsome => ?_)
      have hlt := (hu v hv).mp hsome
      rw [Nat.eq_zero_of_not_pos h, pages_zero] at hlt
      exact absurd hlt (Nat.not_lt_zero v)
    · exact htop v (not_lt.mp hv)

theorem trapframeVa_eq : trapframeVa = userTop * pgsize := rfl

theorem trampolineVa_eq : trampolineVa = (userTop + 1) * pgsize := rfl

theorem setPte_upto (hu : m.pt.Upto n) (hi : userTop ≤ i) (y : Option Pte) :
    (m.setPte (i * pgsize) y).pt.Upto n := by
  intro v hv
  rw [setPte_page_of_ne y (by omega)]
  exact hu v hv

theorem Resized.complete (hres : Resized T n m m') (h : Complete T trampoline tf k m) :
    Complete T trampoline tf n m' := by
  refine ⟨hres.space, hres.upto, ?_, ?_⟩
  · rw [hres.top _ le_rfl]
    exact h.tops.trapframe
  · rw [hres.top _ (Nat.le_succ _)]
    exact h.tops.trampoline

theorem procFreepagetable_spec (h : Complete T trampoline tf (pages sz) m) (hr : Ram kend T) :
    ∃ free, procFreepagetable kend m sz = some free ∧ (free : Multiset Nat) = T := by
  have h1 : (m.pt.pte (userTop + 1)).isSome = true := by
    rw [h.tops.trampoline]
    rfl
  obtain ⟨e1, hs1⟩ := uvmunmap_top h.space (Nat.le_succ _) (Nat.lt_succ_self _) h1 kend
  have h2 : ((m.setPte ((userTop + 1) * pgsize) none).pt.pte userTop).isSome = true := by
    rw [setPte_page_of_ne _ (by omega), h.tops.trapframe]
    rfl
  obtain ⟨e2, hs2⟩ := uvmunmap_top hs1 le_rfl (by omega) h2 kend
  have hu2 := setPte_upto (setPte_upto h.upto (Nat.le_succ userTop) none) le_rfl none
  obtain ⟨free, e3, hfree⟩ := uvmfree_spec hs2 hr hu2 (fun v hv => by
    by_cases hv1 : v = userTop
    · rw [hv1]
      exact setPte_page _ _ _
    · rw [setPte_page_of_ne _ hv1]
      by_cases hv2 : v = userTop + 1
      · rw [hv2]
        exact setPte_page _ _ _
      · rw [setPte_page_of_ne _ hv2]
        refine Option.not_isSome_iff_eq_none.mp (fun hsome => ?_)
        have hlt := h.space.ok.lt hsome
        omega)
  refine ⟨free, ?_, hfree⟩
  unfold procFreepagetable
  rw [trampolineVa_eq, e1, trapframeVa_eq]
  show (uvmunmap kend _ _ 1 false).bind _ = _
  rw [e2]
  exact e3

/-! ## `proc_pagetable` -/

theorem uvmcreate_spec (pa : Nat) (free : List Nat) :
    Space ((pa :: free : List Nat) : Multiset Nat) ⟨free, .empty pa⟩ ∧
    ∀ v, (PageTable.empty pa).pte v = none := by
  refine ⟨⟨⟨nofun, nofun, nofun, nofun⟩, ?_⟩, fun _ => rfl⟩
  have hnone : ∀ n, held (Finset.range n) (fun _ : Nat => (none : Option Nat)) = 0 :=
    fun n => held_none (fun _ _ => rfl)
  have ht : (PageTable.empty pa).tables = {pa} := by
    unfold PageTable.tables PageTable.empty
    dsimp only
    rw [hnone, hnone]
    rfl
  have hl : (PageTable.empty pa).leaves = 0 := held_none (fun _ _ => rfl)
  rw [ht, hl, add_zero, add_comm, Multiset.singleton_add, Multiset.cons_coe]

theorem upto_zero (h : ∀ v < userTop, t.pte v = none) : t.Upto 0 := by
  intro v hv
  rw [h v hv]
  exact iff_of_false nofun (Nat.not_lt_zero v)

/-- a page above the user pages is mapped, or there is no page for the page table -/
theorem mapTop_spec {perm : Perm} (hs : Space T m) (hv : userTop ≤ i) (hi : i < userTop + 2)
    (hno : m.pt.pte i = none) (hperm : perm ≠ ⟨false, false, false, false⟩) (pa : Nat) : ∃ m' b,
    mappages m (i * pgsize) pgsize pa perm = some (m', b) ∧ Space T m' ∧
      (∀ v, v ≠ i → m'.pt.pte v = m.pt.pte v) ∧
      m'.pt.pte i = if b then some ⟨pa, perm⟩ else none := by
  have hdiv := mul_div_pgsize (i := i)
  obtain ⟨m', hwalk, he | ⟨he, hok⟩⟩ := mappages_spec hs.ok mul_mod_pgsize (mul_lt_maxva hi)
    (by rw [hdiv]; exact hno) hperm pa
  · refine ⟨m', false, he, hwalk.space hs, fun v _ => congrFun hwalk.pte v, ?_⟩
    rw [hwalk.pte]
    exact hno
  · refine ⟨_, true, he, (hwalk.space hs).setTop (by rw [hdiv]; exact hv) hok, fun v hne => ?_, ?_⟩
    · rw [setPte_page_of_ne _ hne, hwalk.pte]
    · exact setPte_page _ _ _

theorem procPagetable_spec (hr : Ram kend free) (trampoline tf : Nat) : ∃ free' r,
    procPagetable kend trampoline free tf = some (free', r) ∧
      (r = none ∧ (free' : Multiset Nat) = free ∨
        ∃ t, r = some t ∧ Complete free trampoline tf 0 ⟨free', t⟩) := by
  unfold procPagetable
  cases free with
  | nil => exact ⟨[], none, rfl, Or.inl ⟨rfl, rfl⟩⟩
  | cons pa free =>
    obtain ⟨hs, hno⟩ := uvmcreate_spec pa free
    obtain ⟨m1, b1, e1, hs1, hne1, ht1⟩ := mapTop_spec hs (Nat.le_succ userTop)
      (Nat.lt_succ_self _) (hno _) (show (⟨true, false, true, false⟩ : Perm) ≠ _ from nofun)
      trampoline
    have hu1 : m1.pt.Upto 0 := upto_zero (fun v hv => by
      rw [hne1 v (by omega)]
      exact hno v)
    have hcreate : uvmcreate (pa :: free) = some ⟨free, .empty pa⟩ := rfl
    rw [hcreate]
    dsimp only
    rw [trampolineVa_eq, e1]
    cases b1 with
    | false =>
      obtain ⟨free', e, h⟩ := uvmfree_spec hs1 hr (show m1.pt.Upto (pages 0) from hu1) (fun v _ => by
        by_cases hv : v = userTop + 1
        · rw [hv]
          exact ht1
        · rw [hne1 v hv]
          exact hno v)
      dsimp only
      rw [e]
      exact ⟨free', none, rfl, Or.inl ⟨rfl, h⟩⟩
    | true =>
      obtain ⟨m2, b2, e2, hs2, hne2, ht2⟩ := mapTop_spec hs1 le_rfl (by omega)
        (by rw [hne1 _ (by omega)]; exact hno _)
        (show (⟨true, true, false, false⟩ : Perm) ≠ _ from nofun) tf
      have hu2 : m2.pt.Upto 0 := upto_zero (fun v hv => by
        rw [hne2 v (by omega), hne1 v (by omega)]
        exact hno v)
      have htramp : m2.pt.pte (userTop + 1) = some ⟨trampoline, ⟨true, false, true, false⟩⟩ := by
        rw [hne2 _ (by omega)]
        exact ht1
      dsimp only
      rw [trapframeVa_eq, e2]
      cases b2 with
      | false =>
        obtain ⟨e3, hs3⟩ := uvmunmap_top hs2 (Nat.le_succ _) (Nat.lt_succ_self _)
          (by rw [htramp]; rfl) kend
        have hu3 : (m2.setPte ((userTop + 1) * pgsize) none).pt.Upto (pages 0) :=
          setPte_upto hu2 (Nat.le_succ _) none
        obtain ⟨free', e, h⟩ := uvmfree_spec hs3 hr hu3
          (fun v _ => by
            by_cases hv : v = userTop + 1
            · rw [hv]
              exact setPte_page _ _ _
            · rw [setPte_page_of_ne _ hv]
              by_cases hv' : v = userTop
              · rw [hv']
                exact ht2
              · rw [hne2 v hv', hne1 v hv]
                exact hno v)
        dsimp only
        rw [e3, Option.bind_some, e]
        exact ⟨free', none, rfl, Or.inl ⟨rfl, h⟩⟩
      | true => exact ⟨m2.free, some m2.pt, rfl, Or.inr ⟨m2.pt, rfl, hs2, hu2, ht2, htramp⟩⟩

/-! ## `uvmcopy` -/

theorem uvmcopyLoop_spec (hok : old.Ok) (hold : old.Upto k) (hk : k ≤ 2 ^ 15) (hs : Space T m)
    (hr : Ram kend T) (hu : m.pt.Upto i) (hi : i + n = k) : ∃ m' b,
    uvmcopyLoop kend old n m (i * pgsize) = some (m', b) ∧ SameTop m m' ∧ Space T m' ∧
      m'.pt.Upto (if b then k else 0) := by
  induction n generalizing m i with
  | zero =>
    rw [add_zero] at hi
    rw [← hi]
    exact ⟨m, true, rfl, .refl, hs, hu⟩
  | succ n ih =>
    have hdiv := mul_div_pgsize (i := i)
    have hlt : i < userTop := lt_userTop (by omega)
    -- the pages copied so far are given back
    have hundo : ∀ u, Resized T i m u → ∃ m' b,
        (uvmunmap kend u 0 (i * pgsize / pgsize) true).map (fun m => (m, false)) = some (m', b) ∧
          SameTop m m' ∧ Space T m' ∧ m'.pt.Upto (if b then k else 0) := by
      intro u hres
      obtain ⟨m', he, hres'⟩ := uvmunmap_all hres.space hr hres.upto
      rw [hdiv, he]
      exact ⟨m', false, rfl, hres.top.trans hres'.top, hres'.space, hres'.upto⟩
    have hsome : (old.pte (i * pgsize / pgsize)).isSome = true := by
      rw [hdiv]
      exact (hold i hlt).mpr (by omega)
    obtain ⟨c, d, hc, hd⟩ := hok.path hsome
    obtain ⟨pte, hp⟩ := Option.isSome_iff_exists.mp hsome
    unfold uvmcopyLoop
    rw [if_neg (not_le.mpr (mul_lt_maxva (by omega))), hc, hd, hp]
    dsimp only
    cases hf : m.free with
    | nil => exact hundo m (.refl hs hu)
    | cons pa free =>
      obtain ⟨u, ⟨he, hfr, hres⟩ | ⟨he, hs', hu', htop, -⟩, -⟩ :=
        grow_spec hs hr hu hf (hok.leaf _ pte hp)
      · rw [kalloc_cons]
        dsimp only
        rw [he]
        dsimp only
        rw [hfr]
        exact hundo _ hres
      · obtain ⟨m', b, hl, htop', h⟩ := ih hs' hu' (by omega)
        refine ⟨m', b, ?_, htop.trans htop', h⟩
        rw [kalloc_cons]
        dsimp only
        rw [he, ← hl, ← succ_mul_pgsize]

/-- the child gets all pages of its parent, or none -/
theorem uvmcopy_spec (hok : old.Ok) (hold : old.Upto (pages sz)) (hsz : pages sz ≤ 2 ^ 15)
    (h : Complete T trampoline tf 0 m) (hr : Ram kend T) : ∃ m' b,
    uvmcopy kend old m sz = some (m', b) ∧
      Complete T trampoline tf (if b then pages sz else 0) m' := by
  obtain ⟨m', b, he, htop, hs', hu'⟩ :=
    uvmcopyLoop_spec hok hold hsz h.space hr h.upto (zero_add (pages sz))
  rw [Nat.zero_mul] at he
  refine ⟨m', b, he, hs', hu', ?_, ?_⟩
  · rw [htop _ le_rfl]
    exact h.tops.trapframe
  · rw [htop _ (Nat.le_succ _)]
    exact h.tops.trampoline

end

end Vm
