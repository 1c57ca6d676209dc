import Xv6.Lib.Pool
import Xv6.Vm.Model

/-!
# What an address space holds

`Space T m`: the free list, the page-table pages and the user pages of `m` are together `T`.  The
functions of `kalloc.c` and `vm.c` move pages between the three, and keep `T`.
-/

namespace Vm
open Lib

/-- the first page that is not a user page, `TRAPFRAME` -/
def userTop : Nat := trapframeVa / pgsize

/-- a page that `kfree` takes -/
def Managed (kend pa : Nat) : Prop := pa % pgsize = 0 ∧ kend ≤ pa ∧ pa < phystop

/-- the maps of a page table fit together, and its leaves have flags -/
structure PageTable.Ok (t : PageTable) : Prop where
  midLt : ∀ i, (t.mid i).isSome = true → i < 2 ^ 8
  lowMid : ∀ k, (t.low k).isSome = true → (t.mid (k / 512)).isSome = true
  pteLow : ∀ v, (t.pte v).isSome = true → (t.low (v / 512)).isSome = true
  leaf : ∀ v p, t.pte v = some p → p.perm ≠ ⟨false, false, false, false⟩

def PageTable.tables (t : PageTable) : Multiset Nat :=
  t.root ::ₘ (held (Finset.range 512) t.mid + held (Finset.range (512 * 512)) t.low)

def PageTable.page (t : PageTable) (v : Nat) : Option Nat := (t.pte v).map Pte.pa

def PageTable.leaves (t : PageTable) : Multiset Nat := held (Finset.range userTop) t.page

/-- the user pages are those below `n` -/
def PageTable.Upto (t : PageTable) (n : Nat) : Prop :=
  ∀ v < userTop, ((t.pte v).isSome = true ↔ v < n)

structure Space (T : Multiset Nat) (m : Mem) : Prop where
  ok : m.pt.Ok
  total : (m.free : Multiset Nat) + m.pt.tables + m.pt.leaves = T

structure Ram (kend : Nat) (T : Multiset Nat) : Prop where
  managed : ∀ pa ∈ T, Managed kend pa
  card : T.card ≤ 2 ^ 15

section
variable {kend va pa n v : Nat} {T T' : Multiset Nat} {m m' : Mem} {t : PageTable} {perm : Perm}
  {free : List Nat}

theorem userTop_eq : userTop = 2 ^ 26 - 2 := rfl

theorem Ram.mono (h : Ram kend T) (hle : T' ≤ T) : Ram kend T' :=
  ⟨fun pa hp => h.managed pa (Multiset.mem_of_le hle hp), (Multiset.card_le_card hle).trans h.card⟩

@[simp] theorem kalloc_cons : kalloc (pa :: free) = some (pa, free) := rfl

theorem kfree_eq (h : Managed kend pa) : kfree kend pa free = some (pa :: free) := by
  obtain ⟨h1, h2, h3⟩ := h
  unfold kfree
  rw [if_neg]
  omega

/-! ## `walk` -/

/-- `walk` adds page-table pages, and changes no leaf -/
structure Walked (m m' : Mem) : Prop where
  ok : m'.pt.Ok
  pte : m'.pt.pte = m.pt.pte
  total : (m'.free : Multiset Nat) + m'.pt.tables = m.free + m.pt.tables
  len : m'.free.length ≤ m.free.length

theorem Walked.refl (h : m.pt.Ok) : Walked m m := ⟨h, rfl, rfl, le_rfl⟩

theorem Walked.trans {m'' : Mem} (h : Walked m m') (h' : Walked m' m'') : Walked m m'' :=
  ⟨h'.ok, h'.pte.trans h.pte, h'.total.trans h.total, h'.len.trans h.len⟩

theorem Walked.space (hs : Space T m) (h : Walked m m') : Space T m' := by
  refine ⟨h.ok, ?_⟩
  have hl : m'.pt.leaves = m.pt.leaves := by
    unfold PageTable.leaves PageTable.page
    rw [h.pte]
  rw [h.total, hl]
  exact hs.total

theorem walked_mid (hok : m.pt.Ok) (hva : va < maxva) (hm : m.pt.mid (va / 2 ^ 30) = none)
    (hf : m.free = pa :: free) :
    Walked m ⟨free, { m.pt with mid := Function.update m.pt.mid (va / 2 ^ 30) (some pa) }⟩ := by
  have hlt : va / 2 ^ 30 < 2 ^ 8 := by
    unfold maxva at hva
    omega
  refine ⟨⟨fun i hi => ?_, fun k hk => ?_, hok.pteLow, hok.leaf⟩, rfl, ?_, ?_⟩
  · by_cases e : i = va / 2 ^ 30
    · rw [e]
      exact hlt
    · change (Function.update m.pt.mid (va / 2 ^ 30) (some pa) i).isSome = true at hi
      rw [Function.update_of_ne e] at hi
      exact hok.midLt i hi
  · show (Function.update m.pt.mid (va / 2 ^ 30) (some pa) (k / 512)).isSome = true
    by_cases e : k / 512 = va / 2 ^ 30
    · rw [e, Function.update_self]
      rfl
    · rw [Function.update_of_ne e]
      exact hok.lowMid k hk
  · rw [hf]
    unfold PageTable.tables
    dsimp only
    rw [held_fill (Finset.mem_range.mpr (by omega)) hm, Multiset.cons_add, ← Multiset.cons_coe,
      Multiset.cons_add, Multiset.add_cons, Multiset.add_cons, Multiset.add_cons]
    rw [Multiset.cons_swap]
  · rw [hf]
    exact Nat.le_succ _

theorem walkMid_spec (hok : m.pt.Ok) (hva : va < maxva) : ∃ m' b,
    walkMid m va true = (m', b) ∧ Walked m m' ∧
      (b = true → (m'.pt.mid (va / 2 ^ 30)).isSome = true) := by
  unfold walkMid
  cases hm : m.pt.mid (va / 2 ^ 30) with
  | some c =>
    refine ⟨m, true, rfl, .refl hok, fun _ => ?_⟩
    rw [hm]
    rfl
  | none =>
    dsimp only
    rw [if_pos rfl]
    cases hf : m.free with
    | nil => exact ⟨m, false, rfl, .refl hok, nofun⟩
    | cons pa free =>
      refine ⟨_, true, rfl, walked_mid hok hva hm hf, fun _ => ?_⟩
      dsimp only
      rw [Function.update_self]
      rfl

theorem walked_low (hok : m.pt.Ok) (hva : va < maxva)
    (hmid : (m.pt.mid (va / 2 ^ 30)).isSome = true) (hm : m.pt.low (va / 2 ^ 21) = none)
    (hf : m.free = pa :: free) :
    Walked m ⟨free, { m.pt with low := Function.update m.pt.low (va / 2 ^ 21) (some pa) }⟩ := by
  have hlt : va / 2 ^ 21 < 2 ^ 17 := by
    unfold maxva at hva
    omega
  have hdiv : va / 2 ^ 21 / 512 = va / 2 ^ 30 := by omega
  refine ⟨⟨hok.midLt, fun k hk => ?_, fun v hv => ?_, hok.leaf⟩, rfl, ?_, ?_⟩
  · by_cases e : k = va / 2 ^ 21
    · rw [e, hdiv]
      exact hmid
    · change (Function.update m.pt.low (va / 2 ^ 21) (some pa) k).isSome = true at hk
      rw [Function.update_of_ne e] at hk
      exact hok.lowMid k hk
  · show (Function.update m.pt.low (va / 2 ^ 21) (some pa) (v / 512)).isSome = true
    by_cases e : v / 512 = va / 2 ^ 21
    · rw [e, Function.update_self]
      rfl
    · rw [Function.update_of_ne e]
      exact hok.pteLow v hv
  · rw [hf]
    unfold PageTable.tables
    dsimp only
    rw [held_fill (Finset.mem_range.mpr (by omega)) hm, Multiset.add_cons, ← Multiset.cons_coe,
      Multiset.cons_add, Multiset.add_cons, Multiset.add_cons, Multiset.add_cons]
    rw [Multiset.cons_swap]
  · rw [hf]
    exact Nat.le_succ _

theorem walkLow_spec (hok : m.pt.Ok) (hva : va < maxva)
    (hmid : (m.pt.mid (va / 2 ^ 30)).isSome = true) : ∃ m' b,
    walkLow m va true = (m', b) ∧ Walked m m' ∧
      (b = true → (m'.pt.low (va / 2 ^ 21)).isSome = true) := by
  unfold walkLow
  cases hm : m.pt.low (va / 2 ^ 21) with
  | some c =>
    refine ⟨m, true, rfl, .refl hok, fun _ => ?_⟩
    rw [hm]
    rfl
  | none =>
    dsimp only
    rw [if_pos rfl]
    cases hf : m.free with
    | nil => exact ⟨m, false, rfl, .refl hok, nofun⟩
    | cons pa free =>
      refine ⟨_, true, rfl, walked_low hok hva hmid hm hf, fun _ => ?_⟩
      dsimp only
      rw [Function.update_self]
      rfl

theorem walk_spec (hok : m.pt.Ok) (hva : va < maxva) : ∃ m' b, walk m va true = some (m', b) ∧
    Walked m m' ∧ (b = true → (m'.pt.low (va / 2 ^ 21)).isSome = true) := by
  obtain ⟨u, b, hw, h1, h2⟩ := walkMid_spec hok hva
  unfold walk
  rw [if_neg (not_le.mpr hva), hw]
  cases b with
  | false => exact ⟨u, false, rfl, h1, nofun⟩
  | true =>
    obtain ⟨m', b, hw', h3, h4⟩ := walkLow_spec h1.ok hva (h2 rfl)
    refine ⟨m', b, ?_, h1.trans h3, h4⟩
    dsimp only
    rw [hw']

theorem PageTable.Ok.path (hok : t.Ok) (hp : (t.pte (va / pgsize)).isSome = true) :
    ∃ c d, t.mid (va / 2 ^ 30) = some c ∧ t.low (va / 2 ^ 21) = some d := by
  have hl := hok.pteLow _ hp
  have hm := hok.lowMid _ hl
  rw [show va / pgsize / 512 = va / 2 ^ 21 by unfold pgsize; omega] at hl hm
  rw [show va / 2 ^ 21 / 512 = va / 2 ^ 30 by omega] at hm
  obtain ⟨c, hc⟩ := Option.isSome_iff_exists.mp hm
  obtain ⟨d, hd⟩ := Option.isSome_iff_exists.mp hl
  exact ⟨c, d, hc, hd⟩

/-- `walk` finds a leaf -/
theorem walk_find (hok : m.pt.Ok) (hva : va < maxva)
    (hp : (m.pt.pte (va / pgsize)).isSome = true) : walk m va false = some (m, true) := by
  obtain ⟨c, d, hc, hd⟩ := hok.path hp
  unfold walk walkMid walkLow
  rw [if_neg (not_le.mpr hva), hc]
  dsimp only
  rw [hd]

/-! ## `mappages` -/

@[simp] theorem setPte_self {a : Nat} (x : Option Pte) : (m.setPte a x).pt.pte (a / pgsize) = x :=
  Function.update_self ..

theorem setPte_of_ne (x : Option Pte) (h : v ≠ va / pgsize) :
    (m.setPte va x).pt.pte v = m.pt.pte v := Function.update_of_ne h _ _

theorem mappages_one (hal : va % pgsize = 0) (pa : Nat) (perm : Perm) :
    mappages m va pgsize pa perm = mappagesLoop perm 1 m va pa := by
  have ha : pgrounddown va = va := by
    unfold pgrounddown pgsize at *
    omega
  have hl : pgrounddown (va + pgsize - 1) = va := by
    unfold pgrounddown pgsize
    unfold pgsize at hal
    omega
  unfold mappages
  rw [if_neg (by unfold pgsize; omega)]
  dsimp only
  rw [ha, hl, Nat.sub_self, Nat.zero_div]

/-- a page that is not mapped gets a leaf, or there is no page for the page table -/
theorem mappages_spec (hok : m.pt.Ok) (hal : va % pgsize = 0) (hva : va < maxva)
    (hno : m.pt.pte (va / pgsize) = none) (hperm : perm ≠ ⟨false, false, false, false⟩) (pa : Nat) :
    ∃ m', Walked m m' ∧ (mappages m va pgsize pa perm = some (m', false) ∨
      mappages m va pgsize pa perm = some (m'.setPte va (some ⟨pa, perm⟩), true) ∧
        (m'.setPte va (some ⟨pa, perm⟩)).pt.Ok) := by
  obtain ⟨m', b, hw, hwalk, hlow⟩ := walk_spec hok hva
  refine ⟨m', hwalk, ?_⟩
  rw [mappages_one hal]
  unfold mappagesLoop
  rw [hw]
  cases b with
  | false => exact Or.inl rfl
  | true =>
    refine Or.inr ⟨?_, hwalk.ok.midLt, hwalk.ok.lowMid, fun v hv => ?_, fun v p hv => ?_⟩
    · dsimp only
      rw [hwalk.pte, hno, if_neg (by exact nofun)]
      rfl
    · by_cases e : v = va / pgsize
      · rw [e, show va / pgsize / 512 = va / 2 ^ 21 by unfold pgsize; omega]
        exact hlow rfl
      · rw [setPte_of_ne _ e] at hv
        exact hwalk.ok.pteLow v hv
    · by_cases e : v = va / pgsize
      · rw [e, setPte_self] at hv
        obtain rfl := Option.some.inj hv
        exact hperm
      · rw [setPte_of_ne _ e] at hv
        exact hwalk.ok.leaf v p hv

/-! ## leaves -/

theorem page_setPte (x : Option Pte) : (m.setPte va x).pt.page =
    Function.update m.pt.page (va / pgsize) (x.map Pte.pa) := by
  funext v
  by_cases e : v = va / pgsize
  · rw [e, Function.update_self]
    exact congrArg _ (Function.update_self ..)
  · rw [Function.update_of_ne e]
    exact congrArg _ (Function.update_of_ne e _ _)

theorem Space.map (hs : Space T m) (hv : va / pgsize < userTop)
    (hno : m.pt.pte (va / pgsize) = none) (hok : (m.setPte va (some ⟨pa, perm⟩)).pt.Ok) :
    Space (pa ::ₘ T) (m.setPte va (some ⟨pa, perm⟩)) := by
  refine ⟨hok, ?_⟩
  have hl : (m.setPte va (some ⟨pa, perm⟩)).pt.leaves = pa ::ₘ m.pt.leaves := by
    unfold PageTable.leaves
    rw [page_setPte]
    refine held_fill (Finset.mem_range.mpr hv) ?_
    unfold PageTable.page
    rw [hno]
    rfl
  rw [hl, Multiset.add_cons]
  exact congrArg _ hs.total

theorem setPte_none_ok (hok : m.pt.Ok) : (m.setPte va none).pt.Ok := by
  refine ⟨hok.midLt, hok.lowMid, fun v hv => ?_, fun v p hv => ?_⟩
  · by_cases e : v = va / pgsize
    · rw [e, setPte_self] at hv
      exact absurd hv nofun
    · rw [setPte_of_ne _ e] at hv
      exact hok.pteLow v hv
  · by_cases e : v = va / pgsize
    · rw [e, setPte_self] at hv
      exact absurd hv nofun
    · rw [setPte_of_ne _ e] at hv
      exact hok.leaf v p hv

theorem Space.unmap {pte : Pte} (hs : Space T m) (hv : va / pgsize < userTop)
    (hp : m.pt.pte (va / pgsize) = some pte) :
    Space T (({ m with free := pte.pa :: m.free } : Mem).setPte va none) := by
  refine ⟨setPte_none_ok (m := { m with free := pte.pa :: m.free }) hs.ok, ?_⟩
  have hl : pte.pa ::ₘ (({ m with free := pte.pa :: m.free } : Mem).setPte va none).pt.leaves =
      m.pt.leaves := by
    unfold PageTable.leaves
    rw [page_setPte]
    refine held_clear (Finset.mem_range.mpr hv) ?_
    show (m.pt.pte (va / pgsize)).map Pte.pa = _
    rw [hp]
    rfl
  rw [← hs.total, ← hl]
  show ((pte.pa :: m.free : List Nat) : Multiset Nat) + m.pt.tables + _ = _
  rw [← Multiset.cons_coe, Multiset.cons_add, Multiset.cons_add, Multiset.add_cons]

theorem Space.clearTop (hs : Space T m) (hv : userTop ≤ va / pgsize) : Space T (m.setPte va none) := by
  refine ⟨setPte_none_ok hs.ok, ?_⟩
  have hl : (m.setPte va none).pt.leaves = m.pt.leaves := by
    unfold PageTable.leaves
    rw [page_setPte]
    refine held_congr (fun v hv' => Function.update_of_ne ?_ _ _)
    have hlt := Finset.mem_range.mp hv'
    omega
  rw [hl]
  exact hs.total

theorem Space.setTop (hs : Space T m) (hv : userTop ≤ va / pgsize)
    (hok : (m.setPte va (some ⟨pa, perm⟩)).pt.Ok) : Space T (m.setPte va (some ⟨pa, perm⟩)) := by
  refine ⟨hok, ?_⟩
  have hl : (m.setPte va (some ⟨pa, perm⟩)).pt.leaves = m.pt.leaves := by
    unfold PageTable.leaves
    rw [page_setPte]
    refine held_congr (fun v hv' => Function.update_of_ne ?_ _ _)
    have hlt := Finset.mem_range.mp hv'
    omega
  rw [hl]
  exact hs.total

theorem le_card_leaves {k : Nat} (hk : k ≤ userTop) (h : ∀ v < k, (t.pte v).isSome = true) :
    k ≤ t.leaves.card := by
  have hsub : Finset.range k ⊆
      (Finset.range userTop).filter (fun v => (t.page v).isSome = true) := by
    intro v hv
    have hv' := Finset.mem_range.mp hv
    refine Finset.mem_filter.mpr ⟨Finset.mem_range.mpr (hv'.trans_le hk), ?_⟩
    unfold PageTable.page
    rw [Option.isSome_map]
    exact h v hv'
  unfold PageTable.leaves
  rw [card_held]
  exact (Finset.card_range k).symm.le.trans (Finset.card_le_card hsub)

/-- there are no more user pages than pages -/
theorem Space.upto_le (hs : Space T m) (hr : Ram kend T) (hn : m.pt.Upto n) : n ≤ 2 ^ 15 := by
  by_contra hlt
  have htop : 2 ^ 15 + 1 ≤ userTop := by
    rw [userTop_eq]
    omega
  have hle := le_card_leaves htop (fun v hv => (hn v (hv.trans_le htop)).mpr (by omega))
  have hcard : m.pt.leaves.card ≤ T.card := by
    rw [← hs.total, Multiset.card_add]
    exact Nat.le_add_left _ _
  have hram := hr.card
  omega

theorem Space.managed {pte : Pte} (hs : Space T m) (hr : Ram kend T) (hv : v < userTop)
    (hp : m.pt.pte v = some pte) : Managed kend pte.pa := by
  have hpage : m.pt.page v = some pte.pa := by
    unfold PageTable.page
    rw [hp]
    rfl
  have hl : pte.pa ∈ m.pt.leaves := by
    unfold PageTable.leaves
    rw [mem_held]
    exact ⟨v, Finset.mem_range.mpr hv, hpage⟩
  refine hr.managed _ ?_
  rw [← hs.total]
  exact Multiset.mem_add.mpr (Or.inr hl)

end

end Vm
