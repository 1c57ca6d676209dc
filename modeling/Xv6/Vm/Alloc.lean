import Xv6.Vm.Space

/-!
# Growing and shrinking a process (`uvmunmap`, `uvmdealloc`, `uvmalloc`)

User pages are counted from 0: a process of size `sz` has the first `pages sz` of them.
-/

namespace Vm
open Lib

/-- the number of pages of `[0, PGROUNDUP(sz))` -/
def pages (sz : Nat) : Nat := (sz + (pgsize - 1)) / pgsize

/-- the leaves from page `i` on, `n` of them, are gone -/
def Cleared (i n : Nat) (t t' : PageTable) : Prop :=
  ∀ v, t'.pte v = if i ≤ v ∧ v < i + n then none else t.pte v

/-- the leaves above the user pages are the same -/
def SameTop (m m' : Mem) : Prop := ∀ v, userTop ≤ v → m'.pt.pte v = m.pt.pte v

/-- user code may read every user page -/
def PageTable.User (t : PageTable) : Prop :=
  ∀ v < userTop, ∀ p, t.pte v = some p → p.perm.r = true ∧ p.perm.u = true

section
variable {kend va pa i k n v sz newsz oldsz fuel : Nat} {T : Multiset Nat} {m m' m'' : Mem}
  {t t' : PageTable} {free : List Nat} {w x : Bool}

/-! ## sizes and pages -/

theorem pages_zero : pages 0 = 0 := by
  unfold pages pgsize
  omega

theorem pages_mul (n : Nat) : pages (n * pgsize) = n := by
  unfold pages pgsize
  omega

theorem pages_mono (h : sz ≤ newsz) : pages sz ≤ pages newsz := by
  unfold pages
  exact Nat.div_le_div_right (by omega)

theorem pages_le : pages sz ≤ n ↔ sz ≤ n * pgsize := by
  unfold pages pgsize
  omega

theorem lt_pages : n < pages sz ↔ n * pgsize < sz := by
  rw [← not_le, pages_le, not_le]

theorem le_of_pages (h : pages sz ≤ 2 ^ 15) : sz ≤ 2 ^ 27 := by
  unfold pages pgsize at h
  omega

theorem pgroundup_eq (h : sz ≤ 2 ^ 27) : pgroundup sz = pages sz * pgsize := by
  unfold pgroundup pages pgsize
  omega

theorem lt_pgroundup (h : sz ≤ 2 ^ 27) : v * pgsize < pgroundup sz ↔ v < pages sz := by
  rw [pgroundup_eq h]
  unfold pgsize
  omega

theorem mul_div_pgsize : i * pgsize / pgsize = i := by
  unfold pgsize
  omega

theorem mul_mod_pgsize : i * pgsize % pgsize = 0 := by
  unfold pgsize
  omega

theorem succ_mul_pgsize : i * pgsize + pgsize = (i + 1) * pgsize := (Nat.succ_mul i pgsize).symm

theorem mul_lt_maxva (h : i < userTop + 2) : i * pgsize < maxva := by
  rw [userTop_eq] at h
  unfold maxva pgsize
  omega

theorem lt_userTop (h : i ≤ 2 ^ 15) : i < userTop := by
  rw [userTop_eq]
  omega

@[simp] theorem setPte_page (m : Mem) (i : Nat) (y : Option Pte) :
    (m.setPte (i * pgsize) y).pt.pte i = y := by
  have hself := setPte_self (m := m) (a := i * pgsize) y
  rw [mul_div_pgsize] at hself
  exact hself

theorem setPte_page_of_ne (y : Option Pte) (h : v ≠ i) :
    (m.setPte (i * pgsize) y).pt.pte v = m.pt.pte v :=
  setPte_of_ne y (by rw [mul_div_pgsize]; exact h)

/-! ## leaves that are gone -/

theorem Cleared.upto (h : Cleared i n t t') (hk : t.Upto (i + n)) : t'.Upto i := by
  intro v hv
  rw [h v]
  by_cases e : i ≤ v ∧ v < i + n
  · rw [if_pos e]
    exact ⟨nofun, fun hlt => absurd hlt (not_lt.mpr e.1)⟩
  · rw [if_neg e, hk v hv]
    omega

theorem Cleared.sameTop (h : Cleared i n m.pt m'.pt) (hk : i + n ≤ userTop) : SameTop m m' := by
  intro v hv
  rw [h v, if_neg]
  omega

theorem Cleared.user (h : Cleared i n t t') (hu : t.User) : t'.User := by
  intro v hv p hp
  rw [h v] at hp
  by_cases e : i ≤ v ∧ v < i + n
  · rw [if_pos e] at hp
    exact absurd hp nofun
  · rw [if_neg e] at hp
    exact hu v hv p hp

theorem SameTop.refl : SameTop m m := fun _ _ => rfl

theorem SameTop.trans (h : SameTop m m') (h' : SameTop m' m'') : SameTop m m'' :=
  fun v hv => (h' v hv).trans (h v hv)

theorem Walked.sameTop (h : Walked m m') : SameTop m m' := fun v _ => congrFun h.pte v

theorem SameTop.setPte {y : Option Pte} (hv : i < userTop) : SameTop m (m.setPte (i * pgsize) y) := by
  intro v hv'
  refine setPte_page_of_ne _ ?_
  omega

/-! ## `uvmunmap` -/

/-- mapped user pages go to the free list -/
theorem uvmunmapLoop_spec (hs : Space T m) (hr : Ram kend T) (hn : i + n ≤ userTop)
    (hm : ∀ v, i ≤ v → v < i + n → (m.pt.pte v).isSome = true) :
    ∃ m', uvmunmapLoop kend true n m (i * pgsize) = some m' ∧ Space T m' ∧
      Cleared i n m.pt m'.pt := by
  induction n generalizing m i with
  | zero =>
    refine ⟨m, rfl, hs, fun v => ?_⟩
    rw [if_neg]
    omega
  | succ n ih =>
    have hdiv := mul_div_pgsize (i := i)
    have hi : i * pgsize / pgsize < userTop := by
      rw [hdiv]
      omega
    have hsome : (m.pt.pte (i * pgsize / pgsize)).isSome = true := by
      rw [hdiv]
      exact hm i le_rfl (by omega)
    obtain ⟨pte, hp⟩ := Option.isSome_iff_exists.mp hsome
    have hfree : kfree kend pte.pa m.free = some (pte.pa :: m.free) :=
      kfree_eq (hs.managed hr hi hp)
    have hs1 := hs.unmap hi hp
    obtain ⟨m', hl, hs', hc⟩ := ih (i := i + 1) hs1 (by omega) (fun v h1 h2 => by
      rw [setPte_page_of_ne _ (by omega)]
      exact hm v (by omega) (by omega))
    refine ⟨m', ?_, hs', fun v => ?_⟩
    · unfold uvmunmapLoop
      rw [walk_find hs.ok (mul_lt_maxva (by omega)) hsome]
      dsimp only
      rw [hp]
      dsimp only
      rw [if_neg (hs.ok.leaf _ _ hp), if_pos rfl, hfree, succ_mul_pgsize]
      exact hl
    · rw [hc v]
      by_cases e : v = i
      · rw [e, if_neg (by omega), if_pos (by omega)]
        exact setPte_page _ i none
      · rw [setPte_page_of_ne _ e]
        by_cases e' : i ≤ v ∧ v < i + (n + 1)
        · rw [if_pos e', if_pos (by omega)]
        · rw [if_neg e', if_neg (by omega)]

theorem uvmunmap_spec (hs : Space T m) (hr : Ram kend T) (hu : m.pt.Upto (i + n)) :
    ∃ m', uvmunmap kend m (i * pgsize) n true = some m' ∧ Space T m' ∧
      Cleared i n m.pt m'.pt := by
  have hle := hs.upto_le hr hu
  obtain ⟨m', hl, h⟩ := uvmunmapLoop_spec hs hr (lt_userTop hle).le
    (fun v _ hv => (hu v (hv.trans (lt_userTop hle))).mpr hv)
  refine ⟨m', ?_, h⟩
  unfold uvmunmap
  rw [if_neg (not_not.mpr mul_mod_pgsize)]
  exact hl

/-- a leaf that is not a user page is unmapped, and its page stays -/
theorem uvmunmap_top (hs : Space T m) (hv : userTop ≤ i) (hi : i < userTop + 2)
    (hp : (m.pt.pte i).isSome = true) (kend : Nat) :
    uvmunmap kend m (i * pgsize) 1 false = some (m.setPte (i * pgsize) none) ∧
      Space T (m.setPte (i * pgsize) none) := by
  have hdiv := mul_div_pgsize (i := i)
  refine ⟨?_, hs.clearTop (by rw [hdiv]; exact hv)⟩
  obtain ⟨pte, hp⟩ := Option.isSome_iff_exists.mp hp
  rw [← hdiv] at hp
  have hf : walk m (i * pgsize) false = some (m, true) :=
    walk_find hs.ok (mul_lt_maxva hi) (by rw [hp]; rfl)
  unfold uvmunmap uvmunmapLoop
  rw [if_neg (not_not.mpr mul_mod_pgsize), hf]
  dsimp only
  rw [hp]
  dsimp only
  rw [if_neg (hs.ok.leaf _ _ hp), if_neg nofun]
  rfl

/-- `m'` has `n` user pages, and is otherwise like `m` -/
structure Resized (T : Multiset Nat) (n : Nat) (m m' : Mem) : Prop where
  space : Space T m'
  upto : m'.pt.Upto n
  top : SameTop m m'
  user : m.pt.User → m'.pt.User

theorem Resized.refl (hs : Space T m) (hu : m.pt.Upto n) : Resized T n m m :=
  ⟨hs, hu, .refl, id⟩

theorem Resized.trans (h : Resized T k m m') (h' : Resized T n m' m'') : Resized T n m m'' :=
  ⟨h'.space, h'.upto, h.top.trans h'.top, fun hu => h'.user (h.user hu)⟩

/-- all user pages are unmapped -/
theorem uvmunmap_all (hs : Space T m) (hr : Ram kend T) (hu : m.pt.Upto n) :
    ∃ m', uvmunmap kend m 0 n true = some m' ∧ Resized T 0 m m' := by
  have hle := hs.upto_le hr hu
  rw [← zero_add n] at hu
  obtain ⟨m', he, hs', hc⟩ := uvmunmap_spec hs hr hu
  rw [Nat.zero_mul] at he
  refine ⟨m', he, hs', hc.upto hu, hc.sameTop ?_, hc.user⟩
  rw [zero_add]
  exact (lt_userTop hle).le

/-! ## `uvmdealloc` -/

theorem uvmdealloc_spec (hs : Space T m) (hr : Ram kend T) (hu : m.pt.Upto (pages oldsz))
    (newsz : Nat) :
    ∃ m', uvmdealloc kend m oldsz newsz = some (m', min oldsz newsz) ∧
      Resized T (pages (min oldsz newsz)) m m' := by
  have hle := hs.upto_le hr hu
  unfold uvmdealloc
  by_cases h : oldsz ≤ newsz
  · rw [if_pos h, min_eq_left h]
    exact ⟨m, rfl, .refl hs hu⟩
  · have hnew : newsz ≤ oldsz := (not_le.mp h).le
    have hold := le_of_pages hle
    have hmono := pages_mono hnew
    rw [if_neg h, min_eq_right hnew, pgroundup_eq hold, pgroundup_eq (hnew.trans hold)]
    by_cases hlt : pages newsz * pgsize < pages oldsz * pgsize
    · have hn : (pages oldsz * pgsize - pages newsz * pgsize) / pgsize =
          pages oldsz - pages newsz := by
        rw [← Nat.sub_mul]
        exact mul_div_pgsize
      have hsum : pages newsz + (pages oldsz - pages newsz) = pages oldsz := by omega
      rw [← hsum] at hu
      obtain ⟨m', he, hs', hc⟩ := uvmunmap_spec hs hr hu
      rw [if_pos hlt]
      dsimp only
      rw [hn, he]
      refine ⟨m', rfl, hs', hc.upto hu, hc.sameTop ?_, hc.user⟩
      rw [hsum]
      exact (lt_userTop hle).le
    · have heq : pages oldsz = pages newsz := by
        unfold pgsize at hlt
        omega
      rw [if_neg hlt]
      rw [heq] at hu
      exact ⟨m, rfl, .refl hs hu⟩

/-! ## `uvmalloc` -/

theorem Space.kalloc (hs : Space T m) (hf : m.free = pa :: free) :
    ∃ T', T = pa ::ₘ T' ∧ Space T' { m with free := free } := by
  refine ⟨free + m.pt.tables + m.pt.leaves, ?_, hs.ok, rfl⟩
  rw [← hs.total, hf, ← Multiset.cons_coe, Multiset.cons_add, Multiset.cons_add]

theorem Space.kfree (hs : Space T m) (pa : Nat) :
    Space (pa ::ₘ T) { m with free := pa :: m.free } := by
  refine ⟨hs.ok, ?_⟩
  rw [← hs.total, ← Multiset.cons_coe, Multiset.cons_add, Multiset.cons_add]

theorem Walked.grow {p : Pte} (h : Walked m m') (hu : m.pt.Upto i) :
    (m'.setPte (i * pgsize) (some p)).pt.Upto (i + 1) := by
  intro v hv
  by_cases e : v = i
  · rw [e, setPte_page]
    exact iff_of_true rfl (Nat.lt_succ_self i)
  · rw [setPte_page_of_ne _ e, h.pte, hu v hv]
    omega

/-- the loop of `uvmalloc` and of `uvmcopy` takes a page and maps it; where one of the two fails,
nothing is mapped -/
theorem grow_spec {perm : Perm} (hs : Space T m) (hr : Ram kend T) (hu : m.pt.Upto i)
    (hf : m.free = pa :: free) (hperm : perm ≠ ⟨false, false, false, false⟩) : ∃ m',
    (mappages { m with free := free } (i * pgsize) pgsize pa perm = some (m', false) ∧
        kfree kend pa m'.free = some (pa :: m'.free) ∧
        Resized T i m { m' with free := pa :: m'.free } ∨
      mappages { m with free := free } (i * pgsize) pgsize pa perm = some (m', true) ∧
        Space T m' ∧ m'.pt.Upto (i + 1) ∧ SameTop m m' ∧
        (perm.r = true → perm.u = true → m.pt.User → m'.pt.User)) ∧
    m'.free.length < m.free.length := by
  have hi := lt_userTop (hs.upto_le hr hu)
  have hdiv := mul_div_pgsize (i := i)
  obtain ⟨T', rfl, hs1⟩ := hs.kalloc hf
  have hno : m.pt.pte (i * pgsize / pgsize) = none := by
    rw [hdiv]
    refine Option.not_isSome_iff_eq_none.mp (fun h => ?_)
    exact absurd ((hu i hi).mp h) (lt_irrefl i)
  have hlen : free.length < m.free.length := by
    rw [hf]
    exact Nat.lt_succ_self _
  obtain ⟨m', hwalk, hfail | ⟨hok, hok'⟩⟩ :=
    mappages_spec hs1.ok mul_mod_pgsize (mul_lt_maxva (by omega)) hno hperm pa
  · refine ⟨m', Or.inl ⟨hfail, kfree_eq (hr.managed pa (Multiset.mem_cons_self _ _)), ?_⟩,
      hwalk.len.trans_lt hlen⟩
    refine ⟨(hwalk.space hs1).kfree pa, ?_, hwalk.sameTop, ?_⟩
    · unfold PageTable.Upto
      dsimp only
      rw [hwalk.pte]
      exact hu
    · unfold PageTable.User
      dsimp only
      rw [hwalk.pte]
      exact id
  · refine ⟨_, Or.inr ⟨hok, ?_, hwalk.grow hu, ?_, ?_⟩, hwalk.len.trans_lt hlen⟩
    · refine (hwalk.space hs1).map ?_ ?_ hok'
      · rw [hdiv]
        exact hi
      · rw [hwalk.pte]
        exact hno
    · exact SameTop.trans hwalk.sameTop (.setPte hi)
    · intro h1 h2 huser v hv p hp
      by_cases e : v = i
      · rw [e, setPte_page] at hp
        obtain rfl := Option.some.inj hp
        exact ⟨h1, h2⟩
      · rw [setPte_page_of_ne _ e, hwalk.pte] at hp
        exact huser v hv p hp

theorem uvmallocLoop_spec (hs : Space T m) (hr : Ram kend T) (hu : m.pt.Upto i) (hk : k ≤ i)
    (hi : i ≤ max k (pages newsz)) (hfuel : m.free.length < fuel) : ∃ m' r,
    uvmallocLoop kend (k * pgsize) newsz ⟨true, w, x, true⟩ fuel m (i * pgsize) = some (m', r) ∧
      (r = newsz ∧ Resized T (max k (pages newsz)) m m' ∨ r = 0 ∧ Resized T k m m') := by
  induction fuel generalizing m i with
  | zero => exact absurd hfuel (Nat.not_lt_zero _)
  | succ fuel ih =>
    -- pages `k` to `i` are given back
    have hundo : ∀ u, Resized T i m u → ∃ m' r,
        (uvmdealloc kend u (i * pgsize) (k * pgsize)).map (fun r => (r.1, 0)) = some (m', r) ∧
          (r = newsz ∧ Resized T (max k (pages newsz)) m m' ∨ r = 0 ∧ Resized T k m m') := by
      intro u hres
      have hu' := hres.upto
      rw [← pages_mul i] at hu'
      obtain ⟨m', he, hres'⟩ := uvmdealloc_spec hres.space hr hu' (k * pgsize)
      rw [min_eq_right (Nat.mul_le_mul_right _ hk), pages_mul] at hres'
      rw [he]
      exact ⟨m', 0, rfl, Or.inr ⟨rfl, hres.trans hres'⟩⟩
    unfold uvmallocLoop
    by_cases ha : i * pgsize < newsz
    · rw [if_pos ha]
      have hlt : i < pages newsz := lt_pages.mpr ha
      cases hf : m.free with
      | nil => exact hundo m (.refl hs hu)
      | cons pa free =>
        obtain ⟨u, ⟨he, hfr, hres⟩ | ⟨he, hs', hu', htop, huser⟩, hlen⟩ :=
          grow_spec hs hr hu hf (show (⟨true, w, x, true⟩ : Perm) ≠ _ from nofun)
        · rw [kalloc_cons]
          dsimp only
          rw [he]
          dsimp only
          rw [hfr]
          exact hundo _ hres
        · obtain ⟨m', r, hl, h⟩ := ih hs' hu' (by omega) (by omega) (by omega)
          refine ⟨m', r, ?_, ?_⟩
          · rw [kalloc_cons]
            dsimp only
            rw [he, ← hl, ← succ_mul_pgsize]
          · have hstep : ∀ j, Resized T j u m' → Resized T j m m' := fun j hj =>
              ⟨hj.space, hj.upto, htop.trans hj.top, fun hus => hj.user (huser rfl rfl hus)⟩
            exact h.imp (And.imp_right (hstep _)) (And.imp_right (hstep _))
    · rw [if_neg ha]
      have hpg : pages newsz ≤ i := pages_le.mpr (not_lt.mp ha)
      refine ⟨m, newsz, rfl, Or.inl ⟨rfl, .refl hs ?_⟩⟩
      rw [show max k (pages newsz) = i by omega]
      exact hu

/-- `uvmalloc` gives the size asked for, or 0 and what there was -/
theorem uvmalloc_spec (hs : Space T m) (hr : Ram kend T) (hu : m.pt.Upto (pages oldsz))
    (newsz : Nat) :
    ∃ m' r, uvmalloc kend m oldsz newsz w x = some (m', r) ∧
      (r = max oldsz newsz ∧ Resized T (pages r) m m' ∨ r = 0 ∧ Resized T (pages oldsz) m m') := by
  have hle := hs.upto_le hr hu
  unfold uvmalloc
  by_cases h : newsz < oldsz
  · rw [if_pos h]
    refine ⟨m, oldsz, rfl, Or.inl ⟨(max_eq_left h.le).symm, .refl hs hu⟩⟩
  · have hmax : max (pages oldsz) (pages newsz) = pages newsz :=
      max_eq_right (pages_mono (not_lt.mp h))
    rw [if_neg h, pgroundup_eq (le_of_pages hle)]
    obtain ⟨m', r, he, hres⟩ := uvmallocLoop_spec hs hr hu le_rfl (le_max_left _ _)
      (Nat.lt_succ_self _)
    refine ⟨m', r, he, hres.imp_left ?_⟩
    rintro ⟨rfl, hres⟩
    rw [hmax] at hres
    exact ⟨(max_eq_right (not_lt.mp h)).symm, hres⟩

end

end Vm
