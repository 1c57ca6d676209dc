import Xv6.Vm.Free

/-!
# Loading a program (`loadseg`, the program headers, `uvmclear`)

No page that `loadseg` or `uvmclear` looks for is missing.
-/

namespace Vm
open Lib

section
variable {kend trampoline tf pa i k n v va sz newsz offset : Nat} {T : Multiset Nat} {m m' : Mem}
  {t : PageTable} {img : Image}

/-! ## `loadseg` -/

theorem walkaddr_eq {pte : Pte} (hok : t.Ok) (hva : va < maxva)
    (hp : t.pte (va / pgsize) = some pte) (hu : pte.perm.u = true) :
    walkaddr t va = some pte.pa := by
  obtain ⟨c, d, hc, hd⟩ := hok.path (show (t.pte (va / pgsize)).isSome = true by rw [hp]; rfl)
  unfold walkaddr
  rw [if_neg (not_le.mpr hva), hc, hd, hp]
  dsimp only
  rw [if_pos hu]

/-- below the size, every page is there -/
theorem walkaddr_user (hok : t.Ok) (huser : t.User) (hu : t.Upto (pages sz))
    (hsz : pages sz ≤ 2 ^ 15) (hva : va < sz) : ∃ pa, walkaddr t va = some pa := by
  have hlt : va / pgsize < pages sz := by
    unfold pages pgsize
    omega
  have htop := lt_userTop (hlt.le.trans hsz)
  obtain ⟨pte, hp⟩ := Option.isSome_iff_exists.mp ((hu _ htop).mpr hlt)
  refine ⟨pte.pa, walkaddr_eq hok ?_ hp (huser _ htop pte hp).2⟩
  have hle := le_of_pages hsz
  unfold maxva
  omega

theorem loadsegLoop_spec (hok : t.Ok) (huser : t.User) (hu : t.Upto (pages newsz))
    (hle : pages newsz ≤ 2 ^ 15) (hva : va + sz ≤ newsz) (hk : k = 0 ∨ i + (k - 1) * pgsize < sz) :
    ∃ b, loadsegLoop t va img offset sz k i = some b := by
  induction k generalizing i with
  | zero => exact ⟨true, rfl⟩
  | succ k ih =>
    have hlast : i + k * pgsize < sz := hk.resolve_left (Nat.succ_ne_zero k)
    obtain ⟨pa, hw⟩ := walkaddr_user hok huser hu hle (show va + i < newsz by omega)
    unfold loadsegLoop
    rw [hw]
    dsimp only
    by_cases hread : img.read (offset + i) (if sz - i < pgsize then sz - i else pgsize) = true
    · rw [if_pos hread]
      refine ih ?_
      cases k with
      | zero => exact Or.inl rfl
      | succ k =>
        refine Or.inr ?_
        rw [Nat.succ_mul] at hlast
        rw [Nat.add_sub_cancel]
        omega
    · rw [if_neg hread]
      exact ⟨false, rfl⟩

theorem loadseg_spec (hok : t.Ok) (huser : t.User) (hu : t.Upto (pages newsz))
    (hle : pages newsz ≤ 2 ^ 15) (hva : va + sz ≤ newsz)
    (img : Image) (offset : Nat) : ∃ b, loadseg t va img offset sz = some b := by
  have hmod : sz % 2 ^ 32 ≤ sz := Nat.mod_le _ _
  refine loadsegLoop_spec hok huser hu hle (by omega) ?_
  by_cases h : sz % 2 ^ 32 = 0
  · refine Or.inl ?_
    rw [h]
    unfold pgsize
    omega
  · refine Or.inr ?_
    unfold pgsize
    omega

/-! ## program headers -/

theorem toNat_add_of_le {a b : UInt64} (h : ¬ a + b < a) : (a + b).toNat = a.toNat + b.toNat := by
  rw [UInt64.lt_iff_toNat_lt, UInt64.toNat_add] at h
  rw [UInt64.toNat_add]
  have ha := a.toNat_lt
  have hb := b.toNat_lt
  omega

/-- the loop of `exec` over program headers keeps the address space whole -/
theorem loadLoop_spec (img : Image) (l : List Nat) (h : Complete T trampoline tf (pages sz) m)
    (hr : Ram kend T) (huser : m.pt.User) : ∃ m' sz' b,
    loadLoop kend img l m sz = some (m', sz', b) ∧ Complete T trampoline tf (pages sz') m' ∧
      m'.pt.User := by
  induction l generalizing m sz with
  | nil => exact ⟨m, sz, true, rfl, h, huser⟩
  | cons i l ih =>
    unfold loadLoop
    cases img.ph i with
    | none => exact ⟨m, sz, false, rfl, h, huser⟩
    | some ph =>
      dsimp only
      by_cases htype : ph.type ≠ 1
      · rw [if_pos htype]
        exact ih h huser
      rw [if_neg htype]
      by_cases hmem : ph.memsz < ph.filesz
      · rw [if_pos hmem]
        exact ⟨m, sz, false, rfl, h, huser⟩
      rw [if_neg hmem]
      by_cases hover : ph.vaddr + ph.memsz < ph.vaddr
      · rw [if_pos hover]
        exact ⟨m, sz, false, rfl, h, huser⟩
      rw [if_neg hover]
      by_cases hal : ph.vaddr.toNat % pgsize ≠ 0
      · rw [if_pos hal]
        exact ⟨m, sz, false, rfl, h, huser⟩
      rw [if_neg hal]
      obtain ⟨u, r, he, hres⟩ := uvmalloc_spec (w := (flags2perm ph.flags).1)
        (x := (flags2perm ph.flags).2) h.space hr h.upto (ph.vaddr + ph.memsz).toNat
      rw [he]
      cases r with
      | zero =>
        refine ⟨u, sz, false, rfl, ?_⟩
        rcases hres with ⟨hmax, hres⟩ | ⟨-, hres⟩
        · have hsz : sz = 0 := by omega
          rw [← hsz] at hres
          exact ⟨hres.complete h, hres.user huser⟩
        · exact ⟨hres.complete h, hres.user huser⟩
      | succ r =>
        obtain ⟨hmax, hres⟩ | ⟨h0, -⟩ := hres
        · have huser' := hres.user huser
          have hsum := toNat_add_of_le hover
          have hfile : ph.filesz.toNat ≤ ph.memsz.toNat :=
            UInt64.le_iff_toNat_le.mp (UInt64.not_lt.mp hmem)
          have hle : ph.vaddr.toNat + ph.filesz.toNat ≤ r + 1 := by omega
          obtain ⟨b, hload⟩ := loadseg_spec hres.space.ok huser' hres.upto
            (hres.space.upto_le hr hres.upto) hle img ph.off.toNat
          simp only [hload]
          cases b with
          | false => exact ⟨u, r + 1, false, rfl, hres.complete h, huser'⟩
          | true => exact ih (hres.complete h) huser'
        · exact absurd h0 (Nat.succ_ne_zero r)

/-! ## `uvmclear` -/

theorem Space.protect {pte : Pte} {perm : Perm} (hs : Space T m)
    (hp : m.pt.pte (va / pgsize) = some pte) (hperm : perm ≠ ⟨false, false, false, false⟩) :
    Space T (m.setPte va (some ⟨pte.pa, perm⟩)) := by
  refine ⟨⟨hs.ok.midLt, hs.ok.lowMid, fun v hv => ?_, fun v p hv => ?_⟩, ?_⟩
  · by_cases e : v = va / pgsize
    · refine hs.ok.pteLow v ?_
      rw [e, hp]
      rfl
    · rw [setPte_of_ne _ e] at hv
      exact hs.ok.pteLow v hv
  · by_cases e : v = va / pgsize
    · rw [e, setPte_self] at hv
      obtain rfl := Option.some.inj hv
      exact hperm
    · rw [setPte_of_ne _ e] at hv
      exact hs.ok.leaf v p hv
  · have hpage : (m.setPte va (some ⟨pte.pa, perm⟩)).pt.page = m.pt.page := by
      rw [page_setPte]
      refine Function.update_eq_self_iff.mpr ?_
      unfold PageTable.page
      rw [hp]
      rfl
    unfold PageTable.leaves
    rw [hpage]
    exact hs.total

/-- the guard page is there, and stays a page of the process -/
theorem uvmclear_spec (h : Complete T trampoline tf n m) (hr : Ram kend T) (huser : m.pt.User)
    (hi : i < n) : ∃ m', uvmclear m (i * pgsize) = some m' ∧ Complete T trampoline tf n m' := by
  have hlt : i < userTop := lt_userTop (hi.le.trans (h.space.upto_le hr h.upto))
  obtain ⟨pte, hp⟩ := Option.isSome_iff_exists.mp ((h.upto i hlt).mpr hi)
  have hp' : m.pt.pte (i * pgsize / pgsize) = some pte := by
    rw [mul_div_pgsize]
    exact hp
  have hperm : ({ pte.perm with u := false } : Perm) ≠ ⟨false, false, false, false⟩ := by
    intro e
    have hread := (huser i hlt pte hp).1
    rw [congrArg Perm.r e] at hread
    exact absurd hread nofun
  refine ⟨_, ?_, h.space.protect hp' hperm, fun v hv => ?_, ?_, ?_⟩
  · unfold uvmclear
    rw [walk_find h.space.ok (mul_lt_maxva (by omega)) (by rw [hp']; rfl)]
    dsimp only
    rw [hp']
    rfl
  · by_cases e : v = i
    · rw [e, setPte_page]
      exact iff_of_true rfl hi
    · rw [setPte_page_of_ne _ e]
      exact h.upto v hv
  · rw [setPte_page_of_ne _ (by omega)]
    exact h.tops.trapframe
  · rw [setPte_page_of_ne _ (by omega)]
    exact h.tops.trampoline

/-! ## the stack -/

/-- the guard page and the stack page behind the program -/
theorem stack_spec (h : Complete T trampoline tf (pages sz) m) (hr : Ram kend T)
    (huser : m.pt.User) : ∃ m' r,
    uvmalloc kend m (pgroundup sz) (pgroundup sz + 2 * pgsize) true false = some (m', r) ∧
      (r = 0 ∧ Complete T trampoline tf (pages (pgroundup sz)) m' ∨
        r ≠ 0 ∧ ∃ u, uvmclear m' (r - 2 * pgsize) = some u ∧
          Complete T trampoline tf (pages r) u) := by
  have hround : pgroundup sz = pages sz * pgsize :=
    pgroundup_eq (le_of_pages (h.space.upto_le hr h.upto))
  rw [hround]
  have h' := h
  rw [← pages_mul (pages sz)] at h'
  obtain ⟨m', r, he, ⟨hmax, hres⟩ | ⟨h0, hres⟩⟩ := uvmalloc_spec (w := true) (x := false) h'.space
    hr h'.upto (pages sz * pgsize + 2 * pgsize)
  · have hsz : r = pages sz * pgsize + 2 * pgsize := by omega
    have hguard : r - 2 * pgsize = pages sz * pgsize := by omega
    have hlt : pages sz < pages r := by
      rw [hsz, lt_pages]
      unfold pgsize
      omega
    have hne : r ≠ 0 := by
      rw [hsz]
      unfold pgsize
      omega
    obtain ⟨u, hclear, hc⟩ := uvmclear_spec (hres.complete h) hr (hres.user huser) hlt
    rw [← hguard] at hclear
    exact ⟨m', r, he, Or.inr ⟨hne, u, hclear, hc⟩⟩
  · exact ⟨m', r, he, Or.inl ⟨h0, hres.complete h⟩⟩

end

end Vm
