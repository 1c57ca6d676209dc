import Xv6.Exec.Args
import Xv6.Exec.Model
import Xv6.Fs.SysGetcwd

/-!
# One `copyout`, one stack

`copyout` is modelled three times: whether it succeeds (`Vm`), with the bytes of the memory (`Copy`)
and with the cells that it reads (`Fs.Cells`).  The loop of `exec` over its arguments is modelled
with lengths (`Vm`) and with bytes (`Args`).  Here the models agree.
-/

namespace Args
open Lib Copy Words
open Vm hiding Mem copyout walk walkaddr pushArgs pushStack

section
variable {t : UserTable} {m : Mem} {src : Nat → UInt8} {va n : Nat}

theorem isSome_walkaddr : (Vm.walkaddr t.toPageTable va).isSome = true ↔ Mapped t va := by
  have h0 : va / pgsize = va / 2 ^ (12 + 9 * 0) := rfl
  have h1 : va / 2 ^ 21 = va / 2 ^ (12 + 9 * 1) := rfl
  have h2 : va / 2 ^ 30 = va / 2 ^ (12 + 9 * 2) := rfl
  have h01 : va / 2 ^ (12 + 9 * 0) / 512 = va / 2 ^ (12 + 9 * 1) := div_div_512 0 va
  have h12 : va / 2 ^ (12 + 9 * 1) / 512 = va / 2 ^ (12 + 9 * 2) := div_div_512 1 va
  unfold Vm.walkaddr Mapped
  by_cases hva : maxva ≤ va
  · rw [if_pos hva]
    exact iff_of_false nofun (fun h => absurd h.1 (Nat.not_lt.mpr hva))
  · rw [if_neg hva]
    unfold Words.walk walkLoop walkLoop walkLoop
    dsimp only [UserTable.toPageTable]
    unfold UserTable.low UserTable.mid
    simp only [h0, h1, h2, h01, h12]
    unfold px
    generalize t.ptes t.pagetable (va / 2 ^ (12 + 9 * 2) % 512) = e2
    by_cases h2 : e2 &&& pteV ≠ 0
    · simp only [if_pos h2, Option.bind_some]
      generalize t.ptes (pte2pa e2) (va / 2 ^ (12 + 9 * 1) % 512) = e1
      by_cases h1 : e1 &&& pteV ≠ 0
      · simp only [if_pos h1, Option.bind_some]
        generalize va / 2 ^ (12 + 9 * 0) % 512 = i
        generalize he : t.ptes (pte2pa e1) i = e0
        by_cases hv : e0 &&& pteV = 0
        · simp [hv, he]
        · by_cases hu : e0 &&& pteU = 0
          · simp [perm, hv, hu, he]
          · simp [perm, hv, hu, he, Nat.lt_of_not_le hva]
      · simp [h1]
    · simp [h2]

/-- a range of pages has its first address in each page of it -/
theorem vm_copyout_iff : Vm.copyout t.toPageTable va n = true ↔
    ∀ i < n, Mapped t (va + i) := by
  unfold Vm.copyout
  by_cases hn : n = 0
  · rw [hn]
    exact iff_of_true rfl (fun i hi => absurd hi (Nat.not_lt_zero i))
  · rw [decide_eq_false hn, Bool.false_or, List.all_eq_true]
    have hpage : ∀ a b, a / pgsize = b / pgsize → (Mapped t a ↔ Mapped t b) := by
      intro a b h
      rw [← isSome_walkaddr, ← isSome_walkaddr, Fs.Cells.walkaddr_page h]
    constructor
    · intro h i hi
      have h1 := h ((va + i) / pgsize - va / pgsize) (List.mem_range.mpr (by
        unfold pgsize
        omega))
      rw [isSome_walkaddr] at h1
      refine (hpage _ _ ?_).mp h1
      unfold pgsize
      omega
    · intro h k hk
      have hk := List.mem_range.mp hk
      rw [isSome_walkaddr]
      by_cases h0 : k = 0
      · refine (hpage va _ ?_).mp (h 0 (by omega))
        rw [h0]
        unfold pgsize
        omega
      · have h1 := h ((va / pgsize + k) * pgsize - va) (by
          unfold pgsize at *
          omega)
        rwa [show va + ((va / pgsize + k) * pgsize - va) = (va / pgsize + k) * pgsize by
          unfold pgsize
          omega] at h1

/-- a range that wraps has an address behind `MAXVA` -/
theorem mapped_user_iff {a : UInt64} : (∀ i < n, Mapped t (user a i)) ↔
    ∀ i < n, Mapped t (a.toNat + i) := by
  have hlt := a.toNat_lt
  constructor
  · intro h i hi
    have h1 := user_eq h hi
    rw [← h1]
    exact h i hi
  · intro h i hi
    have h1 := h i hi
    unfold user
    rwa [Nat.mod_eq_of_lt]
    have := h1.1
    unfold maxva at this
    omega

theorem copyout_ret (a len : UInt64) : (copyout t.walkaddr m a src len).2 =
    if Vm.copyout t.toPageTable a.toNat len.toNat then 0 else -1 := by
  have hspec := copyout_exact t m a src len
  have hiff := hspec.ok.trans (mapped_user_iff.trans vm_copyout_iff.symm)
  by_cases h : Vm.copyout t.toPageTable a.toNat len.toNat = true
  · rw [if_pos h, hiff.mpr h]
  · rw [if_neg h, hspec.ret.resolve_left (fun e => h (hiff.mp e))]

/-- a transfer stops at the first address that is not mapped -/
theorem copyout_stops (a len : UInt64) {k : Nat} (hk : k ≤ len.toNat)
    (hmap : ∀ i < k, Mapped t (a.toNat + i))
    (hend : k < len.toNat → ¬ Mapped t (a.toNat + k)) :
    (copyout t.walkaddr m a src len).1 = (copyout t.walkaddr m a src (UInt64.ofNat k)).1 := by
  have hva : a.toNat < 2 ^ 64 := a.toNat_lt
  have hkt : (UInt64.ofNat k).toNat = k :=
    UInt64.toNat_ofNat_of_lt' (Nat.lt_of_le_of_lt hk len.toNat_lt)
  have huser := mapped_user_iff.mpr hmap
  obtain ⟨r, hr, hok, hstop, hst⟩ := @Paging.store_prefix (2 ^ 64) (byteAddr t.walkaddr) src m
    len.toNat 0 a.toNat hva
  have hreach := (Paging.store_ok hva).mp hok
  obtain rfl : r = k := by
    rcases Nat.lt_trichotomy r k with h | rfl | h
    · have h1 : byteAddr t.walkaddr (user a r) = none := hstop (by omega)
      rw [byteAddr_of_mapped (huser r h)] at h1
      cases h1
    · rfl
    · refine absurd ?_ (hend (by omega))
      have hall : ∀ i < r, Mapped t (user a i) := fun i hi => isSome_byteAddr.mp (hreach i hi)
      exact mapped_user_iff.mp hall k h
  unfold copyout
  rw [copyoutLoop_eq (fun _ h => walkaddr_of_le h) hva (Nat.le_refl _),
    copyoutLoop_eq (fun _ h => walkaddr_of_le h) hva (Nat.le_refl _), hkt]
  exact hst

theorem length_readCells {buf : Option (Lib.Cells Char)} {cells : List (Option Char)} {i : Nat}
    (h : Fs.Cells.readCells buf i n = .ok cells) : cells.length = n := by
  unfold Fs.Cells.readCells at h
  split at h
  · rename_i hn
    obtain rfl := Except.ok.inj h
    exact hn.symm
  · split at h
    · cases h
    · split at h
      · obtain rfl := Except.ok.inj h
        rw [List.length_map, List.length_range]
      · cases h

/-- the cells that `copyout` reads are the bytes that it stores -/
theorem cells_copyout {buf : Option (Lib.Cells Char)} {a len : UInt64} {b : Bool}
    {cells : List (Option Char)}
    (h : Fs.Cells.copyout t.toPageTable buf a.toNat len.toNat = .ok (b, cells)) :
    (copyout t.walkaddr m a src len).2 = (if b then 0 else -1) ∧
      (copyout t.walkaddr m a src len).1 =
        (copyout t.walkaddr m a src (UInt64.ofNat cells.length)).1 := by
  obtain ⟨k, hk, hacc, hend, hrun⟩ :=
    Fs.Cells.copyout_spec t.toPageTable buf a.toNat len.toNat
  have hmap : ∀ i < k, Mapped t (a.toNat + i) := fun i hi =>
    isSome_walkaddr.mp (hacc _ (Nat.le_add_right _ _) (Nat.add_lt_add_left hi _))
  have hno : k < len.toNat → ¬ Mapped t (a.toNat + k) := by
    intro hlt hm
    have hnone := hend.resolve_left hlt.ne
    rw [← isSome_walkaddr, hnone] at hm
    cases hm
  rw [h] at hrun
  cases hc : Fs.Cells.readCells buf 0 k with
  | error e =>
    rw [hc] at hrun
    cases hrun
  | ok got =>
    rw [hc] at hrun
    obtain ⟨rfl, rfl⟩ := Prod.mk.inj (Except.ok.inj hrun)
    rw [length_readCells hc]
    refine ⟨?_, copyout_stops a len hk hmap hno⟩
    rw [copyout_ret]
    by_cases hkl : k = len.toNat
    · rw [decide_eq_true hkl, if_pos rfl, if_pos]
      exact vm_copyout_iff.mpr (hkl ▸ hmap)
    · rw [decide_eq_false hkl, if_neg Bool.false_ne_true, if_neg]
      intro hall
      have hlt : k < len.toNat := by omega
      exact hno hlt (vm_copyout_iff.mp hall k hlt)

/-! ## the stack -/

section
variable {sz : UInt64} {argv : List (List UInt8)}
  {ustack : List UInt64} {lens : List (Fin pgsize)}

theorem copyout_round {α : Type} {a len : UInt64} (x : Option α) :
    (if (copyout t.walkaddr m a src len).2 < 0 then none else x) =
      if Vm.copyout t.toPageTable a.toNat len.toNat then x else none := by
  rw [copyout_ret]
  by_cases h : Vm.copyout t.toPageTable a.toNat len.toNat = true
  · rw [if_pos h, if_pos h, if_neg (by decide)]
  · rw [if_neg h, if_neg h, if_pos (by decide)]

/-- the loop of `exec` over its arguments, with bytes and with lengths -/
theorem pushArgs_lengths (stackbase : UInt64) (m : Mem) (sp : UInt64) (ustack : List UInt64)
    (hpage : 4096 ≤ stackbase.toNat) (hsp : stackbase.toNat ≤ sp.toNat)
    (hroom : ustack.length ≤ maxarg) (hlens : lens.map Fin.val = argv.map List.length) :
    (pushArgs t stackbase argv ustack m sp).map (fun r => (r.2.1.toNat, r.2.2.length)) =
      (Vm.pushArgs t.toPageTable stackbase.toNat lens ustack.length sp.toNat).map
        (fun sp => (sp, ustack.length + argv.length)) ∧
    ∀ r ∈ pushArgs t stackbase argv ustack m sp,
      stackbase.toNat ≤ r.2.1.toNat ∧ r.2.2.length ≤ maxarg := by
  induction argv generalizing lens m sp ustack with
  | nil =>
    obtain rfl := List.map_eq_nil_iff.mp hlens
    refine ⟨rfl, fun r hr => ?_⟩
    obtain rfl := Option.some.inj hr
    exact ⟨hsp, hroom⟩
  | cons s argv ih =>
    obtain ⟨len, lens, rfl, hlen, hlens⟩ := List.map_eq_cons_iff.mp hlens
    have hlt : s.length < 4096 := hlen ▸ len.isLt
    have hone : (UInt64.ofNat s.length + 1).toNat = s.length + 1 := by
      rw [UInt64.toNat_add, UInt64.toNat_ofNat_of_lt' (hlt.trans (by decide)),
        show (1 : UInt64).toNat = 1 from rfl]
      exact Nat.mod_eq_of_lt (by omega)
    have hdown := @down_eq sp (UInt64.ofNat s.length + 1) (by omega)
    rw [hone] at hdown
    unfold pushArgs Vm.pushArgs
    dsimp only
    rw [hlen, ← hdown]
    generalize down sp (UInt64.ofNat s.length + 1) = sp1
    by_cases hmax : maxarg ≤ ustack.length
    · rw [if_pos hmax, if_pos (show Vm.maxarg ≤ _ from hmax)]
      exact ⟨rfl, fun r hr => by cases hr⟩
    · rw [if_neg hmax, if_neg (show ¬ Vm.maxarg ≤ _ from hmax)]
      by_cases hguard : sp1 < stackbase
      · rw [if_pos hguard, if_pos (UInt64.lt_iff_toNat_lt.mp hguard)]
        exact ⟨rfl, fun r hr => by cases hr⟩
      · rw [if_neg hguard, if_neg (fun h => hguard (UInt64.lt_iff_toNat_lt.mpr h)),
          copyout_round, hone]
        by_cases hcopy : Vm.copyout t.toPageTable sp1.toNat (s.length + 1) = true
        · rw [if_pos hcopy, if_pos hcopy]
          have hrest := ih (copyout t.walkaddr m sp1 (fun i => (s ++ [0]).getD i 0)
            (UInt64.ofNat s.length + 1)).1 sp1 (ustack ++ [sp1])
            (Nat.le_of_not_lt fun h => hguard (UInt64.lt_iff_toNat_lt.mpr h)) (by
              rw [List.length_append]
              exact Nat.lt_of_not_le hmax) hlens
          rw [List.length_append, List.length_singleton] at hrest
          rw [List.length_cons, Nat.add_comm argv.length, ← Nat.add_assoc]
          exact hrest
        · rw [if_neg hcopy, if_neg hcopy]
          exact ⟨rfl, fun r hr => by cases hr⟩

theorem pointers_length {argc : Nat} (h : argc ≤ maxarg) :
    (8 * (UInt64.ofNat argc + 1)).toNat = (argc + 1) * 8 := by
  have h32 : argc < 2 ^ 32 := Nat.lt_of_le_of_lt h (by decide)
  rw [UInt64.toNat_mul, UInt64.toNat_add, UInt64.toNat_ofNat_of_lt' (h32.trans (by decide)),
    show (1 : UInt64).toNat = 1 from rfl, show (8 : UInt64).toNat = 8 from rfl]
  omega

/-- the stack pointer of `exec` is the one that the lengths of the arguments give -/
theorem pushStack_pointer (m : Mem) (hsz : 8192 ≤ sz.toNat)
    (hlens : lens.map Fin.val = argv.map List.length) :
    (pushStack t sz argv m).map (fun r => (r.2.1.toNat, r.2.2)) =
      (Exec.stackPointer t.toPageTable sz.toNat lens).map (fun sp => (sp, argv.length)) := by
  have hbase : (sz - 4096).toNat = sz.toNat - pgsize :=
    UInt64.toNat_sub_of_le _ _ (UInt64.le_iff_toNat_le.mpr (Nat.le_trans (by decide) hsz))
  have hlen : lens.length = argv.length := by
    rw [← List.length_map (f := Fin.val), hlens, List.length_map]
  have hpage : 4096 ≤ (sz - 4096).toNat := by
    rw [hbase]
    unfold pgsize
    omega
  obtain ⟨hpush, hle⟩ := pushArgs_lengths (t := t) (sz - 4096) m sz [] hpage
    (by rw [hbase]; omega) (Nat.zero_le _) hlens
  rw [hbase, List.length_nil, Nat.zero_add] at hpush
  unfold pushStack Exec.stackPointer
  dsimp only
  rw [hlen]
  cases ha : pushArgs t (sz - 4096) argv [] m sz with
  | none =>
    rw [ha] at hpush
    rw [Option.map_eq_none_iff.mp hpush.symm]
    rfl
  | some r =>
    obtain ⟨m1, sp1, ustack⟩ := r
    obtain ⟨hsp, hroom⟩ := hle _ ha
    dsimp only at hsp hroom
    rw [ha] at hpush
    obtain ⟨sp2, hvm, he⟩ := Option.map_eq_some_iff.mp hpush.symm
    obtain ⟨rfl, hargc⟩ := Prod.mk.inj he
    replace hargc : argv.length = ustack.length := hargc
    rw [hvm]
    dsimp only
    rw [hargc]
    have hptr := pointers_length hroom
    have hdown := @down_eq sp1 (8 * (UInt64.ofNat ustack.length + 1)) (by
      unfold maxarg at hroom
      omega)
    rw [hptr] at hdown
    rw [← hdown, ← hbase]
    generalize down sp1 (8 * (UInt64.ofNat ustack.length + 1)) = sp
    by_cases hguard : sp < sz - 4096
    · rw [if_pos hguard, if_pos (UInt64.lt_iff_toNat_lt.mp hguard)]
      rfl
    · rw [if_neg hguard, if_neg (fun h => hguard (UInt64.lt_iff_toNat_lt.mpr h)), copyout_round,
        hptr]
      by_cases hcopy : Vm.copyout t.toPageTable sp.toNat ((ustack.length + 1) * 8) = true
      · rw [if_pos hcopy, if_pos hcopy]
        rfl
      · rw [if_neg hcopy, if_neg hcopy]
        rfl

end

end

end Args
