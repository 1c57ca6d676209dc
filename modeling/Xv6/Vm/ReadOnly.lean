import Xv6.Vm.Isolation
import Xv6.Vm.Words

/-!
# Pages without `PTE_W` (`copyout`, `flags2perm`)

`exec` maps a segment without `PTE_W` when its flags say so, but `walkaddr` tests `PTE_V` and `PTE_U`
only, and `copyout` writes through the kernel's own mapping.  `Intact` is what would be expected of a
`copyout`: no byte behind an entry without `PTE_W` changes, and a range with such a byte fails.
`Harmless` is what it depends on: the range, what is mapped in it, and the bytes that are there.
-/

namespace Copy
open Lib
open Vm hiding Mem copyout
open Words (user)

/-! ## the bytes of a page table -/

def translate (pt : PageTable) (va : Nat) : Nat := (walkaddr pt va).getD 0

/-- where the byte at `va` is, if its entry has no `PTE_W` -/
def readOnly (pt : PageTable) (va : Nat) : Option Nat :=
  if maxva ≤ va then none
  else
    match pt.mid (va / 2 ^ 30), pt.low (va / 2 ^ 21), pt.pte (va / pgsize) with
    | some _, some _, some pte => if pte.perm.w then none else some (pte.pa + va % pgsize)
    | _, _, _ => none

section
variable (pt : PageTable) (m : Mem) (dstva : UInt64) (src : Nat → UInt8) (len : UInt64)

/-- `copyout` comes to byte `i` -/
def Reached (i : Nat) : Prop :=
  i < len.toNat ∧ ∀ j ≤ i, (byteAddr (translate pt) (user dstva j)).isSome = true

/-- a `copyout` with result `r` leaves what is read-only, and fails where it would be written -/
structure Intact (r : Mem × Int) : Prop where
  bytes : ∀ va pa, readOnly pt va = some pa → r.1 pa = m pa
  fails : (∃ i < len.toNat, (readOnly pt (user dstva i)).isSome = true) → r.2 = -1

/-- a range that is mapped has no read-only byte, and what comes last to a read-only byte is there
already -/
structure Harmless : Prop where
  writable : (∀ i < len.toNat, (byteAddr (translate pt) (user dstva i)).isSome = true) →
    ∀ i < len.toNat, readOnly pt (user dstva i) = none
  same : ∀ va pa, readOnly pt va = some pa → ∀ i, Reached pt dstva len i →
    byteAddr (translate pt) (user dstva i) = some pa →
    (∀ j, i < j → Reached pt dstva len j → byteAddr (translate pt) (user dstva j) ≠ some pa) →
    src i = m pa

end

section
variable {pt : PageTable} {m : Mem} {dstva : UInt64} {src : Nat → UInt8} {len : UInt64}
  {P : Nat → Prop} {n i pa : Nat}

theorem translate_of_le {va : Nat} (h : maxva ≤ va) : translate pt va = 0 := by
  unfold translate walkaddr
  rw [if_pos h]
  rfl

theorem copyout_eq : copyout (translate pt) m dstva src len =
    ((Paging.store (2 ^ 64) (byteAddr (translate pt)) src len.toNat m dstva.toNat 0).1,
      if (Paging.store (2 ^ 64) (byteAddr (translate pt)) src len.toNat m dstva.toNat 0).2 then 0
      else -1) :=
  copyoutLoop_eq (fun _ h => translate_of_le h) dstva.toNat_lt (Nat.le_refl _)

/-- a `copyout` succeeds where all is mapped, whatever the entries allow -/
theorem copyout_fails_iff : (copyout (translate pt) m dstva src len).2 = -1 ↔
    ¬ ∀ i < len.toNat, (byteAddr (translate pt) (user dstva i)).isSome = true := by
  have hok := @Paging.store_ok (2 ^ 64) (byteAddr (translate pt)) src m len.toNat 0 dstva.toNat
    dstva.toNat_lt
  have hok' : (Paging.store (2 ^ 64) (byteAddr (translate pt)) src len.toNat m dstva.toNat 0).2 =
      true ↔ ∀ i < len.toNat, (byteAddr (translate pt) (user dstva i)).isSome = true := hok
  rw [copyout_eq, ← hok']
  dsimp only
  split
  · rename_i h
    exact iff_of_false (by decide) (fun hn => hn h)
  · rename_i h
    exact iff_of_true rfl h

theorem copyout_kept (h : ∀ i, Reached pt dstva len i →
    byteAddr (translate pt) (user dstva i) ≠ some pa) :
    (copyout (translate pt) m dstva src len).1 pa = m pa := by
  obtain ⟨r, hr, hok, -, hst⟩ := @Paging.store_prefix (2 ^ 64) (byteAddr (translate pt)) src m
    len.toNat 0 dstva.toNat dstva.toNat_lt
  have hmap := (Paging.store_ok dstva.toNat_lt).mp hok
  rw [copyout_eq, hst]
  apply Paging.store_frame dstva.toNat_lt
  intro i hi
  exact h i ⟨by omega, fun j hj => hmap j (by omega)⟩

/-- the last byte that reached an address is there -/
theorem copyout_last (hi : Reached pt dstva len i)
    (hpa : byteAddr (translate pt) (user dstva i) = some pa)
    (hlast : ∀ j, i < j → Reached pt dstva len j →
      byteAddr (translate pt) (user dstva j) ≠ some pa) :
    (copyout (translate pt) m dstva src len).1 pa = src i := by
  obtain ⟨r, hr, hok, hend, hst⟩ := @Paging.store_prefix (2 ^ 64) (byteAddr (translate pt)) src m
    len.toNat 0 dstva.toNat dstva.toNat_lt
  have hmap := (Paging.store_ok dstva.toNat_lt).mp hok
  have hir : i < r := by
    by_contra hno
    have hnone : byteAddr (translate pt) (user dstva r) = none := hend (by have := hi.1; omega)
    have hsome := hi.2 r (Nat.le_of_not_lt hno)
    rw [hnone] at hsome
    exact absurd hsome nofun
  rw [copyout_eq, hst]
  refine (Paging.store_at dstva.toNat_lt hok hir hpa (fun j hij hjr => ?_)).trans
    (congrArg src (Nat.zero_add i))
  exact hlast j hij ⟨by omega, fun k hk => hmap k (by omega)⟩

theorem exists_last (hlt : ∀ i, P i → i < n) (h : P i) :
    ∃ i, P i ∧ ∀ j, i < j → ¬ P j := by
  induction n generalizing i with
  | zero => exact absurd (hlt i h) (Nat.not_lt_zero i)
  | succ n ih =>
    by_cases hn : P n
    · exact ⟨n, hn, fun j hj hp => absurd (hlt j hp) (by omega)⟩
    · refine ih (fun j hj => ?_) h
      have hjn := hlt j hj
      have hne : j ≠ n := fun e => hn (e ▸ hj)
      omega

end

/-- for every page table, every address and every length: a `copyout` treats the pages without
`PTE_W` as read-only exactly when it is harmless for them -/
theorem copyout_intact_iff (pt : PageTable) (m : Mem) (dstva : UInt64) (src : Nat → UInt8)
    (len : UInt64) : Intact pt m dstva len (copyout (translate pt) m dstva src len) ↔
      Harmless pt m dstva src len := by
  constructor
  · intro h
    refine ⟨fun hmap i hi => ?_, fun va pa hro i hi hpa hlast => ?_⟩
    · by_contra hne
      exact copyout_fails_iff.mp (h.fails ⟨i, hi, Option.isSome_iff_ne_none.mpr hne⟩) hmap
    · rw [← h.bytes va pa hro]
      exact (copyout_last hi hpa hlast).symm
  · intro h
    refine ⟨fun va pa hro => ?_, ?_⟩
    · by_cases hex : ∃ i, Reached pt dstva len i ∧
          byteAddr (translate pt) (user dstva i) = some pa
      · have hlt : ∀ i, (Reached pt dstva len i ∧
            byteAddr (translate pt) (user dstva i) = some pa) → i < len.toNat := fun _ hi => hi.1.1
        obtain ⟨i, hi⟩ := hex
        obtain ⟨i, ⟨hi, hpa⟩, hlast⟩ := exists_last hlt hi
        have hlast' := fun j hij hj hpj => hlast j hij ⟨hj, hpj⟩
        rw [copyout_last hi hpa hlast']
        exact h.same va pa hro i hi hpa hlast'
      · exact copyout_kept (fun i hi hpa => hex ⟨i, hi, hpa⟩)
    · rintro ⟨i, hi, hsome⟩
      rw [copyout_fails_iff]
      intro hmap
      rw [h.writable hmap i hi] at hsome
      exact absurd hsome nofun

def textOnly : Image where
  found := true
  phnum := some 1
  ph := fun _ => some ⟨1, 5, 4096, 0, 4096, 4096⟩
  read := fun _ _ => true

def execTable (img : Image) : Option PageTable :=
  (userinit (phystop - 40 * pgsize) 0x80007000 (lastPages 40)).bind (fun s =>
    (exec (phystop - 40 * pgsize) 0x80007000 s 0 img []).bind (fun r =>
      if r.2 then (r.1.proc 0).pagetable else none))

/-- a `read` of one byte to address 8 succeeds in a program whose text is there, without `PTE_W` -/
theorem copyout_text : ∃ pt, execTable textOnly = some pt ∧ ∃ m dstva src len,
    ¬ Intact pt m dstva len (copyout (translate pt) m dstva src len) := by
  have htable : (execTable textOnly).map (fun pt => ((readOnly pt 8).isSome,
      (byteAddr (translate pt) 8).isSome)) = some (true, true) := by decide +kernel
  obtain ⟨pt, hpt, h⟩ := Option.map_eq_some_iff.mp htable
  obtain ⟨hro, hmap⟩ := Prod.mk.inj h
  refine ⟨pt, hpt, fun _ => 0, 8, fun _ => 10, 1, fun hi => ?_⟩
  refine copyout_fails_iff.mp (hi.fails ⟨0, by decide, hro⟩) (fun i hlt => ?_)
  obtain rfl : i = 0 := by
    have h1 : (1 : UInt64).toNat = 1 := rfl
    omega
  exact hmap

end Copy
