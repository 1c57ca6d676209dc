import Xv6.Vm.Copy

/-!
# Page tables as words (`walk`, `walkaddr`)

The three levels of a page table are pages of 512 PTEs of 64 bits.  With the bytes of the memory,
this is what `copyout`, `copyin` and `copyinstr` work on: each succeeds exactly when every byte that
it needs is below `MAXVA` and in a page with `PTE_V` and `PTE_U`, and transfers exactly those bytes.
The page-table pages are not in the memory that is copied to.
-/

namespace Words
open Lib Copy
open Vm hiding Mem copyout walk walkaddr

/-! ## the model -/

/-- `PTE_V`, `PTE_R`, `PTE_W`, `PTE_X`, `PTE_U` -/
def pteV : UInt64 := 1
def pteR : UInt64 := 2
def pteW : UInt64 := 4
def pteX : UInt64 := 8
def pteU : UInt64 := 16

/-- `PTE2PA` -/
def pte2pa (pte : UInt64) : Nat := ((pte >>> 10) <<< 12).toNat

/-- `PX` -/
def px (level va : Nat) : Nat := va / 2 ^ (12 + 9 * level) % 512

/-- the page-table pages: the PTE at each index of a page -/
abbrev Ptes := Nat → Nat → UInt64

/-- `walk` from `level` down, without `alloc`: the page and the index of the PTE -/
def walkLoop (ptes : Ptes) (va : Nat) : Nat → Nat → Option (Nat × Nat)
  | 0, pagetable => some (pagetable, px 0 va)
  | level + 1, pagetable =>
    let pte := ptes pagetable (px (level + 1) va)
    if pte &&& pteV ≠ 0 then walkLoop ptes va level (pte2pa pte) else none

/-- `walk(pagetable, va, 0)` of an address that passed the test against `MAXVA` -/
def walk (ptes : Ptes) (pagetable va : Nat) : Option (Nat × Nat) := walkLoop ptes va 2 pagetable

def walkaddr (ptes : Ptes) (pagetable va : Nat) : Nat :=
  if maxva ≤ va then 0
  else
    match walk ptes pagetable va with
    | none => 0
    | some (page, i) =>
      if ptes page i &&& pteV = 0 then 0
      else if ptes page i &&& pteU = 0 then 0
      else pte2pa (ptes page i)

/-- the page table of a process.  No page of it is at address 0: `kalloc` has the pages behind the
kernel only -/
structure UserTable where
  ptes : Ptes
  pagetable : Nat
  nonzero : ∀ va page i, walk ptes pagetable va = some (page, i) → ptes page i &&& pteV ≠ 0 →
    ptes page i &&& pteU ≠ 0 → pte2pa (ptes page i) ≠ 0

def UserTable.walkaddr (t : UserTable) (va : Nat) : Nat := Words.walkaddr t.ptes t.pagetable va

/-! ## what the copies should do -/

/-- the address is in a page that is valid, and accessible to the process -/
def Mapped (t : UserTable) (va : Nat) : Prop :=
  va < maxva ∧ ∃ page i, walk t.ptes t.pagetable va = some (page, i) ∧
    t.ptes page i &&& pteV ≠ 0 ∧ t.ptes page i &&& pteU ≠ 0

/-- byte `i` behind `va`; addresses wrap -/
def user (va : UInt64) (i : Nat) : Nat := (va.toNat + i) % 2 ^ 64

def phys (t : UserTable) (va : Nat) : Nat := t.walkaddr (pgrounddown va) + va % pgsize

/-- `copyout` of `len` bytes of `src` has result `r` -/
structure Copyout (t : UserTable) (m : Mem) (dstva : UInt64) (src : Nat → UInt8) (len : UInt64)
    (r : Mem × Int) : Prop where
  ret : r.2 = 0 ∨ r.2 = -1
  ok : r.2 = 0 ↔ ∀ i < len.toNat, Mapped t (user dstva i)
  /-- the bytes arrive; of two that go to one place, the later one -/
  bytes : r.2 = 0 → ∀ i < len.toNat,
    (∀ j, i < j → j < len.toNat → phys t (user dstva j) ≠ phys t (user dstva i)) →
    r.1 (phys t (user dstva i)) = src i
  /-- nothing else changes -/
  frame : ∀ pa, (∀ i < len.toNat, Mapped t (user dstva i) → phys t (user dstva i) ≠ pa) →
    r.1 pa = m pa

/-- `copyin` of `len` bytes stores `r.1` and returns `r.2` -/
structure Copyin (t : UserTable) (m : Mem) (srcva : UInt64) (len : UInt64) (r : List UInt8 × Int) :
    Prop where
  ret : r.2 = 0 ∨ r.2 = -1
  ok : r.2 = 0 ↔ ∀ i < len.toNat, Mapped t (user srcva i)
  bytes : r.2 = 0 → r.1 = (List.range len.toNat).map (fun i => m (phys t (user srcva i)))
  bound : r.1.length ≤ len.toNat

/-- `copyinstr` stores `r.1` and returns `r.2` -/
structure Copyinstr (t : UserTable) (m : Mem) (srcva : UInt64) (max : UInt64)
    (r : List UInt8 × Int) : Prop where
  ret : r.2 = 0 ∨ r.2 = -1
  ok : r.2 = 0 ↔ ∃ i < max.toNat, m (phys t (user srcva i)) = 0 ∧
    ∀ j ≤ i, Mapped t (user srcva j)
  /-- the string up to its first NUL, and with it -/
  bytes : r.2 = 0 → ∀ i, m (phys t (user srcva i)) = 0 →
    (∀ j < i, m (phys t (user srcva j)) ≠ 0) →
    r.1 = (List.range (i + 1)).map (fun j => m (phys t (user srcva j)))
  bound : r.1.length ≤ max.toNat

section
variable {t : UserTable} {m : Mem} {va : Nat} {level page i : Nat}

/-! ## the bytes that are mapped -/

theorem px_pgrounddown (level va : Nat) : px level (pgrounddown va) = px level va := by
  unfold px pgrounddown
  rw [Nat.pow_add, show 2 ^ 12 = pgsize from rfl, ← Nat.div_div_eq_div_mul,
    Nat.mul_div_cancel _ (by decide), Nat.div_div_eq_div_mul]

theorem walkLoop_pgrounddown (ptes : Ptes) (va level page : Nat) :
    walkLoop ptes (pgrounddown va) level page = walkLoop ptes va level page := by
  induction level generalizing page with
  | zero =>
    unfold walkLoop
    rw [px_pgrounddown]
  | succ level ih =>
    unfold walkLoop
    dsimp only
    rw [px_pgrounddown, ih]

theorem walkaddr_of_le (h : maxva ≤ va) : t.walkaddr va = 0 := if_pos h

theorem pgrounddown_lt : pgrounddown va < maxva ↔ va < maxva := by
  unfold pgrounddown pgsize maxva
  omega

theorem walkaddr_ne_zero : t.walkaddr (pgrounddown va) ≠ 0 ↔ Mapped t va := by
  unfold UserTable.walkaddr walkaddr Mapped walk
  rw [walkLoop_pgrounddown]
  by_cases hlt : va < maxva
  · rw [if_neg (Nat.not_le.mpr (pgrounddown_lt.mpr hlt))]
    cases hw : walkLoop t.ptes va 2 t.pagetable with
    | none =>
      refine iff_of_false (fun h => h rfl) ?_
      rintro ⟨-, page, i, h, -⟩
      exact absurd h nofun
    | some p =>
      obtain ⟨page, i⟩ := p
      dsimp only
      by_cases hv : t.ptes page i &&& pteV = 0
      · rw [if_pos hv]
        refine iff_of_false (fun h => h rfl) ?_
        rintro ⟨-, page', i', h, hv', -⟩
        obtain ⟨rfl, rfl⟩ := Prod.mk.inj (Option.some.inj h)
        exact hv' hv
      · rw [if_neg hv]
        by_cases hu : t.ptes page i &&& pteU = 0
        · rw [if_pos hu]
          refine iff_of_false (fun h => h rfl) ?_
          rintro ⟨-, page', i', h, -, hu'⟩
          obtain ⟨rfl, rfl⟩ := Prod.mk.inj (Option.some.inj h)
          exact hu' hu
        · rw [if_neg hu]
          exact iff_of_true (t.nonzero va page i hw hv hu) ⟨hlt, page, i, rfl, hv, hu⟩
  · rw [if_pos (Nat.le_of_not_lt (fun h => hlt (pgrounddown_lt.mp h)))]
    exact iff_of_false (fun h => h rfl) (fun h => hlt h.1)

theorem byteAddr_of_mapped (h : Mapped t va) : byteAddr t.walkaddr va = some (phys t va) :=
  if_neg (walkaddr_ne_zero.mpr h)

theorem byteAddr_of_not (h : ¬ Mapped t va) : byteAddr t.walkaddr va = none :=
  if_pos (not_not.mp (fun hne => h (walkaddr_ne_zero.mp hne)))

theorem isSome_byteAddr : (byteAddr t.walkaddr va).isSome = true ↔ Mapped t va := by
  by_cases h : Mapped t va
  · rw [byteAddr_of_mapped h]
    exact iff_of_true rfl h
  · rw [byteAddr_of_not h]
    exact iff_of_false nofun h

theorem byteAddr_eq_some {pa : Nat} (h : byteAddr t.walkaddr va = some pa) :
    Mapped t va ∧ phys t va = pa := by
  by_cases hm : Mapped t va
  · rw [byteAddr_of_mapped hm] at h
    exact ⟨hm, Option.some.inj h⟩
  · rw [byteAddr_of_not hm] at h
    exact absurd h nofun

theorem ret_eq_zero {b : Bool} : (if b then (0 : Int) else -1) = 0 ↔ b = true := by
  cases b with
  | true => exact iff_of_true rfl rfl
  | false => exact iff_of_false (by decide) nofun

theorem ret_cases (b : Bool) : (if b then (0 : Int) else -1) = 0 ∨ (if b then (0 : Int) else -1) = -1 := by
  cases b with
  | true => exact Or.inl rfl
  | false => exact Or.inr rfl

/-! ## the copies -/

theorem copyout_exact (t : UserTable) (m : Mem) (dstva : UInt64) (src : Nat → UInt8)
    (len : UInt64) : Copyout t m dstva src len (copyout t.walkaddr m dstva src len) := by
  have hva : dstva.toNat < 2 ^ 64 := dstva.toNat_lt
  unfold copyout
  rw [copyoutLoop_eq (fun _ h => walkaddr_of_le h) hva (Nat.le_refl _)]
  refine ⟨ret_cases _, ?_, fun hok i hi hlast => ?_, fun pa hpa => ?_⟩
  · rw [ret_eq_zero, Paging.store_ok hva]
    exact forall₂_congr (fun i _ => isSome_byteAddr)
  · have hstore := ret_eq_zero.mp hok
    have hmap : ∀ j < len.toNat, Mapped t (user dstva j) := fun j hj =>
      isSome_byteAddr.mp ((Paging.store_ok hva).mp hstore j hj)
    refine (Paging.store_at hva hstore hi (byteAddr_of_mapped (hmap i hi))
      (fun j hij hj he => ?_)).trans (congrArg src (Nat.zero_add i))
    exact hlast j hij hj (byteAddr_eq_some he).2
  · apply Paging.store_frame hva
    intro i hi he
    obtain ⟨hm, hp⟩ := byteAddr_eq_some he
    exact hpa i hi hm hp

theorem copyin_exact (t : UserTable) (m : Mem) (srcva len : UInt64) :
    Copyin t m srcva len (copyin t.walkaddr m srcva len) := by
  have hva : srcva.toNat < 2 ^ 64 := srcva.toNat_lt
  unfold copyin
  rw [copyinLoop_eq (fun _ h => walkaddr_of_le h) hva (Nat.le_refl _), List.nil_append]
  obtain ⟨hiff, hbytes⟩ := @Paging.read_spec (2 ^ 64) (byteAddr t.walkaddr) m len.toNat srcva.toNat hva
  refine ⟨ret_cases _, ?_, fun hok => ?_, Paging.length_read_le _ _⟩
  · rw [ret_eq_zero, hiff]
    exact forall₂_congr (fun i _ => isSome_byteAddr)
  · have hread := ret_eq_zero.mp hok
    refine (hbytes hread).trans (List.map_congr_left (fun i hi => ?_))
    have hm := isSome_byteAddr.mp (hiff.mp hread i (List.mem_range.mp hi))
    rw [byteAddr_of_mapped hm]
    rfl

theorem copyinstr_exact (t : UserTable) (m : Mem) (srcva max : UInt64) :
    Copyinstr t m srcva max (copyinstr t.walkaddr m srcva max) := by
  have hva : srcva.toNat < 2 ^ 64 := srcva.toNat_lt
  unfold copyinstr
  rw [copyinstrLoop_eq (fun _ h => walkaddr_of_le h) hva (Nat.le_refl _), List.nil_append]
  obtain ⟨hiff, hbytes⟩ := @Paging.string_spec (2 ^ 64) (byteAddr t.walkaddr) m max.toNat srcva.toNat hva
  have hbyte : ∀ j, Mapped t (user srcva j) → Paging.byte (2 ^ 64) (byteAddr t.walkaddr) m
      srcva.toNat j = some (m (phys t (user srcva j))) := by
    intro j hj
    exact congrArg (Option.map m) (byteAddr_of_mapped hj)
  have hmapped : ∀ j b, Paging.byte (2 ^ 64) (byteAddr t.walkaddr) m srcva.toNat j = some b →
      Mapped t (user srcva j) := by
    intro j b hb
    obtain ⟨pa, hpa, -⟩ := Option.map_eq_some_iff.mp hb
    exact (byteAddr_eq_some hpa).1
  -- where the string ends, as the search sees it
  have hends : ∀ i, Paging.Ends (2 ^ 64) (byteAddr t.walkaddr) m srcva.toNat max.toNat i ↔
      i < max.toNat ∧ m (phys t (user srcva i)) = 0 ∧ (∀ j ≤ i, Mapped t (user srcva j)) ∧
        ∀ j < i, m (phys t (user srcva j)) ≠ 0 := by
    intro i
    constructor
    · rintro ⟨hlt, hi, hbelow⟩
      have hmi := hmapped i 0 hi
      refine ⟨hlt, Option.some.inj ((hbyte i hmi).symm.trans hi), fun j hj => ?_, fun j hj => ?_⟩
      · rcases Nat.lt_or_eq_of_le hj with hlt | rfl
        · obtain ⟨b, hb, -⟩ := hbelow j hlt
          exact hmapped j b hb
        · exact hmi
      · obtain ⟨b, hb, hne⟩ := hbelow j hj
        rw [Option.some.inj ((hbyte j (hmapped j b hb)).symm.trans hb)]
        exact hne
    · rintro ⟨hlt, hi, hmap, hbelow⟩
      refine ⟨hlt, ?_, fun j hj => ⟨_, hbyte j (hmap j hj.le), hbelow j hj⟩⟩
      rw [hbyte i (hmap i (Nat.le_refl i)), hi]
  have hok : (∃ i, Paging.Ends (2 ^ 64) (byteAddr t.walkaddr) m srcva.toNat max.toNat i) ↔
      ∃ i < max.toNat, m (phys t (user srcva i)) = 0 ∧ ∀ j ≤ i, Mapped t (user srcva j) := by
    constructor
    · rintro ⟨i, hi⟩
      obtain ⟨hlt, hz, hmap, -⟩ := (hends i).mp hi
      exact ⟨i, hlt, hz, hmap⟩
    · intro hex
      -- the first NUL
      have hex' : ∃ i, m (phys t (user srcva i)) = 0 := by
        obtain ⟨i, -, hz, -⟩ := hex
        exact ⟨i, hz⟩
      obtain ⟨i, hlt, hz, hmap⟩ := hex
      have hle := Nat.find_min' hex' hz
      exact ⟨Nat.find hex', (hends _).mpr ⟨Nat.lt_of_le_of_lt hle hlt, Nat.find_spec hex',
        fun j hj => hmap j (hj.trans hle), fun j hj => Nat.find_min hex' hj⟩⟩
  refine ⟨ret_cases _, ?_, fun h i hz hbelow => ?_, Paging.length_string_le _ _⟩
  · rw [ret_eq_zero, hiff, hok]
  · obtain ⟨k, hk⟩ := hiff.mp (ret_eq_zero.mp h)
    obtain ⟨hlt, hkz, hmap, hkbelow⟩ := (hends k).mp hk
    obtain rfl : i = k := by
      rcases Nat.lt_trichotomy i k with hik | rfl | hik
      · exact absurd hz (hkbelow i hik)
      · rfl
      · exact absurd hkz (hbelow k hik)
    rw [hbytes i hk]
    apply List.map_congr_left
    intro j hj
    rw [hbyte j (hmap j (Nat.le_of_lt_succ (List.mem_range.mp hj)))]
    rfl

/-! ## the three levels as maps -/

def perm (pte : UInt64) : Perm where
  r := pte &&& pteR ≠ 0
  w := pte &&& pteW ≠ 0
  x := pte &&& pteX ≠ 0
  u := pte &&& pteU ≠ 0

/-- the page behind a PTE of the root -/
def UserTable.mid (t : UserTable) (k : Nat) : Option Nat :=
  if t.ptes t.pagetable (k % 512) &&& pteV ≠ 0 then some (pte2pa (t.ptes t.pagetable (k % 512)))
  else none

/-- the page behind a PTE of level 1 -/
def UserTable.low (t : UserTable) (k : Nat) : Option Nat :=
  (t.mid (k / 512)).bind (fun page =>
    if t.ptes page (k % 512) &&& pteV ≠ 0 then some (pte2pa (t.ptes page (k % 512))) else none)

/-- the page table as the maps from parts of the address -/
def UserTable.toPageTable (t : UserTable) : PageTable where
  root := t.pagetable
  mid := t.mid
  low := t.low
  pte := fun k => (t.low (k / 512)).bind (fun page =>
    if t.ptes page (k % 512) &&& pteV ≠ 0 then
      some ⟨pte2pa (t.ptes page (k % 512)), perm (t.ptes page (k % 512))⟩
    else none)

theorem div_div_512 (level va : Nat) :
    va / 2 ^ (12 + 9 * level) / 512 = va / 2 ^ (12 + 9 * (level + 1)) := by
  rw [Nat.div_div_eq_div_mul, show 12 + 9 * (level + 1) = 12 + 9 * level + 9 by omega,
    Nat.pow_add 2 (12 + 9 * level) 9]

/-- `walkaddr` on the words is `walkaddr` on the maps -/
theorem walkaddr_toPageTable (t : UserTable) (va : Nat) :
    (Vm.walkaddr t.toPageTable va).getD 0 = t.walkaddr va := by
  have h0 : va / pgsize = va / 2 ^ (12 + 9 * 0) := rfl
  have h1 : va / 2 ^ 21 = va / 2 ^ (12 + 9 * 1) := rfl
  have h2 : va / 2 ^ 30 = va / 2 ^ (12 + 9 * 2) := rfl
  have h01 : va / 2 ^ (12 + 9 * 0) / 512 = va / 2 ^ (12 + 9 * 1) := div_div_512 0 va
  have h12 : va / 2 ^ (12 + 9 * 1) / 512 = va / 2 ^ (12 + 9 * 2) := div_div_512 1 va
  unfold Vm.walkaddr UserTable.walkaddr Words.walkaddr
  by_cases hva : maxva ≤ va
  · rw [if_pos hva, if_pos hva]
    rfl
  · rw [if_neg hva, if_neg hva]
    unfold walk walkLoop walkLoop walkLoop
    dsimp only [UserTable.toPageTable]
    unfold UserTable.low UserTable.mid
    simp only [h0, h1, h2, h01, h12]
    unfold px
    generalize t.ptes t.pagetable (va / 2 ^ (12 + 9 * 2) % 512) = e2
    by_cases h2 : e2 &&& pteV ≠ 0
    · simp only [if_pos h2, Option.bind_some]
      generalize t.ptes (pte2pa e2) (va / 2 ^ (12 + 9 * 1) % 512) = e1
      by_cases h1 : e1 &&& pteV ≠ 0
      · simp only [if_pos h1, Option.bind_some]
        generalize t.ptes (pte2pa e1) (va / 2 ^ (12 + 9 * 0) % 512) = e0
        by_cases hv : e0 &&& pteV = 0
        · simp only [if_neg (not_not.mpr hv), if_pos hv]
          rfl
        · simp only [if_pos hv, if_neg hv]
          by_cases hu : e0 &&& pteU = 0
          · simp [perm, hu]
          · simp [perm, hu]
      · simp only [if_neg h1, Option.bind_none]
        rfl
    · simp only [if_neg h2, Option.bind_none]
      rfl

end

/-- the three copies, for every page table, address and length -/
theorem copies_exact (t : UserTable) (m : Mem) (dstva srcva len max : UInt64)
    (src : Nat → UInt8) :
    Copyout t m dstva src len (copyout t.walkaddr m dstva src len) ∧
    Copyin t m srcva len (copyin t.walkaddr m srcva len) ∧
    Copyinstr t m srcva max (copyinstr t.walkaddr m srcva max) :=
  ⟨copyout_exact t m dstva src len, copyin_exact t m srcva len, copyinstr_exact t m srcva max⟩

end Words
