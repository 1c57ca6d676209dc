import Xv6.Lib.Paging
import Xv6.Vm.Model

/-!
# Copying between the kernel and a process (`copyout`, `copyin`, `copyinstr`)

The three functions go page by page.  Here they are with the bytes of the memory, for any
`walkaddr`, and each is the function of `Paging` that goes byte by byte.  The other side of a copy is
a kernel buffer: `src` are its bytes, or the result has what is stored in it.
-/

namespace Copy
open Lib
open Vm hiding Mem

section
-- `walkaddr` on the page table of the process
variable (walkaddr : Nat → Nat)

/-! ## the model -/

/-- the loop of `copyout`, with `src` at byte `k`; each round copies a byte at least -/
def copyoutLoop (src : Nat → UInt8) : Nat → Mem → Nat → Nat → Nat → Mem × Int
  | 0, m, _, _, _ => (m, 0)
  | fuel + 1, m, dstva, k, len =>
    if 0 < len then
      let va0 := pgrounddown dstva
      let pa0 := walkaddr va0
      if pa0 = 0 then (m, -1)
      else
        let n := min (pgsize - (dstva - va0)) len
        copyoutLoop src fuel (blit m (pa0 + (dstva - va0)) src k n) ((va0 + pgsize) % 2 ^ 64) (k + n)
          (len - n)
    else (m, 0)

def copyout (m : Mem) (dstva : UInt64) (src : Nat → UInt8) (len : UInt64) : Mem × Int :=
  copyoutLoop walkaddr src len.toNat m dstva.toNat 0 len.toNat

/-- the loop of `copyin`; `got` is stored in `dst` -/
def copyinLoop (m : Mem) : Nat → List UInt8 → Nat → Nat → List UInt8 × Int
  | 0, got, _, _ => (got, 0)
  | fuel + 1, got, srcva, len =>
    if 0 < len then
      let va0 := pgrounddown srcva
      let pa0 := walkaddr va0
      if pa0 = 0 then (got, -1)
      else
        let n := min (pgsize - (srcva - va0)) len
        copyinLoop m fuel (got ++ bytesAt m (pa0 + (srcva - va0)) n) ((va0 + pgsize) % 2 ^ 64) (len - n)
    else (got, 0)

def copyin (m : Mem) (srcva : UInt64) (len : UInt64) : List UInt8 × Int :=
  copyinLoop walkaddr m len.toNat [] srcva.toNat len.toNat

/-- the loop of `copyinstr` over `n` bytes of a page: what is stored, whether a NUL was, and `max`
after it -/
def copyinstrPage (m : Mem) : Nat → Nat → Nat → List UInt8 → List UInt8 × Bool × Nat
  | 0, _, max, got => (got, false, max)
  | n + 1, p, max, got =>
    if m p = 0 then (got ++ [0], true, max) else copyinstrPage m n (p + 1) (max - 1) (got ++ [m p])

/-- the loop of `copyinstr`, as long as there was no NUL -/
def copyinstrLoop (m : Mem) : Nat → List UInt8 → Nat → Nat → List UInt8 × Int
  | 0, got, _, _ => (got, -1)
  | fuel + 1, got, srcva, max =>
    if 0 < max then
      let va0 := pgrounddown srcva
      let pa0 := walkaddr va0
      if pa0 = 0 then (got, -1)
      else
        let n := min (pgsize - (srcva - va0)) max
        match copyinstrPage m n (pa0 + (srcva - va0)) max got with
        | (got, true, _) => (got, 0)
        | (got, false, max) => copyinstrLoop m fuel got ((va0 + pgsize) % 2 ^ 64) max
    else (got, -1)

def copyinstr (m : Mem) (srcva : UInt64) (max : UInt64) : List UInt8 × Int :=
  copyinstrLoop walkaddr m max.toNat [] srcva.toNat max.toNat

def byteAddr (va : Nat) : Option Nat :=
  if walkaddr (pgrounddown va) = 0 then none else some (walkaddr (pgrounddown va) + va % pgsize)

end

/-! ## a page at a time is a byte at a time -/

section
variable {walkaddr : Nat → Nat} {src : Nat → UInt8} {m : Mem} {va k n len fuel : Nat}
  {got : List UInt8}

theorem sub_pgrounddown (va : Nat) : va - pgrounddown va = va % pgsize := by
  unfold pgrounddown pgsize
  omega

theorem byteAddr_add (hva : va < 2 ^ 64) (hi : n < pgsize - va % pgsize) :
    byteAddr walkaddr ((va + n) % 2 ^ 64) =
      if walkaddr (pgrounddown va) = 0 then none
      else some (walkaddr (pgrounddown va) + va % pgsize + n) := by
  have hmod : (va + n) % 2 ^ 64 = va + n := by
    apply Nat.mod_eq_of_lt
    unfold pgsize at hi
    omega
  have hpage : pgrounddown (va + n) = pgrounddown va := by
    unfold pgrounddown pgsize at *
    omega
  have hoff : (va + n) % pgsize = va % pgsize + n := by
    unfold pgsize at *
    omega
  unfold byteAddr
  rw [hmod, hpage, hoff, Nat.add_assoc]

section
variable (hlim : ∀ va, maxva ≤ va → walkaddr va = 0)
include hlim

/-- behind a page that is mapped there is another one -/
theorem next_page (h : walkaddr (pgrounddown va) ≠ 0) :
    pgrounddown va + pgsize < 2 ^ 64 ∧ (pgrounddown va + pgsize) % 2 ^ 64 = pgrounddown va + pgsize ∧
      va + (pgsize - va % pgsize) = pgrounddown va + pgsize := by
  have hlt : pgrounddown va < maxva := by
    by_contra hno
    exact h (hlim _ (Nat.le_of_not_lt hno))
  have hnext : pgrounddown va + pgsize < 2 ^ 64 := by
    unfold maxva at hlt
    unfold pgsize
    omega
  refine ⟨hnext, Nat.mod_eq_of_lt hnext, ?_⟩
  unfold pgrounddown pgsize at *
  omega

theorem copyoutLoop_eq (hva : va < 2 ^ 64) (hfuel : len ≤ fuel) :
    copyoutLoop walkaddr src fuel m va k len =
      ((Paging.store (2 ^ 64) (byteAddr walkaddr) src len m va k).1,
        if (Paging.store (2 ^ 64) (byteAddr walkaddr) src len m va k).2 then 0 else -1) := by
  induction fuel generalizing m va k len with
  | zero =>
    obtain rfl := Nat.le_zero.mp hfuel
    rfl
  | succ fuel ih =>
    unfold copyoutLoop
    by_cases hlen : 0 < len
    · rw [if_pos hlen]
      dsimp only
      rw [sub_pgrounddown]
      by_cases hpa : walkaddr (pgrounddown va) = 0
      · obtain ⟨l, rfl⟩ := Nat.exists_eq_add_one.mpr hlen
        have hno : byteAddr walkaddr va = none := if_pos hpa
        rw [if_pos hpa, Paging.store, hno]
        rfl
      · rw [if_neg hpa]
        obtain ⟨hlt, hmod, hsum⟩ := next_page hlim hpa
        generalize hn : min (pgsize - va % pgsize) len = n
        have hblock : ∀ i < n, byteAddr walkaddr ((va + i) % 2 ^ 64) =
            some (walkaddr (pgrounddown va) + va % pgsize + i) := by
          intro i hi
          rw [byteAddr_add hva (by omega), if_neg hpa]
        have hpos : 0 < pgsize - va % pgsize := Nat.sub_pos_of_lt (Nat.mod_lt va (by decide))
        have hstore : Paging.store (2 ^ 64) (byteAddr walkaddr) src (n + (len - n)) m va k = _ :=
          Paging.store_block hva hblock
        rw [Nat.add_sub_cancel' (by omega)] at hstore
        rw [hstore, hmod, ih hlt (by omega)]
        by_cases hlast : n = len
        · rw [hlast, Nat.sub_self]
          rfl
        · have hva' : (va + n) % 2 ^ 64 = pgrounddown va + pgsize := by
            rw [← hsum, show n = pgsize - va % pgsize by omega]
            apply Nat.mod_eq_of_lt
            omega
          rw [hva']
    · obtain rfl : len = 0 := by omega
      rw [if_neg hlen]
      rfl

theorem copyinLoop_eq (hva : va < 2 ^ 64) (hfuel : len ≤ fuel) :
    copyinLoop walkaddr m fuel got va len =
      (got ++ (Paging.read (2 ^ 64) (byteAddr walkaddr) m len va).1,
        if (Paging.read (2 ^ 64) (byteAddr walkaddr) m len va).2 then 0 else -1) := by
  induction fuel generalizing va len got with
  | zero =>
    obtain rfl := Nat.le_zero.mp hfuel
    unfold copyinLoop Paging.read
    rw [List.append_nil]
    rfl
  | succ fuel ih =>
    unfold copyinLoop
    by_cases hlen : 0 < len
    · rw [if_pos hlen]
      dsimp only
      rw [sub_pgrounddown]
      by_cases hpa : walkaddr (pgrounddown va) = 0
      · obtain ⟨l, rfl⟩ := Nat.exists_eq_add_one.mpr hlen
        have hno : byteAddr walkaddr va = none := if_pos hpa
        rw [if_pos hpa, Paging.read, hno, List.append_nil]
        rfl
      · rw [if_neg hpa]
        obtain ⟨hlt, hmod, hsum⟩ := next_page hlim hpa
        generalize hn : min (pgsize - va % pgsize) len = n
        have hblock : ∀ i < n, byteAddr walkaddr ((va + i) % 2 ^ 64) =
            some (walkaddr (pgrounddown va) + va % pgsize + i) := by
          intro i hi
          rw [byteAddr_add hva (by omega), if_neg hpa]
        have hpos : 0 < pgsize - va % pgsize := Nat.sub_pos_of_lt (Nat.mod_lt va (by decide))
        have hread : Paging.read (2 ^ 64) (byteAddr walkaddr) m (n + (len - n)) va = _ :=
          Paging.read_block hva hblock
        rw [Nat.add_sub_cancel' (by omega)] at hread
        rw [hread, hmod, ih hlt (by omega), List.append_assoc]
        by_cases hlast : n = len
        · rw [hlast, Nat.sub_self]
          rfl
        · have hva' : (va + n) % 2 ^ 64 = pgrounddown va + pgsize := by
            rw [← hsum, show n = pgsize - va % pgsize by omega]
            apply Nat.mod_eq_of_lt
            omega
          rw [hva']
    · obtain rfl : len = 0 := by omega
      rw [if_neg hlen]
      unfold Paging.read
      rw [List.append_nil]
      rfl

end

/-- the bytes of a page: a NUL ends the string, or it goes on behind them -/
theorem copyinstrPage_spec {W pa max : Nat} {tr : Nat → Option Nat} (hva : va < W)
    (h : ∀ i < n, tr ((va + i) % W) = some (pa + i)) (hmax : n ≤ max) (got : List UInt8) :
    match copyinstrPage m n pa max got with
    | (g, true, _) => g = got ++ (Paging.string W tr m max va).1 ∧
        (Paging.string W tr m max va).2 = true
    | (g, false, left) => left = max - n ∧
        g ++ (Paging.string W tr m (max - n) ((va + n) % W)).1 =
          got ++ (Paging.string W tr m max va).1 ∧
        (Paging.string W tr m (max - n) ((va + n) % W)).2 = (Paging.string W tr m max va).2 := by
  induction n generalizing va pa max got with
  | zero =>
    show max = max - 0 ∧ _
    rw [Nat.sub_zero, Nat.add_zero, Nat.mod_eq_of_lt hva]
    exact ⟨rfl, rfl, rfl⟩
  | succ n ih =>
    obtain ⟨max, rfl⟩ : ∃ k, max = k + 1 := ⟨max - 1, by omega⟩
    have h0 := h 0 (Nat.succ_pos n)
    rw [Nat.add_zero, Nat.add_zero, Nat.mod_eq_of_lt hva] at h0
    have hrest : ∀ i < n, tr (((va + 1) % W + i) % W) = some (pa + 1 + i) := by
      intro i hi
      rw [Nat.mod_add_mod, Nat.add_right_comm va, Nat.add_assoc va, Nat.add_assoc pa,
        Nat.add_comm 1 i]
      exact h (i + 1) (Nat.succ_lt_succ hi)
    have hstep := Paging.string_succ (W := W) (m := m) (n := max) h0
    unfold copyinstrPage
    by_cases hz : m pa = 0
    · rw [if_pos hz] at hstep
      rw [if_pos hz, hstep]
      exact ⟨rfl, rfl⟩
    · rw [if_neg hz] at hstep
      rw [if_neg hz, Nat.add_sub_cancel, hstep]
      have hpage := ih (Nat.mod_lt (va + 1) (Nat.zero_lt_of_lt hva)) hrest
        (Nat.le_of_succ_le_succ hmax) (got ++ [m pa])
      have hva' : ((va + 1) % W + n) % W = (va + (n + 1)) % W := by
        rw [Nat.mod_add_mod, Nat.add_right_comm, Nat.add_assoc]
      rw [hva', List.append_assoc, List.singleton_append] at hpage
      rw [Nat.add_sub_add_right]
      exact hpage

theorem copyinstrLoop_eq {max : Nat} (hlim : ∀ va, maxva ≤ va → walkaddr va = 0)
    (hva : va < 2 ^ 64) (hfuel : max ≤ fuel) : copyinstrLoop walkaddr m fuel got va max =
      (got ++ (Paging.string (2 ^ 64) (byteAddr walkaddr) m max va).1,
        if (Paging.string (2 ^ 64) (byteAddr walkaddr) m max va).2 then 0 else -1) := by
  induction fuel generalizing va max got with
  | zero =>
    obtain rfl := Nat.le_zero.mp hfuel
    unfold copyinstrLoop Paging.string
    rw [List.append_nil]
    rfl
  | succ fuel ih =>
    unfold copyinstrLoop
    by_cases hmax : 0 < max
    · rw [if_pos hmax]
      dsimp only
      rw [sub_pgrounddown]
      by_cases hpa : walkaddr (pgrounddown va) = 0
      · obtain ⟨l, rfl⟩ := Nat.exists_eq_add_one.mpr hmax
        have hno : byteAddr walkaddr va = none := if_pos hpa
        rw [if_pos hpa, Paging.string, hno, List.append_nil]
        rfl
      · rw [if_neg hpa]
        obtain ⟨hlt, hmod, hsum⟩ := next_page hlim hpa
        generalize hn : min (pgsize - va % pgsize) max = n
        have hblock : ∀ i < n, byteAddr walkaddr ((va + i) % 2 ^ 64) =
            some (walkaddr (pgrounddown va) + va % pgsize + i) := by
          intro i hi
          rw [byteAddr_add hva (by omega), if_neg hpa]
        have hpos : 0 < pgsize - va % pgsize := Nat.sub_pos_of_lt (Nat.mod_lt va (by decide))
        have hpage := copyinstrPage_spec (m := m) hva hblock (show n ≤ max by omega) got
        rcases hp : copyinstrPage m n (walkaddr (pgrounddown va) + va % pgsize) max got with
          ⟨g, found, left⟩
        rw [hp] at hpage
        cases found with
        | true =>
          obtain ⟨hg, hok⟩ := hpage
          rw [hok, hg]
          rfl
        | false =>
          obtain ⟨hleft, hg, hok⟩ := hpage
          dsimp only at hleft ⊢
          rw [hmod, ih hlt (by omega), hleft]
          by_cases hlast : n = max
          · rw [← hg, ← hok, hlast, Nat.sub_self]
            rfl
          · have hva' : (va + n) % 2 ^ 64 = pgrounddown va + pgsize := by
              rw [← hsum, show n = pgsize - va % pgsize by omega]
              apply Nat.mod_eq_of_lt
              omega
            rw [← hg, ← hok, hva']
    · obtain rfl : max = 0 := by omega
      rw [if_neg hmax]
      unfold Paging.string
      rw [List.append_nil]
      rfl

end

end Copy
