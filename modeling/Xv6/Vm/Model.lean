import Mathlib.Algebra.Group.Int.Defs
import Mathlib.Algebra.Group.Nat.Defs
import Mathlib.Data.List.Basic
import Mathlib.Logic.Function.Basic

/-!
# Pages and page tables (`kernel/kalloc.c`, `kernel/vm.c`)

A physical page is its address.  The three levels of a page table are three maps: the page-table
page behind an entry of the root, by `va >> 30`, the one behind an entry of that page, by
`va >> 21`, and the leaf, by `va >> 12`.  `Mem` is the free list with the page table that a function
works on.  `none` is a panic; where a function returns -1 or 0, its result says so.

`kend` is the symbol `end`, the first address behind the kernel.  The bytes in pages are left out.
-/

namespace Vm

def pgsize : Nat := 4096

theorem three_lt_pgsize : 3 < pgsize := by decide
def maxva : Nat := 2 ^ 38
def phystop : Nat := 0x88000000
def trampolineVa : Nat := maxva - pgsize
def trapframeVa : Nat := trampolineVa - pgsize

/-- `PGROUNDUP` of a `uint64` -/
def pgroundup (a : Nat) : Nat := (a + (pgsize - 1)) % 2 ^ 64 / pgsize * pgsize
def pgrounddown (a : Nat) : Nat := a / pgsize * pgsize

/-- `PTE_R`, `PTE_W`, `PTE_X` and `PTE_U` -/
structure Perm where
  r : Bool
  w : Bool
  x : Bool
  u : Bool
  deriving DecidableEq

/-- a PTE with `PTE_V` -/
structure Pte where
  pa : Nat
  perm : Perm
  deriving DecidableEq

structure PageTable where
  root : Nat
  mid : Nat → Option Nat
  low : Nat → Option Nat
  pte : Nat → Option Pte

structure Mem where
  free : List Nat
  pt : PageTable

/-! ## `kalloc.c` -/

/-- `kalloc`; `none` is 0 -/
def kalloc : List Nat → Option (Nat × List Nat)
  | [] => none
  | pa :: free => some (pa, free)

section
variable (kend : Nat)

def kfree (pa : Nat) (free : List Nat) : Option (List Nat) :=
  if pa % pgsize ≠ 0 ∨ pa < kend ∨ phystop ≤ pa then none else some (pa :: free)

/-! ## `vm.c` -/

/-- the round of `walk` at level 2; `false` is 0 -/
def walkMid (m : Mem) (va : Nat) (alloc : Bool) : Mem × Bool :=
  match m.pt.mid (va / 2 ^ 30) with
  | some _ => (m, true)
  | none =>
    if alloc then
      match kalloc m.free with
      | none => (m, false)
      | some (pa, free) =>
        (⟨free, { m.pt with mid := Function.update m.pt.mid (va / 2 ^ 30) (some pa) }⟩, true)
    else (m, false)

/-- the round of `walk` at level 1 -/
def walkLow (m : Mem) (va : Nat) (alloc : Bool) : Mem × Bool :=
  match m.pt.low (va / 2 ^ 21) with
  | some _ => (m, true)
  | none =>
    if alloc then
      match kalloc m.free with
      | none => (m, false)
      | some (pa, free) =>
        (⟨free, { m.pt with low := Function.update m.pt.low (va / 2 ^ 21) (some pa) }⟩, true)
    else (m, false)

/-- `walk`; with `true` the PTE is at `va / pgsize` -/
def walk (m : Mem) (va : Nat) (alloc : Bool) : Option (Mem × Bool) :=
  if maxva ≤ va then none
  else
    match walkMid m va alloc with
    | (m, false) => some (m, false)
    | (m, true) => some (walkLow m va alloc)

def Mem.setPte (m : Mem) (va : Nat) (pte : Option Pte) : Mem :=
  { m with pt := { m.pt with pte := Function.update m.pt.pte (va / pgsize) pte } }

/-- `walkaddr`; `none` is 0 -/
def walkaddr (pt : PageTable) (va : Nat) : Option Nat :=
  if maxva ≤ va then none
  else
    match pt.mid (va / 2 ^ 30), pt.low (va / 2 ^ 21), pt.pte (va / pgsize) with
    | some _, some _, some pte => if pte.perm.u then some pte.pa else none
    | _, _, _ => none

/-- the loop of `mappages`, for this many pages from `a` and `pa` on; `false` is -1 -/
def mappagesLoop (perm : Perm) : Nat → Mem → Nat → Nat → Option (Mem × Bool)
  | 0, m, _, _ => some (m, true)
  | n + 1, m, a, pa =>
    match walk m a true with
    | none => none
    | some (m, false) => some (m, false)
    | some (m, true) =>
      if (m.pt.pte (a / pgsize)).isSome then none
      else mappagesLoop perm n (m.setPte a (some ⟨pa, perm⟩)) (a + pgsize) (pa + pgsize)

def mappages (m : Mem) (va size pa : Nat) (perm : Perm) : Option (Mem × Bool) :=
  if size = 0 then none
  else
    let a := pgrounddown va
    let last := pgrounddown (va + size - 1)
    mappagesLoop perm ((last - a) / pgsize + 1) m a pa

/-- the loop of `uvmunmap`, for this many pages -/
def uvmunmapLoop (doFree : Bool) : Nat → Mem → Nat → Option Mem
  | 0, m, _ => some m
  | n + 1, m, a =>
    match walk m a false with
    | none => none
    | some (_, false) => none
    | some (m, true) =>
      match m.pt.pte (a / pgsize) with
      | none => none
      | some pte =>
        -- a leaf has more flags than `PTE_V`
        if pte.perm = ⟨false, false, false, false⟩ then none
        else if doFree then
          match kfree kend pte.pa m.free with
          | none => none
          | some free =>
            uvmunmapLoop doFree n (({ m with free := free } : Mem).setPte a none) (a + pgsize)
        else uvmunmapLoop doFree n (m.setPte a none) (a + pgsize)

def uvmunmap (m : Mem) (va npages : Nat) (doFree : Bool) : Option Mem :=
  if va % pgsize ≠ 0 then none else uvmunmapLoop kend doFree npages m va

def PageTable.empty (root : Nat) : PageTable where
  root := root
  mid := fun _ => none
  low := fun _ => none
  pte := fun _ => none

/-- `uvmcreate`; `none` is 0 -/
def uvmcreate (free : List Nat) : Option Mem :=
  (kalloc free).map (fun r => ⟨r.2, .empty r.1⟩)

/-- `uvmdealloc`, with its result -/
def uvmdealloc (m : Mem) (oldsz newsz : Nat) : Option (Mem × Nat) :=
  if oldsz ≤ newsz then some (m, oldsz)
  else if pgroundup newsz < pgroundup oldsz then
    let npages := (pgroundup oldsz - pgroundup newsz) / pgsize
    (uvmunmap kend m (pgroundup newsz) npages true).map (fun m => (m, newsz))
  else some (m, newsz)

/-- the loop of `uvmalloc`; each round takes a page at least -/
def uvmallocLoop (oldsz newsz : Nat) (perm : Perm) : Nat → Mem → Nat → Option (Mem × Nat)
  | 0, _, _ => none
  | fuel + 1, m, a =>
    if a < newsz then
      match kalloc m.free with
      | none => (uvmdealloc kend m a oldsz).map (fun r => (r.1, 0))
      | some (mem, free) =>
        match mappages { m with free := free } a pgsize mem perm with
        | none => none
        | some (m, true) => uvmallocLoop oldsz newsz perm fuel m (a + pgsize)
        | some (m, false) =>
          match kfree kend mem m.free with
          | none => none
          | some free => (uvmdealloc kend { m with free := free } a oldsz).map (fun r => (r.1, 0))
    else some (m, newsz)

/-- `uvmalloc`, with its result; `xperm` is `PTE_W` and `PTE_X` -/
def uvmalloc (m : Mem) (oldsz newsz : Nat) (w x : Bool) : Option (Mem × Nat) :=
  if newsz < oldsz then some (m, oldsz)
  else
    let oldsz := pgroundup oldsz
    uvmallocLoop kend oldsz newsz ⟨true, w, x, true⟩ (m.free.length + 1) m oldsz

/-- `freewalk` of a page-table page of level 0 -/
def freewalkLow (pt : PageTable) (k pa : Nat) (free : List Nat) : Option (List Nat) :=
  if (List.range 512).any (fun i => (pt.pte (512 * k + i)).isSome) then none else kfree kend pa free

/-- `freewalk` of a page-table page of level 1 -/
def freewalkMid (pt : PageTable) (k pa : Nat) (free : List Nat) : Option (List Nat) :=
  ((List.range 512).foldlM (fun free i =>
    match pt.low (512 * k + i) with
    | none => some free
    | some child => freewalkLow kend pt (512 * k + i) child free) free).bind (kfree kend pa)

def freewalk (m : Mem) : Option (List Nat) :=
  ((List.range 512).foldlM (fun free i =>
    match m.pt.mid i with
    | none => some free
    | some child => freewalkMid kend m.pt i child free) m.free).bind (kfree kend m.pt.root)

def uvmfree (m : Mem) (sz : Nat) : Option (List Nat) :=
  if 0 < sz then (uvmunmap kend m 0 (pgroundup sz / pgsize) true).bind (freewalk kend)
  else freewalk kend m

/-- the loop of `uvmcopy`, for this many pages; `false` is -1 -/
def uvmcopyLoop (old : PageTable) : Nat → Mem → Nat → Option (Mem × Bool)
  | 0, m, _ => some (m, true)
  | n + 1, m, i =>
    if maxva ≤ i then none
    else
      match old.mid (i / 2 ^ 30), old.low (i / 2 ^ 21), old.pte (i / pgsize) with
      | some _, some _, some pte =>
        match kalloc m.free with
        | none => (uvmunmap kend m 0 (i / pgsize) true).map (fun m => (m, false))
        | some (mem, free) =>
          match mappages { m with free := free } i pgsize mem pte.perm with
          | none => none
          | some (m, true) => uvmcopyLoop old n m (i + pgsize)
          | some (m, false) =>
            match kfree kend mem m.free with
            | none => none
            | some free =>
              (uvmunmap kend { m with free := free } 0 (i / pgsize) true).map (fun m => (m, false))
      | _, _, _ => none

/-- `uvmcopy` to the page table of `m`; `false` is -1 -/
def uvmcopy (old : PageTable) (m : Mem) (sz : Nat) : Option (Mem × Bool) :=
  uvmcopyLoop kend old ((sz + (pgsize - 1)) / pgsize) m 0

end

def uvmclear (m : Mem) (va : Nat) : Option Mem :=
  match walk m va false with
  | some (m, true) =>
    some (m.setPte va ((m.pt.pte (va / pgsize)).map (fun pte =>
      { pte with perm := { pte.perm with u := false } })))
  | _ => none

/-- `copyout` of `len` bytes; `false` is -1 -/
def copyout (pt : PageTable) (dstva len : Nat) : Bool :=
  len = 0 || (List.range ((dstva + len - 1) / pgsize + 1 - dstva / pgsize)).all
    (fun k => (walkaddr pt ((dstva / pgsize + k) * pgsize)).isSome)

end Vm
