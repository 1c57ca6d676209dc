import Xv6.Lib.Mem

/-!
# The user allocator (`user/umalloc.c`)

Blocks are headers in byte memory: `name` at offset 0, `size` at 8 (bit 0 is the free bit),
`next_block` at 16, `prev_block` at 24, and for a `struct free_block` also `next_free` at 32 and
`prev_free` at 40.  Pointers are addresses, NULL is `0`.  `uint64` arithmetic is modulo `2^64`,
`uint` arithmetic modulo `2^32`.

A loop over the free list follows pointers in memory, so it gets a fuel: the number of blocks that
were ever made.  `none` is a loop that runs out of it, or memory that the kernel does not have.
-/

namespace Umalloc
open Lib

/-! ## constants and types -/

def pageSz : Nat := 4096
def minBlockSz : Nat := 48
def headerSz : Nat := 32
/-- no user address reaches `MAXVA` -/
def maxVa : Nat := 2 ^ 38

inductive Fsm where
  | firstFit | bestFit | worstFit
  deriving DecidableEq, Repr

/-- the process memory with its break, and the globals of `umalloc.c`; `created` records the
blocks in the order in which `split` and `malloc` make them -/
structure Heap where
  mem : Mem
  brk : Nat
  fsm : Fsm
  safe : Bool
  blockListHead : Nat
  blockListTail : Nat
  freeListHead : Nat
  freeListTail : Nat
  created : List Nat

def Heap.init (mem : Mem) (base : Nat) : Heap where
  mem := mem
  brk := base
  fsm := .firstFit
  safe := true
  blockListHead := 0
  blockListTail := 0
  freeListHead := 0
  freeListTail := 0
  created := []

/-! ## header fields -/

namespace Heap
variable (h : Heap) (b v : Nat)

def size : Nat := load64 h.mem (b + 8)
def nextBlock : Nat := load64 h.mem (b + 16)
def prevBlock : Nat := load64 h.mem (b + 24)
def nextFree : Nat := load64 h.mem (b + 32)
def prevFree : Nat := load64 h.mem (b + 40)

def put (a : Nat) : Heap := { h with mem := store64 h.mem a v }

def setSize : Heap := h.put v (b + 8)
def setNextBlock : Heap := h.put v (b + 16)
def setPrevBlock : Heap := h.put v (b + 24)
def setNextFree : Heap := h.put v (b + 32)
def setPrevFree : Heap := h.put v (b + 40)

/-- `strcpy(block->name, s)` -/
def setName (s : List UInt8) : Heap := { h with mem := storeBytes h.mem b (s ++ [0]) }

end Heap

def splitName : List UInt8 := [115, 112, 108, 105, 116]

/-! ## the block list and the free list -/

def addBlock (h : Heap) (block : Nat) : Heap :=
  if h.blockListHead = 0 then
    let h := { h with blockListHead := block, blockListTail := block }
    (h.setNextBlock block 0).setPrevBlock block 0
  else
    let h := h.setNextBlock h.blockListTail block
    let h := h.setPrevBlock block h.blockListTail
    let h := h.setNextBlock block 0
    { h with blockListTail := block }

def addFree (h : Heap) (free : Nat) : Heap :=
  if h.freeListHead = 0 then
    let h := { h with freeListHead := free, freeListTail := free }
    (h.setNextFree free 0).setPrevFree free 0
  else
    let h := h.setNextFree h.freeListTail free
    let h := h.setPrevFree free h.freeListTail
    let h := h.setNextFree free 0
    { h with freeListTail := free }

/-- the part of `remove_free` that moves the end pointers past `remove` -/
def moveEnds (h : Heap) (remove : Nat) : Heap :=
  { h with
    freeListHead := if h.freeListHead = remove then h.nextFree remove else h.freeListHead
    freeListTail := if h.freeListTail = remove then h.prevFree remove else h.freeListTail }

/-- `if (remove->next_free != NULL)` -/
def linkNext (h : Heap) (remove : Nat) : Heap :=
  if h.nextFree remove ≠ 0 then h.setPrevFree (h.nextFree remove) (h.prevFree remove) else h

/-- `if (remove->prev_free != NULL)` -/
def linkPrev (h : Heap) (remove : Nat) : Heap :=
  if h.prevFree remove ≠ 0 then h.setNextFree (h.prevFree remove) (h.nextFree remove) else h

def removeFree (h : Heap) (remove : Nat) : Heap :=
  if h.freeListHead = 0 ∨ remove = 0 then h
  else linkPrev (linkNext (moveEnds h remove) remove) remove

/-! ## the size field -/

def setFree (h : Heap) (b : Nat) : Heap := h.setSize b (h.size b ||| 1)

def isFree (h : Heap) (b : Nat) : Bool := h.size b &&& 1 == 1

def setUsed (h : Heap) (b : Nat) : Heap := h.setSize b (h.size b ^^^ 1)

/-- the argument is a `uint` -/
def realSize (size : Nat) : Nat := size % 2 ^ 32 / 2 * 2

def align (origSize alignment : Nat) : Nat :=
  let newSize := origSize / alignment * alignment
  if origSize % alignment ≠ 0 then (newSize + alignment) % 2 ^ 64 else newSize

/-! ## splitting -/

def insertSplit (h : Heap) (block split : Nat) : Heap :=
  let tmp := h.nextBlock block
  let h := h.setNextBlock block split
  let h := h.setPrevBlock split block
  let h := h.setNextBlock split tmp
  if tmp ≠ 0 then h.setPrevBlock tmp split else h

/-- the part of `split` that writes the header of the new block -/
def initSplit (h : Heap) (new nbytes : Nat) : Heap :=
  let h := h.setName new splitName
  let h := h.setSize new nbytes
  let h := h.setNextBlock new 0
  h.setPrevBlock new 0

/-- the part of `split` that updates the size of the old block -/
def shrink (h : Heap) (block newSize : Nat) : Heap :=
  let h := h.setSize block newSize
  if !isFree h block then setFree h block else h

def split (h : Heap) (block blockSize nbytes : Nat) : Heap × Nat :=
  let new := (block + blockSize + 2 ^ 64 - nbytes) % 2 ^ 64
  let h := initSplit h new nbytes
  let h := shrink h block ((blockSize + 2 ^ 64 - nbytes) % 2 ^ 64)
  let h := insertSplit h block new
  ({ h with created := h.created ++ [new] }, new)

/-- bytes of a block for a request of `nbytes`: header included, rounded up to 16 -/
def totalSizeNeeded (nbytes : Nat) : Nat := align (headerSz + nbytes) 16

/-- `blockSize` and `nbytes` are `uint`; the subtraction is done in `uint64` -/
def checkCanSplit (h : Heap) (block blockSize nbytes : Nat) : Heap × Nat :=
  let h := { h with safe := true }
  let total := totalSizeNeeded nbytes
  if block = 0 then ({ h with safe := false }, 0)
  else if (blockSize + 2 ^ 64 - total) % 2 ^ 64 < minBlockSz then ({ h with safe := false }, 0)
  else if blockSize = total then (h, 0)
  else split h block blockSize (total % 2 ^ 32)

/-! ## the three policies -/

/-- the loop of `first_fit` from the list node `free` on -/
def firstFitLoop (nbytes : Nat) : Nat → Heap → Nat → Option (Heap × Nat)
  | fuel, h, free =>
    if free = 0 then some (h, 0)
    else match fuel with
    | 0 => none
    | fuel + 1 =>
      let blockSize := h.size free
      if nbytes ≤ blockSize then
        match checkCanSplit h free (blockSize % 2 ^ 32) nbytes with
        | (h, res) =>
          if res ≠ 0 then some (h, res)
          else if !h.safe then firstFitLoop nbytes fuel h (h.nextFree free)
          else some (removeFree (setUsed h free) free, free)
      else firstFitLoop nbytes fuel h (h.nextFree free)

def firstFit (h : Heap) (nbytes : Nat) : Option (Heap × Nat) :=
  firstFitLoop nbytes h.created.length h h.freeListHead

/-- the search loop of `best_fit` and `worst_fit`: `better a b` says that a block of size `a` is
taken instead of the present choice of size `b` -/
def extremeLoop (better : Nat → Nat → Bool) (h : Heap) (nbytes : Nat) :
    Nat → Nat → Nat → Option Nat
  | fuel, free, pick =>
    if free = 0 then some pick
    else match fuel with
    | 0 => none
    | fuel + 1 =>
      let pick := if nbytes ≤ h.size free ∧ (pick = 0 ∨ better (h.size free) (h.size pick)) then free
        else pick
      extremeLoop better h nbytes fuel (h.nextFree free) pick

/-- what `best_fit` and `worst_fit` do with the block they picked -/
def extremeFit (better : Nat → Nat → Bool) (h : Heap) (nbytes : Nat) : Option (Heap × Nat) :=
  match extremeLoop better h nbytes h.created.length h.freeListHead 0 with
  | none => none
  | some pick =>
    if pick = 0 then some (h, 0)
    else match checkCanSplit h pick (h.size pick % 2 ^ 32) nbytes with
    | (h, ret) => if ret ≠ 0 then some (h, ret) else some (removeFree (setUsed h pick) pick, pick)

def bestFit : Heap → Nat → Option (Heap × Nat) := extremeFit (fun a b => decide (b > a))

def worstFit : Heap → Nat → Option (Heap × Nat) := extremeFit (fun a b => decide (b < a))

def fsmFind (h : Heap) (nbytes : Nat) : Option (Heap × Nat) :=
  match h.fsm with
  | .firstFit => firstFit h nbytes
  | .bestFit => bestFit h nbytes
  | .worstFit => worstFit h nbytes

def mallocSetfsm (h : Heap) (choice : Int) : Heap :=
  { h with fsm := if choice = 1 then .bestFit else if choice = 2 then .worstFit else .firstFit }

/-! ## `sbrk`, `malloc`, `free` -/

/-- the `int` with the low 32 bits of `n` -/
def toInt (n : Nat) : Int :=
  if n % 2 ^ 32 < 2 ^ 31 then (n % 2 ^ 32 : Nat) else (n % 2 ^ 32 : Nat) - 2 ^ 32

/-- `sys_sbrk` and `growproc`: new pages are zero; `none` when there is no memory left -/
def sbrk (h : Heap) (n : Int) : Option (Heap × Nat) :=
  if 0 < n then
    if h.brk + n.toNat ≤ maxVa then
      some ({ h with
        brk := h.brk + n.toNat
        mem := fun a => if h.brk ≤ a ∧ a < h.brk + n.toNat then 0 else h.mem a }, h.brk)
    else none
  else if n = 0 ∨ h.brk < (-n).toNat then some (h, h.brk)
  else some ({ h with brk := h.brk - (-n).toNat }, h.brk)

/-- bytes that `malloc` asks the kernel for -/
def totalSize (nbytes : Nat) : Nat := align (align (nbytes + headerSz) 16) pageSz

/-- the part of `malloc` that writes the header of a block from `sbrk` and lists it -/
def newBlock (h : Heap) (block totalSize : Nat) : Heap :=
  let h := h.setName block []
  let h := h.setSize block totalSize
  let h := h.setNextBlock block 0
  let h := h.setPrevBlock block 0
  addBlock { h with created := h.created ++ [block] } block

/-- the part of `malloc` that gets a new block from the kernel -/
def growHeap (h : Heap) (nbytes : Nat) : Option (Heap × Nat) :=
  match sbrk h (toInt (totalSize nbytes)) with
  | none => none
  | some (h, block) =>
    match checkCanSplit (newBlock h block (totalSize nbytes)) block (totalSize nbytes % 2 ^ 32)
      nbytes with
    | (h, splitBlock) =>
      if splitBlock ≠ 0 then some (addFree (setFree h block) block, splitBlock + headerSz)
      else some (h, block + headerSz)

def malloc (h : Heap) (nbytes : Nat) : Option (Heap × Nat) :=
  match fsmFind h nbytes with
  | none => none
  | some (h, found) =>
    if found ≠ 0 then some (h, found + headerSz) else growHeap h nbytes

def free (h : Heap) (ap : Nat) : Heap :=
  let block := ap - headerSz
  addFree (setFree h block) block

end Umalloc
