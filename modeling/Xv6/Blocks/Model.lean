import Xv6.Fs.Inode
import Xv6.Lib.Bitmap

/-!
# Blocks, bitmap and inodes (`kernel/fs.c`)

The disk block by block: `balloc`, `bfree`, `bmap`, `itrunc`, `readi`, `writei` and `ialloc` on the
contents of the buffer cache.  `cache` is what `bread` returns, `disk` what is in the home location
of a block, and `log` has the blocks that `log_write` got since the last commit, last first; how
many of them the log can hold is not looked at here.  An inode and its copy on the disk are one:
`iupdate` follows each change while the inode is locked.

A user buffer is `src`, the byte at each offset from its address, or `dst`, the offsets that can be
written to.
-/

namespace Blocks
open Lib Fs

abbrev Block := Nat → UInt8

@[irreducible] def bpb : Nat := bsize * 8

def ipb : Nat := bsize / 64

/-- boot block, super block, log, inodes, bitmap and data, in this order.  `balloc` counts the blocks
in an `int`, which is the same below 2^31 -/
structure Superblock where
  size : Nat
  nblocks : Nat
  ninodes : Nat
  inodestart : Nat
  bmapstart : Nat
  two_le : 2 ≤ inodestart
  inodes_le : inodestart + ninodes / ipb + 1 ≤ bmapstart
  bitmap_le : bmapstart + size / bpb + 1 ≤ size - nblocks
  size_lt : size < 2 ^ 32

def Superblock.iblock (sb : Superblock) (i : Nat) : Nat := i / ipb + sb.inodestart

def Superblock.bblock (sb : Superblock) (b : Nat) : Nat := b / bpb + sb.bmapstart

def Superblock.data (sb : Superblock) : Nat := sb.size - sb.nblocks

/-- `struct inode`; the type 0 is for a free one, and `addrs[NDIRECT]` is the indirect block -/
structure Inode where
  type : Nat
  size : Nat
  addrs : Nat → Nat

structure State where
  inode : Nat → Inode
  cache : Nat → Block
  disk : Nat → Block
  log : List Nat
  outstanding : Nat

/-! ## the buffer cache and the log -/

def State.setBlock (s : State) (b : Nat) (x : Block) : State :=
  { s with cache := Function.update s.cache b x }

def State.setInode (s : State) (i : Nat) (x : Inode) : State :=
  { s with inode := Function.update s.inode i x }

def State.setAddr (s : State) (i k addr : Nat) : State :=
  s.setInode i { s.inode i with addrs := Function.update (s.inode i).addrs k addr }

/-- `log_write`; it panics outside of a transaction -/
def State.logWrite (s : State) (b : Nat) : Option State :=
  if s.outstanding = 0 then none else some { s with log := b :: s.log }

def State.bzero (s : State) (b : Nat) : Option State := (s.setBlock b (fun _ => 0)).logWrite b

def State.iupdate (sb : Superblock) (s : State) (i : Nat) : Option State := s.logWrite (sb.iblock i)

def State.beginOp (s : State) : State := { s with outstanding := s.outstanding + 1 }

def State.commit (s : State) : State :=
  { s with disk := fun b => if b ∈ s.log then s.cache b else s.disk b, log := [] }

/-- `end_op`; the last one of a group commits -/
def State.endOp (s : State) : State :=
  let s := { s with outstanding := s.outstanding - 1 }
  if s.outstanding = 0 then s.commit else s

/-- the buffer is recycled and read again; the log pins its blocks -/
def State.evict (s : State) (b : Nat) : Option State :=
  if b ∈ s.log then none else some (s.setBlock b (s.disk b))

/-! ## the bitmap -/

/-- the inner loop of `balloc`, over the bits of `blk` -/
def ballocBlock (size b : Nat) (blk : Block) : Option Nat :=
  (List.range bpb).find? (fun bi => b + bi < size && !bit blk bi)

/-- the outer loop, with `b` and `bi` of the free block -/
def ballocLoop (sb : Superblock) (s : State) : Nat → Nat → Option (Nat × Nat)
  | 0, _ => none
  | fuel + 1, b =>
    if b < sb.size then
      match ballocBlock sb.size b (s.cache (sb.bblock b)) with
      | some bi => some (b, bi)
      | none => ballocLoop sb s fuel (b + bpb)
    else none

/-- the address 0 is for a disk without free blocks, `none` for a panic -/
def balloc (sb : Superblock) (s : State) : Option (State × Nat) :=
  match ballocLoop sb s sb.size 0 with
  | none => some (s, 0)
  | some (b, bi) =>
    let s := s.setBlock (sb.bblock b) (setBit (s.cache (sb.bblock b)) bi)
    match s.logWrite (sb.bblock b) with
    | none => none
    | some s => (s.bzero (b + bi)).map (fun s => (s, b + bi))

/-- `bfree`; it panics when the block is free -/
def bfree (sb : Superblock) (s : State) (b : Nat) : Option State :=
  let blk := s.cache (sb.bblock b)
  if bit blk (b % bpb) then
    (s.setBlock (sb.bblock b) (clearBit blk (b % bpb))).logWrite (sb.bblock b)
  else none

/-! ## the blocks of an inode -/

/-- `a[j]` of an indirect block -/
def entry (blk : Block) (j : Nat) : Nat := load blk (4 * j) 4

def setEntry (blk : Block) (j v : Nat) : Block := store blk (4 * j) 4 v

/-- the address in `addrs[k]`, which gets a block if it has none -/
def mapSlot (sb : Superblock) (s : State) (i k : Nat) : Option (State × Nat) :=
  let addr := (s.inode i).addrs k
  if addr = 0 then
    match balloc sb s with
    | none => none
    | some (s, addr) => if addr = 0 then some (s, 0) else some (s.setAddr i k addr, addr)
  else some (s, addr)

/-- the address in entry `j` of the indirect block `addr`, which gets a block if it has none -/
def mapEntry (sb : Superblock) (s : State) (addr j : Nat) : Option (State × Nat) :=
  let a := entry (s.cache addr) j
  if a = 0 then
    match balloc sb s with
    | none => none
    | some (s, a) =>
      if a = 0 then some (s, 0)
      else ((s.setBlock addr (setEntry (s.cache addr) j a)).logWrite addr).map (fun s => (s, a))
  else some (s, a)

def bmap (sb : Superblock) (s : State) (i bn : Nat) : Option (State × Nat) :=
  if bn < ndirect then mapSlot sb s i bn
  else
    let bn := bn - ndirect
    if bn < nindirect then
      match mapSlot sb s i ndirect with
      | none => none
      | some (s, addr) => if addr = 0 then some (s, 0) else mapEntry sb s addr bn
    else none

/-- a round of the first loop of `itrunc` -/
def freeSlot (sb : Superblock) (i : Nat) (s : State) (k : Nat) : Option State :=
  let addr := (s.inode i).addrs k
  if addr = 0 then some s else (bfree sb s addr).map (fun s => s.setAddr i k 0)

/-- a round of the second loop, over the indirect block `addr` -/
def freeEntry (sb : Superblock) (addr : Nat) (s : State) (j : Nat) : Option State :=
  let a := entry (s.cache addr) j
  if a = 0 then some s else bfree sb s a

/-- the indirect block, with the blocks in it -/
def freeIndirect (sb : Superblock) (s : State) (i : Nat) : Option State :=
  let addr := (s.inode i).addrs ndirect
  if addr = 0 then some s
  else
    match (List.range nindirect).foldlM (freeEntry sb addr) s with
    | none => none
    | some s => (bfree sb s addr).map (fun s => s.setAddr i ndirect 0)

def itrunc (sb : Superblock) (s : State) (i : Nat) : Option State :=
  match (List.range ndirect).foldlM (freeSlot sb i) s with
  | none => none
  | some s =>
    match freeIndirect sb s i with
    | none => none
    | some s => (s.setInode i { s.inode i with size := 0 }).iupdate sb i

/-! ## reading and writing -/

/-- the loop of `readi`: the state, the result and the bytes that are copied -/
def readiLoop (sb : Superblock) (i : Nat) (dst : Nat → Bool) (n : Nat) :
    Nat → State → Nat → Nat → List UInt8 → Option (State × Int × List UInt8)
  | 0, s, _, tot, bytes => some (s, tot, bytes)
  | fuel + 1, s, off, tot, bytes =>
    if tot < n then
      match bmap sb s i (off / bsize) with
      | none => none
      | some (s, addr) =>
        if addr = 0 then some (s, tot, bytes)
        else
          let m := min (n - tot) (bsize - off % bsize)
          if (List.range m).all (fun j => dst (tot + j)) then
            readiLoop sb i dst n fuel s (off + m) (tot + m)
              (bytes ++ (List.range m).map (fun j => s.cache addr (off % bsize + j)))
          else some (s, -1, bytes)
    else some (s, tot, bytes)

/-- the sum of the two `uint` wraps -/
def readi (sb : Superblock) (s : State) (i : Nat) (dst : Nat → Bool) (off n : Nat) :
    Option (State × Int × List UInt8) :=
  let size := (s.inode i).size
  if size < off ∨ (off + n) % 2 ^ 32 < off then some (s, 0, [])
  else
    let n := if size < (off + n) % 2 ^ 32 then size - off else n
    readiLoop sb i dst n n s off 0 []

/-- the loop of `writei`: the state, `off` and `tot` after it -/
def writeiLoop (sb : Superblock) (i : Nat) (src : Source) (n : Nat) :
    Nat → State → Nat → Nat → Option (State × Nat × Nat)
  | 0, s, off, tot => some (s, off, tot)
  | fuel + 1, s, off, tot =>
    if tot < n then
      match bmap sb s i (off / bsize) with
      | none => none
      | some (s, addr) =>
        if addr = 0 then some (s, off, tot)
        else
          let m := min (n - tot) (bsize - off % bsize)
          match copyin src m (off % bsize) tot (s.cache addr) with
          -- what is copied stays in the buffer
          | (data, false) => some (s.setBlock addr data, off, tot)
          | (data, true) =>
            match (s.setBlock addr data).logWrite addr with
            | none => none
            | some s => writeiLoop sb i src n fuel s (off + m) (tot + m)
    else some (s, off, tot)

def writei (sb : Superblock) (s : State) (i : Nat) (src : Source) (off n : Nat) :
    Option (State × Int) :=
  if (s.inode i).size < off ∨ (off + n) % 2 ^ 32 < off then some (s, -1)
  else if maxfile * bsize < (off + n) % 2 ^ 32 then some (s, -1)
  else
    match writeiLoop sb i src n n s off 0 with
    | none => none
    | some (s, off, tot) =>
      let x := s.inode i
      let s := s.setInode i { x with size := if x.size < off then off else x.size }
      (s.iupdate sb i).map (fun s => (s, (tot : Int)))

/-! ## allocating and freeing an inode -/

/-- `ialloc`, with the number of the inode; 0 when there is none -/
def ialloc (sb : Superblock) (s : State) (type : Nat) : Option (State × Nat) :=
  match (List.range' 1 (sb.ninodes - 1)).find? (fun i => (s.inode i).type == 0) with
  | none => some (s, 0)
  | some i => ((s.setInode i ⟨type, 0, fun _ => 0⟩).logWrite (sb.iblock i)).map (fun s => (s, i))

/-- `iput` of the last reference to an inode without links -/
def iput (sb : Superblock) (s : State) (i : Nat) : Option State :=
  match itrunc sb s i with
  | none => none
  | some s => (s.setInode i { s.inode i with type := 0 }).iupdate sb i

end Blocks
