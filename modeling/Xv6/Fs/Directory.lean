import Xv6.Fs.Dir
import Xv6.Fs.Inode
import Xv6.Lib.Run
import Xv6.Lib.SlotMap

/-!
# A directory as a file (`dirlookup`, `dirlink`, `sys_unlink`)

A directory is a file of records of 16 bytes: an inode number, and a name of `DIRSIZ` bytes that has
no NUL when it is that long.  A record with inode number 0 is free.  The functions are those of the
kernel on one directory, byte by byte, and the machine calls them in any order; the inodes that the
records denote are not in it, and of `sys_unlink` only what it does to the directory.

What comes out is a finite map from names to inode numbers (`SlotMap`).
-/

namespace Dirfile
open Fs Lib

abbrev Bytes := List UInt8

/-! ## the model -/

/-- `sizeof(struct dirent)` -/
def direntsz : Nat := 16

def strncmp : Nat → Bytes → Bytes → Int
  | 0, _, _ => 0
  | n + 1, p, q =>
    if p.headD 0 ≠ 0 ∧ p.headD 0 = q.headD 0 then strncmp n p.tail q.tail
    else ((p.headD 0).toNat : Int) - (q.headD 0).toNat

/-- the bytes that `strncpy` stores -/
def strncpy : Nat → Bytes → Bytes
  | 0, _ => []
  | n + 1, t => if t.headD 0 = 0 then List.replicate (n + 1) 0 else t.headD 0 :: strncpy n t.tail

def namecmp (s t : Bytes) : Int := strncmp dirsiz s t

structure Dirent where
  inum : Nat
  name : Bytes

/-- the inode number is a `ushort` -/
def encode (de : Dirent) : Bytes :=
  UInt8.ofNat de.inum :: UInt8.ofNat (de.inum / 256) :: de.name

def decode (b : Bytes) : Dirent where
  inum := (b.getD 0 0).toNat + 256 * (b.getD 1 0).toNat
  name := b.drop 2

/-- the loop of `readi` to a kernel address; each round takes a byte at least -/
def readiLoop (n : Nat) : Nat → Disk → Nat → Bytes → Option (Disk × Bytes)
  | 0, d, _, got => some (d, got)
  | fuel + 1, d, off, got =>
    if got.length < n then
      match bmap d (off / bsize) with
      | none => none
      | some (d, false) => some (d, got)
      | some (d, true) =>
        let m := min (n - got.length) (bsize - off % bsize)
        readiLoop n fuel d (off + m) (got ++ (List.range m).map (fun i => d.data (off + i)))
    else some (d, got)

/-- the bytes read; the sum of the two `uint` wraps -/
def readi (d : Disk) (off n : Nat) : Option (Disk × Bytes) :=
  if d.size < off ∨ (off + n) % 2 ^ 32 < off then some (d, [])
  else if d.size < (off + n) % 2 ^ 32 then readiLoop (d.size - off) (d.size - off) d off []
  else readiLoop n n d off []

/-- the loop of `dirlookup`: the inode number, and the offset of the entry -/
def dirlookupLoop (name : Bytes) : Nat → Disk → Nat → Option (Disk × Option (Nat × Nat))
  | 0, d, _ => some (d, none)
  | rounds + 1, d, off =>
    if off < d.size then
      match readi d off direntsz with
      | none => none
      | some (d, b) =>
        -- panic("dirlookup read")
        if b.length ≠ direntsz then none
        else if (decode b).inum = 0 then dirlookupLoop name rounds d (off + direntsz)
        else if namecmp name (decode b).name = 0 then some (d, some ((decode b).inum, off))
        else dirlookupLoop name rounds d (off + direntsz)
    else some (d, none)

def dirlookup (d : Disk) (name : Bytes) : Option (Disk × Option (Nat × Nat)) :=
  dirlookupLoop name (d.size / direntsz + 1) d 0

/-- the loop of `dirlink` that looks for an empty entry -/
def emptyLoop : Nat → Disk → Nat → Option (Disk × Nat)
  | 0, d, off => some (d, off)
  | rounds + 1, d, off =>
    if off < d.size then
      match readi d off direntsz with
      | none => none
      | some (d, b) =>
        -- panic("dirlink read")
        if b.length ≠ direntsz then none
        else if (decode b).inum = 0 then some (d, off)
        else emptyLoop rounds d (off + direntsz)
    else some (d, off)

/-- the bytes at a kernel address -/
def kernelSrc (b : Bytes) : Source := fun i => some (b.getD i 0)

/-- `false` is -1 -/
def dirlink (d : Disk) (name : Bytes) (inum : Nat) : Option (Disk × Bool) :=
  match dirlookup d name with
  | none => none
  | some (d, some _) => some (d, false)
  | some (d, none) =>
    match emptyLoop (d.size / direntsz + 1) d 0 with
    | none => none
    | some (d, off) =>
      match writei d (kernelSrc (encode ⟨inum, strncpy dirsiz name⟩)) off direntsz with
      | none => none
      | some (d, r) => some (d, r = direntsz)

def dot : Bytes := [46]
def dotdot : Bytes := [46, 46]

/-- `sys_unlink` of `name` in the directory; `busy` says that the inode is a directory and not
empty -/
def unlink (d : Disk) (name : Bytes) (busy : Bool) : Option (Disk × Bool) :=
  if namecmp name dot = 0 ∨ namecmp name dotdot = 0 then some (d, false)
  else
    match dirlookup d name with
    | none => none
    | some (d, none) => some (d, false)
    | some (d, some (_, off)) =>
      if busy then some (d, false)
      else
        match writei d (kernelSrc (List.replicate direntsz 0)) off direntsz with
        | none => none
        -- panic("unlink: writei")
        | some (d, r) => if r = direntsz then some (d, true) else none

/-! ## the machine -/

inductive Act where
  | dirlink (name : Bytes) (inum : Nat)
  | unlink (name : Bytes) (busy : Bool)
  /-- other files leave this many blocks free -/
  | others (free : Nat)

/-- `none` is a panic -/
def act (d : Disk) : Act → Option (Disk × Bool)
  | .dirlink name inum => dirlink d name inum
  | .unlink name busy => unlink d name busy
  | .others free => some ({ d with free := free }, true)

/-- a call with its result -/
def Step (d : Disk) (e : Act × Bool) (d' : Disk) : Prop := act d e.1 = some (d', e.2)

def newFile (data : Nat → UInt8) (free : Nat) : Disk where
  size := 0
  mapped := fun _ => false
  indirect := false
  data := data
  free := free

/-- the part of a name that counts -/
def key (name : Bytes) : Bytes := (name.take dirsiz).takeWhile (· ≠ 0)

def tell (m : Bytes → Option Nat) : Act × Bool → Bytes → Option Nat
  | (.dirlink name inum, true) => Function.update m (key name) (some inum)
  | (.unlink name _, true) => Function.update m (key name) none
  | _ => m

/-- the last that was linked under each name and not removed since -/
def told (l : List (Act × Bool)) : Bytes → Option Nat := l.foldl tell (fun _ => none)

def entry (d : Disk) (i : Nat) : Dirent :=
  decode ((List.range direntsz).map (fun j => d.data (direntsz * i + j)))

/-! ## names -/

section
variable {n : Nat} {p q t name : Bytes}

theorem strncmp_eq_zero :
    strncmp n p q = 0 ↔ (p.take n).takeWhile (· ≠ 0) = (q.take n).takeWhile (· ≠ 0) := by
  induction n generalizing p q with
  | zero => exact ⟨fun _ => rfl, fun _ => rfl⟩
  | succ n ih =>
    have hhead : ∀ (a b : UInt8), (a.toNat : Int) - b.toNat = 0 ↔ a = b := by
      intro a b
      rw [Int.sub_eq_zero, Int.natCast_inj, UInt8.toNat_inj]
    unfold strncmp
    cases p with
    | nil =>
      rw [if_neg (fun h => h.1 rfl), hhead]
      cases q with
      | nil => exact ⟨fun _ => rfl, fun _ => rfl⟩
      | cons b q =>
        show (0 : UInt8) = b ↔ _
        rw [List.take_nil, List.take_succ_cons, List.takeWhile_nil, List.takeWhile_cons]
        by_cases hb : b = 0
        · simp [hb]
        · simp [hb, Ne.symm hb]
    | cons a p =>
      rw [List.take_succ_cons, List.takeWhile_cons]
      show (if a ≠ 0 ∧ a = q.headD 0 then strncmp n p q.tail else _) = 0 ↔ _
      by_cases ha : a = 0
      · rw [if_neg (fun h => h.1 ha), hhead]
        show a = q.headD 0 ↔ _
        cases q with
        | nil => simp [ha]
        | cons b q =>
          rw [List.take_succ_cons, List.takeWhile_cons]
          by_cases hb : b = 0
          · simp [ha, hb]
          · simp [ha, hb, Ne.symm hb]
      · cases q with
        | nil =>
          rw [if_neg (fun h => ha h.2), hhead]
          simp [ha]
        | cons b q =>
          rw [List.take_succ_cons, List.takeWhile_cons]
          show (if a ≠ 0 ∧ a = b then strncmp n p q else _) = 0 ↔ _
          by_cases hab : a = b
          · rw [if_pos ⟨ha, hab⟩, ih, ← hab]
            simp [ha]
          · rw [if_neg (fun h => hab h.2), hhead]
            show a = b ↔ _
            by_cases hb : b = 0
            · simp [ha, hb]
            · simp [ha, hb, hab]

theorem namecmp_eq_zero : namecmp p q = 0 ↔ key p = key q := strncmp_eq_zero

theorem length_strncpy : (strncpy n t).length = n := by
  induction n generalizing t with
  | zero => rfl
  | succ n ih =>
    unfold strncpy
    split
    · exact List.length_replicate
    · rw [List.length_cons, ih]

theorem takeWhile_strncpy :
    (strncpy n t).takeWhile (· ≠ 0) = (t.take n).takeWhile (· ≠ 0) := by
  induction n generalizing t with
  | zero => rfl
  | succ n ih =>
    unfold strncpy
    cases t with
    | nil => simp [List.replicate_succ]
    | cons a t =>
      rw [List.headD_cons, List.take_succ_cons]
      by_cases ha : a = 0
      · simp [ha, List.replicate_succ]
      · rw [if_neg ha, List.takeWhile_cons, List.takeWhile_cons, List.tail_cons, ih]

theorem key_strncpy : key (strncpy dirsiz name) = key name := by
  unfold key
  rw [List.take_of_length_le (by rw [length_strncpy]), takeWhile_strncpy]

theorem decode_encode {inum : Nat} (h : inum < 2 ^ 16) : decode (encode ⟨inum, name⟩) = ⟨inum, name⟩ := by
  have hnum : (UInt8.ofNat inum).toNat + 256 * (UInt8.ofNat (inum / 256)).toNat = inum := by
    rw [UInt8.toNat_ofNat', UInt8.toNat_ofNat']
    omega
  unfold decode encode
  exact congrArg (Dirent.mk · name) hnum

end

end Dirfile
