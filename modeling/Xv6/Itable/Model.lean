import Mathlib.Algebra.GroupWithZero.Nat
import Mathlib.Logic.Function.Basic
import Xv6.Fs.Dir
import Xv6.Lib.Run

/-!
# Inodes in use and current directories (`kernel/fs.c`, `kernel/sysfile.c`)

`mkdir`, `chdir`, `unlink`, `getcwd`, `fork` and `exit`, one call after the other.  An inode is known
by its number, which fits a `ushort`.  Of the entry that the inode table has for it, `ref` and
`valid` are kept; the other fields are those of the disk, since `iupdate` follows each change.
Blocks are left out: `room` says for each entry that `dirlink` has to put at the end of a directory
whether there is a block for it.
-/

namespace Itable
open Fs Ulib

abbrev nproc : Nat := 64

theorem nproc_ne_zero : nproc ≠ 0 := by decide

instance : NeZero nproc := ⟨nproc_ne_zero⟩
def ninode : Nat := 50

inductive InodeType where
  /-- 0 on the disk -/
  | free
  /-- `T_DIR` -/
  | dir
  /-- `T_FILE` -/
  | file
  /-- `T_DEVICE` -/
  | device
  deriving DecidableEq

/-- `struct dinode`; a file that is no directory has no entries -/
structure Inode where
  type : InodeType
  nlink : Nat
  entries : List Dirent

abbrev Disk := Nat → Inode

/-- a process that is not there has no current directory -/
structure World where
  disk : Disk
  ref : Nat → Nat
  valid : Nat → Bool
  cwd : Fin nproc → Option Nat

/-- why a call does not return -/
inductive Stop where
  /-- `panic("iget: no inodes")` -/
  | igetNoInodes
  /-- `panic("ilock")` -/
  | ilock
  /-- `panic("ilock: no type")` -/
  | ilockNoType
  /-- `panic("dirlookup not DIR")` -/
  | dirlookupNotDir
  /-- `panic("unlink: nlink < 1")` -/
  | unlinkNlink
  /-- `panic("diriname not DIR")` -/
  | dirinameNotDir
  /-- `panic("getcwd not DIR")` -/
  | getcwdNotDir
  /-- `panic("init exiting")` -/
  | initExiting
  /-- something is read that is not there -/
  | undefined
  | forever
  deriving DecidableEq

abbrev M := StateT World (Except Stop)

def initproc : Fin nproc := 0

section
variable (ninodes : Nat)

/-! ## inodes -/

def World.setInode (w : World) (i : Nat) (x : Inode) : World :=
  { w with disk := Function.update w.disk i x }

def setNlink (i n : Nat) : M Unit := fun w => .ok ((), w.setInode i { w.disk i with nlink := n })

def setEntries (i : Nat) (es : List Dirent) : M Unit :=
  fun w => .ok ((), w.setInode i { w.disk i with entries := es })

/-- `iget` of inode `i`; an entry of the table is in use if it has references -/
def iget (i : Nat) : M Unit := fun w =>
  if 0 < w.ref i then .ok ((), { w with ref := Function.update w.ref i (w.ref i + 1) })
  else if ninode ≤ (List.range ninodes).countP (fun j => 0 < w.ref j) then .error .igetNoInodes
  else .ok ((), { w with
    ref := Function.update w.ref i 1
    valid := Function.update w.valid i false })

def idup (i : Nat) : M Unit :=
  fun w => .ok ((), { w with ref := Function.update w.ref i (w.ref i + 1) })

def ilock (i : Nat) : M Unit := fun w =>
  if w.ref i < 1 then .error .ilock
  else if w.valid i then .ok ((), w)
  else if (w.disk i).type = .free then .error .ilockNoType
  else .ok ((), { w with valid := Function.update w.valid i true })

/-- the last user of an inode without links frees it -/
def World.reclaim (w : World) (i : Nat) : World :=
  if w.ref i = 1 ∧ w.valid i = true ∧ (w.disk i).nlink = 0 then
    { w.setInode i ⟨.free, 0, []⟩ with valid := Function.update w.valid i false }
  else w

def iput (i : Nat) : M Unit := fun w =>
  .ok ((), { w.reclaim i with ref := Function.update w.ref i (w.ref i - 1) })

/-- the loop of `ialloc` ends at the first free inode -/
def ialloc (type : InodeType) : M (Option Nat) := do
  let w ← get
  match (List.range ninodes).find? (fun i => 0 < i && (w.disk i).type = .free) with
  | none => return none
  | some i => do
    set (w.setInode i ⟨type, 0, []⟩)
    iget ninodes i
    return some i

/-! ## directories -/

/-- the entry of this name: its inode and its place -/
def lookup (es : List Dirent) (name : Str) : Option (Nat × Nat) :=
  (es.zipIdx.find? (fun e => e.1.inum ≠ 0 && namecmpEq name e.1.name)).map
    (fun e => (e.1.inum, e.2))

def dirlookup (dp : Nat) (name : Str) : M (Option (Nat × Nat)) := do
  let w ← get
  if (w.disk dp).type ≠ .dir then throw .dirlookupNotDir
  else
    match lookup (w.disk dp).entries name with
    | none => return none
    | some (inum, off) => do
      iget ninodes inum
      return some (inum, off)

/-- `strncpy` to `de.name` -/
def nameField (name : Str) : Str := padded ((cstr name).take dirsiz)

/-- `false` is -1 -/
def dirlink (dp : Nat) (name : Str) (inum : Nat) (room : Bool) : M Bool := do
  match ← dirlookup ninodes dp name with
  | some (ip, _) => do
    iput ip
    return false
  | none => do
    let w ← get
    let es := (w.disk dp).entries
    match es.findIdx? (fun e => e.inum = 0) with
    | some off => do
      setEntries dp (es.set off ⟨inum, nameField name⟩)
      return true
    | none =>
      if room then do
        setEntries dp (es ++ [⟨inum, nameField name⟩])
        return true
      else return false

/-! ## paths -/

/-- the loop of `namex`; each round takes a character of the path at least -/
def namexLoop (nameiparent : Bool) : Nat → Nat → Str → Str → M (Option (Nat × Str))
  | 0, _, _, _ => throw .forever
  | fuel + 1, ip, path, name =>
    match skipelem path with
    | none =>
      if nameiparent then do
        iput ip
        return none
      else return some (ip, name)
    | some (path, name) => do
      ilock ip
      let w ← get
      if (w.disk ip).type ≠ .dir then do
        iput ip
        return none
      else if nameiparent = true ∧ path = [] then return some (ip, name)
      else
        match ← dirlookup ninodes ip name with
        | none => do
          iput ip
          return none
        | some (next, _) => do
          iput ip
          namexLoop nameiparent fuel next path name

/-- `cwd` is that of the process -/
def namex (cwd : Nat) (path : Str) (nameiparent : Bool) : M (Option (Nat × Str)) := do
  if path.head? = some '/' then do
    iget ninodes rootIno
    namexLoop ninodes nameiparent (path.length + 1) rootIno path []
  else do
    idup cwd
    namexLoop ninodes nameiparent (path.length + 1) cwd path []

/-! ## `mkdir`, `chdir`, `unlink` -/

/-- the entries that `create` makes for the new inode `ip`: two in itself if it is a directory, and
one in `dp`; `false` leads to `fail` -/
def linkNew (type : InodeType) (dp ip : Nat) (name : Str) (room : Nat → Bool) : M Bool :=
  if type = .dir then do
    if ← dirlink ninodes ip ['.'] ip (room 0) then do
      if ← dirlink ninodes ip ['.', '.'] dp (room 1) then dirlink ninodes dp name ip (room 2)
      else return false
    else return false
  else dirlink ninodes dp name ip (room 2)

def create (cwd : Nat) (path : Str) (type : InodeType) (room : Nat → Bool) : M (Option Nat) := do
  match ← namex ninodes cwd path true with
  | none => return none
  | some (dp, name) => do
    ilock dp
    match ← dirlookup ninodes dp name with
    | some (ip, _) => do
      iput dp
      ilock ip
      let w ← get
      if type = .file ∧ ((w.disk ip).type = .file ∨ (w.disk ip).type = .device) then return some ip
      else do
        iput ip
        return none
    | none =>
      match ← ialloc ninodes type with
      | none => do
        iput dp
        return none
      | some ip => do
        ilock ip
        setNlink ip 1
        if ← linkNew ninodes type dp ip name room then do
          let w ← get
          setNlink dp (if type = .dir then (w.disk dp).nlink + 1 else (w.disk dp).nlink)
          iput dp
          return some ip
        else do
          setNlink ip 0
          iput ip
          iput dp
          return none

/-- `false` is -1 -/
def sysMkdir (cwd : Nat) (path : Str) (room : Nat → Bool) : M Bool := do
  match ← create ninodes cwd path .dir room with
  | none => return false
  | some ip => do
    iput ip
    return true

def World.setCwd (w : World) (p : Fin nproc) (c : Option Nat) : World :=
  { w with cwd := Function.update w.cwd p c }

def sysChdir (p : Fin nproc) (cwd : Nat) (path : Str) : M Bool := do
  match ← namex ninodes cwd path false with
  | none => return false
  | some (ip, _) => do
    ilock ip
    let w ← get
    if (w.disk ip).type ≠ .dir then do
      iput ip
      return false
    else do
      iput cwd
      modify (fun w => w.setCwd p (some ip))
      return true

def isdirempty (es : List Dirent) : Bool := (es.drop 2).all (fun e => e.inum = 0)

def sysUnlink (cwd : Nat) (path : Str) : M Bool := do
  match ← namex ninodes cwd path true with
  | none => return false
  | some (dp, name) => do
    ilock dp
    if namecmpEq name ['.'] ∨ namecmpEq name ['.', '.'] then do
      iput dp
      return false
    else
      match ← dirlookup ninodes dp name with
      | none => do
        iput dp
        return false
      | some (ip, off) => do
        ilock ip
        let w ← get
        if (w.disk ip).nlink < 1 then throw .unlinkNlink
        else if (w.disk ip).type = .dir ∧ isdirempty (w.disk ip).entries = false then do
          iput ip
          iput dp
          return false
        else do
          setEntries dp ((w.disk dp).entries.set off ⟨0, nameField []⟩)
          setNlink dp (if (w.disk ip).type = .dir then (w.disk dp).nlink - 1 else (w.disk dp).nlink)
          iput dp
          setNlink ip ((w.disk ip).nlink - 1)
          iput ip
          return true

/-! ## `getcwd` -/

/-- `..` of directory `dp`, and the name of the entry for `inum`, where there is one -/
def diriname (dp inum : Nat) : M (Nat × Option Str) := do
  ilock dp
  let w ← get
  if (w.disk dp).type ≠ .dir then throw .dirinameNotDir
  else
    match (w.disk dp).entries[1]? with
    | none => throw .undefined
    | some parent => do
      iput dp
      return (parent.inum,
        ((w.disk dp).entries.find? (fun e => e.inum ≠ 0 && e.inum = inum)).map Dirent.name)

/-- `strlen(name)`; a name of `DIRSIZ` characters has no NUL, and `beyond` more are counted -/
def nameLen (name : Str) (beyond : Nat) : Nat :=
  if '\x00' ∈ name then (cstr name).length else dirsiz + beyond

/-- the loop of `getcwd`, for this many rounds at most -/
def getcwdLoop (beyond : Nat → Nat) : Nat → Nat → Nat → Nat → Nat → M Unit
  | 0, _, _, _, _ => throw .forever
  | rounds + 1, bufp, i, lastParent, icurrent =>
    if icurrent = rootIno then return ()
    else do
      match ← diriname i icurrent with
      | (_, none) => return ()
      | (iparent, some name) =>
        let len := nameLen name (beyond rounds)
        -- no more space to store the path
        if icurrent ≠ lastParent ∧ bufp ≤ len then return ()
        else do
          iget ninodes iparent
          getcwdLoop beyond rounds (if icurrent ≠ lastParent then bufp - len - 1 else bufp) iparent
            iparent lastParent

/-- `page` says whether there is a buffer -/
def getcwd (cwd : Nat) (page : Bool) (size rounds : Nat) (beyond : Nat → Nat) : M Unit := do
  ilock cwd
  let w ← get
  if (w.disk cwd).type ≠ .dir then throw .getcwdNotDir
  else if page = false ∨ size ≤ 1 then return ()
  else if cwd = rootIno then return ()
  else do
    iget ninodes cwd
    getcwdLoop ninodes beyond rounds (size - 2) cwd cwd cwd

/-! ## `fork`, `exit` -/

/-- the current directory of the child in entry `np` -/
def fork (np : Fin nproc) (cwd : Nat) : M Unit := do
  let w ← get
  if w.cwd np = none then do
    idup cwd
    modify (fun w => w.setCwd np (some cwd))
  else throw .undefined

def exit (p : Fin nproc) (cwd : Nat) : M Unit := do
  if p = initproc then throw .initExiting
  else do
    iput cwd
    modify (fun w => w.setCwd p none)

/-! ## the machine -/

inductive Call where
  | mkdir (path : Str) (room : Nat → Bool)
  | chdir (path : Str)
  | unlink (path : Str)
  | getcwd (page : Bool) (size rounds : Nat) (beyond : Nat → Nat)
  | fork (np : Fin nproc)
  | exit

/-- process `p` makes a call -/
def call (p : Fin nproc) (c : Call) : M Unit := do
  let w ← get
  match w.cwd p with
  | none => throw .undefined
  | some cwd =>
    match c with
    | .mkdir path room => do let _ ← sysMkdir ninodes cwd path room
    | .chdir path => do let _ ← sysChdir ninodes p cwd path
    | .unlink path => do let _ ← sysUnlink ninodes cwd path
    | .getcwd page size rounds beyond => getcwd ninodes cwd page size rounds beyond
    | .fork np => fork np cwd
    | .exit => exit p cwd

def Step (w : World) (e : Fin nproc × Call) (w' : World) : Prop :=
  call ninodes e.1 e.2 w = .ok ((), w')

end

end Itable
