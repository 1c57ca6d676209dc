import Xv6.Itable.Model
import Xv6.Lib.Run
import Xv6.Lib.Tally

/-!
# Link counts (`sys_link`, `sys_unlink`, `create`, `iput`)

The calls that change entries and link counts, one after the other.  `nlink` is a `short` that
wraps.  `opened` are the references that stay between calls, those of open files and of current
directories; the references that a call takes and gives back while it looks up a path are left out,
since every directory on the way has a link or a reference that stays.  There is one device.
-/

namespace Nlink
open Fs Ulib Lib
open Itable (InodeType lookup nameField isdirempty)

/-! ## inodes -/

/-- `struct dinode`; a file that is no directory has no entries -/
structure Inode where
  type : InodeType
  nlink : Int16
  entries : List Dirent

abbrev Disk := Nat → Inode

structure World where
  disk : Disk
  opened : Nat → Nat

/-- why a call does not return -/
inductive Stop where
  /-- `panic("ilock: no type")` -/
  | ilockNoType
  /-- `panic("unlink: nlink < 1")` -/
  | unlinkNlink
  /-- the call is not one that a process can make -/
  | undefined
  deriving DecidableEq

/-- `MAXFILE * BSIZE / sizeof(struct dirent)` -/
def maxEntries : Nat := (12 + 256) * 1024 / 16

def World.setInode (w : World) (i : Nat) (x : Inode) : World :=
  { w with disk := Function.update w.disk i x }

def World.setNlink (w : World) (i : Nat) (k : Int16) : World :=
  w.setInode i { w.disk i with nlink := k }

def World.setEntries (w : World) (i : Nat) (es : List Dirent) : World :=
  w.setInode i { w.disk i with entries := es }

/-- `iput` of an inode that the call has locked before: without links, and with no other reference,
it is freed -/
def World.iput (w : World) (i : Nat) : World :=
  if w.opened i = 0 ∧ (w.disk i).nlink = 0 then w.setInode i ⟨.free, 0, []⟩ else w

/-- the file is open from now on -/
def World.keep (w : World) (i : Nat) : World :=
  { w with opened := Function.update w.opened i (w.opened i + 1) }

def image (D : Disk) : Fs.Image := fun i => if (D i).type = .dir then some (D i).entries else none

section
variable (n : Nat)

/-- the loop of `ialloc` ends at the first free inode -/
def ialloc (D : Disk) : Option Nat :=
  (List.range n).find? (fun i => 0 < i && (D i).type = .free)

/-- `false` is -1.  `room` says whether there is a block for an entry at the end; `writei` does not
write beyond `MAXFILE` blocks -/
def dirlink (w : World) (dp : Nat) (name : Str) (inum : Nat) (room : Bool) : World × Bool :=
  let es := (w.disk dp).entries
  match lookup es name with
  | some _ => (w, false)
  | none =>
    match es.findIdx? (fun e => e.inum = 0) with
    | some off => (w.setEntries dp (es.set off ⟨inum, nameField name⟩), true)
    | none =>
      if room = true ∧ es.length < maxEntries then
        (w.setEntries dp (es ++ [⟨inum, nameField name⟩]), true)
      else (w, false)

/-! ## the calls -/

/-- the entries that `create` makes for the new inode `ip`: two in itself if it is a directory, and
one in `dp`; `false` leads to `fail` -/
def linkNew (w : World) (type : InodeType) (dp ip : Nat) (name : Str) (room : Nat → Bool) :
    World × Bool :=
  if type = .dir then
    match dirlink w ip ['.'] ip (room 0) with
    | (w, false) => (w, false)
    | (w, true) =>
      match dirlink w ip ['.', '.'] dp (room 1) with
      | (w, false) => (w, false)
      | (w, true) => dirlink w dp name ip (room 2)
  else dirlink w dp name ip (room 2)

def create (w : World) (cwd : Nat) (path : Str) (type : InodeType) (room : Nat → Bool) :
    Except Stop (World × Option Nat) :=
  match Fs.namex (image w.disk) cwd path true with
  | none => .ok (w, none)
  | some (dp, name) =>
    match lookup (w.disk dp).entries name with
    | some (ip, _) =>
      let w := w.iput dp
      if (w.disk ip).type = .free then .error .ilockNoType
      else if type = .file ∧ ((w.disk ip).type = .file ∨ (w.disk ip).type = .device) then
        .ok (w, some ip)
      else .ok (w.iput ip, none)
    | none =>
      match ialloc n w.disk with
      | none => .ok (w.iput dp, none)
      | some ip =>
        match linkNew (w.setInode ip ⟨type, 1, []⟩) type dp ip name room with
        | (w, true) =>
          let w := if type = .dir then w.setNlink dp ((w.disk dp).nlink + 1) else w
          .ok (w.iput dp, some ip)
        | (w, false) => .ok (((w.setNlink ip 0).iput ip).iput dp, none)

/-- the end of `sys_link` behind `bad` -/
def linkBad (w : World) (ip : Nat) : World × Bool :=
  ((w.setNlink ip ((w.disk ip).nlink - 1)).iput ip, false)

def sysLink (w : World) (cwd : Nat) (old new : Str) (room : Bool) : Except Stop (World × Bool) :=
  match Fs.namex (image w.disk) cwd old false with
  | none => .ok (w, false)
  | some (ip, _) =>
    if (w.disk ip).type = .free then .error .ilockNoType
    else if (w.disk ip).type = .dir then .ok (w.iput ip, false)
    else
      let w := w.setNlink ip ((w.disk ip).nlink + 1)
      match Fs.namex (image w.disk) cwd new true with
      | none => .ok (linkBad w ip)
      | some (dp, name) =>
        match dirlink w dp name ip room with
        | (w, true) => .ok ((w.iput dp).iput ip, true)
        | (w, false) => .ok (linkBad (w.iput dp) ip)

def sysUnlink (w : World) (cwd : Nat) (path : Str) : Except Stop (World × Bool) :=
  match Fs.namex (image w.disk) cwd path true with
  | none => .ok (w, false)
  | some (dp, name) =>
    if namecmpEq name ['.'] ∨ namecmpEq name ['.', '.'] then .ok (w.iput dp, false)
    else
      match lookup (w.disk dp).entries name with
      | none => .ok (w.iput dp, false)
      | some (ip, off) =>
        if (w.disk ip).type = .free then .error .ilockNoType
        else if (w.disk ip).nlink < 1 then .error .unlinkNlink
        else if (w.disk ip).type = .dir ∧ isdirempty (w.disk ip).entries = false then
          .ok ((w.iput ip).iput dp, false)
        else
          let w := w.setEntries dp ((w.disk dp).entries.set off ⟨0, nameField []⟩)
          let w :=
            if (w.disk ip).type = .dir then w.setNlink dp ((w.disk dp).nlink - 1) else w
          let w := w.iput dp
          .ok ((w.setNlink ip ((w.disk ip).nlink - 1)).iput ip, true)

/-- `sys_open` without `O_CREATE`: the inode that it found -/
def sysOpen (w : World) (cwd : Nat) (path : Str) : Except Stop (World × Option Nat) :=
  match Fs.namex (image w.disk) cwd path false with
  | none => .ok (w, none)
  | some (ip, _) => if (w.disk ip).type = .free then .error .ilockNoType else .ok (w, some ip)

/-! ## the machine -/

/-- `keep` says whether the call leaves the file open: `sys_mknod`, `sys_mkdir`, and a `sys_open`
that fails later, give the inode up -/
inductive Call where
  | create (cwd : Nat) (path : Str) (type : InodeType) (room : Nat → Bool) (keep : Bool)
  | link (cwd : Nat) (old new : Str) (room : Bool)
  | unlink (cwd : Nat) (path : Str)
  | openFile (cwd : Nat) (path : Str) (keep : Bool)
  | close (i : Nat)

/-- what is done with the inode that `create` or `namei` returned -/
def settle (keep : Bool) : World × Option Nat → World
  | (w, none) => w
  | (w, some ip) => if keep then w.keep ip else w.iput ip

def call (w : World) : Call → Except Stop World
  | .create cwd path type room keep =>
    if type = .free then .error .undefined
    else (create n w cwd path type room).map (settle keep)
  | .link cwd old new room => (sysLink w cwd old new room).map Prod.fst
  | .unlink cwd path => (sysUnlink w cwd path).map Prod.fst
  | .openFile cwd path keep => (sysOpen w cwd path).map (settle keep)
  | .close i =>
    if w.opened i = 0 then .error .undefined
    else .ok (World.iput { w with opened := Function.update w.opened i (w.opened i - 1) } i)

def Step (w : World) (c : Call) (w' : World) : Prop := call n w c = .ok w'

end

/-! ## what is looked at -/

/-- the number of entries for inode `i`, in the directories of a disk with `n` inodes -/
def links (n : Nat) (D : Disk) (i : Nat) : Nat :=
  tally n (fun d => (D d).entries) (fun e => e.inum = i)

/-- the inode whose entry `unlink` would take away -/
def target (w : World) (cwd : Nat) (path : Str) : Option Nat :=
  match Fs.namex (image w.disk) cwd path true with
  | none => none
  | some (dp, name) =>
    if namecmpEq name ['.'] ∨ namecmpEq name ['.', '.'] then none
    else (lookup (w.disk dp).entries name).map Prod.fst

/-- the call takes no directory away -/
def Tidy (w : World) : Call → Prop
  | .unlink cwd path => ∀ ip ∈ target w cwd path, (w.disk ip).type = .dir →
      isdirempty (w.disk ip).entries = false
  | _ => True

/-- the call does not add a link to an inode that has as many as `nlink` can count -/
def Counts (n : Nat) (w : World) : Call → Prop
  | .link cwd old new room => ∀ r ∈ Fs.namex (image w.disk) cwd old false,
      (w.disk r.1).nlink = 32767 → ∀ s ∈ Fs.namex (image w.disk) cwd new true,
        (dirlink w s.1 s.2 r.1 room).2 = false
  | .create cwd path .dir room _ => ∀ s ∈ Fs.namex (image w.disk) cwd path true,
      (w.disk s.1).nlink = 32767 → (create n w cwd path .dir room).toOption.bind Prod.snd = none
  | _ => True

instance (w : World) : ∀ c : Call, Decidable (Tidy w c)
  | .unlink cwd path => inferInstanceAs (Decidable (∀ ip ∈ target w cwd path,
      (w.disk ip).type = .dir → isdirempty (w.disk ip).entries = false))
  | .create .. => .isTrue trivial
  | .link .. => .isTrue trivial
  | .openFile .. => .isTrue trivial
  | .close _ => .isTrue trivial

instance (n : Nat) (w : World) : ∀ c : Call, Decidable (Counts n w c)
  | .link cwd old new room => inferInstanceAs (Decidable (∀ r ∈
      Fs.namex (image w.disk) cwd old false, (w.disk r.1).nlink = 32767 →
        ∀ s ∈ Fs.namex (image w.disk) cwd new true, (dirlink w s.1 s.2 r.1 room).2 = false))
  | .create cwd path .dir room _ => inferInstanceAs (Decidable (∀ s ∈
      Fs.namex (image w.disk) cwd path true, (w.disk s.1).nlink = 32767 →
        (create n w cwd path .dir room).toOption.bind Prod.snd = none))
  | .create _ _ .file _ _ => .isTrue trivial
  | .create _ _ .device _ _ => .isTrue trivial
  | .create _ _ .free _ _ => .isTrue trivial
  | .unlink .. => .isTrue trivial
  | .openFile .. => .isTrue trivial
  | .close _ => .isTrue trivial

end Nlink
