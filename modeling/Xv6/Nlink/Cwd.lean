import Xv6.Lib.Refs
import Xv6.Nlink.Model

/-!
# Processes and current directories

The calls of `Xv6.Nlink.Model` made by processes, with `chdir`, `fork` and `exit`.  The references
that stay between calls are those of current directories and of open files; the files of a process
that exits are closed first, one `close` each.  `exec` is an `openFile` that keeps nothing, and
`getcwd` changes no inode.  A walk along a path locks each inode, and `ilock` panics at a free one,
which the `..` of a removed directory may lead to; what a walk gives back is not freed, since an
inode without links is a current directory or an open file (`Linked.iput_eq`).
-/

namespace Nlink
open Fs Ulib Lib
open Itable (InodeType lookup nproc initproc)

structure Sys where
  world : World
  /-- a process that is not there has no current directory -/
  cwd : Fin nproc → Option Nat

/-! ## walks -/

/-- the loop of `namex` locks no free inode -/
def walksLoop (D : Disk) (nameiparent : Bool) : Nat → Nat → Str → Bool
  | 0, _, _ => false
  | fuel + 1, ip, path =>
    match skipelem path with
    | none => true
    | some (path, name) =>
      if (D ip).type = .free then false
      else if (D ip).type ≠ .dir ∨ nameiparent = true ∧ path = [] then true
      else
        match lookup (D ip).entries name with
        | none => true
        | some (next, _) => walksLoop D nameiparent fuel next path

def walks (D : Disk) (cwd : Nat) (path : Str) (nameiparent : Bool) : Bool :=
  walksLoop D nameiparent (path.length + 1) (if path.head? = some '/' then rootIno else cwd) path

/-! ## the calls -/

/-- a process in `cwd` makes the call: `sys_link` makes its second walk for a file only, and what is
closed is an open file -/
def Call.Made (s : Sys) (cwd : Nat) : Call → Prop
  | .create d path _ _ _ => d = cwd ∧ walks s.world.disk d path true = true
  | .link d old new _ => d = cwd ∧ walks s.world.disk d old false = true ∧
      ∀ r ∈ Fs.namex (image s.world.disk) d old false, (s.world.disk r.1).type ≠ .dir →
        walks s.world.disk d new true = true
  | .unlink d path => d = cwd ∧ walks s.world.disk d path true = true
  | .openFile d path _ => d = cwd ∧ walks s.world.disk d path false = true
  | .close i => refs s.cwd i < s.world.opened i

instance (s : Sys) (cwd : Nat) : ∀ c : Call, Decidable (c.Made s cwd)
  | .create d path _ _ _ =>
    inferInstanceAs (Decidable (d = cwd ∧ walks s.world.disk d path true = true))
  | .link d old new _ => inferInstanceAs (Decidable (d = cwd ∧
      walks s.world.disk d old false = true ∧
      ∀ r ∈ Fs.namex (image s.world.disk) d old false, (s.world.disk r.1).type ≠ .dir →
        walks s.world.disk d new true = true))
  | .unlink d path =>
    inferInstanceAs (Decidable (d = cwd ∧ walks s.world.disk d path true = true))
  | .openFile d path _ =>
    inferInstanceAs (Decidable (d = cwd ∧ walks s.world.disk d path false = true))
  | .close i => inferInstanceAs (Decidable (refs s.cwd i < s.world.opened i))

/-- a reference that stayed is given back -/
def World.drop (w : World) (i : Nat) : World :=
  World.iput { w with opened := Function.update w.opened i (w.opened i - 1) } i

inductive Act where
  | call (c : Call)
  | chdir (path : Str)
  | fork (np : Fin nproc)
  | exit

section
variable (n : Nat) (s : Sys) (p : Fin nproc) (cwd : Nat)

def sysCall (c : Call) : Except Stop Sys :=
  if c.Made s cwd then (call n s.world c).map (fun w => { s with world := w })
  else .error .undefined

def sysChdir (path : Str) : Except Stop Sys :=
  if walks s.world.disk cwd path false = false then .error .ilockNoType
  else
    match Fs.namex (image s.world.disk) cwd path false with
    | none => .ok s
    | some (ip, _) =>
      if (s.world.disk ip).type = .free then .error .ilockNoType
      else if (s.world.disk ip).type ≠ .dir then .ok { s with world := s.world.iput ip }
      else .ok ⟨(s.world.keep ip).drop cwd, Function.update s.cwd p (some ip)⟩

def fork (np : Fin nproc) : Except Stop Sys :=
  if s.cwd np = none then .ok ⟨s.world.keep cwd, Function.update s.cwd np (some cwd)⟩
  else .error .undefined

def exit : Except Stop Sys :=
  if p = initproc then .error .undefined
  else .ok ⟨s.world.drop cwd, Function.update s.cwd p none⟩

/-- process `p` makes a call -/
def act (a : Act) : Except Stop Sys :=
  match s.cwd p with
  | none => .error .undefined
  | some cwd =>
    match a with
    | .call c => sysCall n s cwd c
    | .chdir path => sysChdir s p cwd path
    | .fork np => fork s cwd np
    | .exit => exit s p cwd

end

def SysStep (n : Nat) (s : Sys) (a : Fin nproc × Act) (t : Sys) : Prop := act n s a.1 a.2 = .ok t

/-! ## what is looked at -/

/-- `i` is reached from the root through entries of directories -/
def Reached (D : Disk) (i : Nat) : Prop :=
  Relation.ReflTransGen (fun d j => j ≠ 0 ∧ ∃ e ∈ (D d).entries, e.inum = j) rootIno i

/-- a current directory, or an open file -/
def Sys.InUse (s : Sys) (i : Nat) : Prop :=
  (∃ p, s.cwd p = some i) ∨ refs s.cwd i < s.world.opened i

def NoLeak (s : Sys) : Prop :=
  ∀ i, (s.world.disk i).type ≠ .free → Reached s.world.disk i ∨ s.InUse i

/-- the call makes no entry in a removed directory, and adds no link to a file that has as many as
`nlink` can count -/
def Rooted (n : Nat) (w : World) : Call → Prop
  | .create cwd path type room _ =>
      ((create n w cwd path type room).toOption.bind Prod.snd).isSome = true →
        ∀ r ∈ Fs.namex (image w.disk) cwd path true, (w.disk r.1).nlink ≠ 0
  | .link cwd old new room => (sysLink w cwd old new room).toOption.map Prod.snd = some true →
      (∀ r ∈ Fs.namex (image w.disk) cwd new true, (w.disk r.1).nlink ≠ 0) ∧
        ∀ r ∈ Fs.namex (image w.disk) cwd old false, (w.disk r.1).nlink ≠ 32767
  | _ => True

instance (n : Nat) (w : World) : ∀ c : Call, Decidable (Rooted n w c)
  | .create cwd path type room _ => inferInstanceAs (Decidable
      (((create n w cwd path type room).toOption.bind Prod.snd).isSome = true →
        ∀ r ∈ Fs.namex (image w.disk) cwd path true, (w.disk r.1).nlink ≠ 0))
  | .link cwd old new room => inferInstanceAs (Decidable
      ((sysLink w cwd old new room).toOption.map Prod.snd = some true →
        (∀ r ∈ Fs.namex (image w.disk) cwd new true, (w.disk r.1).nlink ≠ 0) ∧
          ∀ r ∈ Fs.namex (image w.disk) cwd old false, (w.disk r.1).nlink ≠ 32767))
  | .unlink .. => .isTrue trivial
  | .openFile .. => .isTrue trivial
  | .close _ => .isTrue trivial

def Act.Rooted (n : Nat) (s : Sys) : Act → Prop
  | .call c => Nlink.Rooted n s.world c
  | _ => True

instance (n : Nat) (s : Sys) : ∀ a : Act, Decidable (a.Rooted n s)
  | .call c => inferInstanceAs (Decidable (Nlink.Rooted n s.world c))
  | .chdir _ => .isTrue trivial
  | .fork _ => .isTrue trivial
  | .exit => .isTrue trivial

end Nlink
