import Xv6.Exec.Nesting
import Xv6.Vm.Isolation

/-!
# `exec` of a program, whatever is in the file

The headers can hold anything and the memory can end anywhere: `exec` then either takes over the new
address space or returns -1 and has changed nothing.  No function below it panics.
-/

namespace Exec
open Lib Vm

/-- all but memory, registers and names is as in `m` -/
structure Beside (m m' : Machine) : Prop where
  locked : m'.locked = m.locked
  ref : m'.ref = m.ref
  outstanding : m'.outstanding = m.outstanding
  ofile : m'.ofile = m.ofile

/-- the inode is unlocked and put back, and the transaction is closed -/
structure Released (ip : Option Nat) (m m' : Machine) : Prop where
  unlocked : ∀ i, ip = some i → m'.locked i = false
  locked : ∀ i, ip ≠ some i → m'.locked i = m.locked i
  ref : m'.ref = m.ref
  outstanding : m'.outstanding = m.outstanding
  ofile : m'.ofile = m.ofile

/-- -1, and the process is what it was -/
structure Failed (m m' : Machine) (r : Int) : Prop where
  result : r = -1
  free : (m'.sys.free : Multiset Nat) = m.sys.free
  proc : m'.sys.proc = m.sys.proc
  frame : m'.frame = m.frame
  name : m'.name = m.name

/-- the process `p` runs the new program, and no other process has changed -/
structure Committed (p : Fin nproc) (path : Bytes) (argv : List (Fin pgsize)) (m m' : Machine)
    (r : Int) : Prop where
  result : r = argv.length
  proc : ∃ sz pagetable, m'.sys.proc =
    Function.update m.sys.proc p { m.sys.proc p with sz := sz, pagetable := some pagetable }
  frame : ∃ entry sp, m'.frame =
    Function.update m.frame p { m.frame p with epc := entry, sp := sp, a1 := sp }
  name : m'.name = Function.update m.name p (programName path)

/-- a call that holds the inode of `m` until `m₁` -/
structure Ends (trampoline : Nat) (A : Multiset Nat) (p : Fin nproc) (path : Bytes)
    (argv : List (Fin pgsize)) (m m₁ m' : Machine) (r : Int) : Prop where
  inv : Inv trampoline A m'.sys
  beside : Beside m₁ m'
  outcome : Failed m m' r ∨ Committed p path argv m m' r

section
variable {kend trampoline cwd fuel ip tf sz entry : Nat} {A T : Multiset Nat} {m m' : Machine}
  {p : Fin nproc} {path content : Bytes} {argv : List (Fin pgsize)} {u : Vm.Mem} {t : PageTable}
  {r : Int} {V : Volume} {stack : Nat → Bytes} {free : List Nat}

/-! ## the label `bad` -/

/-- the inode is let go of, where `bad` still has it -/
def Machine.letGo (m : Machine) : Option Nat → Machine
  | none => m
  | some ip => (m.iunlockput ip).endOp

theorem Ends.failed (h : Inv trampoline A m.sys) (hfree : (free : Multiset Nat) = m.sys.free)
    (ip : Option Nat) : Ends trampoline A p path argv m (m.letGo ip)
      (({ m with sys := { m.sys with free := free } } : Machine).letGo ip) (-1) := by
  cases ip with
  | none =>
    exact ⟨h.setFree hfree, ⟨rfl, rfl, rfl, rfl⟩, Or.inl ⟨rfl, hfree, rfl, rfl, rfl⟩⟩
  | some ip =>
    exact ⟨h.setFree hfree, ⟨rfl, rfl, rfl, rfl⟩, Or.inl ⟨rfl, hfree, rfl, rfl, rfl⟩⟩

theorem bad_none (kend : Nat) (m : Machine) (ip : Option Nat) :
    bad kend m none ip = .ok (m.letGo ip, -1) := by
  cases ip with
  | none => rfl
  | some ip => rfl

theorem bad_none_spec (h : Inv trampoline A m.sys) (hfree : (free : Multiset Nat) = m.sys.free)
    (ip : Option Nat) : ∃ m' r,
    bad kend { m with sys := { m.sys with free := free } } none ip = .ok (m', r) ∧
      Ends trampoline A p path argv m (m.letGo ip) m' r :=
  ⟨_, _, bad_none kend _ ip, Ends.failed h hfree ip⟩

theorem bad_spec (h : Inv trampoline A m.sys) (hr : Ram kend A)
    (hc : Complete m.sys.free trampoline tf (pages sz) u) (ip : Option Nat) : ∃ m' r,
    bad kend m (some (u, sz)) ip = .ok (m', r) ∧
      Ends trampoline A p path argv m (m.letGo ip) m' r := by
  obtain ⟨free, he, hfree⟩ := procFreepagetable_spec hc (hr.mono h.free_le)
  have hbad : bad kend m (some (u, sz)) ip =
      bad kend { m with sys := { m.sys with free := free } } none ip := by
    unfold bad
    dsimp only
    rw [he]
  rw [hbad]
  exact bad_none_spec h hfree ip

/-! ## the commit -/

theorem install_spec (h : Inv trampoline A m.sys) (hr : Ram kend A)
    (hx : (m.sys.proc p).Mapped trampoline t tf) (hp : (m.sys.proc p).state ≠ .unused)
    (hc : Complete m.sys.free trampoline tf (pages sz) u) (path : Bytes) (entry : Nat)
    (argv : List (Fin pgsize)) : ∃ m' r,
    install kend m p path entry t (some u) sz argv = .ok (m', r) ∧
      Ends trampoline A p path argv m m m' r := by
  unfold install
  dsimp only
  cases stackPointer u.pt sz argv with
  | none => exact bad_spec h hr hc none
  | some sp =>
    -- the pages of the old address space come back to what the new one has left
    have hle : (u.free : Multiset Nat) ≤ m.sys.free := by
      rw [← hc.space.total, add_assoc]
      exact Multiset.le_add_right _ _
    have hrold : Ram kend (u.free + t.tables + t.leaves) := by
      refine (h.ram_le hr p).mono ?_
      rw [hx.own, add_assoc, ← add_assoc (m.sys.free : Multiset Nat)]
      exact (add_le_add_left hle _).trans (Multiset.le_add_right _ _)
    obtain ⟨free, hf, hfree⟩ := procFreepagetable_spec (hx.complete u.free) hrold
    dsimp only
    rw [hf]
    exact ⟨_, _, rfl, h.replace hx hp hc hfree, ⟨rfl, rfl, rfl, rfl⟩,
      Or.inr ⟨rfl, ⟨sz, u.pt, rfl⟩, ⟨entry, sp, rfl⟩, rfl⟩⟩

theorem commit_spec (h : Inv trampoline A m.sys) (hr : Ram kend A)
    (hx : (m.sys.proc p).Mapped trampoline t tf) (hp : (m.sys.proc p).state ≠ .unused)
    (hc : Complete m.sys.free trampoline tf (pages sz) u) (huser : u.pt.User) (path : Bytes)
    (entry : Nat) (argv : List (Fin pgsize)) : ∃ m' r,
    commit kend m p path entry u sz argv = .ok (m', r) ∧
      Ends trampoline A p path argv m m m' r := by
  unfold commit
  rw [hx.pagetable]
  dsimp only
  obtain ⟨u', r, halloc, ⟨rfl, hc'⟩ | ⟨hne, u'', hclear, hc'⟩⟩ :=
    stack_spec hc (hr.mono h.free_le) huser
  · rw [halloc]
    exact bad_spec h hr hc' none
  · rw [halloc]
    dsimp only
    rw [if_neg hne, hclear]
    exact install_spec h hr hx hp hc' path entry argv

/-! ## from the ELF header on -/

theorem user_of_complete (h : Complete T trampoline tf 0 u) : u.pt.User := by
  intro v hv pte hpte
  have hlt := (h.upto v hv).mp (by rw [hpte]; rfl)
  exact absurd hlt (Nat.not_lt_zero v)

theorem execElf_spec (h : Inv trampoline A m.sys) (hr : Ram kend A)
    (hp : (m.sys.proc p).state ≠ .unused) (path content : Bytes) (ip : Nat)
    (argv : List (Fin pgsize)) : ∃ m' r,
    execElf kend trampoline m p path content ip argv = .ok (m', r) ∧
      Ends trampoline A p path argv m (m.letGo (some ip)) m' r := by
  obtain ⟨told, tf, hx⟩ := (h.good p).used hp
  have hrf : Ram kend m.sys.free := hr.mono h.free_le
  unfold execElf
  rw [hx.trapframe]
  cases elfhdr content with
  | none => exact bad_none_spec h rfl (some ip)
  | some hdr =>
    dsimp only
    obtain ⟨free, pt, he, ⟨rfl, hfree⟩ | ⟨pt, rfl, hc⟩⟩ := procPagetable_spec hrf trampoline tf
    · rw [he]
      exact bad_none_spec h hfree (some ip)
    · rw [he]
      dsimp only
      have huser := user_of_complete hc
      rw [← pages_zero] at hc
      obtain ⟨u, sz, b, hload, hc, huser⟩ :=
        loadLoop_spec (imageOf content) (List.range hdr.phnum) hc hrf huser
      rw [hload]
      cases b with
      | false => exact bad_spec h hr hc (some ip)
      | true =>
        -- the inode is put back before the stack is built
        obtain ⟨m', r, hcommit, hinv, hbeside, hout⟩ := commit_spec (m := (m.iunlockput ip).endOp)
          h hr hx hp hc huser path hdr.entry argv
        refine ⟨m', r, hcommit, hinv, hbeside, ?_⟩
        rcases hout with hf | hcm
        · exact Or.inl ⟨hf.result, hf.free, hf.proc, hf.frame, hf.name⟩
        · exact Or.inr ⟨hcm.result, hcm.proc, hcm.frame, hcm.name⟩

/-! ## the memory alone -/

/-- what the call does to the memory, and whether it has succeeded -/
def outcome : Except Stop (Machine × Int) → Option (Sys × Bool)
  | .error _ => none
  | .ok (m, r) => some (m.sys, decide (r ≠ -1))

theorem stackPointer_isSome (pt : PageTable) (sz : Nat) (argv : List (Fin pgsize)) :
    (stackPointer pt sz argv).isSome = pushStack pt sz argv := by
  unfold stackPointer pushStack
  dsimp only
  cases pushArgs pt (sz - pgsize) argv 0 sz with
  | none => rfl
  | some sp =>
    dsimp only
    split
    · rfl
    · split
      · next hcopy => exact hcopy.symm
      · next hcopy => exact (Bool.eq_false_iff.mpr hcopy).symm

theorem outcome_bad (kend : Nat) (m : Machine) (ip : Option Nat) :
    outcome (bad kend m (some (u, sz)) ip) =
      (procFreepagetable kend u sz).map (fun free => ({ m.sys with free := free }, false)) := by
  unfold bad
  dsimp only
  cases procFreepagetable kend u sz with
  | none => rfl
  | some free =>
    cases ip with
    | none => rfl
    | some ip => rfl

theorem outcome_install (kend : Nat) (m : Machine) (path : Bytes) (entry : Nat)
    (argv : List (Fin pgsize)) : outcome (install kend m p path entry t (some u) sz argv) =
      if pushStack u.pt sz argv then
        (procFreepagetable kend ⟨u.free, t⟩ (m.sys.proc p).sz).map (fun free =>
          ({ m.sys.setProc p { m.sys.proc p with sz := sz, pagetable := some u.pt } with
            free := free }, true))
      else (procFreepagetable kend u sz).map (fun free => ({ m.sys with free := free }, false)) := by
  rw [← stackPointer_isSome]
  unfold install
  dsimp only
  cases stackPointer u.pt sz argv with
  | none => exact outcome_bad kend m none
  | some sp =>
    dsimp only
    cases procFreepagetable kend ⟨u.free, t⟩ (m.sys.proc p).sz with
    | none => rfl
    | some free =>
      have hne : ((argv.length : Int) ≠ -1) := by omega
      show some (_, decide ((argv.length : Int) ≠ -1)) = _
      rw [decide_eq_true hne]
      rfl

/-- memory and success are those of the loader on the image of the file -/
theorem execElf_agrees (htf : (m.sys.proc p).trapframe = some tf)
    (hpt : (m.sys.proc p).pagetable = some t) (path content : Bytes) (ip : Nat)
    (argv : List (Fin pgsize)) :
    outcome (execElf kend trampoline m p path content ip argv) =
      Vm.exec kend trampoline m.sys p (imageOf content) argv := by
  unfold execElf Vm.exec
  rw [htf, hpt]
  have hfound : (imageOf content).found = true := rfl
  have hphnum : (imageOf content).phnum = (elfhdr content).map Elfhdr.phnum := rfl
  rw [hfound, hphnum]
  cases elfhdr content with
  | none => rfl
  | some hdr =>
    simp only [Option.map_some]
    cases procPagetable kend trampoline m.sys.free tf with
    | none => rfl
    | some made =>
      obtain ⟨free, made⟩ := made
      cases made with
      | none => rfl
      | some pt =>
        simp only []
        cases loadLoop kend (imageOf content) (List.range hdr.phnum) ⟨free, pt⟩ 0 with
        | none => rfl
        | some loaded =>
          obtain ⟨u, sz, b⟩ := loaded
          cases b with
          | false => exact outcome_bad kend m (some ip)
          | true =>
            simp only []
            unfold commit
            have hpt' : ((m.iunlockput ip).endOp.sys.proc p).pagetable = some t := hpt
            rw [hpt']
            simp only []
            cases uvmalloc kend u (pgroundup sz) (pgroundup sz + 2 * pgsize) true false with
            | none => rfl
            | some stacked =>
              obtain ⟨u, sz1⟩ := stacked
              by_cases h0 : sz1 = 0
              · rw [h0]
                exact outcome_bad kend (m.iunlockput ip).endOp none
              · simp only []
                rw [if_neg h0]
                cases hclear : uvmclear u (sz1 - 2 * pgsize) with
                | none =>
                  dsimp only
                  rfl
                | some u =>
                  dsimp only
                  exact outcome_install kend (m.iunlockput ip).endOp path hdr.entry argv

/-! ## the call -/

theorem script_eq_none (h : content.take 2 ≠ [byte '#', byte '!']) (stack : Bytes) :
    script content stack = none := by
  have hread : readScript content stack = none := by
    unfold readScript
    have hhead : readi content 0 2 = content.take 2 := by
      unfold readi
      rw [if_neg (by omega), List.drop_zero]
    rw [hhead]
    dsimp only
    split
    · next hlen =>
      -- both bytes of `buf` are bytes of the file
      have hover : overlay stack (content.take 2) = content.take 2 ++ stack.drop 2 := by
        unfold overlay
        rw [hlen]
      rw [hover]
      refine if_neg (fun hb => h ?_)
      obtain ⟨a, b, hab⟩ := List.length_eq_two.mp hlen
      rw [hab] at hb ⊢
      obtain ⟨ha, hb⟩ := hb
      obtain rfl : a = byte '#' := Option.some.inj ha
      obtain rfl : b = byte '!' := Option.some.inj hb
      rfl
    · rfl
  unfold script
  rw [hread]
  rfl

theorem Beside.released (h : Beside ((m.beginOp.hold ip).letGo (some ip)) m') :
    Released (some ip) m m' := by
  refine ⟨fun i hi => ?_, fun i hi => ?_, ?_, ?_, h.ofile⟩
  · obtain rfl := Option.some.inj hi
    rw [h.locked]
    exact Function.update_self ..
  · have hne : i ≠ ip := fun e => hi (congrArg some e.symm)
    rw [h.locked]
    exact (Function.update_of_ne hne _ _).trans (Function.update_of_ne hne _ _)
  · rw [h.ref]
    funext i
    show Function.update (Function.update m.ref ip (m.ref ip + 1)) ip
      (Function.update m.ref ip (m.ref ip + 1) ip - 1) i = m.ref i
    rw [Function.update_self, Function.update_idem, Nat.add_sub_cancel, Function.update_eq_self]
  · rw [h.outstanding]
    exact Nat.add_sub_cancel ..

end

def oneProgram : Volume where
  image d := if d = 1 then some [⟨1, Fs.padded ['.']⟩, ⟨1, Fs.padded ['.', '.']⟩, ⟨2, Fs.padded ['a']⟩]
    else none
  content i := if i = 2 then [0x7F, byte 'E', byte 'L', byte 'F'] ++ List.replicate 60 0 else []
  ninodes := 3
  root_lt := selfScript.root_lt
  inum_lt := selfScript.inum_lt

def firstProcess (s : Sys) : Machine := { noProcess with sys := s }

end Exec
