import Xv6.Exec.Script
import Xv6.Lib.Depth

/-!
# Nested calls of `exec`

A script that names a script makes `exec` call itself.  Among the finitely many inodes that ends
after a bounded number of calls when no script leads back to itself, and does not end otherwise.
-/

namespace Exec
open Lib Vm Relation

def Calls (V : Volume) (cwd i j : Nat) : Prop :=
  ∃ stack interpreter : Bytes, stack.length = maxpath ∧
    script (V.content i) stack = some interpreter ∧ V.namei cwd interpreter = some j

/-- a number of nested calls that always suffices -/
def Bounded (kend trampoline : Nat) (V : Volume) (cwd : Nat) : Prop :=
  ∃ depth, ∀ stack : Nat → Bytes, (∀ k, (stack k).length = maxpath) → ∀ m p path argv,
    exec kend trampoline V cwd depth stack m p path argv ≠ .error .running

section
variable {kend trampoline cwd fuel i j : Nat} {V : Volume} {stack : Nat → Bytes} {m : Machine}
  {p : Fin nproc} {path content interpreter : Bytes} {argv : List (Fin pgsize)} {l : List Nat}

/-! ## `namei` -/

theorem namexLoop_lt {parent : Bool} {path name : Ulib.Str} {r : Nat × Ulib.Str} (hi : i < V.ninodes)
    (h : Fs.namexLoop V.image parent fuel i path name = some r) : r.1 < V.ninodes := by
  induction fuel generalizing i path name with
  | zero => cases h
  | succ fuel ih =>
    unfold Fs.namexLoop at h
    cases hs : Fs.skipelem path with
    | none =>
      rw [hs] at h
      dsimp only at h
      by_cases hp : parent = true
      · rw [if_pos hp] at h
        cases h
      · rw [if_neg hp] at h
        rw [← Option.some.inj h]
        exact hi
    | some x =>
      obtain ⟨rest, elem⟩ := x
      rw [hs] at h
      dsimp only at h
      cases hes : V.image i with
      | none =>
        rw [hes] at h
        cases h
      | some es =>
        rw [hes] at h
        dsimp only at h
        by_cases hp : parent = true ∧ rest = []
        · rw [if_pos hp] at h
          rw [← Option.some.inj h]
          exact hi
        rw [if_neg hp] at h
        cases hl : Fs.dirlookup es elem with
        | none =>
          rw [hl] at h
          cases h
        | some next =>
          rw [hl] at h
          obtain ⟨e, he, rfl⟩ := Option.map_eq_some_iff.mp hl
          exact ih (V.inum_lt i es e hes (List.mem_of_find?_eq_some he)) h

theorem namei_lt (hcwd : cwd < V.ninodes) (h : V.namei cwd path = some i) : i < V.ninodes := by
  obtain ⟨r, hr, rfl⟩ := Option.map_eq_some_iff.mp h
  refine namexLoop_lt ?_ hr
  split
  · exact V.root_lt
  · exact hcwd

/-! ## a call that is no script returns -/

theorem bad_ne_running (pagetable : Option (Vm.Mem × Nat)) (ip : Option Nat) :
    bad kend m pagetable ip ≠ .error .running := by
  unfold bad
  dsimp only
  split
  · exact nofun
  · split
    · exact nofun
    · exact nofun

theorem install_ne_running (entry sz : Nat) (old : PageTable) (u : Option Vm.Mem) :
    install kend m p path entry old u sz argv ≠ .error .running := by
  unfold install
  split
  · exact nofun
  · split
    · exact bad_ne_running _ _
    · split
      · exact nofun
      · exact nofun

theorem commit_ne_running (entry sz : Nat) (u : Vm.Mem) :
    commit kend m p path entry u sz argv ≠ .error .running := by
  unfold commit
  split
  · exact nofun
  · dsimp only
    split
    · exact nofun
    · split
      · exact bad_ne_running _ _
      · exact install_ne_running _ _ _ _

theorem execElf_ne_running (ip : Nat) :
    execElf kend trampoline m p path content ip argv ≠ .error .running := by
  unfold execElf
  split
  · exact bad_ne_running _ _
  · exact nofun
  · split
    · exact nofun
    · exact bad_ne_running _ _
    · split
      · exact nofun
      · exact bad_ne_running _ _
      · exact commit_ne_running _ _ _

/-! ## chains of scripts -/

theorem exec_script (hi : V.namei cwd path = some i)
    (hs : script (V.content i) (stack 0) = some interpreter) (fuel : Nat) :
    exec kend trampoline V cwd (fuel + 1) stack m p path argv =
      exec kend trampoline V cwd fuel (fun k => stack (k + 1)) ((m.beginOp.hold i).iunlockput i).endOp p
        interpreter (scriptArgv interpreter argv) := by
  conv_lhs => unfold exec
  rw [hi]
  dsimp only
  rw [hs]

/-- along a chain of scripts, a call goes as deep as the chain -/
theorem exec_running (kend trampoline : Nat) (hl : (i :: l).IsChain (Calls V cwd))
    (hi : V.namei cwd path = some i) :
    ∃ stack : Nat → Bytes, (∀ k, (stack k).length = maxpath) ∧ ∀ m p argv,
      exec kend trampoline V cwd l.length stack m p path argv = .error .running := by
  induction l generalizing i path with
  | nil => exact ⟨fun _ => letters, fun _ => List.length_replicate .., fun _ _ _ => rfl⟩
  | cons j l ih =>
    obtain ⟨⟨s, interpreter, hlen, hs, hj⟩, hrest⟩ := List.isChain_cons_cons.mp hl
    obtain ⟨stack, hstack, hrun⟩ := ih hrest hj
    refine ⟨fun k => if k = 0 then s else stack (k - 1), fun k => ?_, fun m p argv => ?_⟩
    · dsimp only
      split
      · exact hlen
      · exact hstack _
    · rw [List.length_cons, exec_script hi hs]
      exact hrun _ _ _

theorem chain_of_running (hcwd : cwd < V.ninodes) (hstack : ∀ k, (stack k).length = maxpath)
    (h : exec kend trampoline V cwd fuel stack m p path argv = .error .running) :
    ∃ l : List Nat, l.length = fuel ∧ l.IsChain (Calls V cwd) ∧ (∀ x ∈ l, x < V.ninodes) ∧
      ∀ x ∈ l.head?, V.namei cwd path = some x := by
  induction fuel generalizing stack m path argv with
  | zero => exact ⟨[], rfl, List.isChain_nil, nofun, nofun⟩
  | succ fuel ih =>
    cases hi : V.namei cwd path with
    | none =>
      unfold exec at h
      rw [hi] at h
      exact absurd h nofun
    | some i =>
      cases hs : script (V.content i) (stack 0) with
      | none =>
        unfold exec at h
        rw [hi] at h
        dsimp only at h
        rw [hs] at h
        exact absurd h (execElf_ne_running _)
      | some interpreter =>
        rw [exec_script hi hs] at h
        obtain ⟨l, hlen, hl, hlt, hhead⟩ := ih (fun k => hstack (k + 1)) h
        refine ⟨i :: l, congrArg (· + 1) hlen, ?_, ?_, ?_⟩
        · exact List.isChain_cons.mpr
            ⟨fun j hj => ⟨stack 0, interpreter, hstack 0, hs, hhead j hj⟩, hl⟩
        · intro x hx
          rcases List.mem_cons.mp hx with rfl | hx
          · exact namei_lt hcwd hi
          · exact hlt x hx
        · intro x hx
          obtain rfl := Option.some.inj hx
          rfl

theorem bounded_of_acyclic (hcwd : cwd < V.ninodes) (h : ∀ i, ¬ TransGen (Calls V cwd) i i) :
    Bounded kend trampoline V cwd := by
  refine ⟨V.ninodes + 1, fun stack hstack m p path argv hrun => ?_⟩
  obtain ⟨l, hlen, hl, hlt, -⟩ := chain_of_running hcwd hstack hrun
  have hle := length_le_of_isChain h hl (s := Finset.range V.ninodes)
    (fun x hx => Finset.mem_range.mpr (hlt x hx))
  rw [Finset.card_range] at hle
  omega

theorem not_bounded_of_cycle (m : Machine) (h : TransGen (Calls V cwd) i i) :
    ¬ Bounded kend trampoline V cwd := by
  rintro ⟨depth, hall⟩
  obtain ⟨l, hlen, hl⟩ := exists_chain_of_transGen h depth
  -- the last script of the cycle names the first one
  obtain ⟨j, -, s, interpreter, -, -, hi⟩ := TransGen.tail'_iff.mp h
  obtain ⟨stack, hstack, hrun⟩ := exec_running kend trampoline hl hi
  rw [hlen] at hrun
  exact hall stack hstack m initproc interpreter [] (hrun m initproc [])

end

def noProcess : Machine where
  sys := ⟨[], fun _ => ⟨.unused, none, 0, none, none⟩⟩
  frame _ := ⟨0, 0, 0, fun _ => 0⟩
  name _ := []
  ofile _ _ := none
  locked _ := false
  ref _ := 0
  outstanding := 0

/-- for which volumes the depth of nested calls is bounded -/
theorem nesting_iff (kend trampoline : Nat) (V : Volume) (cwd : Nat) (hcwd : cwd < V.ninodes) :
    Bounded kend trampoline V cwd ↔ ∀ i, ¬ TransGen (Calls V cwd) i i :=
  ⟨fun hb _ hcycle => not_bounded_of_cycle noProcess hcycle hb, bounded_of_acyclic hcwd⟩

def selfScript : Volume where
  image d := if d = 1 then some [⟨1, Fs.padded ['.']⟩, ⟨1, Fs.padded ['.', '.']⟩, ⟨2, Fs.padded ['a']⟩]
    else none
  content i := if i = 2 then [byte '#', byte '!', byte '/', byte 'a', byte '\n'] else []
  ninodes := 3
  root_lt := by decide
  inum_lt := by
    intro d es e hes he
    by_cases h : d = 1
    · rw [if_pos h] at hes
      obtain rfl := Option.some.inj hes
      simp only [List.mem_cons, List.not_mem_nil, or_false] at he
      rcases he with rfl | rfl | rfl
      · decide
      · decide
      · decide
    · rw [if_neg h] at hes
      exact absurd hes nofun

theorem selfScript_calls : Calls selfScript 1 2 2 :=
  ⟨letters, [byte '/', byte 'a'], List.length_replicate .., by decide, by decide⟩

def noScript : Volume where
  image d := if d = 1 then some [⟨1, Fs.padded ['.']⟩, ⟨1, Fs.padded ['.', '.']⟩] else none
  content _ := []
  ninodes := 2
  root_lt := by decide
  inum_lt := by
    intro d es e hes he
    by_cases h : d = 1
    · rw [if_pos h] at hes
      obtain rfl := Option.some.inj hes
      revert e
      decide
    · rw [if_neg h] at hes
      exact absurd hes nofun

theorem nesting_selfScript : Bounded 0 0 noScript 1 ∧ ¬ Bounded 0 0 selfScript 1 := by
  rw [nesting_iff 0 0 noScript 1 (by decide), nesting_iff 0 0 selfScript 1 (by decide)]
  refine ⟨fun i h => ?_, fun h => h 2 (TransGen.single selfScript_calls)⟩
  obtain ⟨j, ⟨stack, interpreter, -, hs, -⟩, -⟩ := TransGen.head'_iff.mp h
  exact absurd hs nofun

theorem nesting_not_bounded : ¬ ∀ (kend trampoline : Nat) (V : Volume) (cwd : Nat),
    cwd < V.ninodes → Bounded kend trampoline V cwd :=
  fun h => not_bounded_of_cycle noProcess (TransGen.single selfScript_calls)
    (h 0 0 selfScript 1 (by decide))

end Exec
