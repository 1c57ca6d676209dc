import Mathlib.Algebra.GroupWithZero.Nat
import Xv6.Lib.Slots

/-!
# Descriptor tables (`kernel/sysfile.c`)

The descriptor table of a process, and `close`, `dup`, `pipe` on it.  A file is known by what it
is for the pipeline that is being set up: a file that the process had before, an end of pipe `k`,
or a file opened by a redirection.  The tables of the kernel (files, memory) never run out.
-/

namespace Kernel
open Lib

abbrev nofile : Nat := 16

theorem nofile_ne_zero : nofile ≠ 0 := by decide

instance : NeZero nofile := ⟨nofile_ne_zero⟩

inductive File where
  | inherited (fd : Nat)
  | readEnd (k : Nat)
  | writeEnd (k : Nat)
  | node (path : List Char) (flags : Nat)
  deriving DecidableEq, Repr

abbrev Fds := Slots nofile File

def fdalloc (t : Fds) (f : File) : Option (Fds × Fin nofile) := t.alloc f

/-- `-1` is `none` -/
def close (t : Fds) (fd : Fin nofile) : Option Fds :=
  if (t fd).isSome then some (t.release fd) else none

def dup (t : Fds) (fd : Fin nofile) : Option (Fds × Fin nofile) :=
  match t fd with
  | none => none
  | some f => fdalloc t f

/-- the two descriptors of pipe `k`; a failed `pipe` leaves the table as it was -/
def pipe (t : Fds) (k : Nat) : Option (Fds × Fin nofile × Fin nofile) :=
  match fdalloc t (.readEnd k) with
  | none => none
  | some (t, fd0) =>
    match fdalloc t (.writeEnd k) with
    | none => none
    | some (t, fd1) => some (t, fd0, fd1)

def Holds (t : Fds) (f : File) : Prop := ∃ fd, t fd = some f

instance (t : Fds) (f : File) : Decidable (Holds t f) :=
  inferInstanceAs (Decidable (∃ fd, t fd = some f))

/-! ## what a call does -/

section
variable {t t' : Fds} {f : File} {fd fd0 fd1 : Fin nofile} {k : Nat}

theorem close_of_open (h : t fd ≠ none) : close t fd = some (t.release fd) := by
  unfold close
  rw [if_pos (Option.isSome_iff_ne_none.mpr h)]

/-- when no lower descriptor is free, `dup` after `close(fd)` takes its place -/
theorem dup_release (hf : t fd0 = some f) (hne : fd0 ≠ fd) (hlow : ∀ j < fd, t j ≠ none) :
    dup (t.release fd) fd0 = some (Function.update t fd (some f), fd) := by
  have h0 : t.release fd fd0 = some f := by
    rw [← hf]
    exact Function.update_of_ne hne _ _
  unfold dup
  rw [h0]
  have h1 : t.release fd fd = none := Function.update_self ..
  have h2 : ∀ j < fd, t.release fd j ≠ none := by
    intro j hj
    have hjf : j ≠ fd := fun e => absurd (e ▸ hj) (lt_irrefl fd)
    rw [show t.release fd j = t j from Function.update_of_ne hjf _ _]
    exact hlow j hj
  show Slots.alloc (t.release fd) f = _
  rw [Slots.alloc_of_lowest h1 h2, Slots.update_release]

theorem pipe_spec (h : pipe t k = some (t', fd0, fd1)) : t fd0 = none ∧ t fd1 = none ∧ fd0 ≠ fd1 ∧
    t' = Function.update (Function.update t fd0 (some (.readEnd k))) fd1 (some (.writeEnd k)) := by
  unfold pipe fdalloc at h
  split at h
  · exact absurd h (by simp)
  · rename_i t1 i h1
    split at h
    · exact absurd h (by simp)
    · rename_i t2 j h2
      obtain ⟨rfl, e⟩ := Prod.mk.inj (Option.some.inj h)
      obtain ⟨rfl, rfl⟩ := Prod.mk.inj e
      obtain ⟨a1, -, rfl⟩ := Slots.alloc_spec h1
      obtain ⟨a2, -, rfl⟩ := Slots.alloc_spec h2
      have hne : i ≠ j := by
        rintro rfl
        simp at a2
      rw [Function.update_of_ne hne.symm] at a2
      exact ⟨a1, a2, hne, rfl⟩

/-- `pipe` needs two free descriptors -/
theorem pipe_isSome_iff : (pipe t k).isSome ↔ 2 ≤ t.free := by
  unfold pipe fdalloc
  cases h1 : t.alloc (.readEnd k) with
  | none =>
    rw [Slots.alloc_eq_none_iff] at h1
    simp [h1]
  | some p =>
    obtain ⟨t1, i⟩ := p
    obtain ⟨a1, -, rfl⟩ := Slots.alloc_spec h1
    have hfree := Slots.free_update_some (a := File.readEnd k) a1
    dsimp only
    cases h2 : Slots.alloc (Function.update t i (some (File.readEnd k))) (File.writeEnd k) with
    | none =>
      rw [Slots.alloc_eq_none_iff] at h2
      simp only [Option.isSome_none, Bool.false_eq_true, false_iff]
      omega
    | some q =>
      have h3 : Slots.free (Function.update t i (some (File.readEnd k))) ≠ 0 := fun e => by
        rw [Slots.alloc_eq_none_iff.mpr e] at h2
        exact absurd h2 (by simp)
      simp only [Option.isSome_some, true_iff]
      omega

end

end Kernel
