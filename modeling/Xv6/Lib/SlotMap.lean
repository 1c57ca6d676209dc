import Mathlib.Data.List.Basic
import Mathlib.Logic.Function.Basic

/-!
# Finite maps in tables of slots

A table is a list of slots, each free or with a key and a value.  A new pair goes to the first free
slot, or behind the last one; a pair is taken out where it is.  `SlotMap.Holds l m` relates the
table to the map `m`: no key is in two slots.
-/

namespace Lib

section
variable {κ ν : Type*}

abbrev SlotMap (κ ν : Type*) := List (Option (κ × ν))

namespace SlotMap

/-- the table holds the map `m` -/
structure Holds (l : SlotMap κ ν) (m : κ → Option ν) : Prop where
  mem : ∀ k v, m k = some v ↔ some (k, v) ∈ l
  one : ∀ (i j : Nat) k v v', l[i]? = some (some (k, v)) → l[j]? = some (some (k, v')) → i = j

/-- the first slot with this key: its value, and its place -/
def find [DecidableEq κ] : SlotMap κ ν → κ → Option (ν × Nat)
  | [], _ => none
  | none :: l, k => (find l k).map (fun r => (r.1, r.2 + 1))
  | some (k', v) :: l, k => if k' = k then some (v, 0) else (find l k).map (fun r => (r.1, r.2 + 1))

/-- the place of the first free slot, or the one behind the last -/
def room : SlotMap κ ν → Nat
  | [] => 0
  | none :: _ => 0
  | some _ :: l => room l + 1

/-- `a` in slot `i`, which may be the one behind the last -/
def store (l : SlotMap κ ν) (i : Nat) (a : Option (κ × ν)) : SlotMap κ ν :=
  if i < l.length then l.set i a else l ++ [a]

variable {l : SlotMap κ ν} {m : κ → Option ν} {k k' : κ} {v v' : ν} {i j : Nat}

theorem holds_nil : Holds ([] : SlotMap κ ν) (fun _ => none) :=
  ⟨fun _ _ => ⟨nofun, nofun⟩, fun _ _ _ _ _ h => absurd h nofun⟩

theorem find_some [DecidableEq κ] (h : find l k = some (v, i)) : l[i]? = some (some (k, v)) := by
  induction l generalizing i with
  | nil => exact absurd h nofun
  | cons a l ih =>
    cases a with
    | none =>
      obtain ⟨r, hr, e⟩ := Option.map_eq_some_iff.mp h
      obtain ⟨rfl, rfl⟩ := Prod.mk.inj e
      exact ih hr
    | some p =>
      obtain ⟨k', v'⟩ := p
      unfold find at h
      by_cases hk : k' = k
      · rw [if_pos hk] at h
        obtain ⟨rfl, rfl⟩ := Prod.mk.inj (Option.some.inj h)
        rw [hk]
        rfl
      · rw [if_neg hk] at h
        obtain ⟨r, hr, e⟩ := Option.map_eq_some_iff.mp h
        obtain ⟨rfl, rfl⟩ := Prod.mk.inj e
        exact ih hr

theorem find_none [DecidableEq κ] (h : find l k = none) : some (k, v) ∉ l := by
  induction l with
  | nil => exact List.not_mem_nil
  | cons a l ih =>
    cases a with
    | none =>
      have hm := ih (Option.map_eq_none_iff.mp h)
      simpa using hm
    | some p =>
      obtain ⟨k', v'⟩ := p
      unfold find at h
      by_cases hk : k' = k
      · rw [if_pos hk] at h
        exact absurd h nofun
      · rw [if_neg hk] at h
        have hm := ih (Option.map_eq_none_iff.mp h)
        intro hin
        rcases List.mem_cons.mp hin with e | hin
        · exact hk (Prod.mk.inj (Option.some.inj e)).1.symm
        · exact hm hin

/-- the search finds the value of the map -/
theorem Holds.find_eq [DecidableEq κ] (h : Holds l m) (k : κ) : (find l k).map Prod.fst = m k := by
  cases hf : find l k with
  | none =>
    cases hm : m k with
    | none => rfl
    | some v => exact absurd ((h.mem k v).mp hm) (find_none hf)
  | some r =>
    have hl : l[r.2]? = some (some (k, r.1)) := find_some hf
    exact ((h.mem k r.1).mpr (List.mem_of_getElem? hl)).symm

theorem room_le (l : SlotMap κ ν) : room l ≤ l.length := by
  induction l with
  | nil => exact Nat.le_refl 0
  | cons a l ih =>
    cases a with
    | none => exact Nat.zero_le _
    | some p => exact Nat.succ_le_succ ih

theorem room_free (h : l[room l]? = some (some (k, v))) : False := by
  induction l with
  | nil => exact absurd h nofun
  | cons a l ih =>
    cases a with
    | none => exact absurd h nofun
    | some p => exact ih h

theorem getElem?_store_self (h : i ≤ l.length) (a : Option (κ × ν)) :
    (store l i a)[i]? = some a := by
  unfold store
  by_cases hi : i < l.length
  · rw [if_pos hi, List.getElem?_set_self hi]
  · obtain rfl : i = l.length := by omega
    rw [if_neg hi, List.getElem?_concat_length]

theorem getElem?_store_ne (h : i ≤ l.length) (hj : j ≠ i) (a : Option (κ × ν)) :
    (store l i a)[j]? = l[j]? := by
  unfold store
  by_cases hi : i < l.length
  · rw [if_pos hi, List.getElem?_set_ne (Ne.symm hj)]
  · obtain rfl : i = l.length := by omega
    rw [if_neg hi]
    by_cases hlt : j < l.length
    · rw [List.getElem?_append_left hlt]
    · have hlen : (l ++ [a]).length ≤ j := by
        rw [List.length_append, List.length_singleton]
        omega
      rw [List.getElem?_eq_none hlen, List.getElem?_eq_none (by omega)]

theorem Holds.put [DecidableEq κ] (h : Holds l m) (hk : m k = none) (hi : i ≤ l.length)
    (hfree : ∀ k' v', l[i]? ≠ some (some (k', v'))) (v : ν) :
    Holds (store l i (some (k, v))) (Function.update m k (some v)) := by
  have hold : ∀ j k' v', (store l i (some (k, v)))[j]? = some (some (k', v')) →
      j = i ∧ k' = k ∧ v' = v ∨ j ≠ i ∧ l[j]? = some (some (k', v')) := by
    intro j k' v' hj
    by_cases hji : j = i
    · rw [hji, getElem?_store_self hi] at hj
      obtain ⟨rfl, rfl⟩ := Prod.mk.inj (Option.some.inj (Option.some.inj hj))
      exact Or.inl ⟨hji, rfl, rfl⟩
    · rw [getElem?_store_ne hi hji] at hj
      exact Or.inr ⟨hji, hj⟩
  have hnot : ∀ (j : Nat) (v' : ν), l[j]? ≠ some (some (k, v')) := by
    intro j v' hj
    rw [(h.mem k v').mpr (List.mem_of_getElem? hj)] at hk
    exact absurd hk nofun
  refine ⟨fun k' v' => ?_, fun j j' k' v₁ v₂ h1 h2 => ?_⟩
  · constructor
    · intro hm
      by_cases hkk : k' = k
      · rw [hkk, Function.update_self] at hm
        obtain rfl := Option.some.inj hm
        rw [hkk]
        exact List.mem_of_getElem? (getElem?_store_self hi _)
      · rw [Function.update_of_ne hkk] at hm
        obtain ⟨j, hj⟩ := List.mem_iff_getElem?.mp ((h.mem k' v').mp hm)
        have hji : j ≠ i := fun e => hfree k' v' (e ▸ hj)
        exact List.mem_of_getElem? ((getElem?_store_ne hi hji _).trans hj)
    · intro hmem
      obtain ⟨j, hj⟩ := List.mem_iff_getElem?.mp hmem
      rcases hold j k' v' hj with ⟨-, rfl, rfl⟩ | ⟨-, hl⟩
      · exact Function.update_self ..
      · have hkk : k' ≠ k := fun e => hnot j v' (e ▸ hl)
        rw [Function.update_of_ne hkk]
        exact (h.mem k' v').mpr (List.mem_of_getElem? hl)
  · rcases hold j k' v₁ h1 with ⟨rfl, rfl, -⟩ | ⟨-, hl⟩
    · rcases hold j' k' v₂ h2 with ⟨rfl, -, -⟩ | ⟨-, hl'⟩
      · rfl
      · exact absurd hl' (hnot j' v₂)
    · rcases hold j' k' v₂ h2 with ⟨rfl, rfl, -⟩ | ⟨-, hl'⟩
      · exact absurd hl (hnot j v₁)
      · exact h.one j j' k' v₁ v₂ hl hl'

theorem Holds.erase [DecidableEq κ] (h : Holds l m) (hi : l[i]? = some (some (k, v))) :
    Holds (store l i none) (Function.update m k none) := by
  have hle : i ≤ l.length := Nat.le_of_lt (List.getElem?_eq_some_iff.mp hi).1
  have hold : ∀ j k' v', (store l i none)[j]? = some (some (k', v')) ↔
      j ≠ i ∧ l[j]? = some (some (k', v')) := by
    intro j k' v'
    by_cases hji : j = i
    · rw [hji, getElem?_store_self hle]
      exact iff_of_false nofun (fun hno => hno.1 rfl)
    · rw [getElem?_store_ne hle hji]
      exact (and_iff_right hji).symm
  refine ⟨fun k' v' => ?_, fun j j' k' v₁ v₂ h1 h2 => ?_⟩
  · rw [List.mem_iff_getElem?]
    constructor
    · intro hm
      by_cases hkk : k' = k
      · rw [hkk, Function.update_self] at hm
        exact absurd hm nofun
      · rw [Function.update_of_ne hkk] at hm
        obtain ⟨j, hj⟩ := List.mem_iff_getElem?.mp ((h.mem k' v').mp hm)
        refine ⟨j, (hold j k' v').mpr ⟨?_, hj⟩⟩
        rintro rfl
        rw [hi] at hj
        exact hkk (Prod.mk.inj (Option.some.inj (Option.some.inj hj))).1.symm
    · rintro ⟨j, hj⟩
      obtain ⟨hji, hl⟩ := (hold j k' v').mp hj
      have hkk : k' ≠ k := by
        rintro rfl
        exact hji (h.one j i k' v' v hl hi)
      rw [Function.update_of_ne hkk]
      exact (h.mem k' v').mpr (List.mem_of_getElem? hl)
  · exact h.one j j' k' v₁ v₂ ((hold j k' v₁).mp h1).2 ((hold j' k' v₂).mp h2).2

end SlotMap

end

end Lib
