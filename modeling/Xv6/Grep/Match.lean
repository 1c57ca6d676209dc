import Mathlib.Computability.Language
import Xv6.Ulib.Str

/-!
# The patterns of `grep` (`user/grep.c`)

`match`, `matchhere` and `matchstar` work on the characters of the pattern.  `Pattern` is what they
mean: a list of items, each of which is one character or any number of them, and whether the match
has to begin and to end with the text.
-/

namespace Grep
open Ulib (Str)

/-! ## the matcher -/

def matchstar (c : Char) (here : Str → Bool) : Str → Bool
  | [] => here []
  | t :: text => here (t :: text) || ((t = c || c = '.') && matchstar c here text)

def matchhere : Str → Str → Bool
  | [], _ => true
  | c :: '*' :: re, text => matchstar c (matchhere re) text
  | ['$'], text => text.isEmpty
  | _ :: _, [] => false
  | c :: re, t :: text => (c = '.' || c = t) && matchhere re text

/-- the loop of `match` -/
def matchLoop (re : Str) : Str → Bool
  | [] => matchhere re []
  | t :: text => matchhere re (t :: text) || matchLoop re text

def match' : Str → Str → Bool
  | '^' :: re, text => matchhere re text
  | re, text => matchLoop re text

/-! ## what a pattern means -/

inductive Item where
  | one (c : Char)
  | star (c : Char)

structure Pattern where
  start : Bool
  items : List Item
  stop : Bool

/-- the items of a pattern, and whether it ends in `$` -/
def items : Str → List Item × Bool
  | [] => ([], false)
  | c :: '*' :: re => (.star c :: (items re).1, (items re).2)
  | ['$'] => ([], true)
  | c :: re => (.one c :: (items re).1, (items re).2)

def pattern : Str → Pattern
  | '^' :: re => ⟨true, (items re).1, (items re).2⟩
  | re => ⟨false, (items re).1, (items re).2⟩

/-- the characters that `c` stands for, as words -/
def letter (c : Char) : Language Char := {w | ∃ t, w = [t] ∧ (c = '.' ∨ c = t)}

def Item.lang : Item → Language Char
  | .one c => letter c
  | .star c => KStar.kstar (letter c)

def lang (l : List Item) : Language Char := (l.map Item.lang).prod

/-- the text has a part in the language, at the start or the end if the pattern says so -/
def Pattern.Matches (p : Pattern) (text : Str) : Prop :=
  ∃ u v w, text = u ++ v ++ w ∧ v ∈ lang p.items ∧ (p.start = true → u = []) ∧
    (p.stop = true → w = [])

/-! ## they agree -/

section
variable {c t : Char} {re text u v w : Str} {l : List Item}

theorem mem_lang_nil : v ∈ lang [] ↔ v = [] := Language.mem_one v

theorem mem_lang_cons {i : Item} : v ∈ lang (i :: l) ↔
    ∃ x y, v = x ++ y ∧ x ∈ i.lang ∧ y ∈ lang l := by
  unfold lang
  rw [List.map_cons, List.prod_cons, Language.mem_mul]
  constructor
  · rintro ⟨x, hx, y, hy, rfl⟩
    exact ⟨x, y, rfl, hx, hy⟩
  · rintro ⟨x, y, rfl, hx, hy⟩
    exact ⟨x, hx, y, hy, rfl⟩

theorem mem_star {x : Str} : x ∈ (Item.star c).lang ↔ ∀ t ∈ x, c = '.' ∨ c = t := by
  show x ∈ KStar.kstar (letter c) ↔ _
  rw [Language.mem_kstar]
  constructor
  · rintro ⟨L, rfl, hL⟩ t ht
    obtain ⟨y, hy, hty⟩ := List.mem_flatten.mp ht
    obtain ⟨t', rfl, hc⟩ := hL y hy
    rw [List.mem_singleton.mp hty]
    exact hc
  · intro hx
    refine ⟨x.map (fun t => [t]), ?_, fun y hy => ?_⟩
    · rw [← List.flatMap_def, List.flatMap_singleton']
    · obtain ⟨t, ht, rfl⟩ := List.mem_map.mp hy
      exact ⟨t, rfl, hx t ht⟩

/-- `matchstar` tries every number of characters -/
theorem matchstar_iff {here : Str → Bool} : matchstar c here text = true ↔
    ∃ x y, text = x ++ y ∧ x ∈ (Item.star c).lang ∧ here y = true := by
  induction text with
  | nil =>
    constructor
    · intro h
      exact ⟨[], [], rfl, mem_star.mpr (fun t ht => absurd ht List.not_mem_nil), h⟩
    · rintro ⟨x, y, hxy, -, hy⟩
      obtain ⟨-, rfl⟩ := List.append_eq_nil_iff.mp hxy.symm
      exact hy
  | cons t text ih =>
    show (here (t :: text) || ((t = c || c = '.') && matchstar c here text)) = true ↔ _
    rw [Bool.or_eq_true, Bool.and_eq_true, ih]
    constructor
    · rintro (h | ⟨hc, x, y, rfl, hx, hy⟩)
      · exact ⟨[], t :: text, rfl, mem_star.mpr (fun t ht => absurd ht List.not_mem_nil), h⟩
      · refine ⟨t :: x, y, rfl, mem_star.mpr (fun t' ht' => ?_), hy⟩
        obtain rfl | ht' := List.mem_cons.mp ht'
        · obtain h | h := (Bool.or_eq_true _ _).mp hc
          · exact .inr (of_decide_eq_true h).symm
          · exact .inl (of_decide_eq_true h)
        · exact mem_star.mp hx t' ht'
    · rintro ⟨x, y, hxy, hx, hy⟩
      cases x with
      | nil =>
        refine .inl ?_
        rw [hxy]
        exact hy
      | cons t' x =>
        obtain ⟨rfl, rfl⟩ := List.cons.inj hxy
        refine .inr ⟨?_, x, y, rfl, mem_star.mpr (fun t' ht' =>
          mem_star.mp hx t' (List.mem_cons_of_mem _ ht')), hy⟩
        obtain h | h := mem_star.mp hx t List.mem_cons_self
        · rw [h]
          exact Bool.or_true _
        · rw [h]
          simp

theorem matchhere_iff (re text : Str) : matchhere re text = true ↔
    ∃ v w, text = v ++ w ∧ v ∈ lang (items re).1 ∧ ((items re).2 = true → w = []) := by
  induction re using items.induct generalizing text with
  | case1 =>
    unfold matchhere items
    exact iff_of_true rfl ⟨[], text, rfl, mem_lang_nil.mpr rfl, fun h => by cases h⟩
  | case2 c re ih =>
    show matchstar c (matchhere re) text = true ↔ _
    rw [matchstar_iff]
    constructor
    · rintro ⟨x, y, rfl, hx, hy⟩
      obtain ⟨v, w, rfl, hv, hw⟩ := (ih y).mp hy
      exact ⟨x ++ v, w, (List.append_assoc ..).symm, mem_lang_cons.mpr ⟨x, v, rfl, hx, hv⟩, hw⟩
    · rintro ⟨v, w, rfl, hv, hw⟩
      obtain ⟨x, y, rfl, hx, hy⟩ := mem_lang_cons.mp hv
      exact ⟨x, y ++ w, List.append_assoc .., hx, (ih (y ++ w)).mpr ⟨y, w, rfl, hy, hw⟩⟩
  | case3 =>
    show text.isEmpty = true ↔ _
    rw [List.isEmpty_iff]
    constructor
    · rintro rfl
      exact ⟨[], [], rfl, mem_lang_nil.mpr rfl, fun _ => rfl⟩
    · rintro ⟨v, w, rfl, hv, hw⟩
      rw [mem_lang_nil.mp hv, hw rfl, List.append_nil]
  | case4 c re hstar hdollar ih =>
    have hitems : items (c :: re) = (.one c :: (items re).1, (items re).2) := by
      rw [items]
      · exact hstar
      · exact hdollar
    rw [hitems]
    cases text with
    | nil =>
      have hno : matchhere (c :: re) [] = false := by
        rw [matchhere]
        · exact hstar
        · exact hdollar
      rw [hno]
      refine iff_of_false Bool.false_ne_true ?_
      rintro ⟨v, w, hvw, hv, -⟩
      obtain ⟨rfl, -⟩ := List.append_eq_nil_iff.mp hvw.symm
      obtain ⟨x, y, hxy, ⟨t, rfl, -⟩, -⟩ := mem_lang_cons.mp hv
      cases hxy
    | cons t text =>
      have hone : matchhere (c :: re) (t :: text) = ((c = '.' || c = t) && matchhere re text) := by
        rw [matchhere]
        · exact hstar
        · exact hdollar
      rw [hone, Bool.and_eq_true, ih text]
      constructor
      · rintro ⟨hc, v, w, rfl, hv, hw⟩
        have hc' : c = '.' ∨ c = t := by simpa using hc
        exact ⟨t :: v, w, rfl, mem_lang_cons.mpr ⟨[t], v, rfl, ⟨t, rfl, hc'⟩, hv⟩, hw⟩
      · rintro ⟨v, w, hvw, hv, hw⟩
        obtain ⟨x, y, rfl, ⟨t', rfl, hc⟩, hy⟩ := mem_lang_cons.mp hv
        obtain ⟨rfl, rfl⟩ := List.cons.inj hvw
        exact ⟨by simpa using hc, y, w, rfl, hy, hw⟩

theorem matchLoop_iff (re text : Str) : matchLoop re text = true ↔
    ∃ u r, text = u ++ r ∧ matchhere re r = true := by
  induction text with
  | nil =>
    constructor
    · intro h
      exact ⟨[], [], rfl, h⟩
    · rintro ⟨u, r, hur, hr⟩
      obtain ⟨-, rfl⟩ := List.append_eq_nil_iff.mp hur.symm
      exact hr
  | cons t text ih =>
    show (matchhere re (t :: text) || matchLoop re text) = true ↔ _
    rw [Bool.or_eq_true, ih]
    constructor
    · rintro (h | ⟨u, r, rfl, hr⟩)
      · exact ⟨[], t :: text, rfl, h⟩
      · exact ⟨t :: u, r, rfl, hr⟩
    · rintro ⟨u, r, hur, hr⟩
      cases u with
      | nil =>
        refine .inl ?_
        rw [hur]
        exact hr
      | cons t' u =>
        obtain ⟨rfl, rfl⟩ := List.cons.inj hur
        exact .inr ⟨u, r, rfl, hr⟩

/-- `match` says yes exactly when a part of the text is in the language of the pattern -/
theorem match_iff_language (re text : Str) :
    match' re text = true ↔ (pattern re).Matches text := by
  have hloop : ∀ re : Str, matchLoop re text = true ↔
      Pattern.Matches ⟨false, (items re).1, (items re).2⟩ text := by
    intro re
    rw [matchLoop_iff]
    constructor
    · rintro ⟨u, r, rfl, hr⟩
      obtain ⟨v, w, rfl, hv, hw⟩ := (matchhere_iff re r).mp hr
      exact ⟨u, v, w, (List.append_assoc ..).symm, hv, (fun h => by cases h), hw⟩
    · rintro ⟨u, v, w, rfl, hv, -, hw⟩
      exact ⟨u, v ++ w, List.append_assoc .., (matchhere_iff re _).mpr ⟨v, w, rfl, hv, hw⟩⟩
  unfold match'
  split
  · rename_i re
    show _ ↔ Pattern.Matches ⟨true, (items re).1, (items re).2⟩ text
    rw [matchhere_iff]
    constructor
    · rintro ⟨v, w, rfl, hv, hw⟩
      exact ⟨[], v, w, rfl, hv, fun _ => rfl, hw⟩
    · rintro ⟨u, v, w, rfl, hv, hu, hw⟩
      rw [hu rfl]
      exact ⟨v, w, rfl, hv, hw⟩
  · rename_i hne
    have hpat : pattern re = ⟨false, (items re).1, (items re).2⟩ := by
      unfold pattern
      split
      · exact (hne _ rfl).elim
      · rfl
    rw [hpat]
    exact hloop re

end

end Grep
