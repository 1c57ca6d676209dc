import Xv6.Lib.Runs
import Xv6.Ulib.Token

/-!
# All tokens of a string

Calls of `next_token` with one cursor return the maximal runs of other characters than delimiters, each
with a NUL behind it, and NULL from then on.
-/

namespace Ulib
open Lib

/-- what a call of `next_token` leaves: the buffer, the cursor, and the token -/
structure Call where
  buf : Str
  p : Option Nat
  tok : Option Nat
  deriving DecidableEq

def nextTokens (delim : Str) : Nat → Str → Option Nat → Option (List Call)
  | 0, _, _ => some []
  | n + 1, buf, p =>
    match nextTokenAt buf p delim with
    | none => none
    | some (buf, p, tok) => (nextTokens delim n buf p).map (⟨buf, p, tok⟩ :: ·)

structure Runs (delim : Str) (p : Nat) (s : Str) (ts : List (Nat × Str)) : Prop where
  ordered : ts.Pairwise (fun x y => x.1 < y.1)
  mem_iff : ∀ q t, (q, t) ∈ ts ↔ ∃ i, q = p + i ∧ IsRun (· ∉ delim) s i t

/-- the call behind `j` others, when the string `s` was at position `p` of `buf`: it returns run `j`, or
NULL with the cursor gone; the runs up to this one are strings, the delimiters behind them are all that
was changed, and the cursor is not behind the end of the string -/
structure Cut (delim buf : Str) (p : Nat) (s : Str) (ts : List (Nat × Str)) (j : Nat) (c : Call) :
    Prop where
  tok : c.tok = (ts[j]?).map Prod.fst
  gone : c.tok = none → c.p = none
  strs : ∀ x ∈ ts.take (j + 1), StrAt c.buf x.1 x.2
  changed : ∀ k, c.buf[k]? ≠ buf[k]? → ∃ x ∈ ts.take (j + 1), k = x.1 + x.2.length ∧
    (∃ d ∈ delim, buf[k]? = some d) ∧ c.buf[k]? = some '\x00'
  inside : ∀ k ∈ c.p, k ≤ p + s.length

/-- any number of calls: each has a result, and the runs are those of the string -/
def Tokenizes (delim buf : Str) (p : Nat) (s : Str) : Prop :=
  ∃ ts, Runs delim p s ts ∧ ∀ n, ∃ cs, nextTokens delim n buf (some p) = some cs ∧ cs.length = n ∧
    ∀ j c, cs[j]? = some c → Cut delim buf p s ts j c

section
variable {buf s t w a delim : Str} {p q n : Nat} {ts : List (Nat × Str)}

/-- delimiters, a run of others, and delimiters behind it -/
inductive Cuts (delim : Str) : Str → Prop
  | nothing {a : Str} (ha : ∀ x ∈ a, x ∈ delim) : Cuts delim a
  | token {a t w : Str} (ha : ∀ x ∈ a, x ∈ delim) (hne : t ≠ []) (ht : ∀ x ∈ t, x ∉ delim)
      (hw : ∀ x, w.head? = some x → x ∈ delim) : Cuts delim (a ++ (t ++ w))

theorem cuts (delim s : Str) : Cuts delim s := by
  have hs : s.takeWhile (· ∈ delim) ++ s.dropWhile (· ∈ delim) = s :=
    List.takeWhile_append_dropWhile
  have ha : ∀ x ∈ s.takeWhile (· ∈ delim), x ∈ delim := by
    intro x hx
    simpa using List.mem_takeWhile_imp hx
  cases hrest : s.dropWhile (· ∈ delim) with
  | nil =>
    rw [hrest, List.append_nil] at hs
    rw [← hs]
    exact .nothing ha
  | cons y r =>
    have hy := of_decide_eq_false (dropWhile_head hrest)
    have hr : (y :: r).takeWhile (· ∉ delim) ++ (y :: r).dropWhile (· ∉ delim) = y :: r :=
      List.takeWhile_append_dropWhile
    rw [← hs, hrest, ← hr]
    refine .token ha ?_ (fun x hx => by simpa using List.mem_takeWhile_imp hx) fun x hx => ?_
    · rw [List.takeWhile_cons_of_pos (by simpa using hy)]
      exact List.cons_ne_nil _ _
    · cases hd : (y :: r).dropWhile (· ∉ delim) with
      | nil =>
        rw [hd] at hx
        exact absurd hx nofun
      | cons z v =>
        have hz := dropWhile_head hd
        rw [hd] at hx
        rw [← Option.some.inj hx]
        exact not_not.mp (of_decide_eq_false hz)

theorem nextTokens_gone (delim buf : Str) (n : Nat) :
    nextTokens delim n buf none = some (List.replicate n ⟨buf, none, none⟩) := by
  induction n with
  | zero => rfl
  | succ n ih =>
    unfold nextTokens
    dsimp only [nextTokenAt]
    rw [ih]
    rfl

theorem nextTokens_succ {b : Str} {p' tok : Option Nat} {cs : List Call}
    (h : nextTokenAt buf (some p) delim = some (b, p', tok)) (hcs : nextTokens delim n b p' = some cs) :
    nextTokens delim (n + 1) buf (some p) = some (⟨b, p', tok⟩ :: cs) := by
  unfold nextTokens
  rw [h]
  dsimp only
  rw [hcs]
  rfl

/-- a call that returns NULL, or one that returns the last token, is followed by such calls -/
theorem Cut.after (b : Str) (tok : Option Nat) (n : Nat)
    (h : nextTokenAt buf (some p) delim = some (b, none, tok))
    (h0 : Cut delim buf p s ts 0 ⟨b, none, tok⟩) (hts : ts.length ≤ 1) :
    ∃ cs, nextTokens delim n buf (some p) = some cs ∧ cs.length = n ∧
      ∀ j c, cs[j]? = some c → Cut delim buf p s ts j c := by
  cases n with
  | zero => exact ⟨[], rfl, rfl, fun j c hc => absurd hc nofun⟩
  | succ n =>
    refine ⟨_, nextTokens_succ h (nextTokens_gone delim b n), ?_, fun j c hc => ?_⟩
    · rw [List.length_cons, List.length_replicate]
    · cases j with
      | zero =>
        obtain rfl := Option.some.inj hc
        exact h0
      | succ j =>
        obtain rfl := List.eq_of_mem_replicate (List.mem_of_getElem? hc)
        have htake : ts.take (j + 1 + 1) = ts.take 1 := by
          rw [List.take_of_length_le (by omega), List.take_of_length_le hts]
        refine ⟨?_, fun _ => rfl, ?_, ?_, fun k hk => absurd hk nofun⟩
        · rw [List.getElem?_eq_none (by omega)]
          rfl
        · rw [htake]
          exact h0.strs
        · rw [htake]
          exact h0.changed

theorem Runs.nothing (ha : ∀ x ∈ a, x ∈ delim) (p : Nat) : Runs delim p a [] := by
  refine ⟨.nil, fun q t => iff_of_false List.not_mem_nil ?_⟩
  rintro ⟨i, -, h⟩
  exact not_isRun (fun x hx => not_not.mpr (ha x hx)) h

theorem Runs.token (ha : ∀ x ∈ a, x ∈ delim) (hne : t ≠ []) (ht : ∀ x ∈ t, x ∉ delim)
    (hw : ∀ x, w.head? = some x → x ∈ delim)
    (hts : Runs delim (p + a.length + t.length) w ts) :
    Runs delim p (a ++ (t ++ w)) ((p + a.length, t) :: ts) := by
  have hpos := List.length_pos_iff.mpr hne
  constructor
  · refine List.pairwise_cons.mpr ⟨fun x hx => ?_, hts.ordered⟩
    obtain ⟨i, hi, -⟩ := (hts.mem_iff x.1 x.2).mp hx
    omega
  · intro q u
    rw [List.mem_cons, hts.mem_iff, Prod.mk.injEq]
    have hrun : ∀ i, IsRun (· ∉ delim) (a ++ (t ++ w)) i u ↔ ∃ j, i = a.length + j ∧
        ((j = 0 ∧ u = t) ∨ ∃ k, j = t.length + k ∧ IsRun (· ∉ delim) w k u) := by
      intro i
      rw [isRun_append fun x hx => not_not.mpr (ha x hx)]
      refine exists_congr fun j => and_congr_right fun _ => ?_
      exact isRun_run hne ht fun x hx => not_not.mpr (hw x hx)
    constructor
    · rintro (⟨rfl, rfl⟩ | ⟨k, rfl, h⟩)
      · exact ⟨a.length, rfl, (hrun _).mpr ⟨0, rfl, Or.inl ⟨rfl, rfl⟩⟩⟩
      · exact ⟨a.length + (t.length + k), by omega, (hrun _).mpr ⟨_, rfl, Or.inr ⟨k, rfl, h⟩⟩⟩
    · rintro ⟨i, rfl, h⟩
      obtain ⟨j, rfl, ⟨rfl, rfl⟩ | ⟨k, rfl, hk⟩⟩ := (hrun i).mp h
      · exact Or.inl ⟨rfl, rfl⟩
      · exact Or.inr ⟨k, by omega, hk⟩

theorem Runs.cons {x : Char} (hx : x ∈ delim) (hts : Runs delim (p + 1) w ts) :
    Runs delim p (x :: w) ts := by
  refine ⟨hts.ordered, fun q t => ?_⟩
  have hshift : ∀ i t, IsRun (· ∉ delim) (x :: w) i t ↔ ∃ j, i = j + 1 ∧ IsRun (· ∉ delim) w j t :=
    fun i t => isRun_cons (P := (· ∉ delim)) (not_not.mpr hx)
  rw [hts.mem_iff]
  constructor
  · rintro ⟨i, rfl, h⟩
    exact ⟨i + 1, by omega, (hshift _ _).mpr ⟨i, rfl, h⟩⟩
  · rintro ⟨i, rfl, h⟩
    obtain ⟨j, rfl, hj⟩ := (hshift _ _).mp h
    exact ⟨j, by omega, hj⟩

theorem Runs.le (hts : Runs delim p s ts) {x : Nat × Str} (hx : x ∈ ts) : p ≤ x.1 := by
  obtain ⟨i, hi, -⟩ := (hts.mem_iff x.1 x.2).mp hx
  omega

theorem Cut.next {x : Char} {v : Str} {j : Nat} {c : Call} (hs : StrAt buf q (t ++ x :: v))
    (hx : x ∈ delim) (hts : Runs delim (q + t.length + 1) v ts)
    (hend : q + t.length + 1 + v.length ≤ p + s.length)
    (h : Cut delim (buf.set (q + t.length) '\x00') (q + t.length + 1) v ts j c) :
    Cut delim buf p s ((q, t) :: ts) (j + 1) c := by
  have hsame : ∀ k, k ≤ q + t.length → c.buf[k]? = (buf.set (q + t.length) '\x00')[k]? := by
    intro k hk
    by_contra hne
    obtain ⟨y, hy, rfl, -⟩ := h.changed k hne
    have := hts.le (List.mem_of_mem_take hy)
    omega
  have hlen := hs.lt_length
  rw [List.length_append, List.length_cons] at hlen
  refine ⟨h.tok, h.gone, fun y hy => ?_, fun k hk => ?_, fun k hk => (h.inside k hk).trans hend⟩
  · rw [List.take_succ_cons] at hy
    rcases List.mem_cons.mp hy with rfl | hy
    · exact hs.cut.1.congr fun i _ hi => hsame i hi
    · exact h.strs y hy
  · rw [List.take_succ_cons]
    by_cases hkq : k = q + t.length
    · refine ⟨(q, t), List.mem_cons_self, hkq, ⟨x, hx, ?_⟩, ?_⟩
      · rw [hkq, hs.getElem? (by rw [List.length_append]; omega), List.append_assoc,
          List.getElem?_append_right (Nat.le_refl _), Nat.sub_self]
        rfl
      · rw [hsame k (Nat.le_of_eq hkq), hkq, List.getElem?_set_self (by omega)]
    · have hset : (buf.set (q + t.length) '\x00')[k]? = buf[k]? :=
        List.getElem?_set_ne fun e => hkq e.symm
      rw [← hset] at hk ⊢
      obtain ⟨y, hy, hky, hd, hnul⟩ := h.changed k hk
      exact ⟨y, List.mem_cons_of_mem _ hy, hky, hd, hnul⟩

theorem Cut.first {x : Char} {v : Str} (hs : StrAt buf q (t ++ x :: v)) (hx : x ∈ delim)
    (hend : q + t.length + 1 ≤ p + s.length) : Cut delim buf p s ((q, t) :: ts) 0
      ⟨buf.set (q + t.length) '\x00', some (q + t.length + 1), some q⟩ := by
  have hlen := hs.lt_length
  rw [List.length_append, List.length_cons] at hlen
  refine ⟨rfl, nofun, fun y hy => ?_, fun k hk => ?_, fun k hk => ?_⟩
  · rw [List.take_succ_cons, List.take_zero, List.mem_singleton] at hy
    rw [hy]
    exact hs.cut.1
  · refine ⟨(q, t), List.mem_cons_self, ?_⟩
    have hkq : k = q + t.length := by
      by_contra hne
      exact hk (List.getElem?_set_ne fun e => hne e.symm)
    refine ⟨hkq, ⟨x, hx, ?_⟩, ?_⟩
    · rw [hkq, hs.getElem? (by rw [List.length_append]; omega), List.append_assoc,
        List.getElem?_append_right (Nat.le_refl _), Nat.sub_self]
      rfl
    · rw [hkq]
      exact List.getElem?_set_self (by omega)
  · rw [← Option.some.inj hk]
    exact hend

/-- the tokens of a string are its runs -/
theorem nextTokens_runs (delim buf s : Str) (p : Nat) (h : StrAt buf p s) :
    Tokenizes delim buf p s := by
  induction hlen : s.length using Nat.strongRecOn generalizing buf s p with
  | ind m ih =>
    cases cuts delim s with
    | nothing ha =>
      refine ⟨[], .nothing ha p, fun n => ?_⟩
      refine Cut.after buf none n (nextTokenAt_nothing h ha) ?_ (Nat.zero_le 1)
      exact ⟨rfl, fun _ => rfl, fun y hy => absurd hy List.not_mem_nil, fun k hk => absurd rfl hk,
        fun k hk => absurd hk nofun⟩
    | @token a t w ha hne ht hw =>
      have hcall := nextTokenAt_token h ha hne ht hw
      have htok := h.drop (k := a.length) (by rw [List.length_append]; omega)
      rw [List.drop_left] at htok
      rw [List.length_append, List.length_append] at hlen
      cases w with
      | nil =>
        rw [List.append_nil] at htok
        refine ⟨[(p + a.length, t)], .token ha hne ht hw (.nothing (fun x hx => absurd hx
          List.not_mem_nil) _), fun n => ?_⟩
        refine Cut.after buf _ n hcall ?_ (Nat.le_refl 1)
        refine ⟨rfl, nofun, fun y hy => ?_, fun k hk => absurd rfl hk, fun k hk => absurd hk nofun⟩
        rw [List.mem_singleton.mp hy]
        exact htok
      | cons x v =>
        have hx : x ∈ delim := hw x rfl
        rw [List.length_cons] at hlen
        rw [if_neg (List.cons_ne_nil x v)] at hcall
        obtain ⟨ts, hts, hcalls⟩ := ih v.length (by omega) _ v _ htok.cut.2 rfl
        have hend : p + a.length + t.length + 1 + v.length ≤
            p + (a ++ (t ++ x :: v)).length := by
          rw [List.length_append, List.length_append, List.length_cons]
          omega
        refine ⟨(p + a.length, t) :: ts, .token ha hne ht hw (.cons hx hts), fun n => ?_⟩
        cases n with
        | zero => exact ⟨[], rfl, rfl, fun j c hc => absurd hc nofun⟩
        | succ n =>
          obtain ⟨cs, hcs, hn, hall⟩ := hcalls n
          refine ⟨_, nextTokens_succ hcall hcs, congrArg (· + 1) hn, fun j c hc => ?_⟩
          cases j with
          | zero =>
            obtain rfl := Option.some.inj hc
            exact Cut.first htok hx (by omega)
          | succ j => exact Cut.next htok hx hts hend (hall j c hc)

end

theorem nextTokens_spaces : Tokenizes [' '] ("  ab  c ".toList ++ ['\x00']) 0 "  ab  c ".toList :=
  nextTokens_runs [' '] ("  ab  c ".toList ++ ['\x00']) "  ab  c ".toList 0
    ⟨by decide, by decide⟩

end Ulib
