import Xv6.Sh.Grammar

/-!
# What `parsecmd` accepts

The fuel of `parsecmd` is enough, so that it returns the command that the grammar derives from the
tokens of the line, and panics on every other line.
-/

namespace Sh
open Ulib (Str cstr)
open Lib

/-! ## the fuel -/

section
variable {s t : Str} {b : Char} {c d : Cmd Word} {fuel n : Nat} {l : Level}

/-- the end of a parser that had enough fuel -/
def Finishes (e : Stop) : Prop := e ≠ .fuel ∧ e ≠ .panic .parseblock

abbrev Ends (r : Except Stop (Cmd Word × Str)) (n : Nat) : Prop :=
  Ensures Finishes r (fun _ t => t.length ≤ n)

theorem Ends.le {r : Except Stop (Cmd Word × Str)} {m : Nat} (h : Ends r n) (hle : n ≤ m) :
    Ends r m := h.mono fun _ _ ht => ht.trans hle

theorem finishes {p : Panic} (h : p ≠ .parseblock) : Finishes (.panic p) :=
  ⟨(fun e => by cases e), fun e => h (Stop.panic.inj e)⟩

theorem length_gettoken_le : (gettoken s).rest.length ≤ s.length := by
  by_cases h : skip s = []
  · rw [(gettoken_nul (tokens_nil h)).2]
    exact Nat.zero_le _
  · exact (length_gettoken h).le

theorem redirs_ends (h : s.length < fuel) : Ends (parseredirs fuel c s) s.length := by
  induction fuel generalizing c s with
  | zero => exact absurd h (Nat.not_lt_zero _)
  | succ fuel ih =>
    refine sees_ensures (by decide) (fun t _ hlen b hb hf => ?_) (fun t _ hlen _ => hlen)
    obtain ⟨op, -, hlt, -⟩ := token_op hb hf
    refine token_ensures (token_ensures ?_)
    split
    · exact finishes (by decide)
    · have hle := length_gettoken_le (s := (gettoken t).rest)
      exact (ih (by omega)).le (by omega)

theorem args_ends (h : s.length < fuel) : Ends (parseargs fuel n c s) s.length := by
  induction fuel generalizing c s n with
  | zero => exact absurd h (Nat.not_lt_zero _)
  | succ fuel ih =>
    refine sees_ensures (by decide) (fun t _ hlen b hb hf => hlen) (fun t _ hlen _ => ?_)
    refine token_ensures ?_
    split
    · exact length_gettoken_le.trans hlen
    · rename_i hnul
      split
      · exact finishes (by decide)
      · split
        · exact finishes (by decide)
        · have hlt : (gettoken t).rest.length < t.length :=
            length_gettoken fun e => hnul (ret_eq_zero_iff.mpr (tokens_nil e))
          refine Ensures.bind (redirs_ends (by omega)) fun d u hu => ?_
          exact (ih (by omega)).le (by omega)

theorem back_ends (h : s.length < fuel) : Ends (parseback fuel c s) s.length := by
  induction fuel generalizing c s with
  | zero => exact absurd h (Nat.not_lt_zero _)
  | succ fuel ih =>
    refine sees_ensures (by decide) (fun t _ hlen b hb hf => ?_) (fun t _ hlen _ => hlen)
    obtain rfl := List.mem_singleton.mp hb
    have hlt := (token_sym (by decide) hf).2
    exact token_ensures ((ih (by omega)).le (by omega))

/-- what a level needs besides four for each character -/
def Level.extra : Level → Nat
  | .command => 2
  | .pipe => 3
  | .line => 4

theorem block_ends (hline : ∀ u, 4 * u.length + 4 ≤ fuel → Ends (parseline fuel u) u.length)
    (hf : first (tokens s) = some '(') (h : 4 * s.length ≤ fuel) :
    Ends (parseblock (fuel + 1) s) s.length := by
  rw [parseblock]
  refine sees_ensures (by decide) (fun t ht hlen b hb hf' => ?_) (fun t ht _ hno => ?_)
  · obtain rfl := List.mem_singleton.mp hb
    have hlt := (token_sym (by decide) hf').2
    refine token_ensures (Ensures.bind (hline _ (by omega)) fun c u hu => ?_)
    refine sees_ensures (by decide) (fun v _ hv b hb hf => ?_) fun v _ _ _ => ?_
    · obtain rfl := List.mem_singleton.mp hb
      have hlt' := (token_sym (by decide) hf).2
      exact token_ensures ((redirs_ends (by omega)).le (by omega))
    · exact finishes (by decide)
  · exact absurd (ht ▸ hf) (hno '(' (List.mem_singleton.mpr rfl))

theorem parser_ends (h : 4 * s.length + l.extra ≤ fuel) : Ends (l.parser fuel s) s.length := by
  induction fuel using Nat.strongRecOn generalizing l s with
  | ind fuel ih =>
    cases fuel with
    | zero => cases l <;> exact absurd h (Nat.not_succ_le_zero _)
    | succ fuel =>
      have ih' := fun l s h => ih fuel (Nat.lt_succ_self _) (l := l) (s := s) h
      cases l with
      | line =>
        have h' : 4 * s.length + 4 ≤ fuel + 1 := h
        show Ends (parseline (fuel + 1) s) _
        rw [parseline]
        refine Ensures.bind (ih' .pipe s (by show _ + 3 ≤ _; omega)) fun c t ht => ?_
        refine Ensures.bind (back_ends (by omega)) fun c u hu => ?_
        refine sees_ensures (by decide) (fun v _ hv b hb hf => ?_) fun v _ hv _ => ?_
        · obtain rfl := List.mem_singleton.mp hb
          have hlt := (token_sym (by decide) hf).2
          refine token_ensures (Ensures.bind (ih' .line _ (by show _ + 4 ≤ _; omega)) ?_)
          exact fun d w hw => show w.length ≤ _ by omega
        · show v.length ≤ _
          omega
      | pipe =>
        have h' : 4 * s.length + 3 ≤ fuel + 1 := h
        show Ends (parsepipe (fuel + 1) s) _
        rw [parsepipe]
        refine Ensures.bind (ih' .command s (by show _ + 2 ≤ _; omega)) fun c t ht => ?_
        refine sees_ensures (by decide) (fun v _ hv b hb hf => ?_) fun v _ hv _ => ?_
        · obtain rfl := List.mem_singleton.mp hb
          have hlt := (token_sym (by decide) hf).2
          refine token_ensures (Ensures.bind (ih' .pipe _ (by show _ + 3 ≤ _; omega)) ?_)
          exact fun d w hw => show w.length ≤ _ by omega
        · show v.length ≤ _
          omega
      | command =>
        have h' : 4 * s.length + 2 ≤ fuel + 1 := h
        show Ends (parseexec (fuel + 1) s) _
        rw [parseexec]
        refine sees_ensures (by decide) (fun v _ hv b hb hf => ?_) fun v _ hv _ => ?_
        · obtain rfl := List.mem_singleton.mp hb
          have hlt := (token_sym (by decide) hf).2
          cases fuel with
          | zero => omega
          | succ fuel =>
            refine (block_ends (fun u hu => ?_) hf (by omega)).le hv
            exact ih fuel (by omega) (l := .line) hu
        · refine Ensures.bind (redirs_ends (by omega)) fun c t ht => ?_
          exact (args_ends (by omega)).le (by omega)

/-! ## the whole line -/

/-- the call of `parseline` in `parsecmd` -/
def topLine (line : Str) : Except Stop (Cmd Word × Str) := parseline (4 * line.length + 4) line

theorem topLine_ends : Ends (topLine s) s.length := parser_ends (l := .line) (le_refl _)

theorem topLine_sound : Ensures (fun _ => True) (topLine s) (fun d t =>
    ∃ ts, tokens s = ts ++ tokens t ∧ Parses .line ts d) := parser_sound (l := .line)

theorem topLine_finds (h : Parses .line (tokens s) c) : Finds (topLine s) c [] :=
  parser_finds h (List.append_nil _).symm (.inl rfl)

theorem parsecmd_of_ok {buf : Str} (h : topLine (cstr buf) = .ok (c, t)) :
    parsecmd buf = if skip t = [] then .ok (c, nulterminate (cstr buf) c buf)
      else .error (.panic (.leftovers (skip t))) := by
  have h1 : parsecmd buf = (topLine (cstr buf) >>= fun r => if (peek r.2 []).2 ≠ [] then
      .error (.panic (.leftovers (peek r.2 []).2))
    else .ok (r.1, nulterminate (cstr buf) r.1 buf)) := rfl
  rw [h1, h]
  show (if (peek t []).2 ≠ [] then _ else _) = _
  rw [peek_skip, ite_not]

theorem parsecmd_of_error {buf : Str} {e : Stop} (h : topLine (cstr buf) = .error e) :
    parsecmd buf = .error e := by
  have h1 : parsecmd buf = (topLine (cstr buf) >>= fun r => if (peek r.2 []).2 ≠ [] then
      .error (.panic (.leftovers (peek r.2 []).2))
    else .ok (r.1, nulterminate (cstr buf) r.1 buf)) := rfl
  rw [h1, h]
  rfl

/-- the fuel lasts, and the check in `parseblock` never fails -/
theorem parsecmd_ends {buf : Str} {e : Stop} (h : parsecmd buf = .error e) : Finishes e := by
  cases hr : topLine (cstr buf) with
  | error e' =>
    rw [parsecmd_of_error hr] at h
    obtain rfl := Except.error.inj h
    exact topLine_ends.error hr
  | ok r =>
    rw [parsecmd_of_ok (c := r.1) (t := r.2) hr] at h
    split at h
    · cases h
    · obtain rfl := Except.error.inj h
      exact finishes (fun e => by cases e)

theorem parsecmd_ok {buf m : Str} : parsecmd buf = .ok (c, m) ↔
    Parses .line (tokens (cstr buf)) c ∧ m = nulterminate (cstr buf) c buf := by
  constructor
  · intro h
    cases hr : topLine (cstr buf) with
    | error e =>
      rw [parsecmd_of_error hr] at h
      cases h
    | ok r =>
      obtain ⟨d, t⟩ := r
      rw [parsecmd_of_ok hr] at h
      split at h
      · rename_i hskip
        obtain ⟨rfl, rfl⟩ := Prod.mk.inj (Except.ok.inj h)
        obtain ⟨ts, hts, hd⟩ := topLine_sound.elim hr
        rw [tokens_nil hskip, List.append_nil] at hts
        rw [hts]
        exact ⟨hd, rfl⟩
      · cases h
  · rintro ⟨hp, rfl⟩
    have hf := topLine_finds hp
    cases hr : topLine (cstr buf) with
    | error e => exact absurd (hf.error hr) (topLine_ends.error hr).1
    | ok r =>
      obtain ⟨rfl, hnil⟩ := hf.elim hr
      rw [parsecmd_of_ok hr, if_pos (tokens_eq_nil_iff.mp hnil)]

end

end Sh
