import Mathlib.Logic.Function.Iterate
import Xv6.Lib.Ensures
import Xv6.Sh.Tokens

/-!
# The grammar of `sh`

`Parses l ts c`: at level `l` the tokens `ts` are the command `c`.  The parser returns what the
grammar derives, and nothing else: `parses_ensures` is what a result tells about the tokens that
were read, and `parser_ensures` that a derivation is found whenever the fuel lasts.
-/

namespace Sh
open Ulib (Str)
open Lib

section
variable {α : Type}

inductive Op where
  /-- `<` -/
  | input
  /-- `>` -/
  | output
  /-- `>>` -/
  | append
  deriving DecidableEq, Repr

def Op.lexeme : Op → Lexeme α
  | .input => .sym '<'
  | .output => .sym '>'
  | .append => .append

def Op.mode : Op → Nat
  | .input => rdonly
  | .output => truncating
  | .append => creating

def Op.fd : Op → Nat
  | .input => 0
  | .output => 1
  | .append => 1

def Op.redir (op : Op) (cmd : Cmd α) (file : α) : Cmd α := .redir cmd file op.mode op.fd

def redirLexemes (rs : List (Op × α)) : List (Lexeme α) :=
  rs.flatMap fun r => [r.1.lexeme, .word r.2]

def redirect (cmd : Cmd α) (rs : List (Op × α)) : Cmd α :=
  rs.foldl (fun cmd r => r.1.redir cmd r.2) cmd

/-- words with the redirections behind them -/
def argLexemes (as : List (α × List (Op × α))) : List (Lexeme α) :=
  as.flatMap fun a => .word a.1 :: redirLexemes a.2

/-- a command without symbols but for its redirections -/
def simple (rs : List (Op × α)) (as : List (α × List (Op × α))) : Cmd α :=
  redirect (.exec (as.map Prod.fst)) (rs ++ as.flatMap Prod.snd)

def background (n : Nat) (cmd : Cmd α) : Cmd α := Cmd.back^[n] cmd

def ampersands (n : Nat) : List (Lexeme α) := List.replicate n (.sym '&')

inductive Level where
  | command
  | pipe
  | line

inductive Parses : Level → List (Lexeme α) → Cmd α → Prop
  | simple (rs : List (Op × α)) (as : List (α × List (Op × α))) : as.length < maxargs →
      Parses .command (redirLexemes rs ++ argLexemes as) (simple rs as)
  | block {ts : List (Lexeme α)} {c : Cmd α} (rs : List (Op × α)) : Parses .line ts c →
      Parses .command (.sym '(' :: (ts ++ .sym ')' :: redirLexemes rs)) (redirect c rs)
  | stage {ts : List (Lexeme α)} {c : Cmd α} : Parses .command ts c → Parses .pipe ts c
  | pipe {ts us : List (Lexeme α)} {c d : Cmd α} : Parses .command ts c → Parses .pipe us d →
      Parses .pipe (ts ++ .sym '|' :: us) (.pipe c d)
  | last {ts : List (Lexeme α)} {c : Cmd α} (n : Nat) : Parses .pipe ts c →
      Parses .line (ts ++ ampersands n) (background n c)
  | list {ts us : List (Lexeme α)} {c d : Cmd α} (n : Nat) : Parses .pipe ts c →
      Parses .line us d →
      Parses .line (ts ++ (ampersands n ++ .sym ';' :: us)) (.list (background n c) d)

/-- the symbols that may stand behind a level -/
def Level.follow : Level → Str
  | .command => ['|', '&', ';', ')']
  | .pipe => ['&', ';', ')']
  | .line => [')']

def Level.Follows (l : Level) (ts : List (Lexeme α)) : Prop :=
  ts = [] ∨ ∃ c ∈ l.follow, first ts = some c

variable {op : Op} {w : α} {rs rs' : List (Op × α)} {as : List (α × List (Op × α))} {c : Cmd α}

theorem redirLexemes_cons : redirLexemes ((op, w) :: rs) =
    op.lexeme :: .word w :: redirLexemes rs := rfl

theorem argLexemes_cons : argLexemes ((w, rs) :: as) =
    .word w :: (redirLexemes rs ++ argLexemes as) := rfl

theorem redirect_cons : redirect c ((op, w) :: rs) = redirect (op.redir c w) rs := rfl

theorem redirect_append :
    redirect c (rs ++ rs') = redirect (redirect c rs) rs' := List.foldl_append ..

theorem push_redirect : (redirect c rs).push w = redirect (c.push w) rs := by
  induction rs generalizing c with
  | nil => rfl
  | cons r rs ih =>
    obtain ⟨op, f⟩ := r
    rw [redirect_cons, redirect_cons, ih]
    rfl

end

def Level.parser : Level → Nat → Parser (Cmd Word)
  | .command => parseexec
  | .pipe => parsepipe
  | .line => parseline

/-! ## one step of the parser -/

section
variable {α β : Type} {E : Stop → Prop} {Q : α → Str → Prop} {R : β → Str → Prop} {s t u : Str}
  {toks : Str} {b : Char} {c d : Cmd Word} {w : Word} {fuel n : Nat} {rs : List (Op × Word)}
  {as : List (Word × List (Op × Word))} {ts us rest : List (Lexeme Word)} {x : Lexeme Word}
  {op : Op} {l : Level}

theorem sees_ensures {a b : Parser α} (hsub : toks ⊆ symbols)
    (ha : ∀ t, tokens t = tokens s → t.length ≤ s.length → ∀ c ∈ toks, first (tokens t) = some c →
      Ensures E (a t) Q)
    (hb : ∀ t, tokens t = tokens s → t.length ≤ s.length → (∀ c ∈ toks, first (tokens t) ≠ some c) →
      Ensures E (b t) Q) :
    Ensures E ((do if ← sees toks then a else b : Parser α) s) Q := by
  have hskip : tokens (peek s toks).2 = tokens s := by rw [peek_skip, tokens_skip]
  have hlen : (peek s toks).2.length ≤ s.length := by
    rw [peek_skip]
    exact length_skip_le
  refine Ensures.bind_eq (show sees toks s = .ok ((peek s toks).1, (peek s toks).2) from rfl) ?_
  by_cases h : (peek s toks).1 = true
  · rw [if_pos h]
    obtain ⟨c, hc, hf⟩ := (peek_iff hsub).mp h
    exact ha _ hskip hlen c hc (hskip ▸ hf)
  · rw [if_neg h]
    exact hb _ hskip hlen (fun c hc hf => h ((peek_iff hsub).mpr ⟨c, hc, hskip ▸ hf⟩))

theorem token_ensures {f : Token → Parser α}
    (h : Ensures E (f (gettoken s) (gettoken s).rest) Q) :
    Ensures E ((token >>= f : Parser α) s) Q :=
  Ensures.bind_eq (show token s = .ok (gettoken s, (gettoken s).rest) from rfl) h

/-! ## soundness -/

theorem first_cons (h : first ts = some b) :
    (∃ us, ts = .sym b :: us) ∨ b = '>' ∧ ∃ us, ts = .append :: us := by
  cases ts with
  | nil => cases h
  | cons x us =>
    cases x with
    | sym c =>
      obtain rfl := Option.some.inj h
      exact .inl ⟨us, rfl⟩
    | append =>
      obtain rfl := Option.some.inj h
      exact .inr ⟨rfl, us, rfl⟩
    | word w => cases h

theorem token_sym (hb : b ≠ '>') (h : first (tokens s) = some b) :
    tokens s = .sym b :: tokens (gettoken s).rest ∧ (gettoken s).rest.length < s.length := by
  obtain ⟨us, e⟩ | ⟨rfl, -⟩ := first_cons h
  · obtain ⟨-, -, rfl, hlt⟩ := gettoken_spec e
    exact ⟨e, hlt⟩
  · exact absurd rfl hb

theorem token_op (hb : b ∈ ['<', '>']) (h : first (tokens s) = some b) :
    ∃ op : Op, tokens s = op.lexeme :: tokens (gettoken s).rest ∧
      (gettoken s).rest.length < s.length ∧ redir (gettoken s).ret = op.redir := by
  obtain ⟨us, e⟩ | ⟨-, us, e⟩ := first_cons h
  · obtain ⟨hret, -, rfl, hlt⟩ := gettoken_spec e
    obtain rfl | hb := List.mem_cons.mp hb
    · exact ⟨.input, e, hlt, by rw [hret]; rfl⟩
    · obtain rfl := List.mem_singleton.mp hb
      exact ⟨.output, e, hlt, by rw [hret]; rfl⟩
  · obtain ⟨hret, -, rfl, hlt⟩ := gettoken_spec e
    exact ⟨.append, e, hlt, by rw [hret]; rfl⟩

theorem redirs_sound : Ensures (fun _ => True) (parseredirs fuel c s) (fun d t =>
    ∃ rs, tokens s = redirLexemes rs ++ tokens t ∧ d = redirect c rs) := by
  induction fuel generalizing c s with
  | zero => trivial
  | succ fuel ih =>
    refine sees_ensures (by decide) (fun t ht _ b hb hf => ?_) (fun t ht _ _ => ?_)
    · obtain ⟨op, htok, -, hop⟩ := token_op hb hf
      refine token_ensures (token_ensures ?_)
      split
      · trivial
      · rename_i hret
        have hfile := ret_eq_a (Decidable.not_not.mp hret)
        refine ih.mono ?_
        rintro d u ⟨rs, hrs, rfl⟩
        refine ⟨(op, (gettoken (gettoken t).rest).word) :: rs, ?_, ?_⟩
        · rw [← ht, htok, hfile, hrs]
          rfl
        · rw [redirect_cons, hop]
    · exact ⟨[], ht.symm, rfl⟩

/-- the command of `parseexec` when `ws` and `rs` were read -/
theorem args_sound {ws : List Word} (hn : n = ws.length) (hmax : n < maxargs) :
    Ensures (fun _ => True) (parseargs fuel n (redirect (.exec ws) rs) s) (fun d t =>
      ∃ as, tokens s = argLexemes as ++ tokens t ∧ n + as.length < maxargs ∧
        d = redirect (.exec (ws ++ as.map Prod.fst)) (rs ++ as.flatMap Prod.snd)) := by
  induction fuel generalizing s n ws rs with
  | zero => trivial
  | succ fuel ih =>
    have hstay : redirect (.exec ws) rs = redirect (.exec (ws ++ [])) (rs ++ []) := by
      rw [List.append_nil, List.append_nil]
    refine sees_ensures (by decide) (fun t ht _ b hb hf => ?_) (fun t ht _ _ => ?_)
    · exact ⟨[], ht.symm, hmax, hstay⟩
    · refine token_ensures ?_
      split
      · rename_i hret
        have hnil := ret_eq_zero_iff.mp hret
        rw [(gettoken_nul hnil).2]
        refine ⟨[], ?_, hmax, hstay⟩
        rw [← ht, hnil, tokens_nil rfl]
        rfl
      · split
        · trivial
        · rename_i hret
          split
          · trivial
          · rename_i hlt
            rw [push_redirect]
            refine Ensures.bind redirs_sound ?_
            rintro d u ⟨rs', hrs, rfl⟩
            rw [← redirect_append]
            have hn' : n + 1 = (ws ++ [(gettoken t).word]).length := by
              rw [List.length_append, hn]
              rfl
            refine (ih hn' (by omega)).mono ?_
            rintro d v ⟨as, has, hlen, rfl⟩
            refine ⟨((gettoken t).word, rs') :: as, ?_, ?_, ?_⟩
            · rw [← ht, ret_eq_a (Decidable.not_not.mp hret), hrs, has, argLexemes_cons,
                List.cons_append, List.append_assoc]
            · rw [List.length_cons]
              omega
            · simp

theorem back_sound : Ensures (fun _ => True) (parseback fuel c s) (fun d t =>
    ∃ n, tokens s = ampersands n ++ tokens t ∧ d = background n c) := by
  induction fuel generalizing c s with
  | zero => trivial
  | succ fuel ih =>
    refine sees_ensures (by decide) (fun t ht _ b hb hf => ?_) (fun t ht _ _ => ?_)
    · obtain rfl := List.mem_singleton.mp hb
      refine token_ensures (ih.mono ?_)
      rintro d u ⟨n, hn, rfl⟩
      refine ⟨n + 1, ?_, rfl⟩
      rw [← ht, (token_sym (by decide) hf).1, hn]
      rfl
    · exact ⟨0, ht.symm, rfl⟩

theorem block_sound (h : ∀ s, Ensures (fun _ => True) (parseline fuel s) (fun d t =>
      ∃ ts, tokens s = ts ++ tokens t ∧ Parses .line ts d)) :
    Ensures (fun _ => True) (parseblock (fuel + 1) s) (fun d t => ∃ ts rs c,
      tokens s = .sym '(' :: (ts ++ .sym ')' :: redirLexemes rs) ++ tokens t ∧
        Parses .line ts c ∧ d = redirect c rs) := by
  rw [parseblock]
  refine sees_ensures (by decide) (fun t ht _ b hb hf => ?_) (fun t ht _ _ => trivial)
  obtain rfl := List.mem_singleton.mp hb
  refine token_ensures (Ensures.bind (h _) ?_)
  rintro c u ⟨ts, hts, hc⟩
  refine sees_ensures (by decide) (fun v hv _ b hb hf' => ?_) (fun v hv _ _ => trivial)
  obtain rfl := List.mem_singleton.mp hb
  refine token_ensures (redirs_sound.mono ?_)
  rintro _ w ⟨rs, hrs, rfl⟩
  refine ⟨ts, rs, c, ?_, hc, rfl⟩
  rw [← ht, (token_sym (by decide) hf).1, hts, ← hv, (token_sym (by decide) hf').1, hrs]
  simp

/-- what the parser returns is in the grammar -/
theorem parser_sound : Ensures (fun _ => True) (l.parser fuel s) (fun d t =>
    ∃ ts, tokens s = ts ++ tokens t ∧ Parses l ts d) := by
  induction fuel using Nat.strongRecOn generalizing l s with
  | ind fuel ih =>
    cases fuel with
    | zero => cases l <;> trivial
    | succ fuel =>
      have ih' := fun l s => ih fuel (Nat.lt_succ_self _) (l := l) (s := s)
      cases l with
      | line =>
        show Ensures _ (parseline (fuel + 1) s) _
        rw [parseline]
        refine Ensures.bind (ih' .pipe s) ?_
        rintro c t ⟨ts, hts, hc⟩
        refine Ensures.bind back_sound ?_
        rintro _ u ⟨n, hn, rfl⟩
        refine sees_ensures (by decide) (fun v hv _ b hb hf => ?_) (fun v hv _ _ => ?_)
        · obtain rfl := List.mem_singleton.mp hb
          refine token_ensures (Ensures.bind (ih' .line _) ?_)
          rintro d w ⟨us, hus, hd⟩
          refine ⟨_, ?_, .list n hc hd⟩
          rw [hts, hn, ← hv, (token_sym (by decide) hf).1, hus]
          simp
        · refine ⟨_, ?_, .last n hc⟩
          rw [hts, hn, hv, List.append_assoc]
      | pipe =>
        show Ensures _ (parsepipe (fuel + 1) s) _
        rw [parsepipe]
        refine Ensures.bind (ih' .command s) ?_
        rintro c t ⟨ts, hts, hc⟩
        refine sees_ensures (by decide) (fun v hv _ b hb hf => ?_) (fun v hv _ _ => ?_)
        · obtain rfl := List.mem_singleton.mp hb
          refine token_ensures (Ensures.bind (ih' .pipe _) ?_)
          rintro d w ⟨us, hus, hd⟩
          refine ⟨_, ?_, .pipe hc hd⟩
          rw [hts, ← hv, (token_sym (by decide) hf).1, hus]
          simp
        · exact ⟨ts, by rw [hts, hv], .stage hc⟩
      | command =>
        show Ensures _ (parseexec (fuel + 1) s) _
        rw [parseexec]
        refine sees_ensures (by decide) (fun v hv _ b hb hf => ?_) (fun v hv _ _ => ?_)
        · cases fuel with
          | zero => trivial
          | succ fuel =>
            refine (block_sound fun s => ih fuel (by omega) (l := .line) (s := s)).mono ?_
            rintro d u ⟨ts, rs, d, hts, hd, rfl⟩
            exact ⟨_, by rw [← hv, hts], .block rs hd⟩
        · refine Ensures.bind redirs_sound ?_
          rintro _ t ⟨rs, hrs, rfl⟩
          refine (args_sound (show 0 = ([] : List Word).length from rfl) (by decide)).mono ?_
          rintro d u ⟨as, has, hlen, rfl⟩
          refine ⟨_, ?_, .simple rs as (by omega)⟩
          rw [← hv, hrs, has, List.append_assoc]

/-! ## completeness -/

/-- the fuel runs out, or the result is `c` and `rest` is left -/
abbrev Finds (r : Except Stop (Cmd Word × Str)) (c : Cmd Word) (rest : List (Lexeme Word)) : Prop :=
  Ensures (· = .fuel) r (fun d t => d = c ∧ tokens t = rest)

theorem first_of_eq_cons (h : ts = .sym b :: us) : first ts = some b := by
  rw [h]
  rfl

theorem sees_yes {f g : Parser (Cmd Word)} (hsub : toks ⊆ symbols)
    (hb : b ∈ toks) (h : first (tokens s) = some b)
    (hf : ∀ t, tokens t = tokens s → Finds (f t) c rest) :
    Finds ((do if ← sees toks then f else g : Parser (Cmd Word)) s) c rest :=
  sees_ensures hsub (fun t ht _ _ _ _ => hf t ht)
    (fun _ ht _ hno => absurd (ht ▸ h) (hno b hb))

theorem sees_no {f g : Parser (Cmd Word)} (hsub : toks ⊆ symbols)
    (h : ∀ b ∈ toks, first (tokens s) ≠ some b)
    (hg : ∀ t, tokens t = tokens s → Finds (g t) c rest) :
    Finds ((do if ← sees toks then f else g : Parser (Cmd Word)) s) c rest :=
  sees_ensures hsub (fun _ ht _ b hb hf => absurd (ht ▸ hf) (h b hb)) (fun t ht _ _ => hg t ht)

theorem token_word (h : tokens s = .word w :: ts) : (gettoken s).ret = 'a' ∧
    (gettoken s).word = w ∧ tokens (gettoken s).rest = ts := by
  obtain ⟨hret, hword, hnext, -⟩ := gettoken_spec h
  refine ⟨hret, ?_, hnext⟩
  unfold lexeme at hword
  rw [if_pos (show (gettoken s).ret = 'a' from hret)] at hword
  exact Lexeme.word.inj hword

theorem redirs_finds (h : tokens s = redirLexemes rs ++ rest)
    (hrest : ∀ b ∈ ['<', '>'], first rest ≠ some b) :
    Finds (parseredirs fuel c s) (redirect c rs) rest := by
  induction fuel generalizing c s rs with
  | zero => exact rfl
  | succ fuel ih =>
    cases rs with
    | nil =>
      refine sees_no (by decide) (fun b hb => ?_) fun t ht => ⟨rfl, ht.trans h⟩
      rw [h]
      exact hrest b hb
    | cons r rs =>
      obtain ⟨op, w⟩ := r
      have hf : ∃ b ∈ ['<', '>'], first (tokens s) = some b := by
        rw [h]
        cases op
        · exact ⟨'<', by decide, rfl⟩
        · exact ⟨'>', by decide, rfl⟩
        · exact ⟨'>', by decide, rfl⟩
      obtain ⟨b, hb, hf⟩ := hf
      refine sees_yes (by decide) hb hf fun t ht => ?_
      have htok : tokens t = op.lexeme :: .word w :: (redirLexemes rs ++ rest) := ht.trans h
      obtain ⟨hret, -, hnext, -⟩ := gettoken_spec htok
      obtain ⟨hword, hw, hrest'⟩ := token_word hnext
      have hop : redir (gettoken t).ret = op.redir := by
        rw [hret]
        cases op <;> rfl
      refine token_ensures (token_ensures ?_)
      rw [if_neg (not_not_intro hword), hop, hw]
      exact ih hrest'

theorem Level.Follows.command (h : l.Follows rest) : Level.command.Follows rest := by
  obtain h | ⟨b, hb, hf⟩ := h
  · exact .inl h
  · refine .inr ⟨b, ?_, hf⟩
    have hsub : l.follow ⊆ Level.command.follow := by cases l <;> decide
    exact hsub hb

theorem Level.Follows.first_ne (h : l.Follows rest) (hb : b ∉ l.follow) : first rest ≠ some b := by
  intro e
  obtain rfl | ⟨b', hb', hf⟩ := h
  · cases e
  · exact hb (Option.some.inj (e.symm.trans hf) ▸ hb')

theorem Level.Follows.sym (hb : b ∈ l.follow) : l.Follows (.sym b :: ts) := .inr ⟨b, hb, rfl⟩

theorem Level.Follows.not_op (h : l.Follows rest) : ∀ b ∈ ['<', '>'], first rest ≠ some b := by
  intro b hb
  have hno : ∀ b ∈ ['<', '>'], b ∉ Level.command.follow := by simp [Level.follow]
  exact h.command.first_ne (hno b hb)

theorem first_args (as : List (Word × List (Op × Word)))
    (h : ∀ b ∈ ['<', '>'], first rest ≠ some b) :
    ∀ b ∈ ['<', '>'], first (argLexemes as ++ rest) ≠ some b := by
  cases as with
  | nil => exact h
  | cons a as => exact fun b _ e => by cases e

theorem args_finds {ws : List Word} (hn : n = ws.length) (hmax : n + as.length < maxargs)
    (h : tokens s = argLexemes as ++ rest) (hrest : Level.command.Follows rest) :
    Finds (parseargs fuel n (redirect (.exec ws) rs) s)
      (redirect (.exec (ws ++ as.map Prod.fst)) (rs ++ as.flatMap Prod.snd)) rest := by
  induction fuel generalizing s n ws rs as with
  | zero => exact rfl
  | succ fuel ih =>
    cases as with
    | nil =>
      have hs : tokens s = rest := h
      have hstay : redirect (.exec ws) rs = redirect (.exec (ws ++ [])) (rs ++ []) := by
        rw [List.append_nil, List.append_nil]
      obtain rfl | ⟨b, hb, hf⟩ := hrest
      · refine sees_no (by decide) (fun b _ => by rw [hs]; exact fun e => by cases e) fun t ht => ?_
        have hnil := ht.trans hs
        obtain ⟨hret, hend⟩ := gettoken_nul hnil
        refine token_ensures ?_
        rw [if_pos hret, hend]
        exact ⟨hstay, tokens_nil rfl⟩
      · have hsub : Level.command.follow ⊆ ['|', ')', '&', ';'] := by decide
        exact sees_yes (by decide) (hsub hb) (by rw [hs, hf]) fun t ht => ⟨hstay, ht.trans hs⟩
    | cons a as =>
      obtain ⟨w, rs'⟩ := a
      have hs : tokens s = .word w :: (redirLexemes rs' ++ (argLexemes as ++ rest)) := by
        rw [h, argLexemes_cons, List.cons_append, List.append_assoc]
      rw [List.length_cons] at hmax
      refine sees_no (by decide) (fun b _ => by rw [hs]; exact fun e => by cases e) fun t ht => ?_
      obtain ⟨hword, hw, hrest'⟩ := token_word (ht.trans hs)
      refine token_ensures ?_
      rw [if_neg (by rw [hword]; decide), if_neg (not_not_intro hword), if_neg (by omega), hw,
        push_redirect]
      refine Ensures.bind (redirs_finds hrest' ?_) ?_
      · exact first_args as hrest.not_op
      · rintro _ u ⟨rfl, hu⟩
        rw [← redirect_append]
        have hlen : n + 1 = (ws ++ [w]).length := by
          rw [List.length_append, hn]
          rfl
        have h1 : Finds (parseargs fuel (n + 1) (redirect (.exec (ws ++ [w])) (rs ++ rs')) u) _ _ :=
          ih hlen (by omega) hu
        show Finds (parseargs fuel (n + 1) (redirect (.exec (ws ++ [w])) (rs ++ rs')) u) _ _
        simpa using h1

theorem back_finds (h : tokens s = ampersands n ++ rest) (hrest : first rest ≠ some '&') :
    Finds (parseback fuel c s) (background n c) rest := by
  induction fuel generalizing c s n with
  | zero => exact rfl
  | succ fuel ih =>
    cases n with
    | zero =>
      refine sees_no (by decide) (fun b hb => ?_) fun t ht => ⟨rfl, ht.trans h⟩
      rw [List.mem_singleton.mp hb, h]
      exact hrest
    | succ n =>
      have hs : tokens s = .sym '&' :: (ampersands n ++ rest) := h
      refine sees_yes (by decide) (List.mem_singleton.mpr rfl) (first_of_eq_cons hs) fun t ht => ?_
      obtain ⟨-, -, hnext, -⟩ := gettoken_spec (ht.trans hs)
      exact token_ensures (ih hnext)

theorem follows_ampersands (h : Level.line.Follows rest ∨ ∃ us, rest = .sym ';' :: us) :
    Level.pipe.Follows (ampersands n ++ rest) ∧ first rest ≠ some '&' := by
  have h1 : Level.pipe.Follows rest ∧ first rest ≠ some '&' := by
    obtain h | ⟨us, rfl⟩ := h
    · refine ⟨?_, h.first_ne (by decide)⟩
      obtain h | ⟨b, hb, hf⟩ := h
      · exact .inl h
      · exact .inr ⟨b, List.mem_cons_of_mem _ (List.mem_cons_of_mem _ hb), hf⟩
    · exact ⟨.sym (by decide), fun e => by cases e⟩
  refine ⟨?_, h1.2⟩
  cases n with
  | zero => exact h1.1
  | succ n => exact .sym (by decide)

theorem block_finds (h : tokens s = .sym '(' :: (ts ++ .sym ')' :: (redirLexemes rs ++ rest)))
    (hrest : Level.command.Follows rest)
    (hline : ∀ s, tokens s = ts ++ .sym ')' :: (redirLexemes rs ++ rest) →
      Finds (parseline fuel s) c (.sym ')' :: (redirLexemes rs ++ rest))) :
    Finds (parseblock (fuel + 1) s) (redirect c rs) rest := by
  rw [parseblock]
  refine sees_yes (by decide) (List.mem_singleton.mpr rfl) (first_of_eq_cons h) fun t ht => ?_
  obtain ⟨-, -, hnext, -⟩ := gettoken_spec (ht.trans h)
  refine token_ensures (Ensures.bind (hline _ hnext) ?_)
  rintro _ u ⟨rfl, hu⟩
  refine sees_yes (by decide) (List.mem_singleton.mpr rfl) (first_of_eq_cons hu) fun v hv => ?_
  obtain ⟨-, -, hnext', -⟩ := gettoken_spec (hv.trans hu)
  exact token_ensures (redirs_finds hnext' hrest.not_op)

/-- what the grammar derives is found -/
theorem parser_finds (hp : Parses l ts c) (h : tokens s = ts ++ rest) (hrest : l.Follows rest) :
    Finds (l.parser fuel s) c rest := by
  induction hp generalizing fuel s rest with
  | simple rs as hmax =>
    cases fuel with
    | zero => exact rfl
    | succ fuel =>
      show Finds (parseexec (fuel + 1) s) _ _
      rw [parseexec]
      rw [List.append_assoc] at h
      have hop := first_args as hrest.not_op
      refine sees_no (by decide) (fun b hb => ?_) fun t ht => ?_
      · obtain rfl := List.mem_singleton.mp hb
        rw [h]
        cases rs with
        | nil =>
          cases as with
          | nil => exact hrest.first_ne (by decide)
          | cons a as => exact fun e => by cases e
        | cons r rs =>
          obtain ⟨op, w⟩ := r
          cases op <;> exact fun e => by cases e
      · refine Ensures.bind (redirs_finds (ht.trans h) hop) ?_
        rintro _ u ⟨rfl, hu⟩
        exact args_finds (show 0 = ([] : List Word).length from rfl) (by omega) hu hrest
  | block rs _ ih =>
    cases fuel with
    | zero => exact rfl
    | succ fuel =>
      show Finds (parseexec (fuel + 1) s) _ _
      rw [parseexec]
      rw [List.cons_append, List.append_assoc, List.cons_append] at h
      refine sees_yes (by decide) (List.mem_singleton.mpr rfl) (first_of_eq_cons h) fun t ht => ?_
      cases fuel with
      | zero => exact rfl
      | succ fuel =>
        exact block_finds (ht.trans h) hrest fun s hs => ih hs (.sym (by decide))
  | stage _ ih =>
    cases fuel with
    | zero => exact rfl
    | succ fuel =>
      show Finds (parsepipe (fuel + 1) s) _ _
      rw [parsepipe]
      refine Ensures.bind (ih h hrest.command) ?_
      rintro _ u ⟨rfl, hu⟩
      refine sees_no (by decide) (fun b hb => ?_) fun t ht => ⟨rfl, ht.trans hu⟩
      rw [List.mem_singleton.mp hb, hu]
      exact hrest.first_ne (by decide)
  | pipe _ _ ih ih' =>
    cases fuel with
    | zero => exact rfl
    | succ fuel =>
      show Finds (parsepipe (fuel + 1) s) _ _
      rw [parsepipe]
      rw [List.append_assoc, List.cons_append] at h
      refine Ensures.bind (ih h (.sym (by decide))) ?_
      rintro _ u ⟨rfl, hu⟩
      refine sees_yes (by decide) (List.mem_singleton.mpr rfl) (first_of_eq_cons hu) fun t ht => ?_
      obtain ⟨-, -, hnext, -⟩ := gettoken_spec (ht.trans hu)
      refine token_ensures (Ensures.bind (ih' hnext hrest) ?_)
      rintro _ v ⟨rfl, hv⟩
      exact ⟨rfl, hv⟩
  | last n _ ih =>
    cases fuel with
    | zero => exact rfl
    | succ fuel =>
      show Finds (parseline (fuel + 1) s) _ _
      rw [parseline]
      rw [List.append_assoc] at h
      obtain ⟨hpipe, hamp⟩ := follows_ampersands (n := n) (.inl hrest)
      refine Ensures.bind (ih h hpipe) ?_
      rintro _ u ⟨rfl, hu⟩
      refine Ensures.bind (back_finds hu hamp) ?_
      rintro _ v ⟨rfl, hv⟩
      refine sees_no (by decide) (fun b hb => ?_) fun t ht => ⟨rfl, ht.trans hv⟩
      rw [List.mem_singleton.mp hb, hv]
      exact hrest.first_ne (by decide)
  | list n _ _ ih ih' =>
    cases fuel with
    | zero => exact rfl
    | succ fuel =>
      show Finds (parseline (fuel + 1) s) _ _
      rw [parseline]
      rw [List.append_assoc, List.append_assoc, List.cons_append] at h
      obtain ⟨hpipe, hamp⟩ := follows_ampersands (n := n) (.inr ⟨_, rfl⟩)
      refine Ensures.bind (ih h hpipe) ?_
      rintro _ u ⟨rfl, hu⟩
      refine Ensures.bind (back_finds hu hamp) ?_
      rintro _ v ⟨rfl, hv⟩
      refine sees_yes (by decide) (List.mem_singleton.mpr rfl) (first_of_eq_cons hv) fun t ht => ?_
      obtain ⟨-, -, hnext, -⟩ := gettoken_spec (ht.trans hv)
      refine token_ensures (Ensures.bind (ih' hnext hrest) ?_)
      rintro _ w ⟨rfl, hw⟩
      exact ⟨rfl, hw⟩

end

end Sh
