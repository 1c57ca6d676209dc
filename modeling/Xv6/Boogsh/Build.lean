import Xv6.Boogsh.Parse
import Xv6.Ulib.Token

/-!
# The array that `parse_and_run_cmd` builds

Two calls of `next_token` go through one line: the outer one cuts it at `|`, and for each piece the
inner one cuts the piece at blanks.  The pointers to the words go into arrays from `malloc`, which
hold whatever was there before (`Prior`); `tokens` has as many places as the piece has bytes, and
`cmds` is copied to an array of twice the size when one more entry would fill it.  An index outside
its array is a `fault`.

`parseStages` is what the loops make of the words alone; `build_spec` is that they agree.
-/

namespace Boogsh
open Ulib

/-! ## the model -/

/-- a `char *` in memory: NULL, a position of the line, or any other value -/
inductive Word where
  | null
  | line (p : Nat)
  | stale (v : Nat)
  deriving DecidableEq, Repr

/-- `struct command` in memory; `tokens` is the array that the field points to -/
structure RawCommand where
  tokens : List Word
  stdoutPipe : Bool
  append : Bool
  stdoutFile : Word
  stdinFile : Word
  tokenCount : Nat
  deriving DecidableEq, Repr

/-- what the memory from `malloc` holds: in the arrays for `cmds`, and in those for `tokens` -/
structure Prior where
  command : Nat → Nat → RawCommand
  word : Nat → Nat → Word

inductive Stop where
  | panic
  | fault
  deriving DecidableEq, Repr

/-- the array `cmds` with its counters; `grown` counts the copies that were made -/
structure Cmds where
  cap : Nat
  sz : Nat
  cmds : List RawCommand
  grown : Nat
  deriving DecidableEq, Repr

/-- the loop over the words of a piece, with `curr_tok_idx`; a loop ends before its fuel does -/
def wordLoop : Nat → Str → Option Nat → Bool → Bool → Nat → RawCommand →
    Except Stop (Str × RawCommand)
  | 0, _, _, _, _, _, _ => .error .fault
  | fuel + 1, buf, tok, foundIn, foundOut, idx, cmd =>
    match nextTokenAt buf tok " ".toList with
    | none => .error .fault
    | some (buf, _, none) => .ok (buf, { cmd with tokenCount := idx })
    | some (buf, tok, some part) =>
      if cstr (buf.drop part) = ">".toList then
        match nextTokenAt buf tok " ".toList with
        | none => .error .fault
        | some (_, _, none) => .error .panic
        | some (buf, tok, some file) =>
          wordLoop fuel buf tok foundIn true idx
            { cmd with
              stdinFile := if foundIn then cmd.stdinFile else .null
              stdoutPipe := false
              stdoutFile := .line file }
      else if cstr (buf.drop part) = "<".toList then
        match nextTokenAt buf tok " ".toList with
        | none => .error .fault
        | some (_, _, none) => .error .panic
        | some (buf, tok, some file) =>
          wordLoop fuel buf tok true foundOut idx
            { cmd with
              stdoutFile := if foundOut then cmd.stdoutFile else .null
              stdoutPipe := false
              stdinFile := .line file }
      else if cstr (buf.drop part) = ">>".toList then
        match nextTokenAt buf tok " ".toList with
        | none => .error .fault
        | some (_, _, none) => .error .panic
        | some (buf, tok, some file) =>
          wordLoop fuel buf tok foundIn foundOut idx
            { cmd with
              stdinFile := if foundIn then cmd.stdinFile else .null
              stdoutPipe := false
              stdoutFile := .line file
              append := true }
      else if idx < cmd.tokens.length then
        wordLoop fuel buf tok foundIn foundOut (idx + 1)
          { cmd with tokens := cmd.tokens.set idx (.line part) }
      else .error .fault

/-- `malloc(cap * sizeof(struct command))` -/
def freshCmds (prior : Prior) (k cap : Nat) : List RawCommand :=
  (List.range cap).map (prior.command k)

/-- `cap *= 2` and the copy -/
def grow (prior : Prior) (m : Cmds) : Except Stop Cmds :=
  if m.sz = m.cap - 1 then
    if m.sz ≤ m.cmds.length ∧ m.sz ≤ m.cap * 2 then
      .ok { m with
        cap := m.cap * 2
        cmds := m.cmds.take m.sz ++ (freshCmds prior (m.grown + 1) (m.cap * 2)).drop m.sz
        grown := m.grown + 1 }
    else .error .fault
  else .ok m

/-- a new command, with an array of `strlen(tok)` pointers -/
def openCommand (prior : Prior) (k len : Nat) (cmd : RawCommand) : RawCommand :=
  { cmd with
    tokens := (List.range len).map (prior.word k)
    stdinFile := .null
    stdoutFile := .null
    stdoutPipe := true
    append := false }

/-- the loop over the pieces of the line -/
def cmdLoop (prior : Prior) : Nat → Str → Option Nat → Cmds → Except Stop (Str × Cmds)
  | 0, _, _, _ => .error .fault
  | fuel + 1, buf, s, m =>
    match nextTokenAt buf s "|".toList with
    | none => .error .fault
    | some (buf, _, none) => .ok (buf, m)
    | some (buf, s, some tok) =>
      match grow prior m with
      | .error e => .error e
      | .ok m =>
        match m.cmds[m.sz]? with
        | none => .error .fault
        | some cmd =>
          match wordLoop buf.length buf (some tok) false false 0
            (openCommand prior m.sz (cstr (buf.drop tok)).length cmd) with
          | .error e => .error e
          | .ok (buf, cmd) =>
            cmdLoop prior fuel buf s { m with cmds := m.cmds.set m.sz cmd, sz := m.sz + 1 }

/-- the loops of `parse_and_run_cmd` on the line in `buf` -/
def build (prior : Prior) (buf : Str) : Except Stop (Str × Cmds) :=
  cmdLoop prior buf.length buf (some 0) ⟨2, 0, freshCmds prior 0 2, 0⟩

/-! ## the tokens of a string -/

/-- `l` are the tokens that `next_token` finds from here on -/
inductive Tokens (delim : Str) : Option Str → List Str → Prop
  | done {r : Option Str} : nextToken r delim = (none, none) → Tokens delim r []
  | next {r r' : Option Str} {t : Str} {l : List Str} :
      nextToken r delim = (some t, r') → Tokens delim r' l → Tokens delim r (t :: l)

section
variable {delim s t : Str} {r r' : Option Str} {l : List Str}

theorem nextToken_done (r : Option Str) (delim : Str) :
    (nextToken r delim).1 = none → nextToken r delim = (none, none) := by
  intro h
  cases r with
  | none => rfl
  | some s =>
    unfold nextToken at h ⊢
    dsimp only at h ⊢
    split
    · rfl
    · rename_i h1
      rw [if_neg h1] at h
      split at h
      · exact absurd h (by simp)
      · exact absurd h (by simp)

theorem nextToken_length (h : nextToken (some s) delim = (some t, r')) :
    t ≠ [] ∧ t.length ≤ s.length ∧ ∀ s', r' = some s' → t.length + 1 + s'.length ≤ s.length := by
  obtain ⟨hne, -, a, -, ⟨rfl, rfl⟩ | ⟨c, w, -, rfl, rfl⟩⟩ := nextToken_some h
  · refine ⟨hne, ?_, fun s' e => absurd e (by simp)⟩
    rw [List.length_append]
    exact Nat.le_add_left _ _
  · rw [List.length_append, List.length_append, List.length_cons]
    refine ⟨hne, by omega, fun s' e => ?_⟩
    rw [← Option.some.inj e]
    omega

/-- between two tokens stands a byte at least -/
theorem Tokens.length_le (h : Tokens delim (some s) l) : 2 * l.length ≤ s.length + 1 := by
  generalize hr : some s = r at h
  induction h generalizing s with
  | done _ => exact Nat.zero_le _
  | @next r r' t l hn ht ih =>
    subst hr
    obtain ⟨h1, h2, h3⟩ := nextToken_length hn
    have hpos := List.length_pos_iff.mpr h1
    rw [List.length_cons]
    cases r' with
    | none =>
      cases ht with
      | done _ =>
        rw [List.length_nil]
        omega
      | next hn' _ => exact absurd hn' (by simp [nextToken])
    | some s' =>
      have := ih rfl
      have := h3 s' rfl
      omega

theorem tokens_tokensFrom {fuel : Nat} (hr : ∀ s, r = some s → s.length < fuel) (hf : 0 < fuel) :
    Tokens delim r (tokensFrom delim fuel r) := by
  induction fuel generalizing r with
  | zero => exact absurd hf (Nat.lt_irrefl 0)
  | succ fuel ih =>
    unfold tokensFrom
    split
    · rename_i p h
      exact .done (nextToken_done r delim (congrArg Prod.fst h))
    · rename_i tok p h
      refine .next h ?_
      cases r with
      | none => exact absurd h (by simp [nextToken])
      | some s =>
        have hs := hr s rfl
        obtain ⟨h1, h2, h3⟩ := nextToken_length h
        have hpos := List.length_pos_iff.mpr h1
        exact ih (fun s' e => by have := h3 s' e; omega) (by omega)

theorem tokens_tokenList (delim s : Str) : Tokens delim (some s) (tokenList delim s) :=
  tokens_tokensFrom (fun s' e => by rw [Option.some.inj e]; exact Nat.lt_succ_self _)
    (Nat.succ_pos _)

theorem Tokens.cut {buf : Str} {hi : Nat} {c : Option Nat} (h : Tokens delim r (t :: l))
    (hc : Cursor buf hi c r) : ∃ r' q buf' c', nextTokenAt buf c delim = some (buf', c', some q) ∧
      c ≠ none ∧ Cursor buf' hi c' r' ∧ Token buf buf' hi c c' q t ∧ Tokens delim r' l := by
  cases h with
  | next hn ht =>
    rcases nextTokenAt_spec delim hc with ⟨e, -⟩ | ⟨t1, r1, q, buf', c', e, e', hc', htok⟩
    · exact absurd (e.symm.trans hn) (by simp)
    · obtain ⟨e1, rfl⟩ := Prod.mk.inj (e.symm.trans hn)
      obtain rfl := Option.some.inj e1
      refine ⟨r1, q, buf', c', e', ?_, hc', htok, ht⟩
      rintro rfl
      exact absurd e' (by simp [nextTokenAt])

theorem Tokens.cut_nil {buf : Str} {hi : Nat} {c : Option Nat} (h : Tokens delim r [])
    (hc : Cursor buf hi c r) : nextTokenAt buf c delim = some (buf, none, none) := by
  cases h with
  | done hn =>
    rcases nextTokenAt_spec delim hc with ⟨-, e⟩ | ⟨t1, r1, q, buf', c', e, -⟩
    · exact e
    · exact absurd (e.symm.trans hn) (by simp)

end

/-! ## a command in memory -/

/-- the pointer `w` stands for the string, as far as there is one -/
def Names (P : Nat → Str → Prop) : Word → Option Str → Prop
  | .null, none => True
  | .line q, some t => P q t
  | _, _ => False

/-- the command in memory stands for `cmd`; `P` is what holds of its pointers -/
structure Stands (P : Nat → Str → Prop) (idx : Nat) (e : RawCommand) (cmd : Command) : Prop where
  count : idx = cmd.tokens.length
  tokens : ∀ (i : Nat) t, cmd.tokens[i]? = some t → ∃ q, e.tokens[i]? = some (.line q) ∧ P q t
  stdoutPipe : e.stdoutPipe = cmd.stdoutPipe
  append : e.append = cmd.append
  stdoutFile : Names P e.stdoutFile cmd.stdoutFile
  stdinFile : Names P e.stdinFile cmd.stdinFile

/-- the string is at the position, and the cursor has passed it -/
def Placed (buf : Str) (hi : Nat) (c : Option Nat) (q : Nat) (t : Str) : Prop :=
  StrAt buf q t ∧ Behind c q t ∧ q + t.length ≤ hi

section
variable {P P' : Nat → Str → Prop} {e : RawCommand} {cmd : Command} {idx hi : Nat}
  {buf buf' : Str} {c c' : Option Nat} {q : Nat} {t : Str}

theorem Names.mono (hP : ∀ q t, P q t → P' q t) {w : Word} {r : Option Str} (h : Names P w r) :
    Names P' w r := by
  cases w with
  | null => cases r with
    | none => trivial
    | some t => exact absurd h id
  | line q => cases r with
    | none => exact absurd h id
    | some t => exact hP q t h
  | stale v => exact absurd h (by cases r <;> exact id)

theorem Names.keep {w : Word} {r : Option Str} (h : Names P w r) (b : Bool) :
    Names P (if b then w else .null) (if b then r else none) := by
  cases b with
  | false => trivial
  | true => exact h

theorem Stands.mono (hP : ∀ q t, P q t → P' q t) (h : Stands P idx e cmd) :
    Stands P' idx e cmd where
  count := h.count
  tokens := by
    intro i t hi
    obtain ⟨q, h1, h2⟩ := h.tokens i t hi
    exact ⟨q, h1, hP q t h2⟩
  stdoutPipe := h.stdoutPipe
  append := h.append
  stdoutFile := h.stdoutFile.mono hP
  stdinFile := h.stdinFile.mono hP

theorem Placed.step (hc : c ≠ none) (ht : Token buf buf' hi c c' q t) {q0 : Nat} {t0 : Str}
    (h : Placed buf hi c q0 t0) : Placed buf' hi c' q0 t0 := by
  obtain ⟨h1, h2, h3⟩ := h
  refine ⟨ht.kept.strAt h1 h2, fun p' hp' => ?_, h3⟩
  obtain ⟨p, hp, hle⟩ := ht.mono hc p' hp'
  exact (h2 p hp).trans_le hle

theorem placed_token (ht : Token buf buf' hi c c' q t) : Placed buf' hi c' q t :=
  ⟨ht.at_, ht.behind, ht.le⟩

theorem Stands.push (h : Stands P idx e cmd) (hq : P q t) (hlt : idx < e.tokens.length) :
    Stands P (idx + 1) { e with tokens := e.tokens.set idx (.line q) }
      { cmd with tokens := cmd.tokens ++ [t] } := by
  have hcount := h.count
  refine ⟨?_, fun i u hi => ?_, h.stdoutPipe, h.append, h.stdoutFile, h.stdinFile⟩
  · rw [List.length_append, hcount]
    rfl
  · by_cases e1 : i = idx
    · rw [e1, hcount] at hi
      obtain rfl : t = u := Option.some.inj (List.getElem?_concat_length.symm.trans hi)
      exact ⟨q, by rw [e1]; exact List.getElem?_set_self hlt, hq⟩
    · obtain ⟨hlen, -⟩ := List.getElem?_eq_some_iff.mp hi
      rw [List.length_append, List.length_singleton] at hlen
      rw [List.getElem?_append_left (by omega)] at hi
      obtain ⟨q', h1, h2⟩ := h.tokens i u hi
      exact ⟨q', by rw [← h1]; exact List.getElem?_set_ne (Ne.symm e1), h2⟩

/-- what the loop over the words of a piece leaves in its command -/
structure Filled (buf buf' : Str) (hi : Nat) (c : Option Nat) (e e' : RawCommand)
    (cmd' : Command) : Prop where
  kept : Kept c hi buf buf'
  stands : Stands (Placed buf' hi none) e'.tokenCount e' cmd'
  length : e'.tokens.length = e.tokens.length
  rest : ∀ i, e'.tokenCount ≤ i → e'.tokens[i]? = e.tokens[i]?

theorem Filled.step {buf'' : Str} {e1 e' : RawCommand} {cmd' : Command} (hc : c ≠ none)
    (ht : Token buf buf' hi c c' q t) (h : Filled buf' buf'' hi c' e1 e' cmd')
    (hlen : e1.tokens.length = e.tokens.length)
    (hrest : ∀ i, e'.tokenCount ≤ i → e1.tokens[i]? = e.tokens[i]?) :
    Filled buf buf'' hi c e e' cmd' where
  kept := ht.kept.trans h.kept (ht.mono hc)
  stands := h.stands
  length := h.length.trans hlen
  rest := fun i hi => (h.rest i hi).trans (hrest i hi)

theorem commandWords_op {w v : Str} (h : isOp w = true) (rest : List Str) :
    commandWords (w :: v :: rest) = commandWords rest := by
  show (if isOp w then commandWords rest else w :: commandWords (v :: rest)) = _
  rw [if_pos h]

/-- an operator without a file -/
theorem wordLoop_panic {fuel : Nat} {r : Option Str} {fi fo : Bool} {part : Str}
    (hc : Cursor buf hi c r) (ht : Tokens " ".toList r [part]) (hop : isOp part = true) :
    wordLoop (fuel + 1) buf c fi fo idx e = .error .panic := by
  obtain ⟨r1, q, buf1, c1, h1, -, hc1, htok, ht1⟩ := ht.cut hc
  have hs := htok.at_
  have h2 := ht1.cut_nil hc1
  rw [wordLoop, h1]
  dsimp only
  rw [hs.cstr_drop, h2]
  dsimp only
  split
  · rfl
  · rename_i e1
    split
    · rfl
    · rename_i e2
      split
      · rfl
      · rename_i e3
        exact absurd (hop.symm.trans (isOp_eq_false e1 e2 e3)) (by simp)

theorem Filled.file {fuel : Nat} {r : Option Str} {ws : List Str} {fi fo : Bool} {part file : Str}
    {cmd1 : Command} {result : Except Stop (Str × RawCommand)}
    (hc : Cursor buf hi c r) (ht : Tokens " ".toList r (part :: file :: ws))
    (hop : isOp part = true)
    (hst : Stands (Placed buf hi c) idx e cmd)
    (hroom : idx + (commandWords (part :: file :: ws)).length ≤ e.tokens.length)
    (hstep : ∀ buf1 c1 q buf2 c2 q2, nextTokenAt buf c " ".toList = some (buf1, c1, some q) →
      StrAt buf1 q part → nextTokenAt buf1 c1 " ".toList = some (buf2, c2, some q2) →
      ∃ e1 : RawCommand, e1.tokens = e.tokens ∧
        (Placed buf2 hi c2 q2 file → Stands (Placed buf2 hi c2) idx e cmd →
          Stands (Placed buf2 hi c2) idx e1 cmd1) ∧
        result = wordLoop fuel buf2 c2 fi fo idx e1)
    (ih : ∀ {e1 : RawCommand} {buf2 : Str} {c2 : Option Nat} {r2 : Option Str},
      Cursor buf2 hi c2 r2 → Tokens " ".toList r2 ws →
      Stands (Placed buf2 hi c2) idx e1 cmd1 → idx + (commandWords ws).length ≤ e1.tokens.length →
      match parseWords ws fi fo cmd1 with
      | none => wordLoop fuel buf2 c2 fi fo idx e1 = .error .panic
      | some cmd' => ∃ buf' e', wordLoop fuel buf2 c2 fi fo idx e1 = .ok (buf', e') ∧
          Filled buf2 buf' hi c2 e1 e' cmd') :
    match parseWords ws fi fo cmd1 with
    | none => result = .error .panic
    | some cmd' => ∃ buf' e', result = .ok (buf', e') ∧ Filled buf buf' hi c e e' cmd' := by
  obtain ⟨r1, q, buf1, c1, ecut, hne, hc1, htok, ht1⟩ := ht.cut hc
  obtain ⟨r2, q2, buf2, c2, ecut2, hne2, hc2, htok2, ht2⟩ := ht1.cut hc1
  obtain ⟨e1, etok, hmove, eloop⟩ := hstep buf1 c1 q buf2 c2 q2 ecut htok.at_ ecut2
  rw [commandWords_op hop] at hroom
  have hst2 : Stands (Placed buf2 hi c2) idx e cmd :=
    hst.mono (fun _ _ h => (h.step hne htok).step hne2 htok2)
  have hspec := ih hc2 ht2 (hmove (placed_token htok2) hst2) (by rw [etok]; exact hroom)
  rw [eloop]
  cases hp : parseWords ws fi fo cmd1 with
  | none =>
    rw [hp] at hspec
    exact hspec
  | some cmd' =>
    rw [hp] at hspec
    obtain ⟨buf', e', eloop', hf⟩ := hspec
    exact ⟨buf', e', eloop', (hf.step hne2 htok2 rfl (fun _ _ => rfl)).step hne htok
      (by rw [etok]) (fun _ _ => by rw [etok])⟩

/-- the loop over the words of a piece does what `parseWords` does -/
theorem wordLoop_spec (fi fo : Bool) {fuel : Nat} {r : Option Str} {ws : List Str}
    (hc : Cursor buf hi c r) (ht : Tokens " ".toList r ws) (hfuel : ws.length < fuel)
    (hst : Stands (Placed buf hi c) idx e cmd)
    (hroom : idx + (commandWords ws).length ≤ e.tokens.length) :
    match parseWords ws fi fo cmd with
    | none => wordLoop fuel buf c fi fo idx e = .error .panic
    | some cmd' => ∃ buf' e', wordLoop fuel buf c fi fo idx e = .ok (buf', e') ∧
        Filled buf buf' hi c e e' cmd' := by
  obtain ⟨fuel, rfl⟩ : ∃ k, fuel = k + 1 := ⟨fuel - 1, by omega⟩
  fun_induction parseWords ws fi fo cmd generalizing fuel buf c r idx e with
  | case1 fi fo cmd =>
    refine ⟨buf, { e with tokenCount := idx }, ?_, .refl _ _ _, ?_, rfl, fun _ _ => rfl⟩
    · rw [wordLoop, ht.cut_nil hc]
    · exact { hst.mono (fun q t h => ⟨h.1, fun p hp => absurd hp (by simp), h.2.2⟩) with }
  | case2 fi fo cmd => exact wordLoop_panic hc ht rfl
  | case3 fi fo cmd file rest ih =>
    rw [List.length_cons, List.length_cons] at hfuel
    obtain ⟨fuel, rfl⟩ : ∃ k, fuel = k + 1 := ⟨fuel - 1, by omega⟩
    refine Filled.file hc ht rfl hst hroom (fun buf1 c1 q buf2 c2 q2 e1 hs e2 => ?_)
      (fun hc2 ht2 hst2 hroom2 => ih hc2 ht2 hst2 hroom2 fuel (by omega))
    refine ⟨{ e with
      stdinFile := if fi then e.stdinFile else .null
      stdoutPipe := false
      stdoutFile := .line q2 }, rfl, fun hq h => { h with
      stdoutPipe := rfl
      stdoutFile := hq
      stdinFile := h.stdinFile.keep fi }, ?_⟩
    rw [wordLoop, e1]
    dsimp only
    rw [hs.cstr_drop, if_pos rfl, e2]
  | case4 fi fo cmd => exact wordLoop_panic hc ht rfl
  | case5 fi fo cmd file rest hne ih =>
    rw [List.length_cons, List.length_cons] at hfuel
    obtain ⟨fuel, rfl⟩ : ∃ k, fuel = k + 1 := ⟨fuel - 1, by omega⟩
    refine Filled.file hc ht rfl hst hroom (fun buf1 c1 q buf2 c2 q2 e1 hs e2 => ?_)
      (fun hc2 ht2 hst2 hroom2 => ih hc2 ht2 hst2 hroom2 fuel (by omega))
    refine ⟨{ e with
      stdoutFile := if fo then e.stdoutFile else .null
      stdoutPipe := false
      stdinFile := .line q2 }, rfl, fun hq h => { h with
      stdoutPipe := rfl
      stdinFile := hq
      stdoutFile := h.stdoutFile.keep fo }, ?_⟩
    rw [wordLoop, e1]
    dsimp only
    rw [hs.cstr_drop, if_neg hne, if_pos rfl, e2]
  | case6 fi fo cmd => exact wordLoop_panic hc ht rfl
  | case7 fi fo cmd file rest hne1 hne2 ih =>
    rw [List.length_cons, List.length_cons] at hfuel
    obtain ⟨fuel, rfl⟩ : ∃ k, fuel = k + 1 := ⟨fuel - 1, by omega⟩
    refine Filled.file hc ht rfl hst hroom (fun buf1 c1 q buf2 c2 q2 e1 hs e2 => ?_)
      (fun hc2 ht2 hst2 hroom2 => ih hc2 ht2 hst2 hroom2 fuel (by omega))
    refine ⟨{ e with
      stdinFile := if fi then e.stdinFile else .null
      stdoutPipe := false
      stdoutFile := .line q2
      append := true }, rfl, fun hq h => { h with
      stdoutPipe := rfl
      append := rfl
      stdoutFile := hq
      stdinFile := h.stdinFile.keep fi }, ?_⟩
    rw [wordLoop, e1]
    dsimp only
    rw [hs.cstr_drop, if_neg hne1, if_neg hne2, if_pos rfl, e2]
  | case8 part rest fi fo cmd h1 h2 h3 ih =>
    obtain ⟨r1, q, buf1, c1, ecut, hne, hc1, htok, ht1⟩ := ht.cut hc
    rw [commandWords_cons (isOp_eq_false h1 h2 h3), List.length_cons] at hroom
    rw [List.length_cons] at hfuel
    obtain ⟨fuel, rfl⟩ : ∃ k, fuel = k + 1 := ⟨fuel - 1, by omega⟩
    have hstep : wordLoop (fuel + 1 + 1) buf c fi fo idx e = wordLoop (fuel + 1) buf1 c1 fi fo
        (idx + 1) { e with tokens := e.tokens.set idx (.line q) } := by
      rw [wordLoop, ecut]
      dsimp only
      rw [htok.at_.cstr_drop, if_neg h1, if_neg h2, if_neg h3, if_pos (by omega)]
    have hspec := ih hc1 ht1 ((hst.mono (fun _ _ h => h.step hne htok)).push
      (placed_token htok) (by omega)) (by rw [List.length_set]; omega) fuel (by omega)
    rw [hstep]
    cases hp : parseWords rest fi fo { cmd with tokens := cmd.tokens ++ [part] } with
    | none =>
      rw [hp] at hspec
      exact hspec
    | some cmd' =>
      rw [hp] at hspec
      obtain ⟨buf', e', eloop, hf⟩ := hspec
      refine ⟨buf', e', eloop, hf.step hne htok List.length_set fun i hi => ?_⟩
      have hcount := hf.stands.count
      rw [parseWords_tokens hp, List.length_append, List.length_append, ← hst.count,
        List.length_singleton] at hcount
      exact List.getElem?_set_ne (by omega)

end

/-! ## the array -/

/-- the command of a piece; behind its words, its array holds what was there before -/
structure CommandAt (prior : Prior) (P : Nat → Str → Prop) (k : Nat) (piece : Str) (e : RawCommand)
    (cmd : Command) : Prop where
  stands : Stands P e.tokenCount e cmd
  length : e.tokens.length = piece.length
  rest : ∀ i, e.tokenCount ≤ i → i < piece.length → e.tokens[i]? = some (prior.word k i)

/-- the array holds the commands of the pieces so far, and has a place for one more -/
structure Gathered (prior : Prior) (P : Nat → Str → Prop) (pieces : List Str) (cmds : List Command)
    (m : Cmds) : Prop where
  sz : m.sz = pieces.length
  length : cmds.length = pieces.length
  room : m.sz < m.cap
  cap : m.cmds.length = m.cap
  commands : ∀ (k : Nat) piece cmd, pieces[k]? = some piece → cmds[k]? = some cmd →
    ∃ e, m.cmds[k]? = some e ∧ CommandAt prior P k piece e cmd

section
variable {prior : Prior} {P P' : Nat → Str → Prop} {pieces : List Str} {cmds : List Command}
  {m : Cmds} {buf buf' : Str} {s s' : Option Nat} {q hi : Nat}

theorem Gathered.mono (hP : ∀ q t, P q t → P' q t) (h : Gathered prior P pieces cmds m) :
    Gathered prior P' pieces cmds m := by
  refine ⟨h.sz, h.length, h.room, h.cap, fun k piece cmd h1 h2 => ?_⟩
  obtain ⟨e, he, hc⟩ := h.commands k piece cmd h1 h2
  exact ⟨e, he, hc.stands.mono hP, hc.length, hc.rest⟩

theorem commandWords_length (words : List Str) : (commandWords words).length ≤ words.length := by
  fun_induction commandWords words with
  | case1 => exact Nat.le_refl _
  | case2 | case3 => simp
  | case4 w v rest h ih =>
    rw [List.length_cons, List.length_cons]
    omega
  | case5 w v rest h ih => exact Nat.succ_le_succ ih

theorem words_length (piece : Str) (hne : piece ≠ []) :
    (commandWords (tokenList " ".toList piece)).length ≤ piece.length := by
  have h1 := commandWords_length (tokenList " ".toList piece)
  have h2 := (tokens_tokenList " ".toList piece).length_le
  have h3 := List.length_pos_iff.mpr hne
  omega

/-- after `grow` there is a place for the next command and one more -/
theorem grow_spec (h : Gathered prior P pieces cmds m) : ∃ m', grow prior m = .ok m' ∧
    Gathered prior P pieces cmds m' ∧ m'.sz + 1 < m'.cap := by
  have hroom := h.room
  have hcap := h.cap
  unfold grow
  by_cases hg : m.sz = m.cap - 1
  · rw [if_pos hg, if_pos (by omega)]
    refine ⟨_, rfl, ⟨h.sz, h.length, ?_, ?_, fun k piece cmd h1 h2 => ?_⟩, ?_⟩
    · show m.sz < m.cap * 2
      omega
    · show (m.cmds.take m.sz ++ (freshCmds prior (m.grown + 1) (m.cap * 2)).drop m.sz).length
        = m.cap * 2
      unfold freshCmds
      rw [List.length_append, List.length_take, List.length_drop, List.length_map,
        List.length_range]
      omega
    · obtain ⟨e, he, hc⟩ := h.commands k piece cmd h1 h2
      obtain ⟨hk, -⟩ := List.getElem?_eq_some_iff.mp h1
      rw [← h.sz] at hk
      refine ⟨e, ?_, hc⟩
      show (m.cmds.take m.sz ++ _)[k]? = some e
      rw [List.getElem?_append_left (by rw [List.length_take]; omega), List.getElem?_take_of_lt hk,
        he]
    · show m.sz + 1 < m.cap * 2
      omega
  · rw [if_neg hg]
    exact ⟨m, rfl, h, by omega⟩

theorem Gathered.push {piece : Str} {e : RawCommand} {cmd : Command}
    (h : Gathered prior P pieces cmds m) (hroom : m.sz + 1 < m.cap)
    (hc : CommandAt prior P m.sz piece e cmd) :
    Gathered prior P (pieces ++ [piece]) (cmds ++ [cmd])
      { m with cmds := m.cmds.set m.sz e, sz := m.sz + 1 } := by
  have hsz := h.sz
  have hlen := h.length
  have hcap := h.cap
  refine ⟨?_, ?_, hroom, List.length_set.trans hcap, fun k p c h1 h2 => ?_⟩
  · rw [List.length_append, hsz]
    rfl
  · rw [List.length_append, List.length_append, hlen]
    rfl
  · by_cases ek : k = m.sz
    · rw [ek, hsz] at h1
      rw [ek, hsz, ← hlen] at h2
      obtain rfl : piece = p := Option.some.inj (List.getElem?_concat_length.symm.trans h1)
      obtain rfl : cmd = c := Option.some.inj (List.getElem?_concat_length.symm.trans h2)
      exact ⟨e, by rw [ek]; exact List.getElem?_set_self (by omega), ek ▸ hc⟩
    · obtain ⟨hk, -⟩ := List.getElem?_eq_some_iff.mp h1
      rw [List.length_append, List.length_singleton] at hk
      rw [List.getElem?_append_left (by omega)] at h1 h2
      obtain ⟨e', he, hc'⟩ := h.commands k p c h1 h2
      exact ⟨e', by rw [← he]; exact List.getElem?_set_ne (Ne.symm ek), hc'⟩

theorem Placed.piece {piece : Str} {buf1 : Str} {q0 : Nat} {t0 : Str} (hne : s ≠ none)
    (ht : Token buf buf1 hi s s' q piece) (hk : Kept (some q) (q + piece.length) buf1 buf')
    (h : Placed buf hi s q0 t0) : Placed buf' hi s' q0 t0 := by
  obtain ⟨p, rfl⟩ := Option.ne_none_iff_exists'.mp hne
  have h1 := h.2.1 p rfl
  have h2 := ht.from_ p rfl
  obtain ⟨hs, hb, hle⟩ := h.step hne ht
  refine ⟨hk.strAt hs fun p' hp' => ?_, hb, hle⟩
  rw [← Option.some.inj hp']
  omega

/-- the cursor of the line stands behind the piece -/
theorem cursor_piece {piece : Str} {buf1 : Str} {r : Option Str}
    (ht : Token buf buf1 hi s s' q piece) (hk : Kept (some q) (q + piece.length) buf1 buf')
    (hc : Cursor buf1 hi s' r) : Cursor buf' hi s' r := by
  cases s' with
  | none =>
    cases r with
    | none => trivial
    | some w => exact absurd hc id
  | some p =>
    cases r with
    | none => exact absurd hc id
    | some w => exact ⟨hk.strAt_after hc.1 (Nat.le_of_lt (ht.behind p rfl)), hc.2⟩

/-- the command of one piece, from the piece in the buffer to its words -/
theorem piece_spec (prior : Prior) {piece : Str} (k : Nat) (e : RawCommand) (hne : piece ≠ [])
    (hs : StrAt buf q piece) :
    match parseStage (tokenList " ".toList piece) with
    | none => wordLoop buf.length buf (some q) false false 0
        (openCommand prior k piece.length e) = .error .panic
    | some cmd => ∃ buf' e', wordLoop buf.length buf (some q) false false 0
        (openCommand prior k piece.length e) = .ok (buf', e') ∧
        Kept (some q) (q + piece.length) buf buf' ∧
        CommandAt prior (Placed buf' (q + piece.length) none) k piece e' cmd := by
  have hws := (tokens_tokenList " ".toList piece).length_le
  have hlt := hs.lt_length
  have hpos := List.length_pos_iff.mpr hne
  have hlen : (openCommand prior k piece.length e).tokens.length = piece.length := by
    show ((List.range piece.length).map (prior.word k)).length = piece.length
    rw [List.length_map, List.length_range]
  have hst : Stands (Placed buf (q + piece.length) (some q)) 0 (openCommand prior k piece.length e)
      ⟨[], true, false, none, none⟩ :=
    ⟨rfl, fun i t h => absurd h (by simp), rfl, rfl, trivial, trivial⟩
  have hc : Cursor buf (q + piece.length) (some q) (some piece) := ⟨hs, rfl⟩
  have hfuel : (tokenList " ".toList piece).length < buf.length := by omega
  have hroom : 0 + (commandWords (tokenList " ".toList piece)).length
      ≤ (openCommand prior k piece.length e).tokens.length := by
    rw [hlen, Nat.zero_add]
    exact words_length piece hne
  have hspec := wordLoop_spec false false hc (tokens_tokenList " ".toList piece) hfuel hst hroom
  unfold parseStage
  cases hp : parseWords (tokenList " ".toList piece) false false ⟨[], true, false, none, none⟩ with
  | none =>
    rw [hp] at hspec
    exact hspec
  | some cmd =>
    rw [hp] at hspec
    obtain ⟨buf', e', eloop, hf⟩ := hspec
    refine ⟨buf', e', eloop, hf.kept, hf.stands, hf.length.trans hlen, fun i h1 h2 => ?_⟩
    rw [hf.rest i h1]
    show ((List.range piece.length).map (prior.word k))[i]? = _
    rw [List.getElem?_map, List.getElem?_range h2]
    rfl

theorem parseStages_cons (words : List Str) (l : List (List Str)) :
    parseStages (words :: l) = match parseStage words, parseStages l with
      | some cmd, some cmds => some (cmd :: cmds)
      | _, _ => none := rfl

/-- the loop over the pieces does what `parseStages` does -/
theorem cmdLoop_spec {fuel : Nat} {r : Option Str} {l : List Str} (hc : Cursor buf hi s r)
    (ht : Tokens "|".toList r l) (hfuel : l.length < fuel)
    (hl : Gathered prior (Placed buf hi s) pieces cmds m) :
    match parseStages (l.map (tokenList " ".toList)) with
    | none => cmdLoop prior fuel buf s m = .error .panic
    | some cs => ∃ buf' m', cmdLoop prior fuel buf s m = .ok (buf', m') ∧
        Gathered prior (Placed buf' hi none) (pieces ++ l) (cmds ++ cs) m' := by
  obtain ⟨fuel, rfl⟩ : ∃ k, fuel = k + 1 := ⟨fuel - 1, by omega⟩
  induction l generalizing fuel buf s r pieces cmds m with
  | nil =>
    refine ⟨buf, m, ?_, ?_⟩
    · rw [cmdLoop, ht.cut_nil hc]
    · rw [List.append_nil, List.append_nil]
      exact hl.mono (fun q t h => ⟨h.1, fun p hp => absurd hp (by simp), h.2.2⟩)
  | cons piece l ih =>
    rw [List.length_cons] at hfuel
    obtain ⟨fuel, rfl⟩ : ∃ k, fuel = k + 1 := ⟨fuel - 1, by omega⟩
    obtain ⟨r1, q, buf1, s1, ecut, hne, hc1, htok, ht1⟩ := ht.cut hc
    obtain ⟨m1, egrow, hl1, hroom⟩ := grow_spec hl
    have hlt : m1.sz < m1.cmds.length := hl1.cap ▸ hl1.room
    have hget : m1.cmds[m1.sz]? = some m1.cmds[m1.sz] := List.getElem?_eq_getElem hlt
    have hspec := piece_spec prior m1.sz m1.cmds[m1.sz] htok.ne_nil htok.at_
    rw [List.map_cons, parseStages_cons, cmdLoop, ecut]
    dsimp only
    rw [egrow]
    dsimp only
    rw [hget, htok.at_.cstr_drop]
    dsimp only
    cases hp : parseStage (tokenList " ".toList piece) with
    | none =>
      rw [hp] at hspec
      dsimp only at hspec ⊢
      rw [hspec]
    | some cmd =>
      rw [hp] at hspec
      obtain ⟨buf2, e', eloop, hkept, hcmd⟩ := hspec
      rw [eloop]
      dsimp only
      have hl2 : Gathered prior (Placed buf2 hi s1) (pieces ++ [piece]) (cmds ++ [cmd])
          { m1 with cmds := m1.cmds.set m1.sz e', sz := m1.sz + 1 } := by
        refine (hl1.mono (fun _ _ h => h.piece hne htok hkept)).push hroom
          ⟨hcmd.stands.mono fun q0 t0 h => ⟨h.1, fun p hp => ?_, h.2.2.trans htok.le⟩,
            hcmd.length, hcmd.rest⟩
        have h1 := htok.behind p hp
        have h2 := h.2.2
        omega
      have hrec := ih (cursor_piece htok hkept hc1) ht1 hl2 fuel (by omega)
      cases hps : parseStages (l.map (tokenList " ".toList)) with
      | none =>
        rw [hps] at hrec
        exact hrec
      | some cs =>
        rw [hps] at hrec
        obtain ⟨buf', m', eloop', hl'⟩ := hrec
        refine ⟨buf', m', eloop', ?_⟩
        rw [List.append_assoc, List.append_assoc] at hl'
        exact hl'

theorem build_spec (prior : Prior) {text : Str} (h0 : '\x00' ∉ text) (behind : Str) :
    match parseStages (stages text) with
    | none => build prior (text ++ '\x00' :: behind) = .error .panic
    | some cs => ∃ buf m, build prior (text ++ '\x00' :: behind) = .ok (buf, m) ∧
        Gathered prior (Placed buf text.length none) (tokenList "|".toList text) cs m := by
  have hs : StrAt (text ++ '\x00' :: behind) 0 text := ⟨h0, behind, by simp⟩
  have hlen := (tokens_tokenList "|".toList text).length_le
  have hlt := hs.lt_length
  have hl : Gathered prior (Placed (text ++ '\x00' :: behind) text.length (some 0)) [] []
      ⟨2, 0, freshCmds prior 0 2, 0⟩ :=
    ⟨rfl, rfl, Nat.zero_lt_two, rfl, fun k p c h => absurd h (by simp)⟩
  have hc : Cursor (text ++ '\x00' :: behind) text.length (some 0) (some text) :=
    ⟨hs, Nat.zero_add _⟩
  exact cmdLoop_spec hc (tokens_tokenList "|".toList text)
    (by rw [Nat.zero_add] at hlt; omega) hl

end

end Boogsh
