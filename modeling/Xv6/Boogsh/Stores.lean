import Xv6.Boogsh.Nesting
import Xv6.Boogsh.Journal
import Xv6.Lib.Loop

/-!
# What `main` stores in its buffers

The loop of `main` with the stores that it makes: the NUL for the last character of a line of a script,
`strcpy` of that line to `buf`, and `strcpy` of a command that is repeated.  `stores_iff` says for which
lines they stay inside.
-/

namespace Boogsh
open Ulib Lib

/-! ## the model -/

/-- what `main` has at the head of its loop: `input` is what its descriptor delivers, and `header` says
that the first line of a script is still to be read -/
structure MainState where
  hist : History
  line : Option Str
  max : Nat
  header : Bool
  input : Str

/-- the answers of the world in one round, and what the commands leave of the input; `fork` can fail -/
structure Answers where
  env : Env
  forks : Bool
  rest : Str → Str

def Answers.good : Answers := ⟨.good, true, id⟩

def Answers.stops (a : Answers) : Action → Bool
  | .exit => true
  | .program _ _ => !a.forks
  | _ => false

/-- `choose_cmd` on a text in a buffer of `size` bytes: a replay copies the text of its entry there, when
the nested call has edited it; `arg_nums` and `arg_cmd` have room for all that `buf` can hold -/
def chooseCmdIn (scripting : Bool) (env : Env) : Nat → Nat → History → Int → Str → Except Fault Result
  | fuel, size, h, status, buf =>
    match selects h env buf with
    | none =>
      match chooseCmd scripting env fuel h status buf with
      | none => .error .slot
      | some r => .ok r
    | some i =>
      match fuel, h.pairs[i]? with
      | fuel + 1, some e =>
        match chooseCmdIn scripting env fuel (e.command.length + 1) h status e.command with
        | .error f => .error f
        | .ok r =>
          if r.text.length < size then
            .ok { r with hist := setCommand r.hist i r.text, returned := true }
          else .error .buf
      | _, _ => .error .slot

/-- the end of a round, with the line in `buf`; no state is the end of the loop -/
def command (scripting : Bool) (a : Answers) (m : MainState) (buf : Str) :
    Except Fault (Option MainState) :=
  match chooseCmdIn scripting a.env (m.hist.pairs.length + 1) bufferSize m.hist 0 buf with
  | .error f => .error f
  | .ok r =>
    if a.stops r.action then .ok none
    else if r.returned = false ∨ a.env.time = -1 ∨ r.exitStatus ≠ 0 then
      .ok (some { m with hist := r.hist, input := a.rest m.input })
    else
      .ok (some { m with
        hist := addHistory r.hist r.text a.env.time r.action
        input := a.rest m.input })

def promptRound (a : Answers) (m : MainState) : Except Fault (Option MainState) :=
  let r := fgets bufferSize m.input
  command false a { m with input := r.2 } (checkComment (cstr r.1))

def MainState.lineBuf (m : MainState) (heap : Heap) : LineBuf := ⟨heap, m.line, m.max⟩

/-- the state behind the call of `getline` -/
def MainState.after (m : MainState) (g : Got) : MainState := ⟨m.hist, some g.buf, g.n, false, g.rest⟩

def scriptRound (heap : Heap) (a : Answers) (m : MainState) : Except Fault (Option MainState) :=
  match readLine (m.lineBuf heap) m.input with
  | .error f => .error f
  | .ok none => .ok none
  | .ok (some g) =>
    if m.header then .ok (some (m.after g))
    else
      match copyLine g.buf with
      | .error f => .error f
      | .ok buf => command true a (m.after g) (checkComment buf)

def mainRound (scripting : Bool) (heap : Heap) (world : Nat → Answers) (k : Nat) (m : MainState) :
    Except Fault (Option MainState) :=
  if scripting then scriptRound heap (world k) m else promptRound (world k) m

def MainState.start (input : Str) : MainState := ⟨⟨[], 1⟩, none, 0, true, input⟩

/-! ## the lines that fit -/

/-- what `getline` is about to read, and the capacity that it needs for it -/
def MainState.piece (m : MainState) : Str × Fill := (Fill.start (firstCapacity m.max)).scan m.input

/-- the text that a script line runs is not `!!` -/
def NotRepeat (h : History) (env : Env) (buf : Str) : Prop :=
  chopNewline (target h env buf) ≠ "!!".toList

/-- the line that is read next fits: it does not start with a NUL, has at most `BUFFER_SIZE` characters
before its first NUL, with its newline, and does not repeat from a slot that was never filled -/
structure LineFits (heap : Heap) (env : Env) (m : MainState) : Prop where
  room : (m.lineBuf heap).Room m.input
  nul : m.piece.1.head? ≠ some '\x00'
  size : m.header = false → (cstr m.piece.1).length ≤ bufferSize
  slot : m.header = false → m.piece.1 ≠ [] →
    NotRepeat m.hist env (checkComment (cstr m.piece.1).dropLast)

/-- what holds at the head of the loop: the entries are copies of `buf`, none is a search, and the
capacity of the line was only ever doubled -/
structure Tidy (m : MainState) : Prop where
  noSearch : NoSearch m.hist
  short : ∀ e ∈ m.hist.pairs, e.command.length < bufferSize
  line : ∀ heap, (m.lineBuf heap).Ok

section
variable {scripting : Bool} {env : Env} {h : History} {buf s t input : Str} {fuel size n i : Nat}
  {heap : Heap} {a : Answers} {m m' : MainState} {line : Option Str} {r : Result} {e : Entry}

/-! ## `choose_cmd` -/

/-- what a text that is not `!!` does -/
structure Chose (scripting : Bool) (env : Env) (h : History) (fuel : Nat) (buf : Str) (r : Result) :
    Prop where
  eq : chooseCmd scripting env fuel h 0 buf = some r
  noSearch : NoSearch r.hist
  short : ∀ e ∈ r.hist.pairs, e.command.length < bufferSize
  length : r.text.length < bufferSize
  text : r.exitStatus = 0 → ¬ Searches r.text

theorem chose_direct (scripting : Bool) (hn : NoSearch h)
    (hshort : ∀ e ∈ h.pairs, e.command.length < bufferSize)
    (hbuf : buf.length < bufferSize) (hs : ¬ Searches buf) (hrep : chopNewline buf ≠ "!!".toList) :
    ∃ r, (∀ fuel, Chose scripting env h fuel buf r) ∧ r.hist = h ∧ ¬ Searches r.text := by
  obtain ⟨r, hr, hh, hp, -⟩ := chooseCmd_direct scripting env h 0 hs hrep
  have ht : ¬ Searches r.text := fun ht => hs (ht.mono hp)
  refine ⟨r, fun fuel => ?_, hh, ht⟩
  exact ⟨hr fuel, hh ▸ hn, hh ▸ hshort, Nat.lt_of_le_of_lt hp.length_le hbuf, fun _ => ht⟩

theorem chose_nothing (hn : NoSearch h) (hshort : ∀ e ∈ h.pairs, e.command.length < bufferSize)
    (hbuf : buf.length < bufferSize) (hsel : selects h env buf = none) (hs : Searches buf) :
    ∃ r, Chose scripting env h fuel buf r := by
  cases hc : chooseHead buf with
  | none =>
    refine ⟨⟨[], h, .nothing, 0, false⟩, by rw [chooseCmd, hc], hn, hshort, Nat.two_pow_pos 7, ?_⟩
    intro _ ht
    obtain ⟨c, r, hnil, -⟩ := ht
    cases hnil
  | some q =>
    obtain ⟨b, choice, bg⟩ := q
    have hch : choice = some .searchByNum ∨ choice = some .searchByCmd := by
      rcases (chooseHead_edit hc).2 with ⟨hcd, -⟩ | he
      · exact absurd (Or.inr hs) (not_nests_cd hcd (List.prefix_refl buf))
      · rw [he]
        exact hs.kind
    obtain ⟨⟨w, hw, -⟩, -⟩ := chooseHead_edit hc
    have hlt : b.length < bufferSize := by
      have hle := congrArg List.length hw
      rw [List.length_append] at hle
      omega
    exact ⟨_, chooseCmd_of_no_entry fuel 0 hsel hc hch, hn, hshort, hlt, 
      fun h1 => absurd h1 Int.one_ne_zero⟩

/-- a text that is not `!!` makes its stores inside of `buf` -/
theorem chooseCmdIn_ok (scripting : Bool) (fuel : Nat) (hn : NoSearch h)
    (hshort : ∀ e ∈ h.pairs, e.command.length < bufferSize)
    (hbuf : buf.length < bufferSize) (hrep : NotRepeat h env buf) :
    ∃ r, chooseCmdIn scripting env (fuel + 1) bufferSize h 0 buf = .ok r ∧
      Chose scripting env h (fuel + 1) buf r := by
  unfold NotRepeat target at hrep
  cases hsel : selects h env buf with
  | none =>
    rw [hsel] at hrep
    have hr : ∃ r, Chose scripting env h (fuel + 1) buf r := by
      by_cases hs : Searches buf
      · exact chose_nothing hn hshort hbuf hsel hs
      · obtain ⟨r, hr, -⟩ := chose_direct scripting hn hshort hbuf hs hrep
        exact ⟨r, hr _⟩
    obtain ⟨r, hr⟩ := hr
    refine ⟨r, ?_, hr⟩
    rw [chooseCmdIn, hsel]
    dsimp only
    rw [hr.eq]
  | some i =>
    obtain ⟨e, he⟩ := selects_entry hsel
    have hmem := List.mem_of_getElem? he
    rw [hsel, Option.bind_some, he] at hrep
    have hnone := (failedSearch_of_not_searches h env (hn e hmem)).2
    obtain ⟨r, hr, hh, ht⟩ := chose_direct scripting hn hshort (hshort e hmem)
      (hn e hmem) hrep
    have hinner : chooseCmdIn scripting env fuel (e.command.length + 1) h 0 e.command = .ok r := by
      rw [chooseCmdIn, hnone]
      dsimp only
      rw [(hr fuel).eq]
    refine ⟨{ r with hist := setCommand r.hist i r.text, returned := true }, ?_, ?_⟩
    · rw [chooseCmdIn, hsel]
      dsimp only
      rw [he]
      dsimp only
      rw [hinner]
      dsimp only
      rw [if_pos (hr fuel).length]
    · refine ⟨?_, (hh ▸ hn).set ht i, fun x hx => ?_, (hr fuel).length, fun _ => ht⟩
      · rw [chooseCmd_of_selects fuel 0 hsel he, (hr fuel).eq]
        rfl
      · rcases mem_setCommand hx with h1 | h1
        · rw [h1]
          exact (hr fuel).length
        · exact (hr fuel).short x h1

/-- `!!` edits the text in a slot that was never filled -/
theorem chooseCmdIn_slot (hn : NoSearch h) (hrep : ¬ NotRepeat h env buf) :
    chooseCmdIn scripting env (fuel + 1) size h 0 buf = .error .slot := by
  have hrep := not_not.mp hrep
  unfold target at hrep
  cases hsel : selects h env buf with
  | none =>
    rw [hsel] at hrep
    dsimp only [Option.bind_none] at hrep
    rw [chooseCmdIn, hsel]
    dsimp only
    rw [chooseCmd_repeat hrep]
  | some i =>
    obtain ⟨e, he⟩ := selects_entry hsel
    have hmem := List.mem_of_getElem? he
    rw [hsel, Option.bind_some, he] at hrep
    have hnone := (failedSearch_of_not_searches h env (hn e hmem)).2
    have hinner : chooseCmdIn scripting env fuel (e.command.length + 1) h 0 e.command =
        .error .slot := by
      rw [chooseCmdIn, hnone]
      dsimp only
      rw [chooseCmd_repeat hrep]
    rw [chooseCmdIn, hsel]
    dsimp only
    rw [he]
    dsimp only
    rw [hinner]

theorem command_ok (scripting : Bool) (ht : Tidy m) (hbuf : buf.length < bufferSize)
    (hrep : NotRepeat m.hist a.env buf) : ∃ r o,
      chooseCmd scripting a.env (m.hist.pairs.length + 1) m.hist 0 buf = some r ∧
      command scripting a m buf = .ok o ∧ (o = none ↔ a.stops r.action = true) ∧
      ∀ m', o = some m' → Tidy m' ∧ m'.input = a.rest m.input := by
  obtain ⟨r, hrun, hr⟩ := chooseCmdIn_ok scripting m.hist.pairs.length ht.noSearch ht.short hbuf hrep
  unfold command
  rw [hrun]
  dsimp only
  by_cases he : a.stops r.action = true
  · rw [if_pos he]
    exact ⟨r, none, hr.eq, rfl, iff_of_true rfl he, nofun⟩
  rw [if_neg he]
  by_cases hskip : r.returned = false ∨ a.env.time = -1 ∨ r.exitStatus ≠ 0
  · rw [if_pos hskip]
    refine ⟨r, _, hr.eq, rfl, iff_of_false nofun he, fun m' hm => ?_⟩
    rw [← Option.some.inj hm]
    exact ⟨⟨hr.noSearch, hr.short, ht.line⟩, rfl⟩
  · rw [if_neg hskip]
    refine ⟨r, _, hr.eq, rfl, iff_of_false nofun he, fun m' hm => ?_⟩
    rw [← Option.some.inj hm]
    have hst : r.exitStatus = 0 := by
      by_contra h0
      exact hskip (Or.inr (Or.inr h0))
    refine ⟨⟨fun x hx => ?_, fun x hx => ?_, ht.line⟩, rfl⟩
    · rcases mem_addHistory hx with h1 | ⟨-, h1, -⟩
      · exact hr.noSearch x h1
      · rw [h1]
        exact hr.text hst
    · rcases mem_addHistory hx with h1 | ⟨-, h1, -⟩
      · exact hr.short x h1
      · rw [h1]
        exact hr.length

theorem command_slot (ht : Tidy m) (hrep : ¬ NotRepeat m.hist a.env buf) :
    command scripting a m buf = .error .slot := by
  unfold command
  rw [chooseCmdIn_slot ht.noSearch hrep]

/-! ## the line of a script -/

/-- what a round leaves: a state whose input is shorter, or the end -/
structure Left (a : Answers) (m : MainState) (o : Option MainState) : Prop where
  tidy : ∀ m', o = some m' → Tidy m'
  less : (∀ s, a.rest s <:+ s) → ∀ m', o = some m' → m'.input.length < m.input.length
  empty : m.input = [] → o = none

theorem Tidy.after {g : Got} (ht : Tidy m) (htook : (m.lineBuf heap).Took m.input g) :
    Tidy (m.after g) :=
  ⟨ht.noSearch, ht.short, fun _ => ⟨htook.ok.supplied, htook.ok.grown⟩⟩

theorem rest_less {g : Got} (htook : (m.lineBuf heap).Took m.input g) (hne : m.piece.1 ≠ []) :
    m.input ≠ [] ∧ g.rest.length < m.input.length := by
  have hin : m.input ≠ [] := by
    intro h0
    refine hne ?_
    unfold MainState.piece
    rw [h0]
    rfl
  have h1 := List.length_pos_iff.mpr hne
  have h2 := List.length_pos_iff.mpr hin
  have hrest : g.rest = m.input.drop m.piece.1.length := htook.rest
  refine ⟨hin, ?_⟩
  rw [hrest, List.length_drop]
  omega

/-- a line that fits makes its stores inside -/
theorem scriptRound_ok (ht : Tidy m) (hf : LineFits heap a.env m) :
    ∃ o, scriptRound heap a m = .ok o ∧ Left a m o := by
  by_cases hnil : m.piece.1 = []
  · refine ⟨none, ?_, nofun, fun _ => nofun, fun _ => rfl⟩
    rw [scriptRound, readLine_end (ht.line heap) hf.room hnil]
  obtain ⟨g, hg, htook⟩ := readLine_took (ht.line heap) hf.room hnil hf.nul
  have htext : cstr g.buf = (cstr m.piece.1).dropLast := htook.text
  have ht' := ht.after htook
  obtain ⟨hne, hless⟩ := rest_less htook hnil
  rw [scriptRound, hg]
  dsimp only
  cases hh : m.header with
  | true =>
    rw [if_pos rfl]
    refine ⟨_, rfl, fun m' hm => ?_, fun _ m' hm => ?_, fun h0 => absurd h0 hne⟩
    · rw [← Option.some.inj hm]
      exact ht'
    · rw [← Option.some.inj hm]
      exact hless
  | false =>
    have hsize := hf.size hh
    have hpos : 0 < (cstr m.piece.1).length :=
      List.length_pos_iff.mpr (cstr_ne_nil hnil hf.nul)
    have hlt : (cstr g.buf).length < bufferSize := by
      rw [htext, List.length_dropLast]
      omega
    have hbuf : (checkComment (cstr g.buf)).length < bufferSize :=
      Nat.lt_of_le_of_lt (List.takeWhile_prefix _).length_le hlt
    rw [if_neg nofun, copyLine, if_pos hlt]
    obtain ⟨r, o, -, ho, -, hnext⟩ := command_ok true (a := a) ht' hbuf
      (by rw [htext]; exact hf.slot hh hnil)
    refine ⟨o, ho, fun m' hm => (hnext m' hm).1, fun hrest m' hm => ?_, fun h0 => absurd h0 hne⟩
    rw [(hnext m' hm).2]
    exact Nat.lt_of_le_of_lt (hrest _).length_le hless

theorem scriptRound_error (ht : Tidy m) (hf : ¬ LineFits heap a.env m) :
    ∃ f, scriptRound heap a m = .error f := by
  by_cases hroom : (m.lineBuf heap).Room m.input
  · have hne : m.piece.1 ≠ [] := by
      intro h0
      refine hf ⟨hroom, ?_, fun _ => ?_, fun _ h => absurd h0 h⟩
      · rw [h0]
        exact nofun
      · rw [h0]
        exact Nat.zero_le _
    by_cases hnul : m.piece.1.head? = some '\x00'
    · refine ⟨.line, ?_⟩
      rw [scriptRound, readLine_nul (ht.line heap) hroom hnul]
    · obtain ⟨g, hg, htook⟩ := readLine_took (ht.line heap) hroom hne hnul
      have htext : cstr g.buf = (cstr m.piece.1).dropLast := htook.text
      have hh : m.header = false := by
        by_contra hh
        refine hf ⟨hroom, hnul, fun h => absurd h hh, fun h => absurd h hh⟩
      rw [scriptRound, hg]
      dsimp only
      rw [hh, if_neg nofun]
      by_cases hlt : (cstr g.buf).length < bufferSize
      · rw [copyLine, if_pos hlt]
        refine ⟨.slot, command_slot (ht.after htook) fun hrep =>
          hf ⟨hroom, hnul, fun _ => ?_, fun _ _ => ?_⟩⟩
        · rw [htext, List.length_dropLast] at hlt
          omega
        · rw [htext] at hrep
          exact hrep
      · rw [copyLine, if_neg hlt]
        exact ⟨.buf, rfl⟩
  · obtain ⟨f, hf'⟩ := readLine_no_room (ht.line heap) hroom
    refine ⟨f, ?_⟩
    rw [scriptRound, hf']

/-! ## runs -/

theorem mainRound_script (heap : Heap) (world : Nat → Answers) (k : Nat) (m : MainState) :
    mainRound true heap world k m = scriptRound heap (world k) m := rfl

theorem Tidy.start (input : Str) : Tidy (.start input) :=
  ⟨fun _ he => absurd he List.not_mem_nil, fun _ he => absurd he List.not_mem_nil, .start⟩

theorem tidy_of_reaches {world : Nat → Answers} {file : Str} {k : Nat}
    (h : Reaches (mainRound true heap world) (.start file) k m) : Tidy m := by
  refine h.invariant (.start file) fun k t u ht hr => ?_
  by_cases hf : LineFits heap (world k).env t
  · obtain ⟨o, ho, hleft⟩ := scriptRound_ok ht hf
    have hu : o = some u := Except.ok.inj (ho.symm.trans hr)
    exact hleft.tidy u hu
  · obtain ⟨f, hf'⟩ := scriptRound_error ht hf
    exact absurd (hf'.symm.trans hr) nofun

/-- a script makes no store outside exactly when every line that is reached fits -/
theorem stores_iff (heap : Heap) (world : Nat → Answers) (file : Str) :
    ¬ Fails (mainRound true heap world) (.start file) ↔
      ∀ k m, Reaches (mainRound true heap world) (.start file) k m →
        LineFits heap (world k).env m := by
  rw [fails_iff]
  constructor
  · intro hok k m hm
    by_contra hf
    obtain ⟨f, hf'⟩ := scriptRound_error (tidy_of_reaches hm) hf
    exact hok ⟨k, m, f, hm, hf'⟩
  · rintro hall ⟨k, m, f, hm, hf⟩
    obtain ⟨o, ho, -⟩ := scriptRound_ok (tidy_of_reaches hm) (hall k m hm)
    exact absurd (ho.symm.trans hf) nofun

def longScript : Str := "#\n".toList ++ List.replicate bufferSize 'a' ++ ['\n']

/-- a line that is too long, and a line that starts with a NUL -/
theorem fails_of_long_line (world : Nat → Answers) :
    Fails (mainRound true .plenty world) (.start longScript) ∧
      Fails (mainRound true .plenty world) (.start ['\x00']) := by
  have hroom : ∀ {m : MainState}, m.piece.2.n < 2 ^ 32 → (m.lineBuf .plenty).Room m.input :=
    fun hn => ⟨fun _ => nofun, Heap.not_refuses_plenty _ _, hn⟩
  constructor
  · have ht := Tidy.start longScript
    have hpiece : (MainState.start longScript).piece = ("#\n".toList, .start 128) := by
      decide +kernel
    obtain ⟨g, hg, htook⟩ := readLine_took (ht.line .plenty)
      (hroom (m := .start longScript) (by rw [hpiece]; decide))
      (show (MainState.start longScript).piece.1 ≠ [] by rw [hpiece]; exact nofun)
      (show (MainState.start longScript).piece.1.head? ≠ _ by rw [hpiece]; exact nofun)
    have hstep : mainRound true .plenty world 0 (.start longScript) =
        .ok (some ((MainState.start longScript).after g)) := by
      rw [mainRound_script, scriptRound, hg]
      exact if_pos rfl
    have h1 := Reaches.zero.succ hstep
    have hn : g.n = (MainState.start longScript).piece.2.n := htook.n
    have hrest : g.rest = longScript.drop (MainState.start longScript).piece.1.length := htook.rest
    have hnext : ((MainState.start longScript).after g).piece =
        (Fill.start 128).scan (longScript.drop 2) := by
      show (Fill.start (firstCapacity g.n)).scan g.rest = _
      rw [hn, hrest, hpiece]
      rfl
    have hbad : ¬ LineFits .plenty (world 1).env ((MainState.start longScript).after g) := by
      intro hf
      have hsize := hf.size rfl
      rw [hnext] at hsize
      revert hsize
      decide +kernel
    obtain ⟨f, hf⟩ := scriptRound_error (tidy_of_reaches h1) hbad
    refine fails_iff.mpr ⟨1, _, f, h1, ?_⟩
    rw [mainRound_script]
    exact hf
  · have hbad : ¬ LineFits .plenty (world 0).env (.start ['\x00']) :=
      fun hf => hf.nul (by decide +kernel)
    obtain ⟨f, hf⟩ := scriptRound_error (Tidy.start ['\x00']) hbad
    refine fails_iff.mpr ⟨0, .start ['\x00'], f, .zero, ?_⟩
    rw [mainRound_script]
    exact hf

theorem stores_outside : Fails (mainRound true .plenty (fun _ => .good)) (.start longScript) ∧
    Fails (mainRound true .plenty (fun _ => .good)) (.start ['\x00']) :=
  fails_of_long_line _

end

end Boogsh
