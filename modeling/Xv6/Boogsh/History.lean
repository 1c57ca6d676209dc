import Xv6.Lib.Run
import Xv6.Boogsh.Line

/-!
# The history of the shell

`choose_cmd` is given the line buffer or, in a replay, the text of a history entry, and edits it in
place; so the result of `chooseCmd` has the text that is left and the history that is left.  `Env`
is what the world answers while the line runs.
-/

namespace Boogsh
open Ulib Lib

/-- what a line does; the argument vector of a program is a function of its text -/
inductive Action where
  | nothing
  | exit
  | chdir (path : Str)
  | program (text : Str) (background : Bool)
  | printHistory (printTime : Bool)
  | matrix
  deriving DecidableEq, Repr

/-- `struct history_pair`; `origin` is what the line did that stored the entry, which the shell
does not keep -/
structure Entry where
  command : Str
  val : Nat
  time : Int
  origin : Action
  deriving DecidableEq, Repr

/-- `struct history`: `pairs` are the first `count` slots -/
structure History where
  pairs : List Entry
  totalCount : Nat
  deriving DecidableEq

/-- the answers of the world to one line: whether `chdir` works, the status of the child, the
value of the two clock readings, and the bytes behind the digits in `arg_nums` -/
structure Env where
  chdirOk : Str → Bool
  status : Int
  time : Int
  stack : Str

/-! ## storing -/

def validChar (c : Char) : Bool :=
  ('a' ≤ c && c ≤ 'z') || ('A' ≤ c && c ≤ 'Z') || ('0' ≤ c && c ≤ '9') || ('!' ≤ c && c ≤ '/')

def validCmd (c : Str) : Bool := c.any validChar

def addHistory (h : History) (c : Str) (timeTaken : Int) (origin : Action) : History :=
  if validCmd c then
    { pairs := (if h.pairs.length = 100 then h.pairs.drop 1 else h.pairs) ++
        [⟨c, h.totalCount, timeTaken, origin⟩]
      totalCount := h.totalCount + 1 }
  else h

/-! ## searching -/

/-- the loop over the entries: the last one that matches, counted from `i` -/
def findLast (p : Entry → Bool) : List Entry → Nat → Option Nat → Option Nat
  | [], _, found => found
  | e :: l, i, found => findLast p l (i + 1) (if p e then some i else found)

/-- `arg_nums` is not terminated: `atoi` reads on into the stack -/
def searchByNum (h : History) (stack buf : Str) : Option Nat :=
  let val := atoi ((buf.drop 1).takeWhile isDigit ++ stack)
  findLast (fun e => e.val % 2 ^ 32 == val) h.pairs 0 none

/-- the entry up to its first blank or, without one, its first newline -/
def firstWord (c : Str) : Str :=
  if ' ' ∈ c then c.takeWhile (· ≠ ' ') else c.takeWhile (· ≠ '\n')

/-- all characters of `arg_cmd` are those of the entry's first word -/
def searchByCmd (h : History) (buf : Str) : Option Nat :=
  let arg := (buf.drop 1).takeWhile isLower
  findLast (fun e => !arg.isEmpty && arg.isPrefixOf (firstWord e.command)) h.pairs 0 none

def setCommand (h : History) (i : Nat) (text : Str) : History :=
  { h with pairs := h.pairs.modify i (fun e => { e with command := text }) }

/-! ## `choose_cmd` -/

/-- `text` is what the buffer holds afterwards; `returned` says that `choose_cmd` got past its test
for an empty line -/
structure Result where
  text : Str
  hist : History
  action : Action
  exitStatus : Int
  returned : Bool
  deriving DecidableEq

/-- `none` is a read of a slot that was never filled (`!!` reads `pairs[total_count - 1]`), or a
replay of replays without end -/
def chooseCmd (scripting : Bool) (env : Env) : Nat → History → Int → Str → Option Result
  | fuel, h, status, buf =>
    match chooseHead buf with
    | none => some ⟨[], h, .nothing, status, false⟩
    | some (buf, choice, background) =>
      let replay (found : Option Nat) : Option Result :=
        match found with
        | none => some ⟨buf, h, .nothing, 1, true⟩
        | some i =>
          match fuel, h.pairs[i]? with
          | fuel + 1, some e =>
            (chooseCmd scripting env fuel h status e.command).map (fun r =>
              { r with hist := setCommand r.hist i r.text, returned := true })
          | _, _ => none
      match choice with
      | some .cd =>
        let r := changeDirectory scripting buf
        some ⟨r.1, h, .chdir r.2, if env.chdirOk r.2 then status else 1, true⟩
      | some .exit => some ⟨buf, h, .exit, status, true⟩
      | some .history => some ⟨buf, h, .printHistory false, status, true⟩
      | some .historyT => some ⟨buf, h, .printHistory true, status, true⟩
      | some .repeat => none
      | some .searchByNum => replay (searchByNum h env.stack buf)
      | some .searchByCmd => replay (searchByCmd h buf)
      | some .program =>
        some ⟨buf, h, .program buf background, if background then status else env.status, true⟩
      | some .matrix => some ⟨buf, h, .matrix, status, true⟩
      | none => some ⟨buf, h, .nothing, status, true⟩

/-! ## sessions -/

structure Shell where
  scripting : Bool
  hist : History
  deriving DecidableEq

/-- `init_history` -/
def Shell.start (scripting : Bool) : Shell where
  scripting := scripting
  hist := ⟨[], 1⟩

/-- one round of the loop in `main`: `input` is what the descriptor delivers, `buf` the line buffer of
a script -/
structure Line where
  input : Str
  buf : LineBuf
  ok : buf.Ok
  env : Env

/-- the text that `choose_cmd` gets; there is none at the end of a script -/
def Line.text (scripting : Bool) (x : Line) : Except Fault (Option Str) :=
  if scripting then scriptLine x.buf x.input else .ok (some (promptLine x.input))

/-- the stores of `main` for the line are inside -/
def Line.Fits (scripting : Bool) (x : Line) : Prop := scripting = true → x.buf.Fits x.input

/-- the text of the line, also of one that does not fit -/
def Line.shown (scripting : Bool) (x : Line) : Str :=
  if scripting then checkComment (cstr (x.buf.piece x.input).1).dropLast else promptLine x.input

/-- no shell is one that is gone; a fault is undefined behaviour -/
def runLine (s : Shell) (x : Line) : Except Fault (Option Shell) :=
  match x.text s.scripting with
  | .error f => .error f
  | .ok none => .ok none
  | .ok (some buf) =>
    match chooseCmd s.scripting x.env (s.hist.pairs.length + 1) s.hist 0 buf with
    | none => .error .slot
    | some r =>
      if r.action = .exit then .ok none
      else if r.returned = false ∨ x.env.time = -1 ∨ r.exitStatus ≠ 0 then
        .ok (some { s with hist := r.hist })
      else .ok (some { s with hist := addHistory r.hist r.text x.env.time r.action })

def Step (s : Shell) (x : Line) (t : Shell) : Prop := runLine s x = .ok (some t)

instance (s : Shell) (x : Line) (t : Shell) : Decidable (Step s x t) :=
  inferInstanceAs (Decidable (_ = _))

section
variable {s t : Shell} {x : Line} {scripting : Bool} {buf : Str}

theorem Line.text_ok_iff : (∃ o, x.text scripting = .ok o) ↔ x.Fits scripting := by
  unfold Line.text Line.Fits
  cases scripting with
  | false => exact iff_of_true ⟨_, rfl⟩ nofun
  | true => exact (scriptLine_ok_iff x.ok).trans ⟨fun h _ => h, fun h => h rfl⟩

theorem Line.shown_of_text (h : x.text scripting = .ok (some buf)) : x.shown scripting = buf := by
  unfold Line.text at h
  unfold Line.shown
  cases scripting with
  | false => exact Option.some.inj (Except.ok.inj h)
  | true => exact (scriptLine_text x.ok h).symm

/-- a round of `main`: the command returns, and `main` stores the line or skips it -/
theorem Step.cases (hx : Step s x t) :
    ∃ buf r, x.text s.scripting = .ok (some buf) ∧
      chooseCmd s.scripting x.env (s.hist.pairs.length + 1) s.hist 0 buf = some r ∧
      r.action ≠ .exit ∧
      ((r.returned = false ∨ x.env.time = -1 ∨ r.exitStatus ≠ 0) ∧ t = { s with hist := r.hist } ∨
        (r.returned = true ∧ x.env.time ≠ -1 ∧ r.exitStatus = 0) ∧
          t = { s with hist := addHistory r.hist r.text x.env.time r.action }) := by
  unfold Step runLine at hx
  split at hx
  · cases hx
  · cases hx
  · rename_i buf hbuf
    split at hx
    · cases hx
    · rename_i r hr
      split at hx
      · cases hx
      · rename_i hexit
        refine ⟨buf, r, hbuf, hr, hexit, ?_⟩
        split at hx
        · rename_i hskip
          exact Or.inl ⟨hskip, (Option.some.inj (Except.ok.inj hx)).symm⟩
        · rename_i hkeep
          simp only [not_or, Bool.not_eq_false, Decidable.not_not] at hkeep
          exact Or.inr ⟨hkeep, (Option.some.inj (Except.ok.inj hx)).symm⟩

end

end Boogsh
