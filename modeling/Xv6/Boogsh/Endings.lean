import Xv6.Boogsh.Stores

/-!
# The end of the input

A script ends where `getline` returns 0.  The prompt does not look at what `gets` read: behind the
last byte it gets an empty line in every round.  `finishes_iff` says when the loop of `main` ends all
the same.
-/

namespace Boogsh
open Ulib Lib

/-- the loop ends, and behind the last byte of its input it only finds this out -/
structure Finishes (scripting : Bool) (heap : Heap) (world : Nat → Answers) (input : Str) : Prop where
  ends : Halts (mainRound scripting heap world) (.start input)
  quiet : ∀ k m, Reaches (mainRound scripting heap world) (.start input) k m → m.input = [] →
    mainRound scripting heap world k m = .ok none

/-- `choose_cmd` on a text that replays nothing calls `exit`: for `exit`, and for a program that it
cannot fork for -/
def stopsAt (a : Answers) (buf : Str) : Bool :=
  match chooseHead buf with
  | some (_, some .exit, _) => true
  | some (_, some .program, _) => !a.forks
  | _ => false

/-- the line that is read next at the prompt stops the shell -/
structure Leaves (a : Answers) (m : MainState) : Prop where
  input : m.input ≠ []
  stops : stopsAt a (target m.hist a.env (promptLine m.input)) = true

/-- the inputs that are closed: every line of a script fits, and at the prompt a line stops the shell -/
def Closed (heap : Heap) (world : Nat → Answers) (input : Str) : Bool → Prop
  | true => ∀ k m, Reaches (mainRound true heap world) (.start input) k m →
      LineFits heap (world k).env m
  | false => ∃ k m, Reaches (mainRound false heap world) (.start input) k m ∧ Leaves (world k) m

section
variable {scripting : Bool} {h : History} {buf input : Str} {fuel k : Nat} {heap : Heap}
  {a : Answers} {m u : MainState} {world : Nat → Answers} {r : Result} {i : Nat} {e : Entry}

/-! ## the line that stops the shell -/

theorem stops_of_selects_none (hsel : selects h a.env buf = none)
    (hr : chooseCmd scripting a.env fuel h 0 buf = some r) : a.stops r.action = stopsAt a buf := by
  unfold stopsAt
  cases hc : chooseHead buf with
  | none =>
    rw [chooseCmd, hc] at hr
    rw [← Option.some.inj hr]
    rfl
  | some q =>
    obtain ⟨b, choice, bg⟩ := q
    by_cases hs : choice = some .searchByNum ∨ choice = some .searchByCmd
    · rw [chooseCmd_of_no_entry fuel 0 hsel hc hs] at hr
      rw [← Option.some.inj hr]
      rcases hs with rfl | rfl <;> rfl
    · rw [chooseCmd, hc] at hr
      cases choice with
      | none => rw [← Option.some.inj hr]; rfl
      | some k =>
        cases k with
        | cd => rw [← Option.some.inj hr]; rfl
        | exit => rw [← Option.some.inj hr]; rfl
        | history => rw [← Option.some.inj hr]; rfl
        | historyT => rw [← Option.some.inj hr]; rfl
        | «repeat» => cases hr
        | searchByNum => exact absurd (Or.inl rfl) hs
        | searchByCmd => exact absurd (Or.inr rfl) hs
        | program => rw [← Option.some.inj hr]; rfl
        | matrix => rw [← Option.some.inj hr]; rfl

/-- a line stops the shell as the text does that it runs -/
theorem stops_iff_target (hn : NoSearch h)
    (hr : chooseCmd scripting a.env (fuel + 1) h 0 buf = some r) :
    a.stops r.action = stopsAt a (target h a.env buf) := by
  unfold target
  cases hsel : selects h a.env buf with
  | none => exact stops_of_selects_none hsel hr
  | some i =>
    obtain ⟨e, he⟩ := selects_entry hsel
    have hnone := (failedSearch_of_not_searches h a.env (hn e (List.mem_of_getElem? he))).2
    rw [chooseCmd_of_selects fuel 0 hsel he] at hr
    obtain ⟨q, hq, rfl⟩ := Option.map_eq_some_iff.mp hr
    rw [Option.bind_some, he]
    dsimp only
    exact stops_of_selects_none hnone hq

theorem stopsAt_repeat (hrep : chopNewline buf = "!!".toList) : stopsAt a buf = false := by
  have hcd : isCd buf = false := by
    rw [← isCd_chopNewline, hrep]
    rfl
  unfold stopsAt
  rw [chooseHead_of_not_cd hcd, hrep]
  rfl

theorem promptLine_length (input : Str) : (promptLine input).length < bufferSize := by
  have hread : (fgets bufferSize input).1.length ≤ bufferSize - 1 := fgetsLoop_length rfl
  have hcut : promptLine input <+: (fgets bufferSize input).1 :=
    (List.takeWhile_prefix _).trans (List.takeWhile_prefix _)
  exact Nat.lt_of_le_of_lt (hcut.length_le.trans hread) (by decide)

theorem promptRound_cases (ht : Tidy m) :
    promptRound a m = .error .slot ∧ ¬ NotRepeat m.hist a.env (promptLine m.input) ∨
    ∃ o, promptRound a m = .ok o ∧
      (o = none ↔ stopsAt a (target m.hist a.env (promptLine m.input)) = true) ∧
      ∀ u, o = some u → Tidy u ∧ u.input = a.rest (fgets bufferSize m.input).2 := by
  have ht' : Tidy { m with input := (fgets bufferSize m.input).2 } :=
    ⟨ht.noSearch, ht.short, ht.line⟩
  by_cases hrep : NotRepeat m.hist a.env (promptLine m.input)
  · obtain ⟨r, o, hr, ho, hiff, hnext⟩ := command_ok false ht' (promptLine_length m.input) hrep
    rw [stops_iff_target ht.noSearch hr] at hiff
    exact Or.inr ⟨o, ho, hiff, hnext⟩
  · exact Or.inl ⟨command_slot ht' hrep, hrep⟩

theorem promptRound_nil (ht : Tidy m) (hrest : ∀ s, a.rest s <:+ s) (hin : m.input = []) :
    ∃ u, promptRound a m = .ok (some u) ∧ u.input = [] := by
  have hline : target m.hist a.env (promptLine m.input) = [] := by
    rw [hin]
    rfl
  rcases promptRound_cases ht (a := a) with ⟨-, hrep⟩ | ⟨o, ho, hiff, hnext⟩
  · unfold NotRepeat at hrep
    rw [hline] at hrep
    exact absurd nofun hrep
  · cases o with
    | none =>
      have hstop := hiff.mp rfl
      rw [hline] at hstop
      exact absurd hstop nofun
    | some u =>
      refine ⟨u, ho, ?_⟩
      rw [(hnext u rfl).2, hin]
      exact List.suffix_nil.mp (hrest _)

theorem promptRound_none (ht : Tidy m) : promptRound a m = .ok none ↔
    stopsAt a (target m.hist a.env (promptLine m.input)) = true := by
  rcases promptRound_cases ht (a := a) with ⟨he, hrep⟩ | ⟨o, ho, hiff, -⟩
  · rw [he, stopsAt_repeat (not_not.mp hrep)]
    exact iff_of_false nofun nofun
  · rw [ho, ← hiff]
    exact ⟨Except.ok.inj, congrArg Except.ok⟩

/-! ## runs -/

theorem tidy_of_prompts (h : Reaches (mainRound false heap world) (.start input) k m) : Tidy m := by
  refine h.invariant (.start input) fun k t u ht hr => ?_
  rcases promptRound_cases ht (a := world k) with ⟨he, -⟩ | ⟨o, ho, -, hnext⟩
  · exact absurd (he.symm.trans hr) nofun
  · exact (hnext u (Except.ok.inj (ho.symm.trans hr))).1

/-- behind the end of the input the prompt never ends -/
theorem input_stays_nil (hrest : ∀ k s, (world k).rest s <:+ s) (hin : m.input = [])
    (h : Reaches (mainRound false heap world) (.start input) k m) {j : Nat}
    (hu : Reaches (mainRound false heap world) (.start input) (k + j) u) : u.input = [] := by
  have hboth : Tidy u ∧ u.input = [] := by
    refine h.onward (I := fun m => Tidy m ∧ m.input = []) ⟨tidy_of_prompts h, hin⟩ ?_ hu
    rintro k t v ⟨ht, hin⟩ hr
    obtain ⟨w, hw, hwin⟩ := promptRound_nil ht (hrest k) hin
    obtain rfl : w = v := Option.some.inj (Except.ok.inj (hw.symm.trans hr))
    rcases promptRound_cases ht (a := world k) with ⟨he, -⟩ | ⟨o, ho, -, hnext⟩
    · exact absurd (he.symm.trans hr) nofun
    · exact ⟨(hnext w (Except.ok.inj (ho.symm.trans hr))).1, hwin⟩
  exact hboth.2

theorem prompts_iff (hrest : ∀ k s, (world k).rest s <:+ s) :
    Finishes false heap world input ↔ Closed heap world input false := by
  constructor
  · rintro ⟨hends, hquiet⟩
    obtain ⟨k, m, hm, hnone⟩ := halts_iff.mp hends
    have ht := tidy_of_prompts hm
    refine ⟨k, m, hm, fun hin => ?_, (promptRound_none ht).mp hnone⟩
    obtain ⟨u, hu, -⟩ := promptRound_nil ht (hrest k) hin
    exact absurd (hnone.symm.trans hu) nofun
  · rintro ⟨k, m, hm, hin, hstop⟩
    have hnone : mainRound false heap world k m = .ok none :=
      (promptRound_none (tidy_of_prompts hm)).mpr hstop
    have hend : loop (mainRound false heap world) (.start input) (k + 1) = .ok none :=
      (loop_succ hm).trans hnone
    refine ⟨⟨k + 1, hend⟩, fun j t ht hnil => ?_⟩
    obtain ⟨i, rfl⟩ := Nat.exists_eq_add_of_le (Nat.le_of_lt_succ (ht.lt_end hend))
    exact absurd (input_stays_nil hrest hnil ht hm) hin

theorem scripts_iff (hrest : ∀ k s, (world k).rest s <:+ s) :
    Finishes true heap world input ↔ Closed heap world input true := by
  constructor
  · rintro ⟨hends, -⟩ k m hm
    by_contra hf
    obtain ⟨f, he⟩ := scriptRound_error (tidy_of_reaches hm) hf
    exact hends.not_fails (fails_iff.mpr ⟨k, m, f, hm, he⟩)
  · intro hall
    have hleft : ∀ k m, Reaches (mainRound true heap world) (.start input) k m →
        ∃ o, mainRound true heap world k m = .ok o ∧ Left (world k) m o :=
      fun k m hm => scriptRound_ok (tidy_of_reaches hm) (hall k m hm)
    constructor
    · refine .of_measure (fun m => m.input.length) (fun hbad => ?_) fun k m u hm hu => ?_
      · obtain ⟨k, m, f, hm, hf⟩ := fails_iff.mp hbad
        obtain ⟨o, ho, -⟩ := hleft k m hm
        exact absurd (ho.symm.trans hf) nofun
      · obtain ⟨o, ho, hl⟩ := hleft k m hm
        exact hl.less (hrest k) u (Except.ok.inj (ho.symm.trans hu))
    · intro k m hm hin
      obtain ⟨o, ho, hl⟩ := hleft k m hm
      rw [ho, hl.empty hin]

end

/-- the loop ends with its input exactly when the input is closed -/
theorem finishes_iff (scripting : Bool) (heap : Heap) (world : Nat → Answers)
    (hrest : ∀ k s, (world k).rest s <:+ s) (input : Str) :
    Finishes scripting heap world input ↔ Closed heap world input scripting := by
  cases scripting with
  | false => exact prompts_iff hrest
  | true => exact scripts_iff hrest

/-- `exit` at the prompt -/
theorem finishes_exit : Finishes false .plenty (fun _ => .good) "exit\n".toList :=
  (finishes_iff false .plenty (fun _ => .good) (fun _ s => List.suffix_refl s) "exit\n".toList).mpr
    ⟨0, _, .zero, by decide, by decide +kernel⟩

/-- the prompt goes on behind a line that runs `ls` -/
theorem prompt_goes_on : ¬ ∀ (scripting : Bool) (heap : Heap) (world : Nat → Answers) (input : Str),
    (∀ k s, (world k).rest s <:+ s) → Finishes scripting heap world input := by
  intro hall
  have hrest : ∀ (k : Nat) s, Answers.good.rest s <:+ s := fun _ s => List.suffix_refl s
  have h := hall false .plenty (fun _ => .good) "ls\n".toList hrest
  obtain ⟨k, m, hm, hin, hstop⟩ := (prompts_iff hrest).mp h
  cases k with
  | zero =>
    obtain rfl := hm.unique .zero
    exact absurd hstop (by decide +kernel)
  | succ k =>
    rw [Nat.add_comm] at hm
    obtain ⟨u, hu⟩ := hm.before
    obtain ⟨t, ht, hr⟩ := Reaches.pred (k := 0) hu
    obtain rfl := ht.unique .zero
    have hnil : u.input = [] := by
      rcases promptRound_cases (.start "ls\n".toList) (a := .good) with ⟨he, -⟩ | ⟨o, ho, -, hnext⟩
      · exact absurd (he.symm.trans hr) nofun
      · rw [(hnext u (Except.ok.inj (ho.symm.trans hr))).2]
        decide +kernel
    exact hin (input_stays_nil hrest hnil hu hm)

end Boogsh
