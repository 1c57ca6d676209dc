import Xv6.Lib.Window
import Xv6.Boogsh.Nesting

/-!
# The history as a record of the session

`journal` lists what the command lines of a session did: the lines that are not blank, not only a
comment and not a search that finds nothing.  `main` stores a line only when `exit_status` is 0, so
the history records the journal exactly as long as every command line succeeds: `records_iff`.
-/

namespace Boogsh
open Ulib Lib

/-! ## which lines have to be entered -/

def blank (buf : Str) : Bool := buf.all (fun c => c = ' ' || c = '\t' || c = '\r' || c = '\n')

def failedSearch (h : History) (env : Env) (buf : Str) : Bool :=
  match chooseHead buf with
  | some (b, some .searchByNum, _) => (searchByNum h env.stack b).isNone
  | some (b, some .searchByCmd, _) => (searchByCmd h b).isNone
  | _ => false

/-- the entry that is due for a line, as what the line does -/
def due (s : Shell) (x : Line) : List Action :=
  match x.text s.scripting with
  | .error _ => []
  | .ok none => []
  | .ok (some buf) =>
    if blank buf || failedSearch s.hist x.env buf then []
    else match chooseCmd s.scripting x.env (s.hist.pairs.length + 1) s.hist 0 buf with
      | none => []
      | some r => [r.action]

/-- the entries that are due for the lines of a session, in order -/
def journal : Shell → List Line → List Action
  | _, [] => []
  | s, x :: l => due s x ++
    match runLine s x with
    | .error _ => []
    | .ok none => []
    | .ok (some t) => journal t l

/-- the history holds the last 100 actions of `J`, each with its number, and nothing else -/
structure Records (h : History) (J : List Action) : Prop where
  total : h.totalCount = J.length + 1
  pairs : h.pairs.map (fun e => (e.origin, e.val)) = (J.zipIdx 1).rtake 100

/-! ## which lines are entered -/

/-- a line without a search does not fail, and leaves a text that `valid_cmd` accepts -/
def succeeds (scripting : Bool) (env : Env) (buf : Str) : Bool :=
  match chooseHead buf with
  | none => false
  | some (b, some .cd, _) => env.chdirOk (changeDirectory scripting b).2
  | some (b, some .program, background) => validCmd b && (background || env.status == 0)
  | some (b, _, _) => validCmd b

/-- the text whose command the line runs: its own, or that of the entry it finds -/
def target (h : History) (env : Env) (buf : Str) : Str :=
  match (selects h env buf).bind (fun i => h.pairs[i]?) with
  | none => buf
  | some e => e.command

/-- a line that fits, and is not due, or succeeds while the clock does not run backwards -/
def KeptLine (s : Shell) (x : Line) : Prop :=
  x.Fits s.scripting ∧ ∀ buf, x.text s.scripting = .ok (some buf) → blank buf = false →
    failedSearch s.hist x.env buf = false →
    x.env.time ≠ -1 ∧ succeeds s.scripting x.env (target s.hist x.env buf) = true

theorem keptLine_iff {s : Shell} {x : Line} {buf : Str} (h : x.text s.scripting = .ok (some buf)) :
    KeptLine s x ↔ (blank buf = false → failedSearch s.hist x.env buf = false →
      x.env.time ≠ -1 ∧ succeeds s.scripting x.env (target s.hist x.env buf) = true) := by
  constructor
  · rintro ⟨-, hk⟩
    exact hk buf h
  · intro hk
    refine ⟨Line.text_ok_iff.mp ⟨_, h⟩, fun buf' h' => ?_⟩
    obtain rfl : buf = buf' := Option.some.inj (Except.ok.inj (h.symm.trans h'))
    exact hk

/-! ## texts -/

theorem validCmd_of_mem {c : Char} {t : Str} (hc : c ∈ t) (hv : validChar c = true) :
    validCmd t = true := List.any_eq_true.mpr ⟨c, hc, hv⟩

theorem blank_not_valid {t : Str} (h : blank t = true) : validCmd t = false := by
  unfold validCmd
  rw [List.any_eq_false]
  intro c hc
  have h1 := List.all_eq_true.mp h c hc
  simp only [Bool.or_eq_true, decide_eq_true_eq] at h1
  rcases h1 with ((rfl | rfl) | rfl) | rfl
  all_goals decide

theorem blank_mono {b buf : Str} (h : blank buf = true) (hb : b <+: buf) : blank b = true :=
  List.all_eq_true.mpr (fun c hc => List.all_eq_true.mp h c (hb.subset hc))

theorem blank_no_bang {buf : Str} (h : blank buf = true) : '!' ∉ buf :=
  fun hc => absurd (List.all_eq_true.mp h '!' hc) (by decide)

theorem Searches.bang_mem {t : Str} (h : Searches t) : '!' ∈ t := by
  obtain ⟨c, r, rfl, -⟩ := h
  exact List.mem_cons_self

/-- a `cd` always leaves a text with its first letters -/
theorem cd_valid {scripting : Bool} {buf b : Str} {choice : Option Choice} {bg : Bool}
    (hcd : isCd buf = true) (hc : chooseHead buf = some (b, choice, bg)) :
    validCmd (changeDirectory scripting b).1 = true := by
  have hb : isCd b = true := by
    rw [chooseHead_of_cd hcd] at hc
    split at hc
    · rename_i ha
      obtain ⟨rfl, -, -⟩ : _ ∧ _ ∧ _ := by simpa using Option.some.inj hc
      exact (isCd_dropLast hcd ha).1
    · obtain ⟨rfl, -, -⟩ : _ ∧ _ ∧ _ := by simpa using Option.some.inj hc
      exact hcd
  obtain ⟨p, rfl⟩ := isCd_iff.mp hb
  apply validCmd_of_mem (c := 'c') _ (by decide)
  show 'c' ∈ (if scripting then "cd ".toList ++ p else ("cd ".toList ++ p).dropLast)
  split
  · exact List.mem_cons_self
  · cases p with
    | nil => decide
    | cons a p =>
      rw [List.dropLast_append_of_ne_nil (List.cons_ne_nil a p)]
      exact List.mem_cons_self

/-! ## one line -/

/-- no entry is a search -/
def NoSearch (h : History) : Prop := ∀ e ∈ h.pairs, ¬ Searches e.command

structure Result.Stored (r : Result) : Prop where
  returned : r.returned = true
  status : r.exitStatus = 0
  valid : validCmd r.text = true

theorem stored_iff {text : Str} {h : History} {a : Action} {st : Int} :
    (⟨text, h, a, st, true⟩ : Result).Stored ↔ validCmd text = true ∧ st = 0 :=
  ⟨fun hs => ⟨hs.valid, hs.status⟩, fun hs => ⟨rfl, hs.2, hs.1⟩⟩

theorem direct_stored_iff {scripting : Bool} {env : Env} {fuel : Nat} {h : History} {buf : Str}
    {r : Result} (hbuf : ¬ Searches buf)
    (hr : chooseCmd scripting env fuel h 0 buf = some r) :
    r.Stored ↔ succeeds scripting env buf = true := by
  unfold succeeds
  rw [chooseCmd] at hr
  cases hc : chooseHead buf with
  | none =>
    rw [hc] at hr
    rw [← Option.some.inj hr]
    exact iff_of_false (fun hs => absurd hs.returned (by simp)) (by simp)
  | some q =>
    obtain ⟨b, choice, bg⟩ := q
    rw [hc] at hr
    have hch := (chooseHead_edit hc).2
    have hsearch : ∀ V, V <+: buf → ¬ (builtIn V = some .searchByNum ∨
        builtIn V = some .searchByCmd) := fun V hV e => hbuf ((kind_searches e).mono hV)
    cases choice with
    | none =>
      rw [← Option.some.inj hr, stored_iff]
      exact and_iff_left rfl
    | some k =>
      cases k with
      | cd =>
        have hcd : isCd buf = true :=
          hch.elim And.left (fun e => absurd e.symm (builtIn_ne_cd _))
        rw [← Option.some.inj hr, stored_iff]
        dsimp only
        rw [cd_valid hcd hc]
        by_cases hok : env.chdirOk (changeDirectory scripting b).2 = true
        · simp [hok]
        · simp [hok]
      | program =>
        rw [← Option.some.inj hr, stored_iff]
        cases bg with
        | true => simp
        | false => simp
      | «repeat» => exact absurd hr (by simp)
      | searchByNum =>
        exact absurd (Or.inl (hch.resolve_left (by simp)).symm) (hsearch _ (chopNewline_initial buf))
      | searchByCmd =>
        exact absurd (Or.inr (hch.resolve_left (by simp)).symm) (hsearch _ (chopNewline_initial buf))
      | exit =>
        rw [← Option.some.inj hr, stored_iff]
        exact and_iff_left rfl
      | history =>
        rw [← Option.some.inj hr, stored_iff]
        exact and_iff_left rfl
      | historyT =>
        rw [← Option.some.inj hr, stored_iff]
        exact and_iff_left rfl
      | matrix =>
        rw [← Option.some.inj hr, stored_iff]
        exact and_iff_left rfl

theorem failedSearch_of_not_searches (h : History) (env : Env) {buf : Str} (hs : ¬ Searches buf) :
    failedSearch h env buf = false ∧ selects h env buf = none := by
  unfold failedSearch selects
  cases hc : chooseHead buf with
  | none => exact ⟨rfl, rfl⟩
  | some q =>
    obtain ⟨b, choice, bg⟩ := q
    have hch := (chooseHead_edit hc).2
    match choice with
    | some .searchByNum =>
      have e := kind_searches (Or.inl (hch.resolve_left (by simp)).symm)
      exact absurd (e.mono (chopNewline_initial buf)) hs
    | some .searchByCmd =>
      have e := kind_searches (Or.inr (hch.resolve_left (by simp)).symm)
      exact absurd (e.mono (chopNewline_initial buf)) hs
    | some .cd => exact ⟨rfl, rfl⟩
    | some .exit => exact ⟨rfl, rfl⟩
    | some .history => exact ⟨rfl, rfl⟩
    | some .historyT => exact ⟨rfl, rfl⟩
    | some .repeat => exact ⟨rfl, rfl⟩
    | some .program => exact ⟨rfl, rfl⟩
    | some .matrix => exact ⟨rfl, rfl⟩
    | none => exact ⟨rfl, rfl⟩

/-- a search fails exactly when it selects no entry -/
theorem failedSearch_of_searches (h : History) (env : Env) {buf b : Str} {choice : Option Choice}
    {bg : Bool} (hc : chooseHead buf = some (b, choice, bg))
    (hs : choice = some .searchByNum ∨ choice = some .searchByCmd) :
    failedSearch h env buf = (selects h env buf).isNone := by
  unfold failedSearch selects
  rw [hc]
  rcases hs with rfl | rfl
  · rfl
  · rfl

theorem returned_of_head {scripting : Bool} {env : Env} {fuel : Nat} {h : History} {status : Int}
    {buf : Str} {r : Result} (hne : chooseHead buf ≠ none)
    (hr : chooseCmd scripting env fuel h status buf = some r) : r.returned = true := by
  cases hc : chooseHead buf with
  | none => exact absurd hc hne
  | some q =>
    obtain ⟨b, choice, bg⟩ := q
    have hreplay : ∀ {q : Option Result} {i : Nat}, q.map (fun r =>
        { r with hist := setCommand r.hist i r.text, returned := true }) = some r →
        r.returned = true := by
      intro q i hq
      obtain ⟨r', -, rfl⟩ := Option.map_eq_some_iff.mp hq
      rfl
    rw [chooseCmd, hc] at hr
    cases choice with
    | none => rw [← Option.some.inj hr]
    | some k =>
      cases k with
      | searchByNum =>
        dsimp only at hr
        split at hr
        · rw [← Option.some.inj hr]
        · split at hr
          · exact hreplay hr
          · cases hr
      | searchByCmd =>
        dsimp only at hr
        split at hr
        · rw [← Option.some.inj hr]
        · split at hr
          · exact hreplay hr
          · cases hr
      | «repeat» => cases hr
      | cd => rw [← Option.some.inj hr]
      | exit => rw [← Option.some.inj hr]
      | history => rw [← Option.some.inj hr]
      | historyT => rw [← Option.some.inj hr]
      | program => rw [← Option.some.inj hr]
      | matrix => rw [← Option.some.inj hr]

theorem returned_of_valid {scripting : Bool} {env : Env} {fuel : Nat} {h : History} {status : Int}
    {buf : Str} {r : Result} (hr : chooseCmd scripting env fuel h status buf = some r)
    (hv : validCmd r.text = true) : r.returned = true := by
  cases hc : chooseHead buf with
  | none =>
    rw [chooseCmd, hc] at hr
    obtain rfl := Option.some.inj hr
    exact absurd hv (by simp [validCmd])
  | some q => exact returned_of_head (by rw [hc]; exact Option.some_ne_none q) hr

/-- `!!` reads a slot that was never filled -/
theorem chooseCmd_repeat {scripting : Bool} {env : Env} {fuel : Nat} {h : History} {status : Int}
    {buf : Str} (hrep : chopNewline buf = "!!".toList) :
    chooseCmd scripting env fuel h status buf = none := by
  have hcd : isCd buf = false := by
    rw [← isCd_chopNewline, hrep]
    rfl
  rw [chooseCmd, chooseHead_of_not_cd hcd, hrep]
  rfl

/-- the parts of an entry that no replay edits -/
def Entry.mark (e : Entry) : Action × Nat := (e.origin, e.val)

theorem setCommand_marks (h : History) (i : Nat) (t : Str) :
    (setCommand h i t).pairs.map Entry.mark = h.pairs.map Entry.mark := by
  show (h.pairs.modify i (fun e => { e with command := t })).map Entry.mark = _
  apply List.ext_getElem?
  intro j
  rw [List.getElem?_map, List.getElem?_modify, List.getElem?_map]
  cases h.pairs[j]? with
  | none => rfl
  | some e =>
    show some (Entry.mark (if i = j then { e with command := t } else e)) = some e.mark
    split
    · rfl
    · rfl

theorem NoSearch.set {h : History} (hn : NoSearch h) {t : Str} (ht : ¬ Searches t) (i : Nat) :
    NoSearch (setCommand h i t) := by
  intro e he
  rcases mem_setCommand he with rfl | he
  · exact ht
  · exact hn e he

/-- what a line that is not `!!` does to the history before `main` stores it -/
structure Chosen (scripting : Bool) (env : Env) (h : History) (buf : Str) (r : Result) : Prop where
  total : r.hist.totalCount = h.totalCount
  marks : r.hist.pairs.map Entry.mark = h.pairs.map Entry.mark
  search : NoSearch r.hist
  text : r.Stored → ¬ Searches r.text
  failed : failedSearch h env buf = true → ¬ r.Stored
  blank : blank buf = true → ¬ r.Stored
  stored : failedSearch h env buf = false →
    (r.Stored ↔ succeeds scripting env (target h env buf) = true)

theorem chosen_direct {scripting : Bool} {env : Env} {h : History} {buf : Str} {r : Result}
    (fuel : Nat) (hn : NoSearch h) (hs : ¬ Searches buf)
    (hr : chooseCmd scripting env fuel h 0 buf = some r) : Chosen scripting env h buf r := by
  have hrep : chopNewline buf ≠ "!!".toList := by
    intro e
    rw [chooseCmd_repeat e] at hr
    exact absurd hr (by simp)
  obtain ⟨r', hr', hh, hp, -⟩ := chooseCmd_direct scripting env h 0 hs hrep
  obtain rfl : r' = r := Option.some.inj ((hr' fuel).symm.trans hr)
  obtain ⟨h1, h2⟩ := failedSearch_of_not_searches h env hs
  refine ⟨by rw [hh], by rw [hh], hh ▸ hn, fun _ ht => hs (ht.mono hp), ?_, ?_, fun _ => ?_⟩
  · intro hf
    rw [h1] at hf
    exact absurd hf (by simp)
  · intro hb hst
    have hv := hst.valid
    rw [blank_not_valid (blank_mono hb hp)] at hv
    exact absurd hv (by simp)
  · unfold target
    rw [h2]
    exact direct_stored_iff hs hr

theorem chosen_search {scripting : Bool} {env : Env} {h : History} {buf : Str} {r : Result}
    (fuel : Nat) (hn : NoSearch h) (hs : Searches buf)
    (hr : chooseCmd scripting env (fuel + 1) h 0 buf = some r) : Chosen scripting env h buf r := by
  have hkind := hs.kind
  have hcd : ¬ isCd buf = true := fun hcd =>
    not_nests_cd hcd (List.prefix_refl buf) (Or.inr hs)
  have hblank : blank buf = false := by
    rw [← Bool.not_eq_true]
    exact fun hb => blank_no_bang hb hs.bang_mem
  cases hc : chooseHead buf with
  | none =>
    obtain ⟨c, k, rfl, -⟩ := hs
    rw [chooseHead_of_not_cd (by simpa using hcd)] at hc
    split at hc
    · rename_i h0
      rw [List.length_eq_zero_iff.mp h0] at hkind
      exact absurd hkind (by decide)
    · split at hc
      · exact absurd hc (by simp)
      · exact absurd hc (by simp)
  | some q =>
    obtain ⟨b, choice, bg⟩ := q
    have hch : choice = some .searchByNum ∨ choice = some .searchByCmd := by
      rcases (chooseHead_edit hc).2 with ⟨h1, -⟩ | e
      · exact absurd h1 hcd
      · rwa [e]
    have hfail := failedSearch_of_searches h env hc hch
    cases hsel : selects h env buf with
    | none =>
      rw [chooseCmd_of_no_entry (fuel + 1) 0 hsel hc hch] at hr
      obtain rfl := Option.some.inj hr
      have hno : ¬ (⟨b, h, .nothing, 1, true⟩ : Result).Stored := fun hst =>
        absurd hst.status (by simp)
      refine ⟨rfl, rfl, hn, fun hst => absurd hst hno, fun _ => hno, fun _ => hno, ?_⟩
      intro hf
      rw [hfail, hsel] at hf
      exact absurd hf (by simp)
    | some i =>
      obtain ⟨e, he⟩ := selects_entry hsel
      have hne := hn e (List.mem_of_getElem? he)
      rw [chooseCmd_of_selects fuel 0 hsel he] at hr
      obtain ⟨r', hr', rfl⟩ := Option.map_eq_some_iff.mp hr
      have hd := chosen_direct fuel hn hne hr'
      obtain ⟨r'', hr'', hh, hp, -⟩ := chooseCmd_direct scripting env h 0 hne (fun e => by
        rw [chooseCmd_repeat e] at hr'
        exact absurd hr' (by simp))
      obtain rfl : r'' = r' := Option.some.inj ((hr'' fuel).symm.trans hr')
      have ht : ¬ Searches r''.text := fun ht => hne (ht.mono hp)
      refine ⟨by rw [← hd.total]; rfl, ?_, ?_, fun _ => ht, ?_, ?_, fun _ => ?_⟩
      · rw [← hd.marks]
        exact setCommand_marks _ _ _
      · exact hd.search.set ht i
      · intro hf
        rw [hfail, hsel] at hf
        exact absurd hf (by simp)
      · intro hb
        rw [hblank] at hb
        exact absurd hb (by simp)
      · unfold target
        rw [hsel, Option.bind_some, he]
        rw [← direct_stored_iff hne hr']
        constructor
        · intro hst
          exact ⟨returned_of_valid hr' hst.valid, hst.status, hst.valid⟩
        · intro hst
          exact ⟨rfl, hst.status, hst.valid⟩

/-- what a line does to the history before `main` stores it -/
theorem chosen_line {scripting : Bool} {env : Env} {h : History} {buf : Str} {r : Result}
    (fuel : Nat) (hn : NoSearch h) (hr : chooseCmd scripting env (fuel + 1) h 0 buf = some r) :
    Chosen scripting env h buf r := by
  by_cases hs : Searches buf
  · exact chosen_search fuel hn hs hr
  · exact chosen_direct (fuel + 1) hn hs hr

/-- the round of `main`: it stores the line, or leaves the history to `choose_cmd` -/
theorem step_cases {s t : Shell} {x : Line} (hx : Step s x t) :
    ∃ buf r, x.text s.scripting = .ok (some buf) ∧
      chooseCmd s.scripting x.env (s.hist.pairs.length + 1) s.hist 0 buf = some r ∧
      (x.env.time ≠ -1 ∧ r.Stored ∧ t.hist =
          ⟨slide 100 r.hist.pairs ⟨r.text, r.hist.totalCount, x.env.time, r.action⟩,
            r.hist.totalCount + 1⟩ ∨
        ¬ (x.env.time ≠ -1 ∧ r.Stored) ∧ t.hist = r.hist) := by
  obtain ⟨buf, r, hbuf, hr, -, hcases⟩ := hx.cases
  refine ⟨buf, r, hbuf, hr, ?_⟩
  rcases hcases with ⟨hskip, rfl⟩ | ⟨⟨h1, h2, h3⟩, rfl⟩
  · refine Or.inr ⟨?_, rfl⟩
    rintro ⟨htime, hst⟩
    rcases hskip with h1 | h1 | h1
    · exact absurd (h1.symm.trans hst.returned) (by simp)
    · exact htime h1
    · exact h1 hst.status
  · by_cases hv : validCmd r.text = true
    · refine Or.inl ⟨h2, ⟨h1, h3, hv⟩, ?_⟩
      exact if_pos hv
    · exact Or.inr ⟨fun hst => hv hst.2.valid, if_neg hv⟩

theorem NoSearch.step {s t : Shell} {x : Line} (hn : NoSearch s.hist) (hx : Step s x t) :
    NoSearch t.hist := by
  obtain ⟨buf, r, -, hr, hcases⟩ := step_cases hx
  have hch := chosen_line _ hn hr
  rcases hcases with ⟨-, hst, ht⟩ | ⟨-, ht⟩
  · rw [ht]
    intro e he
    unfold slide at he
    rcases List.mem_append.mp he with h1 | h1
    · refine hch.search e ?_
      split at h1
      · exact List.mem_of_mem_drop h1
      · exact h1
    · rw [List.mem_singleton.mp h1]
      exact hch.text hst
  · rw [ht]
    exact hch.search

/-- one line: it is not due and not entered, due and entered at the end, or due and lost -/
inductive Entered (s : Shell) (x : Line) (t : Shell) : Prop where
  | none (hk : KeptLine s x) (hd : due s x = []) (ht : t.hist.totalCount = s.hist.totalCount)
      (hm : t.hist.pairs.map Entry.mark = s.hist.pairs.map Entry.mark)
  | last (a : Action) (hk : KeptLine s x) (hd : due s x = [a])
      (ht : t.hist.totalCount = s.hist.totalCount + 1)
      (hm : t.hist.pairs.map Entry.mark =
        slide 100 (s.hist.pairs.map Entry.mark) (a, s.hist.totalCount))
  | lost (a : Action) (hk : ¬ KeptLine s x) (hd : due s x = [a])
      (ht : t.hist.totalCount = s.hist.totalCount)

theorem entered_of_step {s t : Shell} {x : Line} (hn : NoSearch s.hist) (hx : Step s x t) :
    Entered s x t := by
  obtain ⟨buf, r, hbuf, hr, hcases⟩ := step_cases hx
  have hch := chosen_line _ hn hr
  by_cases hdue : blank buf = true ∨ failedSearch s.hist x.env buf = true
  · -- not due
    have hk : KeptLine s x := by
      refine (keptLine_iff hbuf).mpr fun hb hf => ?_
      rw [hb, hf] at hdue
      exact absurd hdue (by simp)
    have hd : due s x = [] := by
      unfold due
      rw [hbuf]
      exact if_pos (by simpa using hdue)
    have hno : ¬ r.Stored := hdue.elim hch.blank hch.failed
    rcases hcases with ⟨-, hst, -⟩ | ⟨-, ht⟩
    · exact absurd hst hno
    · exact .none hk hd (by rw [ht, hch.total]) (by rw [ht, hch.marks])
  · simp only [not_or, Bool.not_eq_true] at hdue
    have hd : due s x = [r.action] := by
      unfold due
      rw [hbuf]
      dsimp only
      rw [if_neg (by simp [hdue]), hr]
    have hiff : KeptLine s x ↔ x.env.time ≠ -1 ∧ r.Stored := by
      rw [hch.stored hdue.2, keptLine_iff hbuf]
      exact ⟨fun hk => hk hdue.1 hdue.2, fun h _ _ => h⟩
    rcases hcases with ⟨htime, hst, ht⟩ | ⟨hno, ht⟩
    · refine .last r.action (hiff.mpr ⟨htime, hst⟩) hd (by rw [ht, ← hch.total]) ?_
      rw [ht, ← hch.marks, ← hch.total]
      exact map_slide Entry.mark _ _
    · exact .lost r.action (fun hk => hno (hiff.mp hk)) hd (by rw [ht, hch.total])

/-! ## sessions -/

theorem Records.nil : Records ⟨[], 1⟩ [] := ⟨rfl, rfl⟩

theorem Records.step {s t : Shell} {x : Line} {J : List Action} (hj : Records s.hist J)
    (hn : NoSearch s.hist) (hk : KeptLine s x) (hx : Step s x t) :
    Records t.hist (J ++ due s x) := by
  cases entered_of_step hn hx with
  | none _ hd ht hm =>
    rw [hd, List.append_nil]
    exact ⟨ht.trans hj.total, hm.trans hj.pairs⟩
  | last a _ hd ht hm =>
    rw [hd]
    refine ⟨by rw [ht, hj.total, List.length_append, List.length_singleton], ?_⟩
    have hp : s.hist.pairs.map Entry.mark = (J.zipIdx 1).rtake 100 := hj.pairs
    have hone : [a].zipIdx (1 + J.length) = [(a, s.hist.totalCount)] := by
      rw [hj.total, Nat.add_comm]
      rfl
    rw [List.zipIdx_append, hone, ← slide_rtake (show 0 < 100 by decide), ← hp]
    exact hm
  | lost _ hno _ _ => exact absurd hk hno

theorem journal_cons {s t : Shell} {x : Line} (hx : Step s x t) (l : List Line) :
    journal s (x :: l) = due s x ++ journal t l := by
  rw [journal, hx]

theorem records_of_kept {s t : Shell} {l : List Line} {J : List Action} (hj : Records s.hist J)
    (hn : NoSearch s.hist) (hrun : Run (guarded KeptLine Step) s l t) :
    Records t.hist (J ++ journal s l) := by
  induction hrun generalizing J with
  | nil s =>
    rw [journal, List.append_nil]
    exact hj
  | cons hx _ ih =>
    rw [journal_cons hx.2, ← List.append_assoc]
    exact ih (hj.step hn hx.1 hx.2) (hn.step hx.2)

/-- no line enters more than is due, and when as much is entered, nothing was lost -/
theorem total_le {s t : Shell} {l : List Line} (hn : NoSearch s.hist) (hrun : Run Step s l t) :
    t.hist.totalCount ≤ s.hist.totalCount + (journal s l).length ∧
      (t.hist.totalCount = s.hist.totalCount + (journal s l).length →
        Run (guarded KeptLine Step) s l t) := by
  induction hrun with
  | nil s => exact ⟨Nat.le_add_right _ _, fun _ => .nil s⟩
  | @cons s u t x l hx _ ih =>
    obtain ⟨h1, h2⟩ := ih (hn.step hx)
    rw [journal_cons hx, List.length_append]
    cases entered_of_step hn hx with
    | none hk hd ht _ =>
      rw [hd, List.length_nil]
      exact ⟨by omega, fun e => .cons ⟨hk, hx⟩ (h2 (by omega))⟩
    | last a hk hd ht _ =>
      rw [hd, List.length_singleton]
      exact ⟨by omega, fun e => .cons ⟨hk, hx⟩ (h2 (by omega))⟩
    | lost a _ hd ht =>
      rw [hd, List.length_singleton]
      exact ⟨by omega, fun e => absurd e (by omega)⟩

def quietSession : List Line := [.good "ls\n".toList, .good "# all\n".toList, .good "!7\n".toList]

def Shell.listed : Shell := ⟨true, ⟨[⟨"ls".toList, 1, 0, .program "ls".toList false⟩], 2⟩⟩

def Env.failing : Env where
  chdirOk := fun _ => true
  status := 1
  time := 0
  stack := []

end Boogsh
