import Xv6.Boogsh.History

/-!
# Replays from the history

A replay is faithful when it does what the line did that stored the entry, and leaves the history
as it was.  `faithful_of_ok_lines`: it is, in every session without the two kinds of line that
store less than they said, a `cd` at the prompt and a line that ends in `&`.  The reason is that
then every stored text is `Steady`: the edits of `choose_cmd` find nothing more to do on it.
-/

namespace Boogsh
open Ulib Lib

/-! ## fidelity -/

/-- the entry that the line `buf` replays -/
def selects (h : History) (env : Env) (buf : Str) : Option Nat :=
  match chooseHead buf with
  | some (buf, some .searchByNum, _) => searchByNum h env.stack buf
  | some (buf, some .searchByCmd, _) => searchByCmd h buf
  | _ => none

/-- every replay does what the entry's line did, and changes no entry -/
def Faithful (s : Shell) : Prop :=
  ∀ (env : Env) (status : Int) (buf : Str) (i : Nat), selects s.hist env buf = some i →
    ∃ e r, s.hist.pairs[i]? = some e ∧
      chooseCmd s.scripting env (s.hist.pairs.length + 1) s.hist status buf = some r ∧
      r.action = e.origin ∧ r.hist = s.hist

/-- the lines that fit, and store what they did: a `cd` fails, or is one of a script that keeps no `&`; a
search stores the entry it found; every other line has no `&` to lose, or is not stored, or does
nothing with the `&` nor without it -/
def OkLine (s : Shell) (x : Line) : Prop :=
  match x.text s.scripting with
  | .error _ => False
  | .ok none => True
  | .ok (some buf) =>
    match chooseHead buf with
    | none => True
    | some (buf, choice, background) =>
      match choice with
      | some .cd => x.env.chdirOk (changeDirectory s.scripting buf).2 = false ∨
          s.scripting = true ∧ buf.getLast? ≠ some '&'
      | some .searchByNum => True
      | some .searchByCmd => True
      | _ => background = false ∨ validCmd buf = false ∨
          choice = none ∧ builtIn buf = none ∧ buf.getLast? ≠ some '&'

/-! ## replaying a text that no edit changes -/

/-- what `choose_cmd` does directly, without a replay and without leaving the shell -/
def direct (buf : Str) : Option Choice → Option Action
  | some .cd => some (.chdir (buf.drop 3))
  | some .program => some (.program buf false)
  | some .history => some (.printHistory false)
  | some .historyT => some (.printHistory true)
  | some .matrix => some .matrix
  | none => some .nothing
  | some .exit => none
  | some .repeat => none
  | some .searchByNum => none
  | some .searchByCmd => none

/-- `choose_cmd` leaves the text as it is and does `a` -/
structure Steady (scripting : Bool) (text : Str) (a : Action) : Prop where
  edit : ∃ choice, chooseHead text = some (text, choice, false) ∧ direct text choice = some a ∧
    (choice = some .cd → scripting = true)

theorem Steady.choose {scripting : Bool} {text : Str} {a : Action} (hs : Steady scripting text a)
    (env : Env) (fuel : Nat) (h : History) (status : Int) :
    ∃ st, chooseCmd scripting env fuel h status text = some ⟨text, h, a, st, true⟩ := by
  obtain ⟨choice, e, ha, hcd⟩ := hs.edit
  unfold chooseCmd
  rw [e]
  match choice with
  | none =>
    rw [← Option.some.inj ha]
    exact ⟨_, rfl⟩
  | some .cd =>
    rw [← Option.some.inj ha, hcd rfl]
    exact ⟨_, rfl⟩
  | some .program =>
    rw [← Option.some.inj ha]
    exact ⟨_, rfl⟩
  | some .history =>
    rw [← Option.some.inj ha]
    exact ⟨_, rfl⟩
  | some .historyT =>
    rw [← Option.some.inj ha]
    exact ⟨_, rfl⟩
  | some .matrix =>
    rw [← Option.some.inj ha]
    exact ⟨_, rfl⟩
  | some .exit => exact absurd ha (by simp [direct])
  | some .repeat => exact absurd ha (by simp [direct])
  | some .searchByNum => exact absurd ha (by simp [direct])
  | some .searchByCmd => exact absurd ha (by simp [direct])

theorem findLast_lt {p : Entry → Bool} {l : List Entry} {i j : Nat} {found : Option Nat}
    (h : findLast p l i found = some j) : found = some j ∨ j < i + l.length := by
  induction l generalizing i found with
  | nil => exact Or.inl h
  | cons e l ih =>
    rw [List.length_cons]
    rcases ih h with h1 | h1
    · by_cases hp : p e = true
      · rw [if_pos hp] at h1
        have h2 := Option.some.inj h1
        exact Or.inr (by omega)
      · rw [if_neg hp] at h1
        exact Or.inl h1
    · exact Or.inr (by omega)

theorem findLast_entry {p : Entry → Bool} {l : List Entry} {i : Nat}
    (h : findLast p l 0 none = some i) : ∃ e, l[i]? = some e := by
  rcases findLast_lt h with h1 | h1
  · exact absurd h1 (by simp)
  · exact ⟨l.get ⟨i, by omega⟩, List.getElem?_eq_getElem (by omega)⟩

theorem setCommand_eq_self {h : History} {i : Nat} {e : Entry} (he : h.pairs[i]? = some e) :
    setCommand h i e.command = h := by
  have e1 : h.pairs.modify i (fun e' => { e' with command := e.command }) = h.pairs := by
    apply List.ext_getElem?
    intro j
    rw [List.getElem?_modify]
    by_cases hij : i = j
    · rw [← hij, he]
      simp
    · simp [hij]
  unfold setCommand
  rw [e1]

def AllSteady (s : Shell) : Prop := ∀ e ∈ s.hist.pairs, Steady s.scripting e.command e.origin

theorem selects_entry {h : History} {env : Env} {buf : Str} {i : Nat}
    (hsel : selects h env buf = some i) : ∃ e, h.pairs[i]? = some e := by
  unfold selects at hsel
  split at hsel
  · exact findLast_entry hsel
  · exact findLast_entry hsel
  · exact absurd hsel (by simp)

theorem chooseCmd_of_selects {scripting : Bool} {env : Env} {h : History} {buf : Str} {i : Nat}
    {e : Entry} (fuel : Nat) (status : Int) (hsel : selects h env buf = some i)
    (he : h.pairs[i]? = some e) : chooseCmd scripting env (fuel + 1) h status buf
      = (chooseCmd scripting env fuel h status e.command).map (fun r =>
          { r with hist := setCommand r.hist i r.text, returned := true }) := by
  unfold selects at hsel
  split at hsel
  · rename_i b bg hc
    rw [chooseCmd, hc]
    dsimp only
    rw [hsel]
    dsimp only
    rw [he]
  · rename_i b bg hc
    rw [chooseCmd, hc]
    dsimp only
    rw [hsel]
    dsimp only
    rw [he]
  · exact absurd hsel (by simp)

theorem AllSteady.replay {s : Shell} (hs : AllSteady s) {env : Env} {buf : Str} {i : Nat}
    (fuel : Nat) (status : Int) (hsel : selects s.hist env buf = some i) :
    ∃ e st, s.hist.pairs[i]? = some e ∧ chooseCmd s.scripting env (fuel + 1) s.hist status buf
      = some ⟨e.command, s.hist, e.origin, st, true⟩ := by
  obtain ⟨e, he⟩ := selects_entry hsel
  obtain ⟨st, hst⟩ := (hs e (List.mem_of_getElem? he)).choose env fuel s.hist status
  refine ⟨e, st, he, ?_⟩
  rw [chooseCmd_of_selects fuel status hsel he, hst, Option.map_some, setCommand_eq_self he]

theorem AllSteady.faithful {s : Shell} (hs : AllSteady s) : Faithful s := by
  intro env status buf i hsel
  obtain ⟨e, st, he, hr⟩ := hs.replay s.hist.pairs.length status hsel
  exact ⟨e, _, he, hr, rfl, rfl⟩

/-! ## what a line stores -/

/-- a newline can only be the last character -/
def NlAtEnd (s : Str) : Prop := ∀ l r, s = l ++ '\n' :: r → r = []

theorem NlAtEnd.mono {s t : Str} (hs : NlAtEnd s) (h : t <+: s) : NlAtEnd t := by
  intro l r e
  obtain ⟨k, rfl⟩ := h
  have h1 := hs l (r ++ k) (by rw [e, List.append_assoc, List.cons_append])
  exact (List.append_eq_nil_iff.mp h1).1

theorem NlAtEnd.not_mem_dropLast {s : Str} (hs : NlAtEnd s) : '\n' ∉ s.dropLast := by
  intro h
  obtain ⟨l, r, e⟩ := List.append_of_mem h
  rcases List.eq_nil_or_concat s with h0 | ⟨t, c, h0⟩
  · rw [h0] at e
    exact absurd e (by simp)
  · rw [List.concat_eq_append] at h0
    rw [h0, List.dropLast_concat] at e
    have h1 := hs l (r ++ [c]) (by rw [h0, e, List.append_assoc, List.cons_append])
    exact absurd h1 (by simp)

theorem nlAtEnd_of_not_mem {s : Str} (h : '\n' ∉ s) : NlAtEnd s := by
  intro l r e
  exact absurd (e ▸ by simp) h

theorem NlAtEnd.not_mem_chop {s : Str} (hs : NlAtEnd s) : '\n' ∉ chopNewline s := by
  unfold chopNewline
  split
  · exact hs.not_mem_dropLast
  · rename_i hlast
    intro h
    obtain ⟨l, r, e⟩ := List.append_of_mem h
    have h1 := hs l r e
    rw [h1] at e
    exact hlast (by rw [e, List.getLast?_concat])

theorem isCd_chopNewline (s : Str) : isCd (chopNewline s) = isCd s := by
  unfold chopNewline
  split
  · rename_i h
    obtain ⟨t, rfl⟩ := List.getLast?_eq_some_iff.mp h
    rw [List.dropLast_concat, isCd_append (Or.inl rfl)]
  · rfl

theorem not_cd_of_builtIn_none {b : Str} (h : builtIn b = none) : isCd b = false ∧ b ≠ [] := by
  have h0 : b ≠ [] := by
    rintro rfl
    exact absurd h (by decide)
  refine ⟨?_, h0⟩
  cases hcd : isCd b with
  | false => rfl
  | true =>
    obtain ⟨p, rfl⟩ := isCd_iff.mp hcd
    exact absurd h (by simp [builtIn])

/-- a text that is not a `cd` and is stored without losing an `&` is edited no further -/
theorem chooseHead_again {buf b : Str} {choice : Option Choice} {bg : Bool} (hnl : NlAtEnd buf)
    (hcd : isCd buf = false) (hc : chooseHead buf = some (b, choice, bg))
    (hb : bg = false ∨ choice = none ∧ builtIn b = none ∧ b.getLast? ≠ some '&') :
    chooseHead b = some (b, choice, false) := by
  have hn := hnl.not_mem_chop
  have hcd' : isCd (chopNewline buf) = false := by rw [isCd_chopNewline, hcd]
  rw [chooseHead_of_not_cd hcd] at hc
  by_cases h0 : (chopNewline buf).length = 0
  · rw [if_pos h0] at hc
    exact absurd hc (by simp)
  rw [if_neg h0] at hc
  by_cases ha : (chopNewline buf).getLast? = some '&'
  · rw [if_pos ha] at hc
    obtain ⟨rfl, rfl, rfl⟩ : _ ∧ _ ∧ _ := by simpa using Option.some.inj hc
    obtain ⟨e1, e2, e3⟩ := hb.resolve_left (by simp)
    obtain ⟨h1, h2⟩ := not_cd_of_builtIn_none e2
    have hn' : '\n' ∉ (chopNewline buf).dropLast := fun h => hn (List.dropLast_subset _ h)
    rw [chooseHead_of_not_cd h1, chopNewline_of_not_mem hn',
      if_neg (fun h => h2 (List.length_eq_zero_iff.mp h)), if_neg e3, e1, e2]
  · rw [if_neg ha] at hc
    obtain ⟨rfl, rfl, rfl⟩ : _ ∧ _ ∧ _ := by simpa using Option.some.inj hc
    rw [chooseHead_of_not_cd hcd', chopNewline_of_not_mem hn, if_neg h0, if_neg ha]

theorem chooseHead_again_cd {buf b : Str} {choice : Option Choice} {bg : Bool}
    (hcd : isCd buf = true) (hc : chooseHead buf = some (b, choice, bg))
    (hb : b.getLast? ≠ some '&') : choice = some .cd ∧ chooseHead b = some (b, some .cd, false) := by
  rw [chooseHead_of_cd hcd] at hc
  by_cases ha : buf.getLast? = some '&'
  · rw [if_pos ha] at hc
    obtain ⟨rfl, rfl, rfl⟩ : _ ∧ _ ∧ _ := by simpa using Option.some.inj hc
    refine ⟨rfl, ?_⟩
    rw [chooseHead_of_cd (isCd_dropLast hcd ha).1, if_neg hb]
  · rw [if_neg ha] at hc
    obtain ⟨rfl, rfl, rfl⟩ : _ ∧ _ ∧ _ := by simpa using Option.some.inj hc
    refine ⟨rfl, ?_⟩
    rw [chooseHead_of_cd hcd, if_neg hb]

theorem choice_of_cd {buf b : Str} {choice : Option Choice} {bg : Bool} (hcd : isCd buf = true)
    (hc : chooseHead buf = some (b, choice, bg)) : choice = some .cd := by
  rw [chooseHead_of_cd hcd] at hc
  split at hc
  · obtain ⟨-, rfl, -⟩ : _ ∧ _ ∧ _ := by simpa using Option.some.inj hc
    rfl
  · obtain ⟨-, rfl, -⟩ : _ ∧ _ ∧ _ := by simpa using Option.some.inj hc
    rfl

theorem choice_of_not_cd {buf b : Str} {choice : Option Choice} {bg : Bool}
    (hcd : isCd buf = false) (hc : chooseHead buf = some (b, choice, bg)) : choice ≠ some .cd := by
  have h := builtIn_ne_cd (chopNewline buf)
  rw [chooseHead_of_not_cd hcd] at hc
  split at hc
  · exact absurd hc (by simp)
  · split at hc
    · obtain ⟨-, rfl, -⟩ : _ ∧ _ ∧ _ := by simpa using Option.some.inj hc
      exact h
    · obtain ⟨-, rfl, -⟩ : _ ∧ _ ∧ _ := by simpa using Option.some.inj hc
      exact h

/-- what `choose_cmd` returns for a line that may be stored -/
structure Stores (s : Shell) (r : Result) : Prop where
  hist : r.hist = s.hist
  text : r.returned = true → r.exitStatus = 0 → validCmd r.text = true →
    Steady s.scripting r.text r.action

theorem stores_of_failed {s : Shell} {r : Result} (hh : r.hist = s.hist) (h : r.exitStatus ≠ 0) :
    Stores s r := ⟨hh, fun _ h0 => absurd h0 h⟩

theorem stores_of_kept {s : Shell} {buf b : Str} {choice : Option Choice} {bg : Bool} {a : Action}
    {st : Int} (hnl : NlAtEnd buf) (hcd : isCd buf = false)
    (hc : chooseHead buf = some (b, choice, bg))
    (hok : bg = false ∨ validCmd b = false ∨
      choice = none ∧ builtIn b = none ∧ b.getLast? ≠ some '&')
    (ha : bg = false ∨ choice = none → direct b choice = some a) :
    Stores s ⟨b, s.hist, a, st, true⟩ := by
  refine ⟨rfl, fun _ _ hv => ⟨choice, ?_, ?_, ?_⟩⟩
  · refine chooseHead_again hnl hcd hc (hok.imp_right (fun h => h.resolve_left ?_))
    rw [show validCmd b = true from hv]
    simp
  · refine ha (hok.imp_right (fun h => (h.resolve_left ?_).1))
    rw [show validCmd b = true from hv]
    simp
  · exact fun h => absurd h (choice_of_not_cd hcd hc)

theorem AllSteady.stores {s : Shell} (hs : AllSteady s) {x : Line} {buf : Str} {r : Result}
    (hbuf : x.text s.scripting = .ok (some buf)) (hnl : NlAtEnd buf) (hok : OkLine s x)
    (hr : chooseCmd s.scripting x.env (s.hist.pairs.length + 1) s.hist 0 buf = some r)
    (hexit : r.action ≠ .exit) : Stores s r := by
  unfold OkLine at hok
  rw [hbuf] at hok
  dsimp only at hok
  cases hsel : selects s.hist x.env buf with
  | some i =>
    -- a replay stores the text of its entry
    obtain ⟨e, st, he, hre⟩ := hs.replay s.hist.pairs.length 0 hsel
    rw [hre] at hr
    rw [← Option.some.inj hr]
    exact ⟨rfl, fun _ _ _ => hs e (List.mem_of_getElem? he)⟩
  | none =>
    unfold selects at hsel
    cases hc : chooseHead buf with
    | none =>
      rw [chooseCmd, hc] at hr
      rw [← Option.some.inj hr]
      exact ⟨rfl, fun h => absurd h (by simp)⟩
    | some q =>
      obtain ⟨b, choice, bg⟩ := q
      rw [hc] at hok hsel
      rw [chooseCmd, hc] at hr
      dsimp only at hok hsel hr
      by_cases hcd : isCd buf = true
      · obtain rfl := choice_of_cd hcd hc
        dsimp only at hok hr
        rw [← Option.some.inj hr]
        rcases hok with hfail | ⟨hscr, hamp⟩
        · refine stores_of_failed rfl ?_
          rw [hfail]
          simp
        · obtain ⟨-, h2⟩ := chooseHead_again_cd hcd hc hamp
          refine ⟨rfl, fun _ _ _ => ⟨some .cd, ?_, ?_, fun _ => hscr⟩⟩
          · rw [hscr]
            exact h2
          · rw [hscr]
            rfl
      · have hcd' : isCd buf = false := by simpa using hcd
        match choice with
        | none =>
          rw [← Option.some.inj hr]
          exact stores_of_kept hnl hcd' hc hok (fun _ => rfl)
        | some .cd => exact absurd rfl (choice_of_not_cd hcd' hc)
        | some .exit =>
          rw [← Option.some.inj hr] at hexit
          exact absurd rfl hexit
        | some .repeat => exact absurd hr (by simp)
        | some .history =>
          rw [← Option.some.inj hr]
          exact stores_of_kept hnl hcd' hc hok (fun _ => rfl)
        | some .historyT =>
          rw [← Option.some.inj hr]
          exact stores_of_kept hnl hcd' hc hok (fun _ => rfl)
        | some .matrix =>
          rw [← Option.some.inj hr]
          exact stores_of_kept hnl hcd' hc hok (fun _ => rfl)
        | some .program =>
          rw [← Option.some.inj hr]
          refine stores_of_kept hnl hcd' hc hok (fun h => ?_)
          rw [h.resolve_right (by simp)]
          rfl
        | some .searchByNum =>
          dsimp only at hsel hr
          rw [hsel] at hr
          rw [← Option.some.inj hr]
          exact stores_of_failed rfl (by simp)
        | some .searchByCmd =>
          dsimp only at hsel hr
          rw [hsel] at hr
          rw [← Option.some.inj hr]
          exact stores_of_failed rfl (by simp)

/-! ## the lines of a session -/

theorem fgetsLoop_nlAtEnd (room : Nat) (input : Str) : NlAtEnd (fgetsLoop room input).1 := by
  induction room generalizing input with
  | zero => exact nlAtEnd_of_not_mem (by simp [fgetsLoop])
  | succ room ih =>
    cases input with
    | nil => exact nlAtEnd_of_not_mem (by simp [fgetsLoop])
    | cons c input =>
      unfold fgetsLoop
      split
      · intro l r e
        rcases List.append_eq_singleton_iff.mp e.symm with ⟨_, h⟩ | ⟨_, h⟩
        · exact (List.cons.inj h).2
        · exact absurd h (by simp)
      · rename_i hc
        intro l r e
        cases l with
        | nil => exact absurd (Or.inl (List.cons.inj e).1) hc
        | cons d l => exact ih input l r (List.cons.inj e).2

theorem scan_nlAtEnd (f : Fill) (input : Str) : NlAtEnd (f.scan input).1 := by
  induction input generalizing f with
  | nil => exact nlAtEnd_of_not_mem List.not_mem_nil
  | cons c input ih =>
    rw [Fill.scan_cons]
    split
    · exact nlAtEnd_of_not_mem List.not_mem_nil
    · split
      · intro l r e
        rcases List.append_eq_singleton_iff.mp e.symm with ⟨_, h⟩ | ⟨_, h⟩
        · exact (List.cons.inj h).2
        · exact absurd h (by simp)
      · rename_i hc
        intro l r e
        cases l with
        | nil => exact absurd (List.cons.inj e).1 hc
        | cons d l => exact ih (f.put c) l r (List.cons.inj e).2

theorem Line.shown_nlAtEnd (scripting : Bool) (x : Line) : NlAtEnd (x.shown scripting) := by
  unfold Line.shown
  cases scripting with
  | false =>
    rw [if_neg (by simp)]
    refine (fgetsLoop_nlAtEnd (bufferSize - 1) x.input).mono ?_
    exact (List.takeWhile_prefix _).trans (List.takeWhile_prefix _)
  | true =>
    rw [if_pos rfl]
    refine (scan_nlAtEnd (.start (firstCapacity x.buf.max)) x.input).mono ?_
    exact (List.takeWhile_prefix _).trans
      ((List.dropLast_prefix _).trans (List.takeWhile_prefix _))

theorem Line.text_nlAtEnd {scripting : Bool} {x : Line} {buf : Str}
    (h : x.text scripting = .ok (some buf)) : NlAtEnd buf :=
  Line.shown_of_text h ▸ x.shown_nlAtEnd scripting

/-! ## sessions -/

theorem mem_addHistory {h : History} {c : Str} {t : Int} {a : Action} {e : Entry}
    (he : e ∈ (addHistory h c t a).pairs) :
    e ∈ h.pairs ∨ validCmd c = true ∧ e.command = c ∧ e.origin = a := by
  unfold addHistory at he
  split at he
  · rename_i hv
    rcases List.mem_append.mp he with h1 | h1
    · refine Or.inl ?_
      split at h1
      · exact List.mem_of_mem_drop h1
      · exact h1
    · rw [List.mem_singleton] at h1
      exact Or.inr ⟨hv, by rw [h1], by rw [h1]⟩
  · exact Or.inl he

theorem AllSteady.step {s t : Shell} {x : Line} (hs : AllSteady s)
    (h : guarded OkLine Step s x t) : AllSteady t := by
  obtain ⟨hok, hx⟩ := h
  obtain ⟨buf, r, hbuf, hr, hexit, hcases⟩ := hx.cases
  have hst := hs.stores hbuf (Line.text_nlAtEnd hbuf) hok hr hexit
  rcases hcases with ⟨-, rfl⟩ | ⟨⟨h1, -, h2⟩, rfl⟩
  · intro e he
    exact hs e (hst.hist ▸ he)
  · intro e he
    rcases mem_addHistory he with h3 | ⟨hv, e1, e2⟩
    · exact hs e (hst.hist ▸ h3)
    · rw [e1, e2]
      exact hst.text h1 h2 hv

/-- in every session whose lines all store what they did, replays are faithful -/
theorem faithful_of_ok_lines (scripting : Bool) (l : List Line) (s : Shell)
    (hrun : Run (guarded OkLine Step) (.start scripting) l s) : Faithful s :=
  AllSteady.faithful (hrun.invariant (fun _ _ _ hs h => hs.step h)
    (fun _ he => absurd he List.not_mem_nil))

def Env.good : Env where
  chdirOk := fun _ => true
  status := 0
  time := 0
  stack := []

def Line.good (input : Str) : Line := ⟨input, .start .plenty, .start .plenty, .good⟩

/-- `ls` at the prompt -/
theorem faithful_after_ls : ∃ s, Run (guarded OkLine Step) (.start false)
    [.good "ls\n".toList] s ∧ s.hist.pairs.length = 1 ∧ Faithful s := by
  have hrun : Run (guarded OkLine Step) (.start false) [.good "ls\n".toList]
      ⟨false, ⟨[⟨"ls".toList, 1, 0, .program "ls".toList false⟩], 2⟩⟩ :=
    .single ⟨Or.inl (by decide), by decide +kernel⟩
  exact ⟨_, hrun, rfl, faithful_of_ok_lines false _ _ hrun⟩

/-- `cd docs` at the prompt: the first replay goes to `doc`, and leaves `cd doc` in the history -/
theorem replay_chops : ¬ ∀ (scripting : Bool) (l : List Line) (s : Shell),
    Run Step (.start scripting) l s → Faithful s := by
  intro h
  have hrun : Run Step (.start false) [.good "cd docs\n".toList]
      ⟨false, ⟨[⟨"cd docs".toList, 1, 0, .chdir "docs".toList⟩], 2⟩⟩ := .single (by decide +kernel)
  obtain ⟨e, r, he, hr, ha, -⟩ := h false _ _ hrun .good 0 "!1".toList 0 (by decide)
  have hr2 : chooseCmd false .good 2 ⟨[⟨"cd docs".toList, 1, 0, .chdir "docs".toList⟩], 2⟩ 0
      "!1".toList = some ⟨"cd doc".toList, ⟨[⟨"cd doc".toList, 1, 0, .chdir "docs".toList⟩], 2⟩,
        .chdir "doc".toList, 0, true⟩ := by decide +kernel
  rw [← Option.some.inj he, ← Option.some.inj (hr2.symm.trans hr)] at ha
  exact absurd ha (by decide)

end Boogsh
