import Xv6.Boogsh.Replay

/-!
# Replays of replays

`choose_cmd` calls itself on the text of a history entry.  Nothing checks that this text is not a
history designator again; `never_nested` says that it never is, as long as no line is `!!`: a search
that succeeds overwrites the buffer with the text it found, a search that fails sets `exit_status`,
and no edit turns another text into a designator.  A line of a script that does not fit into `buf`
is copied over what stands behind it, the history included, before anything is looked at.
-/

namespace Boogsh
open Ulib Lib

/-- `!` with a digit or a lowercase letter -/
def Searches (t : Str) : Prop :=
  ∃ c r, t = '!' :: c :: r ∧ (isDigit c = true ∨ isLower c = true)

/-- a text that `check_built_in` takes for a history designator -/
def Designator (t : Str) : Prop := t = "!!".toList ∨ Searches t

/-- `!!`, and what becomes `!!` when newlines and `&`s are cut off -/
def Repeats (t : Str) : Prop := ∃ r, t = '!' :: '!' :: r ∧ ∀ c ∈ r, c = '&' ∨ c = '\n'

/-- what an entry must not be -/
def Nests (t : Str) : Prop := Repeats t ∨ Searches t

/-- no entry is a designator, or becomes one -/
def Flat (h : History) : Prop := ∀ e ∈ h.pairs, ¬ Nests e.command

/-- a line that does not use `!!` -/
def OtherLine (s : Shell) (x : Line) : Prop := ¬ Repeats (x.shown s.scripting)

/-- replays do not nest: no entry is a designator; `fuel` bounds the nested calls, so the entries make
none, every other text but `!!` makes at most one, and every line ends its round -/
structure Nestless (s : Shell) : Prop where
  entries : ∀ e ∈ s.hist.pairs, ¬ Designator e.command
  depth : ∀ env status, ∀ e ∈ s.hist.pairs,
    ∃ r, ∀ fuel, chooseCmd s.scripting env fuel s.hist status e.command = some r
  calls : ∀ env status buf, chopNewline buf ≠ "!!".toList →
    ∃ r, ∀ fuel, chooseCmd s.scripting env (fuel + 1) s.hist status buf = some r
  lines : ∀ x, OtherLine s x → ∃ o, runLine s x = .ok o

theorem Designator.nests {t : Str} (h : Designator t) : Nests t := by
  apply h.imp _ id
  rintro rfl
  exact ⟨[], rfl, fun c hc => absurd hc List.not_mem_nil⟩

/-! ## the edits of `choose_cmd` -/

theorem Nests.head {t : Str} (h : Nests t) : t.head? = some '!' := by
  rcases h with ⟨r, rfl, -⟩ | ⟨c, r, rfl, -⟩
  · rfl
  · rfl

theorem Searches.mono {b buf : Str} (h : Searches b) (hb : b <+: buf) : Searches buf := by
  obtain ⟨c, r, rfl, hc⟩ := h
  obtain ⟨k, rfl⟩ := hb
  exact ⟨c, r ++ k, rfl, hc⟩

theorem Nests.append {t s : Str} (h : Nests t) (hs : ∀ c ∈ s, c = '&' ∨ c = '\n') :
    Nests (t ++ s) := by
  rcases h with ⟨r, rfl, hr⟩ | ⟨c, r, rfl, hc⟩
  · refine Or.inl ⟨r ++ s, rfl, ?_⟩
    intro c hc
    exact (List.mem_append.mp hc).elim (hr c) (hs c)
  · exact Or.inr ⟨c, r ++ s, rfl, hc⟩

theorem chopNewline_tail (buf : Str) :
    ∃ s, buf = chopNewline buf ++ s ∧ ∀ c ∈ s, c = '&' ∨ c = '\n' := by
  unfold chopNewline
  split
  · rename_i h
    obtain ⟨t, rfl⟩ := List.getLast?_eq_some_iff.mp h
    refine ⟨['\n'], by rw [List.dropLast_concat], ?_⟩
    intro c hc
    exact Or.inr (List.mem_singleton.mp hc)
  · exact ⟨[], (List.append_nil buf).symm, fun c hc => absurd hc List.not_mem_nil⟩

theorem chopNewline_initial (buf : Str) : chopNewline buf <+: buf := by
  obtain ⟨s, hs, -⟩ := chopNewline_tail buf
  exact ⟨s, hs.symm⟩

theorem dropLast_tail {buf : Str} (h : buf.getLast? = some '&') :
    ∃ s, buf = buf.dropLast ++ s ∧ ∀ c ∈ s, c = '&' ∨ c = '\n' := by
  obtain ⟨t, rfl⟩ := List.getLast?_eq_some_iff.mp h
  refine ⟨['&'], by rw [List.dropLast_concat], ?_⟩
  intro c hc
  exact Or.inl (List.mem_singleton.mp hc)

theorem chooseHead_edit {buf b : Str} {choice : Option Choice} {bg : Bool}
    (hc : chooseHead buf = some (b, choice, bg)) :
    (∃ s, buf = b ++ s ∧ ∀ c ∈ s, c = '&' ∨ c = '\n') ∧
      (isCd buf = true ∧ choice = some .cd ∨ choice = builtIn (chopNewline buf)) := by
  by_cases hcd : isCd buf = true
  · refine ⟨?_, Or.inl ⟨hcd, choice_of_cd hcd hc⟩⟩
    rw [chooseHead_of_cd hcd] at hc
    split at hc
    · rename_i ha
      obtain ⟨rfl, -, -⟩ : _ ∧ _ ∧ _ := by simpa using Option.some.inj hc
      exact dropLast_tail ha
    · obtain ⟨rfl, -, -⟩ : _ ∧ _ ∧ _ := by simpa using Option.some.inj hc
      exact ⟨[], (List.append_nil _).symm, fun c hc => absurd hc List.not_mem_nil⟩
  · rw [chooseHead_of_not_cd (by simpa using hcd)] at hc
    obtain ⟨s, hs, hs'⟩ := chopNewline_tail buf
    split at hc
    · exact absurd hc (by simp)
    · split at hc
      · rename_i ha
        obtain ⟨rfl, rfl, -⟩ : _ ∧ _ ∧ _ := by simpa using Option.some.inj hc
        refine ⟨?_, Or.inr rfl⟩
        obtain ⟨k, hk, hk'⟩ := dropLast_tail ha
        refine ⟨k ++ s, ?_, ?_⟩
        · rw [← List.append_assoc, ← hk]
          exact hs
        · intro c hc
          exact (List.mem_append.mp hc).elim (hk' c) (hs' c)
      · obtain ⟨rfl, rfl, -⟩ : _ ∧ _ ∧ _ := by simpa using Option.some.inj hc
        exact ⟨⟨s, hs, hs'⟩, Or.inr rfl⟩

theorem Nests.of_edit {buf b : Str} {choice : Option Choice} {bg : Bool}
    (hc : chooseHead buf = some (b, choice, bg)) (hb : Nests b) : Nests buf := by
  obtain ⟨⟨s, hs, hs'⟩, -⟩ := chooseHead_edit hc
  rw [hs]
  exact hb.append hs'

theorem chopNewline_bang {c : Char} (hc : c ≠ '\n') (r : Str) :
    ∃ r', chopNewline ('!' :: c :: r) = '!' :: c :: r' := by
  unfold chopNewline
  split
  · rename_i h
    cases r with
    | nil => exact absurd (Option.some.inj h) hc
    | cons d r => exact ⟨_, rfl⟩
  · exact ⟨r, rfl⟩

theorem Searches.kind {buf : Str} (h : Searches buf) :
    builtIn (chopNewline buf) = some .searchByNum ∨
      builtIn (chopNewline buf) = some .searchByCmd := by
  obtain ⟨c, r, rfl, hc⟩ := h
  have hn : c ≠ '\n' := by
    rintro rfl
    exact absurd hc (by decide)
  have hx : c ≠ '!' := by
    rintro rfl
    exact absurd hc (by decide)
  obtain ⟨r', hr⟩ := chopNewline_bang hn r
  have e : builtIn ('!' :: c :: r') = searchKind (some c) := by simp [builtIn, hx]
  rw [hr, e]
  unfold searchKind
  dsimp only
  by_cases hd : isDigit c = true
  · rw [if_pos hd]
    exact Or.inl rfl
  · rw [if_neg hd, if_pos (hc.resolve_left hd)]
    exact Or.inr rfl

theorem kind_searches {V : Str}
    (h : builtIn V = some .searchByNum ∨ builtIn V = some .searchByCmd) : Searches V := by
  have hkind : searchKind V[1]? = some .searchByNum ∨ searchKind V[1]? = some .searchByCmd →
      searchKind V[1]? ≠ none := by
    intro hs
    rcases hs with hs | hs
    · simp [hs]
    · simp [hs]
  have hV : V.head? = some '!' ∧ searchKind V[1]? ≠ none := by
    unfold builtIn at h
    repeat' split at h
    all_goals first | exact ⟨‹_›, hkind h⟩ | exact absurd h (by simp)
  match V with
  | [] => exact absurd hV.1 (by simp)
  | [a] => exact absurd rfl hV.2
  | a :: c :: r =>
    obtain rfl : a = '!' := Option.some.inj hV.1
    refine ⟨c, r, rfl, ?_⟩
    by_contra hno
    rw [not_or] at hno
    exact hV.2 (by simp [searchKind, hno.1, hno.2])

theorem chopNewline_eq_repeat {buf : Str} (h : builtIn (chopNewline buf) = some .repeat) :
    chopNewline buf = "!!".toList := by
  generalize chopNewline buf = V at h
  unfold builtIn at h
  have hs := searchKind_cases V[1]?
  repeat' split at h
  all_goals simp_all

theorem repeats_of_chop {buf : Str} (h : chopNewline buf = "!!".toList) : Repeats buf := by
  obtain ⟨s, hs, hs'⟩ := chopNewline_tail buf
  rw [h] at hs
  exact ⟨s, hs, hs'⟩

theorem not_nests_cd {buf b : Str} (hcd : isCd buf = true) (hb : b <+: buf) : ¬ Nests b := by
  intro h
  obtain ⟨p, rfl⟩ := isCd_iff.mp hcd
  obtain ⟨k, hk⟩ := hb
  have h1 := h.head
  cases b with
  | nil => exact absurd h1 (by simp)
  | cons a b =>
    have h2 : a = 'c' := (List.cons.inj hk).1
    rw [h2] at h1
    exact absurd (Option.some.inj h1) (by decide)

/-! ## one line -/

/-- a line that is no designator makes no nested call and leaves none -/
theorem chooseCmd_direct (scripting : Bool) (env : Env) (h : History) (status : Int) {buf : Str}
    (hbuf : ¬ Searches buf) (hrep : chopNewline buf ≠ "!!".toList) :
    ∃ r, (∀ fuel, chooseCmd scripting env fuel h status buf = some r) ∧ r.hist = h ∧
      r.text <+: buf ∧ (¬ Nests buf → ¬ Nests r.text) := by
  cases hc : chooseHead buf with
  | none =>
    refine ⟨_, fun fuel => by rw [chooseCmd, hc], rfl, List.nil_prefix, fun _ hn => ?_⟩
    exact absurd hn.head (by simp)
  | some q =>
    obtain ⟨b, choice, bg⟩ := q
    have hkeep : ¬ Nests buf → ¬ Nests b := fun hn hb => hn (hb.of_edit hc)
    obtain ⟨⟨s, hs, -⟩, hch⟩ := chooseHead_edit hc
    have hb : b <+: buf := ⟨s, hs.symm⟩
    cases choice with
    | none => exact ⟨_, fun fuel => by rw [chooseCmd, hc], rfl, hb, hkeep⟩
    | some k =>
      cases k with
      | cd =>
        have hcd : isCd buf = true :=
          hch.elim And.left (fun e => absurd e.symm (builtIn_ne_cd _))
        have hp : (changeDirectory scripting b).1 <+: buf := by
          show (if scripting then b else b.dropLast) <+: buf
          split
          · exact hb
          · exact (List.dropLast_prefix b).trans hb
        exact ⟨_, fun fuel => by rw [chooseCmd, hc], rfl, hp, fun _ => not_nests_cd hcd hp⟩
      | «repeat» =>
        have e := hch.resolve_left (by simp)
        exact absurd (chopNewline_eq_repeat e.symm) hrep
      | searchByNum =>
        have e := kind_searches (Or.inl (hch.resolve_left (by simp)).symm)
        exact absurd (e.mono (chopNewline_initial buf)) hbuf
      | searchByCmd =>
        have e := kind_searches (Or.inr (hch.resolve_left (by simp)).symm)
        exact absurd (e.mono (chopNewline_initial buf)) hbuf
      | exit => exact ⟨_, fun fuel => by rw [chooseCmd, hc], rfl, hb, hkeep⟩
      | history => exact ⟨_, fun fuel => by rw [chooseCmd, hc], rfl, hb, hkeep⟩
      | historyT => exact ⟨_, fun fuel => by rw [chooseCmd, hc], rfl, hb, hkeep⟩
      | program => exact ⟨_, fun fuel => by rw [chooseCmd, hc], rfl, hb, hkeep⟩
      | matrix => exact ⟨_, fun fuel => by rw [chooseCmd, hc], rfl, hb, hkeep⟩

theorem not_repeat_of_not_nests {buf : Str} (h : ¬ Nests buf) : chopNewline buf ≠ "!!".toList :=
  fun e => h (Or.inl (repeats_of_chop e))

theorem mem_setCommand {h : History} {i : Nat} {t : Str} {e : Entry}
    (he : e ∈ (setCommand h i t).pairs) : e.command = t ∨ e ∈ h.pairs := by
  obtain ⟨j, hj⟩ := List.mem_iff_getElem?.mp he
  rw [show (setCommand h i t).pairs = h.pairs.modify i (fun e => { e with command := t }) from rfl,
    List.getElem?_modify] at hj
  obtain ⟨e', he', rfl⟩ := Option.map_eq_some_iff.mp hj
  split
  · exact Or.inl rfl
  · exact Or.inr (List.mem_of_getElem? he')

theorem Flat.set {h : History} (hf : Flat h) {t : Str} (ht : ¬ Nests t) (i : Nat) :
    Flat (setCommand h i t) := by
  intro e he
  rcases mem_setCommand he with rfl | he
  · exact ht
  · exact hf e he

theorem chooseCmd_of_no_entry {scripting : Bool} {env : Env} {h : History} {buf b : Str}
    {choice : Option Choice} {bg : Bool} (fuel : Nat) (status : Int)
    (hsel : selects h env buf = none) (hc : chooseHead buf = some (b, choice, bg))
    (hs : choice = some .searchByNum ∨ choice = some .searchByCmd) :
    chooseCmd scripting env fuel h status buf = some ⟨b, h, .nothing, 1, true⟩ := by
  unfold selects at hsel
  rw [hc] at hsel
  rw [chooseCmd, hc]
  rcases hs with rfl | rfl
  · dsimp only at hsel ⊢
    rw [hsel]
  · dsimp only at hsel ⊢
    rw [hsel]

/-- a replay: the entry it finds is no designator, so the nested call is the last one; a search
that finds nothing fails -/
theorem chooseCmd_search (scripting : Bool) (env : Env) {h : History} (hf : Flat h) (status : Int)
    {buf b : Str} {choice : Option Choice} {bg : Bool} (hc : chooseHead buf = some (b, choice, bg))
    (hs : choice = some .searchByNum ∨ choice = some .searchByCmd) :
    ∃ r, (∀ fuel, chooseCmd scripting env (fuel + 1) h status buf = some r) ∧ Flat r.hist ∧
      (r.exitStatus = 0 → ¬ Nests r.text) := by
  cases hsel : selects h env buf with
  | some i =>
    obtain ⟨e, he⟩ := selects_entry hsel
    have hn := hf e (List.mem_of_getElem? he)
    obtain ⟨r, hr, hh, -, ht⟩ := chooseCmd_direct scripting env h status
      (fun hx => hn (Or.inr hx)) (not_repeat_of_not_nests hn)
    refine ⟨{ r with hist := setCommand r.hist i r.text, returned := true }, ?_, ?_, fun _ => ht hn⟩
    · intro fuel
      rw [chooseCmd_of_selects fuel status hsel he, hr fuel]
      rfl
    · exact hh ▸ hf.set (ht hn) i
  | none =>
    exact ⟨_, fun fuel => chooseCmd_of_no_entry (fuel + 1) status hsel hc hs, hf,
      fun h1 => absurd h1 (by simp)⟩

theorem chooseCmd_line (scripting : Bool) (env : Env) {h : History} (hf : Flat h) (status : Int)
    {buf : Str} (hrep : chopNewline buf ≠ "!!".toList) :
    ∃ r, (∀ fuel, chooseCmd scripting env (fuel + 1) h status buf = some r) ∧ Flat r.hist ∧
      (¬ Repeats buf → r.exitStatus = 0 → ¬ Nests r.text) := by
  by_cases hs : Searches buf
  · cases hc : chooseHead buf with
    | none =>
      refine ⟨_, fun fuel => by rw [chooseCmd, hc], hf, fun _ _ hn => ?_⟩
      exact absurd hn.head (by simp)
    | some q =>
      obtain ⟨b, choice, bg⟩ := q
      have hkind := hs.kind
      have hch : choice = some .searchByNum ∨ choice = some .searchByCmd := by
        rcases (chooseHead_edit hc).2 with ⟨hcd, -⟩ | e
        · exact absurd (Or.inr hs) (not_nests_cd hcd (List.prefix_refl buf))
        · rwa [e]
      obtain ⟨r, hr, hfr, ht⟩ := chooseCmd_search scripting env hf status hc hch
      exact ⟨r, hr, hfr, fun _ => ht⟩
  · obtain ⟨r, hr, hh, -, ht⟩ := chooseCmd_direct scripting env h status hs hrep
    refine ⟨r, fun fuel => hr (fuel + 1), hh ▸ hf, fun hn _ => ht ?_⟩
    exact fun h => h.elim hn hs

/-! ## sessions -/

theorem Flat.add {h : History} (hf : Flat h) {c : Str} (hc : ¬ Nests c) (t : Int)
    (a : Action) : Flat (addHistory h c t a) := by
  intro e he
  rcases mem_addHistory he with h1 | ⟨-, e1, -⟩
  · exact hf e h1
  · rw [e1]
    exact hc

theorem Flat.step {s t : Shell} {x : Line} (hf : Flat s.hist)
    (h : guarded OtherLine Step s x t) : Flat t.hist := by
  obtain ⟨hok, hx⟩ := h
  obtain ⟨buf, r, hbuf, hr, -, hcases⟩ := hx.cases
  have hrep : ¬ Repeats buf := Line.shown_of_text hbuf ▸ hok
  obtain ⟨r', hr', hfr, ht⟩ := chooseCmd_line s.scripting x.env hf 0
    (fun e => hrep (repeats_of_chop e))
  obtain rfl := Option.some.inj ((hr' _).symm.trans hr)
  rcases hcases with ⟨-, rfl⟩ | ⟨⟨-, -, h2⟩, rfl⟩
  · exact hfr
  · exact hfr.add (ht hrep h2) _ _

theorem Flat.runLine_ok_iff {s : Shell} {x : Line} (hf : Flat s.hist) (hx : OtherLine s x) :
    (∃ o, runLine s x = .ok o) ↔ x.Fits s.scripting := by
  rw [← Line.text_ok_iff]
  unfold runLine
  cases ht : x.text s.scripting with
  | error f => exact iff_of_false (fun ⟨_, h⟩ => absurd h nofun) (fun ⟨_, h⟩ => absurd h nofun)
  | ok o =>
    refine iff_of_true ?_ ⟨o, rfl⟩
    cases o with
    | none => exact ⟨none, rfl⟩
    | some buf =>
      have hrep : ¬ Repeats buf := Line.shown_of_text ht ▸ hx
      obtain ⟨r, hr, -⟩ := chooseCmd_line s.scripting x.env hf 0 fun e => hrep (repeats_of_chop e)
      dsimp only
      rw [hr]
      dsimp only
      split
      · exact ⟨_, rfl⟩
      · split
        · exact ⟨_, rfl⟩
        · exact ⟨_, rfl⟩

/-- in every session of lines that fit and are not `!!`, replays do not nest, and such a line ends its
round just when it fits too -/
theorem never_nested (scripting : Bool) (l : List Line) (s : Shell)
    (hrun : Run (guarded OtherLine Step) (.start scripting) l s) :
    (∀ e ∈ s.hist.pairs, ¬ Designator e.command) ∧
      (∀ env status, ∀ e ∈ s.hist.pairs,
        ∃ r, ∀ fuel, chooseCmd s.scripting env fuel s.hist status e.command = some r) ∧
      (∀ env status buf, chopNewline buf ≠ "!!".toList →
        ∃ r, ∀ fuel, chooseCmd s.scripting env (fuel + 1) s.hist status buf = some r) ∧
      ∀ x, OtherLine s x → ((∃ o, runLine s x = .ok o) ↔ x.Fits s.scripting) := by
  have hf : Flat s.hist := Run.invariant (I := fun s : Shell => Flat s.hist)
    (fun _ _ _ hs h => Flat.step hs h) hrun (fun _ he => absurd he List.not_mem_nil)
  refine ⟨fun e he hd => hf e he hd.nests, ?_, ?_, fun x hx => hf.runLine_ok_iff hx⟩
  · intro env status e he
    have hn := hf e he
    obtain ⟨r, hr, -⟩ := chooseCmd_direct s.scripting env s.hist status
      (fun hx => hn (Or.inr hx)) (not_repeat_of_not_nests hn)
    exact ⟨r, hr⟩
  · intro env status buf hrep
    obtain ⟨r, hr, -⟩ := chooseCmd_line s.scripting env hf status hrep
    exact ⟨r, hr⟩

theorem not_repeats {c d : Char} {r : Str} (h : (c, d) ≠ ('!', '!')) : ¬ Repeats (c :: d :: r) := by
  rintro ⟨t, ht, -⟩
  obtain ⟨hc, ht⟩ := List.cons.inj ht
  obtain ⟨hd, -⟩ := List.cons.inj ht
  exact h (by rw [hc, hd])

/-- `ls` in a script, then `!1`, then the end of the script -/
theorem never_nested_after_replay : ∃ s, Run (guarded OtherLine Step) (.start true)
    [.good "ls\n".toList, .good "!1\n".toList] s ∧ s.hist.pairs.length = 2 ∧
      (∀ e ∈ s.hist.pairs, ¬ Designator e.command) ∧ ∃ o, runLine s (.good "!2\n".toList) = .ok o := by
  have hother : ∀ {c d : Char} {s : Shell} {r : Str} {x : Line}, x.shown s.scripting = c :: d :: r →
      (c, d) ≠ ('!', '!') → OtherLine s x := by
    intro c d s r x hx hc
    unfold OtherLine
    rw [hx]
    exact not_repeats hc
  have hls : guarded OtherLine Step (.start true) (.good "ls\n".toList)
      ⟨true, ⟨[⟨"ls".toList, 1, 0, .program "ls".toList false⟩], 2⟩⟩ :=
    ⟨hother (r := []) (show Line.shown true _ = ['l', 's'] by decide +kernel) (by decide),
      by decide +kernel⟩
  have hnum : guarded OtherLine Step
      ⟨true, ⟨[⟨"ls".toList, 1, 0, .program "ls".toList false⟩], 2⟩⟩ (.good "!1\n".toList)
      ⟨true, ⟨[⟨"ls".toList, 1, 0, .program "ls".toList false⟩,
        ⟨"ls".toList, 2, 0, .program "ls".toList false⟩], 3⟩⟩ :=
    ⟨hother (r := []) (show Line.shown true _ = ['!', '1'] by decide +kernel) (by decide),
      by decide +kernel⟩
  have hrun := (Run.single hls).snoc hnum
  obtain ⟨hentries, -, -, hlines⟩ := never_nested true _ _ hrun
  have hnext := hlines (.good "!2\n".toList)
    (hother (r := []) (show Line.shown true _ = ['!', '2'] by decide +kernel) (by decide))
  refine ⟨_, hrun, rfl, hentries, hnext.mpr fun _ =>
    ⟨⟨fun _ => nofun, Heap.not_refuses_plenty _ _, ?_⟩, ?_, ?_⟩⟩
  · decide +kernel
  · decide +kernel
  · decide +kernel

def longLine : Line :=
  ⟨List.replicate bufferSize 'a' ++ ['\n'], .start .plenty, .start .plenty, .good⟩

/-- `strcpy` goes past `buf` -/
theorem long_line_nests : ¬ ∀ (scripting : Bool) (l : List Line) (s : Shell),
    Run (guarded OtherLine Step) (.start scripting) l s → Nestless s := by
  intro hall
  have hshown : longLine.shown true = 'a' :: 'a' :: List.replicate 126 'a' := by decide +kernel
  have hother : OtherLine (.start true) longLine := by
    show ¬ Repeats (longLine.shown true)
    rw [hshown]
    exact not_repeats (by decide)
  have hok := (hall true [] _ (.nil _)).lines longLine hother
  have hfits := ((Flat.runLine_ok_iff (fun _ he => absurd he List.not_mem_nil) hother).mp hok) rfl
  exact absurd hfits.size (by decide +kernel)

end Boogsh
