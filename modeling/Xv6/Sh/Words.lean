import Xv6.Sh.Parse

/-!
# The strings of a parsed line

`nulterminate` writes a NUL behind every word of the command.  A word ends where the line has no
letter, so that no NUL falls into a word: every pointer of the command then leads to its word
(`string_eq`), and what `runcmd` reads is what the line spells (`parse_iff`).
-/

namespace Sh
open Ulib (Str cstr)
open Lib

/-! ## the words of a command are tokens -/

section
variable {α : Type} {w : α} {c : Cmd α} {ts : List (Lexeme α)} {l : Level}

theorem words_redirect {rs : List (Op × α)} : w ∈ (redirect c rs).words ↔
    w ∈ c.words ∨ .word w ∈ redirLexemes rs := by
  induction rs generalizing c with
  | nil => simp [redirect, redirLexemes]
  | cons r rs ih =>
    obtain ⟨op, f⟩ := r
    rw [redirect_cons, ih, redirLexemes_cons]
    cases op <;> simp [Op.redir, Op.lexeme, Cmd.words, or_assoc]

theorem words_background {n : Nat} : (background n c).words = c.words := by
  induction n generalizing c with
  | zero => rfl
  | succ n ih => exact ih

theorem word_mem_args {as : List (α × List (Op × α))} : .word w ∈ argLexemes as ↔
    w ∈ as.map Prod.fst ∨ .word w ∈ redirLexemes (as.flatMap Prod.snd) := by
  induction as with
  | nil => simp [argLexemes, redirLexemes]
  | cons a as ih =>
    have happ : redirLexemes (a.2 ++ as.flatMap Prod.snd) =
        redirLexemes a.2 ++ redirLexemes (as.flatMap Prod.snd) := List.flatMap_append
    rw [show argLexemes (a :: as) = .word a.1 :: (redirLexemes a.2 ++ argLexemes as) from rfl,
      List.flatMap_cons, happ]
    simp only [List.mem_cons, List.mem_append, ih, List.map_cons, Lexeme.word.injEq]
    tauto

theorem words_parses (h : Parses l ts c) (hw : w ∈ c.words) : .word w ∈ ts := by
  induction h with
  | simple rs as =>
    have happ : redirLexemes (rs ++ as.flatMap Prod.snd) =
        redirLexemes rs ++ redirLexemes (as.flatMap Prod.snd) := List.flatMap_append
    rw [simple, words_redirect, happ, List.mem_append] at hw
    rw [List.mem_append, word_mem_args]
    tauto
  | block rs _ ih =>
    obtain hw | hw := words_redirect.mp hw
    · simp [ih hw]
    · simp [hw]
  | stage _ ih => exact ih hw
  | pipe _ _ ih ih' =>
    obtain hw | hw := List.mem_append.mp hw
    · simp [ih hw]
    · simp [ih' hw]
  | last n _ ih =>
    rw [words_background] at hw
    simp [ih hw]
  | list n _ _ ih ih' =>
    obtain hw | hw := List.mem_append.mp hw
    · rw [words_background] at hw
      simp [ih hw]
    · simp [ih' hw]

end

/-! ## where the words are -/

section
variable {ln s buf : Str} {w v : Word} {ws : List Word} {i : Nat} {c : Cmd Word}
  {ts us : List (Lexeme Word)} {l : Level}

/-- the word is a part of the line, and ends there -/
structure Word.In (w : Word) (ln : Str) : Prop where
  suffix : w.q <:+ ln
  split : w.q = w.text ++ w.eq
  letters : ∀ a ∈ w.text, letter a = true
  ends : ∀ a, w.eq.head? = some a → letter a = false

theorem Reads.word_in {k : Token} (h : Reads s k) (hs : s <:+ ln) (hk : lexeme k = .word w) :
    w.In ln := by
  have hret := ret_lexeme k
  rw [hk] at hret
  cases h with
  | nul => exact absurd (show 'a' = '\x00' from hret) (by decide)
  | append => exact absurd (show 'a' = '+' from hret) (by decide)
  | sym hc =>
    rename_i a t _
    obtain rfl : 'a' = a := hret
    exact absurd hc (by decide)
  | word hc =>
    rename_i a t
    obtain rfl := Lexeme.word.inj hk
    have hsplit : a :: t = (a :: t.takeWhile letter) ++ t.dropWhile letter :=
      congrArg (a :: ·) (List.takeWhile_append_dropWhile ..).symm
    have htext : Word.text ⟨a :: t, t.dropWhile letter⟩ = a :: t.takeWhile letter := by
      conv_lhs => rw [hsplit]
      exact text_append _
    refine ⟨hs, ?_, ?_, ?_⟩
    · rw [htext]
      exact hsplit
    · rw [htext]
      intro b hb
      obtain rfl | hb := List.mem_cons.mp hb
      · exact hc
      · exact List.mem_takeWhile_imp hb
    · intro b hb
      have h2 := List.head?_dropWhile_not letter t
      rw [hb] at h2
      exact h2

theorem skip_suffix : skip s <:+ s := List.dropWhile_suffix _

theorem gettoken_suffix : (gettoken s).rest <:+ s := by
  refine List.IsSuffix.trans ?_ (skip_suffix (s := s))
  have h1 := gettoken_reads s
  generalize skip s = t at h1
  generalize gettoken s = k at h1
  cases h1 with
  | nul => exact List.suffix_refl _
  | append => exact (skip_suffix.trans (List.suffix_cons _ _)).trans (List.suffix_cons _ _)
  | sym => exact skip_suffix.trans (List.suffix_cons _ _)
  | word => exact (skip_suffix.trans (List.dropWhile_suffix _)).trans (List.suffix_cons _ _)

theorem tokens_in (hs : s <:+ ln) (hw : .word w ∈ tokens s) : w.In ln := by
  induction h : s.length using Nat.strongRecOn generalizing s with
  | ind n ih =>
    by_cases hne : skip s = []
    · rw [tokens_nil hne] at hw
      cases hw
    · rw [tokens_cons hne] at hw
      obtain hw | hw := List.mem_cons.mp hw
      · exact (gettoken_reads s).word_in (skip_suffix.trans hs) hw.symm
      · exact ih _ (h ▸ length_gettoken hne) (gettoken_suffix.trans hs) hw rfl

/-! ## the NULs -/

theorem nulterminate_other (hw : ∀ w ∈ ws, offset ln w.eq ≠ i) :
    (ws.foldl (fun buf w => buf.set (offset ln w.eq) '\x00') buf)[i]? = buf[i]? := by
  induction ws generalizing buf with
  | nil => rfl
  | cons v ws ih =>
    rw [List.foldl_cons, ih fun w h => hw w (List.mem_cons_of_mem _ h)]
    exact List.getElem?_set_ne (hw v List.mem_cons_self)

theorem nulterminate_at {a : Char} (hw : ∃ w ∈ ws, offset ln w.eq = i)
    (h : (ws.foldl (fun buf w => buf.set (offset ln w.eq) '\x00') buf)[i]? = some a) :
    a = '\x00' := by
  induction ws generalizing buf with
  | nil =>
    obtain ⟨w, hw, -⟩ := hw
    cases hw
  | cons v ws ih =>
    by_cases hex : ∃ w ∈ ws, offset ln w.eq = i
    · exact ih hex h
    · obtain ⟨w, hw, rfl⟩ := hw
      obtain rfl | hw := List.mem_cons.mp hw
      · rw [List.foldl_cons, nulterminate_other fun u hu e => hex ⟨u, hu, e⟩,
          List.getElem?_set_self'] at h
        cases hb : buf[offset ln w.eq]? with
        | none =>
          rw [hb] at h
          cases h
        | some b =>
          rw [hb] at h
          exact (Option.some.inj h).symm
      · exact absurd ⟨w, hw, rfl⟩ hex

theorem drop_offset {t : Str} (h : t <:+ ln) : ln.drop (offset ln t) = t := by
  obtain ⟨p, rfl⟩ := h
  unfold offset
  rw [List.length_append, Nat.add_sub_cancel, List.drop_left]

theorem getElem?_offset {t : Str} (h : t <:+ ln) : ln[offset ln t + i]? = t[i]? := by
  rw [← List.getElem?_drop, drop_offset h]

theorem Word.In.eq_suffix (hw : w.In ln) : w.eq <:+ ln :=
  (hw.split ▸ List.suffix_append w.text w.eq).trans hw.suffix

theorem Word.In.offset_eq (hw : w.In ln) :
    offset ln w.eq = offset ln w.q + w.text.length := by
  have h1 := hw.suffix.length_le
  have h2 := congrArg List.length hw.split
  rw [List.length_append] at h2
  unfold offset
  omega

theorem Word.In.getElem? (hw : w.In ln) (hi : i < w.text.length) :
    ln[offset ln w.q + i]? = w.text[i]? := by
  rw [getElem?_offset hw.suffix, hw.split, List.getElem?_append_left hi]

/-- no word ends inside a word -/
theorem Word.In.apart (hw : w.In ln) (hv : v.In ln) (hi : i < w.text.length) :
    offset ln v.eq ≠ offset ln w.q + i := by
  intro e
  have h1 := hw.getElem? hi
  rw [← e, ← Nat.add_zero (offset ln v.eq), getElem?_offset hv.eq_suffix,
    List.getElem?_eq_getElem hi] at h1
  have h2 := hv.ends _ (by rw [List.head?_eq_getElem?, h1])
  rw [hw.letters _ (List.getElem_mem hi)] at h2
  cases h2

/-- every pointer of the command leads to its word; `r` is the buffer behind the line -/
theorem string_eq {r : Str} (hbuf : buf = ln ++ r) (hnul : '\x00' ∉ ln)
    (hc : ∀ w ∈ c.words, w.In ln) (hw : w ∈ c.words) :
    string ln (nulterminate ln c buf) w = w.text := by
  have hin := hc w hw
  set k := offset ln w.q with hk
  set m := nulterminate ln c buf with hm
  have htake : (m.drop k).take w.text.length = w.text := by
    refine List.ext_getElem? fun i => ?_
    rw [List.getElem?_take]
    split
    · rename_i hi
      have h1 := hin.getElem? hi
      have hlt : k + i < ln.length := by
        by_contra hge
        rw [List.getElem?_eq_none (Nat.le_of_not_lt hge), List.getElem?_eq_getElem hi] at h1
        cases h1
      rw [List.getElem?_drop, hm, nulterminate,
        nulterminate_other fun v hv => hin.apart (hc v hv) hi, ← h1, hbuf]
      exact List.getElem?_append_left hlt
    · rename_i hi
      exact (List.getElem?_eq_none (Nat.le_of_not_lt hi)).symm
  have hdrop := List.take_append_drop w.text.length (m.drop k)
  rw [htake] at hdrop
  have htext : '\x00' ∉ w.text := fun h => by
    refine hnul (hin.suffix.subset ?_)
    rw [hin.split]
    exact List.mem_append_left _ h
  unfold string
  rw [← hk, ← hdrop]
  cases hr : (m.drop k).drop w.text.length with
  | nil => rw [List.append_nil, Ulib.cstr_eq_self htext]
  | cons a r' =>
    have ha : m[offset ln w.eq]? = some a := by
      rw [hin.offset_eq, ← List.getElem?_drop, ← Nat.add_zero w.text.length, ← List.getElem?_drop,
        hr]
      rfl
    obtain rfl := nulterminate_at ⟨w, hw, rfl⟩ ha
    rw [Ulib.cstr_append, Ulib.cstr_eq_self htext]

theorem map_congr {β : Type} {f g : Word → β} (h : ∀ w ∈ c.words, f w = g w) :
    c.map f = c.map g := by
  induction c with
  | exec argv => exact congrArg Cmd.exec (List.map_congr_left h)
  | redir c file mode fd ih =>
    unfold Cmd.map
    rw [ih fun w hw => h w (List.mem_append_left _ hw),
      h file (List.mem_append_right _ (List.mem_singleton.mpr rfl))]
  | pipe c d ih ih' =>
    unfold Cmd.map
    rw [ih fun w hw => h w (List.mem_append_left _ hw),
      ih' fun w hw => h w (List.mem_append_right _ hw)]
  | list c d ih ih' =>
    unfold Cmd.map
    rw [ih fun w hw => h w (List.mem_append_left _ hw),
      ih' fun w hw => h w (List.mem_append_right _ hw)]
  | back c ih => exact congrArg Cmd.back (ih h)

/-- the command that `runcmd` runs has the words of the line -/
theorem parse_ok {d : Cmd Str} : parse buf = .ok d ↔
    ∃ c, Parses .line (tokens (cstr buf)) c ∧ c.map Word.text = d := by
  have hmap : ∀ c, Parses .line (tokens (cstr buf)) c →
      c.map (string (cstr buf) (nulterminate (cstr buf) c buf)) = c.map Word.text := by
    intro c hc
    have hnul : '\x00' ∉ cstr buf := fun h => by
      have h1 := List.mem_takeWhile_imp h
      simp at h1
    exact map_congr fun w hw => string_eq (List.takeWhile_append_dropWhile ..).symm hnul
      (fun v hv => tokens_in (List.suffix_refl _) (words_parses hc hv)) hw
  unfold parse
  constructor
  · intro h
    cases hr : parsecmd buf with
    | error e =>
      rw [hr] at h
      cases h
    | ok r =>
      obtain ⟨c, m⟩ := r
      obtain ⟨hc, rfl⟩ := parsecmd_ok.mp hr
      rw [hr] at h
      exact ⟨c, hc, (hmap c hc).symm.trans (Except.ok.inj h)⟩
  · rintro ⟨c, hc, rfl⟩
    rw [parsecmd_ok.mpr ⟨hc, rfl⟩]
    exact congrArg Except.ok (hmap c hc)

end

end Sh
