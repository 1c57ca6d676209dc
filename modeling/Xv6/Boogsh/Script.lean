import Xv6.Boogsh.Line

/-!
# The lines of a script

`main` reads a script with `getline`, takes the last character of each line for its newline, and
passes the lines after the first to `choose_cmd`.  `script_texts_iff` says for which files these are
the lines of the file: the last character is cut off also when it is none, and the line buffer,
which `getline` doubles at every `'\r'`, has to stay in the heap and its size an `int`.
-/

namespace Boogsh
open Ulib

/-! ## the loop of `main` -/

section
variable (stops : List Str → Bool)

/-- the rounds of `main` on a script, with the texts passed to `choose_cmd` so far; `header` is the
negation of `read_first_script_line`, and `stops` tells after which texts `choose_cmd` does not come
back; nothing more is passed behind a fault -/
def scriptLoop : Nat → Bool → LineBuf → List Str → Str → List Str
  | 0, _, _, passed, _ => passed
  | fuel + 1, header, b, passed, input =>
    match readLine b input with
    | .error _ => passed
    | .ok none => passed
    | .ok (some g) =>
      if header then scriptLoop fuel false (b.after g) passed g.rest
      else
        match copyLine g.buf with
        | .error _ => passed
        | .ok buf =>
          let text := checkComment buf
          if stops (passed ++ [text]) then passed ++ [text]
          else scriptLoop fuel false (b.after g) (passed ++ [text]) g.rest

/-- the texts that `choose_cmd` gets from a script -/
def scriptTexts (heap : Heap) (file : Str) : List Str :=
  scriptLoop stops (file.length + 1) true (.start heap) [] file

end

/-! ## the lines of a file -/

/-- the pieces of a file, each but the last with its newline -/
def rawLines : Str → List Str
  | [] => []
  | c :: s =>
    if c = '\n' then [c] :: rawLines s
    else match rawLines s with
      | [] => [[c]]
      | l :: ls => (c :: l) :: ls

def lines (file : Str) : List Str := (rawLines file).map chopNewline

/-- the list up to the first element at which the shell stops, `passed` being what came before -/
def upTo (stops : List Str → Bool) : List Str → List Str → List Str
  | _, [] => []
  | passed, t :: ts =>
    t :: if stops (passed ++ [t]) then [] else upTo stops (passed ++ [t]) ts

/-- `getline` can read all these pieces, with a block of size `n` for the first -/
def HeapRoomFor (heap : Heap) : Nat → List Str → Prop
  | _, [] => True
  | n, raw :: raws => HeapRoom heap n (doublings n raw) ∧
      HeapRoomFor heap (n * 2 ^ doublings n raw) raws

/-- the last line has a newline, is not one of the first `k`, or has a comment -/
def EndsWell (k : Nat) (file : Str) : Prop :=
  file.getLast? = some '\n' ∨ k < (lines file).length ∨
    ∀ l, (lines file).getLast? = some l → '#' ∈ l

/-- the script has no line but its header; or `getline` can read its lines, and the file ends well, up
to the line at which the shell stops -/
def Readable (heap : Heap) (stops : List Str → Bool) (file : Str) : Prop :=
  let reached := (upTo stops [] ((lines file).tail.map checkComment)).length + 1
  (lines file).length ≤ 1 ∨ heap.malloc 128 ≠ none ∧
    HeapRoomFor heap 128 ((rawLines file).take reached) ∧ EndsWell reached file

theorem rawLines_line {L : Str} (hn : '\n' ∉ L) (rest : Str) :
    rawLines (L ++ '\n' :: rest) = (L ++ ['\n']) :: rawLines rest := by
  induction L with
  | nil => rfl
  | cons c L ih =>
    rw [List.mem_cons, not_or] at hn
    show (if c = '\n' then _ else match rawLines (L ++ '\n' :: rest) with
      | [] => [[c]]
      | l :: ls => (c :: l) :: ls) = _
    rw [if_neg (Ne.symm hn.1), ih hn.2]
    rfl

theorem rawLines_last {L : Str} (hn : '\n' ∉ L) (hne : L ≠ []) : rawLines L = [L] := by
  induction L with
  | nil => exact absurd rfl hne
  | cons c L ih =>
    rw [List.mem_cons, not_or] at hn
    show (if c = '\n' then _ else match rawLines L with
      | [] => [[c]]
      | l :: ls => (c :: l) :: ls) = _
    rw [if_neg (Ne.symm hn.1)]
    cases L with
    | nil => rfl
    | cons d L => rw [ih hn.2 (List.cons_ne_nil d L)]

theorem lines_line {L : Str} (hn : '\n' ∉ L) (rest : Str) :
    lines (L ++ '\n' :: rest) = L :: lines rest := by
  unfold lines
  rw [rawLines_line hn, List.map_cons, chopNewline_concat]

theorem lines_last {L : Str} (hn : '\n' ∉ L) (hne : L ≠ []) : lines L = [L] := by
  unfold lines
  rw [rawLines_last hn hne, List.map_singleton, chopNewline_of_not_mem hn]

theorem file_cases (file : Str) : file = [] ∨
    (∃ L rest, '\n' ∉ L ∧ file = L ++ '\n' :: rest) ∨ '\n' ∉ file ∧ file ≠ [] := by
  by_cases hn : '\n' ∈ file
  · obtain ⟨L, rest, e, hL⟩ := List.eq_append_cons_of_mem hn
    exact Or.inr (Or.inl ⟨L, rest, hL, e⟩)
  · by_cases h0 : file = []
    · exact Or.inl h0
    · exact Or.inr (Or.inr ⟨hn, h0⟩)

/-! ## the texts of a script -/

theorem lines_ne_nil {file : Str} (h : file ≠ []) : lines file ≠ [] := by
  rcases file_cases file with e | ⟨L, rest, hn, rfl⟩ | ⟨hn, hne⟩
  · exact absurd e h
  · rw [lines_line hn]
    exact List.cons_ne_nil _ _
  · rw [lines_last hn hne]
    exact List.cons_ne_nil _ _

theorem endsWell_line {L rest : Str} (hn : '\n' ∉ L) (k : Nat) :
    EndsWell (k + 1) (L ++ '\n' :: rest) ↔ EndsWell k rest := by
  unfold EndsWell
  rw [lines_line hn, List.length_cons, Nat.add_lt_add_iff_right]
  by_cases h0 : rest = []
  · obtain rfl := h0
    refine iff_of_true (Or.inl List.getLast?_concat) (Or.inr (Or.inr ?_))
    intro l hl
    exact absurd hl (by simp [lines, rawLines])
  · obtain ⟨t, c, rfl⟩ := (List.eq_nil_or_concat rest).resolve_left h0
    obtain ⟨ls, l, hls⟩ := (List.eq_nil_or_concat (lines (t.concat c))).resolve_left
      (lines_ne_nil h0)
    rw [hls]
    simp only [List.concat_eq_append]
    rw [← List.cons_append, ← List.append_assoc, ← List.cons_append, List.getLast?_concat,
      List.getLast?_concat, List.getLast?_concat, List.getLast?_concat]

theorem checkComment_dropLast {s : Str} (hne : s ≠ []) :
    checkComment s.dropLast = checkComment s ↔ '#' ∈ s := by
  obtain ⟨t, c, rfl⟩ := (List.eq_nil_or_concat s).resolve_left hne
  rw [List.concat_eq_append, List.dropLast_concat]
  by_cases ht : '#' ∈ t
  · rw [checkComment_append_of_mem ht]
    exact iff_of_true rfl (List.mem_append_left _ ht)
  · rw [checkComment_of_not_mem ht, checkComment_append_of_not_mem ht]
    by_cases hc : c = '#'
    · obtain rfl := hc
      exact iff_of_true (List.append_nil t).symm (by simp)
    · have h1 : checkComment [c] = [c] := checkComment_of_not_mem (by simpa using Ne.symm hc)
      rw [h1]
      refine iff_of_false (fun e => ?_) ?_
      · have h2 := congrArg List.length e
        rw [List.length_append, List.length_singleton] at h2
        omega
      · simp [ht, Ne.symm hc]

section
variable {stops : List Str → Bool} {b b' : LineBuf} {raw rest file : Str} {passed : List Str}
  {fuel : Nat}

/-- the line buffer behind a line: a block of the size that the line needs -/
structure LineBuf.Grown (b : LineBuf) (raw : Str) (b' : LineBuf) : Prop where
  ok : b'.Ok
  heap : b'.heap = b.heap
  line : b'.line ≠ none
  size : firstCapacity b'.max = firstCapacity b.max * 2 ^ doublings (firstCapacity b.max) raw

variable (stops) in
/-- one round of `main` at a line that `getline` can read -/
theorem scriptLoop_served (h : FirstLine raw rest) (hb : b.Ok) (h0 : '\x00' ∉ raw)
    (hs : b.Serves raw) : ∃ b', b.Grown raw b' ∧ ∀ fuel header passed,
      scriptLoop stops (fuel + 1) header b passed (raw ++ rest) =
        if header then scriptLoop stops fuel false b' passed rest
        else if stops (passed ++ [checkComment raw.dropLast]) then
          passed ++ [checkComment raw.dropLast]
        else scriptLoop stops fuel false b' (passed ++ [checkComment raw.dropLast]) rest := by
  obtain ⟨-, g, hg, htext, hn, hrest, hok⟩ := (readLine_first h hb h0).resolve_right fun hno => hno.1 hs
  have h2 := hok.two_le
  have hpos : g.n ≠ 0 := by
    rintro h0
    have hsize := hn.symm.trans h0
    have := Nat.mul_pos (Nat.lt_of_lt_of_le Nat.zero_lt_two hb.two_le)
      (Nat.two_pow_pos (doublings (firstCapacity b.max) raw))
    omega
  refine ⟨b.after g, ⟨hok, rfl, Option.some_ne_none _, ?_⟩, fun fuel header passed => ?_⟩
  · show firstCapacity g.n = _
    rw [firstCapacity, if_neg hpos, hn]
  · have hlt : (cstr g.buf).length < bufferSize := by
      have := h.length_le
      have := List.length_pos_iff.mpr h.ne_nil
      rw [htext, List.length_dropLast]
      omega
    rw [scriptLoop, hg]
    dsimp only
    rw [copyLine, if_pos hlt, htext, hrest]

theorem scriptLoop_unserved (h : FirstLine raw rest) (hb : b.Ok) (h0 : '\x00' ∉ raw)
    (hs : ¬ b.Serves raw) (header : Bool) :
    scriptLoop stops (fuel + 1) header b passed (raw ++ rest) = passed := by
  obtain ⟨-, hno⟩ := (readLine_first h hb h0).resolve_left fun hyes => hs hyes.1
  rw [scriptLoop]
  split
  · rfl
  · rfl
  · rename_i g hg
    exact absurd hg (hno g)

theorem scriptLoop_nil (hb : b.Ok) (header : Bool) :
    scriptLoop stops (fuel + 1) header b passed [] = passed := by
  by_cases hroom : b.Room []
  · rw [scriptLoop, readLine_end hb hroom rfl]
  · obtain ⟨f, hf⟩ := readLine_no_room hb hroom
    rw [scriptLoop, hf]

theorem serves_iff (hline : b.line ≠ none) : b.Serves raw ↔
    HeapRoom b.heap (firstCapacity b.max) (doublings (firstCapacity b.max) raw) :=
  ⟨fun h => h.room, fun h => ⟨fun h' => absurd h' hline, h⟩⟩

variable (stops passed) in
theorem scriptLoop_iff (hb : b.Ok) (hline : b.line ≠ none) (hfuel : file.length < fuel)
    (hlen : ∀ l ∈ lines file, l.length < bufferSize) (h0 : '\x00' ∉ file) :
    scriptLoop stops fuel false b passed file
        = passed ++ upTo stops passed ((lines file).map checkComment) ↔
      HeapRoomFor b.heap (firstCapacity b.max)
          ((rawLines file).take (upTo stops passed ((lines file).map checkComment)).length) ∧
        EndsWell (upTo stops passed ((lines file).map checkComment)).length file := by
  induction fuel generalizing b passed file with
  | zero => exact absurd hfuel (Nat.not_lt_zero _)
  | succ fuel ih =>
    rcases file_cases file with rfl | ⟨L, rest, hn, rfl⟩ | ⟨hn, hne⟩
    · refine iff_of_true ?_ ⟨trivial, Or.inr (Or.inr ?_)⟩
      · rw [scriptLoop_nil hb]
        exact (List.append_nil passed).symm
      · intro l hl
        exact absurd hl (by simp [lines, rawLines])
    · rw [lines_line hn] at hlen
      simp only [List.mem_append, List.mem_cons, not_or] at h0
      rw [List.length_append, List.length_cons] at hfuel
      have hfirst : FirstLine (L ++ ['\n']) rest := .line rest hn (hlen L List.mem_cons_self)
      have hnul : '\x00' ∉ L ++ ['\n'] := by simpa using h0.1
      rw [lines_line hn, rawLines_line hn, List.map_cons]
      show _ = passed ++ checkComment L :: (if stops (passed ++ [checkComment L]) then [] else
          upTo stops (passed ++ [checkComment L]) ((lines rest).map checkComment)) ↔
        HeapRoomFor b.heap _ (List.take (List.length (if stops (passed ++ [checkComment L]) then []
          else upTo stops (passed ++ [checkComment L]) ((lines rest).map checkComment)) + 1) _) ∧
        EndsWell (List.length (if stops (passed ++ [checkComment L]) then [] else
          upTo stops (passed ++ [checkComment L]) ((lines rest).map checkComment)) + 1) _
      rw [List.take_succ_cons, endsWell_line hn, List.append_cons L]
      by_cases hs : b.Serves (L ++ ['\n'])
      · obtain ⟨b', hgrown, hround⟩ := scriptLoop_served stops hfirst hb hnul hs
        rw [hround, if_neg Bool.false_ne_true, List.dropLast_concat]
        have hcons : ∀ ls, HeapRoomFor b.heap (firstCapacity b.max) ((L ++ ['\n']) :: ls) ↔
            HeapRoomFor b'.heap (firstCapacity b'.max) ls := by
          intro ls
          rw [hgrown.heap, hgrown.size]
          exact and_iff_right hs.room
        rw [hcons]
        by_cases hstop : stops (passed ++ [checkComment L]) = true
        · rw [if_pos hstop, if_pos hstop]
          refine iff_of_true rfl ⟨trivial, ?_⟩
          by_cases hr : rest = []
          · obtain rfl := hr
            exact Or.inr (Or.inr (fun l hl => absurd hl (by simp [lines, rawLines])))
          · exact Or.inr (Or.inl (List.length_pos_iff.mpr (lines_ne_nil hr)))
        · rw [if_neg hstop, if_neg hstop]
          have h1 := ih (passed ++ [checkComment L]) hgrown.ok hgrown.line
            (show rest.length < fuel by omega)
            (fun l hl => hlen l (List.mem_cons_of_mem _ hl)) h0.2.2
          rw [List.append_assoc] at h1
          exact h1
      · rw [scriptLoop_unserved hfirst hb hnul hs]
        refine iff_of_false (fun e => ?_) (fun h => hs ((serves_iff hline).mpr h.1.1))
        have h1 := congrArg List.length e
        rw [List.length_append, List.length_cons] at h1
        omega
    · rw [lines_last hn hne] at hlen ⊢
      have hfirst : FirstLine file [] := .last hn hne (hlen file List.mem_cons_self)
      obtain ⟨fuel, rfl⟩ : ∃ k, fuel = k + 1 :=
        ⟨fuel - 1, by have := List.length_pos_iff.mpr hne; omega⟩
      have hu : upTo stops passed ([file].map checkComment) = [checkComment file] := by
        show checkComment file :: (if _ then [] else []) = _
        rw [ite_self]
      have hends : EndsWell [checkComment file].length file ↔ '#' ∈ file := by
        unfold EndsWell
        rw [lines_last hn hne]
        simp [show file.getLast? ≠ some '\n' from fun h => hn (List.mem_of_getLast? h)]
      rw [rawLines_last hn hne, hu, hends, ← checkComment_dropLast hne]
      show _ ↔ (HeapRoom b.heap _ (doublings _ file) ∧ True) ∧ _
      rw [and_true, ← serves_iff hline]
      by_cases hs : b.Serves file
      · obtain ⟨b', hgrown, hround⟩ := scriptLoop_served stops hfirst hb h0 hs
        have hlast := hround (fuel + 1) false passed
        rw [List.append_nil, if_neg Bool.false_ne_true, scriptLoop_nil hgrown.ok, ite_self] at hlast
        rw [hlast, List.append_cancel_left_eq, List.singleton_inj]
        exact (and_iff_right hs).symm
      · have hlast : scriptLoop stops (fuel + 1 + 1) false b passed (file ++ []) = passed :=
          scriptLoop_unserved hfirst hb h0 hs false
        rw [List.append_nil] at hlast
        rw [hlast]
        refine iff_of_false (fun e => ?_) (fun h => hs h.1)
        have h1 := congrArg List.length e
        rw [List.length_append, List.length_singleton] at h1
        omega

end

/-- the texts passed to `choose_cmd` are the lines after the first, up to the one at which the shell
stops and without their comments, exactly for the files that are `Readable` -/
theorem script_texts_iff (heap : Heap) (stops : List Str → Bool) (file : Str)
    (hlen : ∀ l ∈ lines file, l.length < bufferSize) (h0 : '\x00' ∉ file) :
    scriptTexts stops heap file = upTo stops [] ((lines file).tail.map checkComment) ↔
      Readable heap stops file := by
  have hb := LineBuf.Ok.start heap
  unfold scriptTexts Readable
  dsimp only
  rcases file_cases file with rfl | ⟨L, rest, hn, rfl⟩ | ⟨hn, hne⟩
  · exact iff_of_true (scriptLoop_nil hb true) (Or.inl (Nat.zero_le 1))
  · rw [lines_line hn] at hlen ⊢
    simp only [List.mem_append, List.mem_cons, not_or] at h0
    have hfirst : FirstLine (L ++ ['\n']) rest := .line rest hn (hlen L List.mem_cons_self)
    have hnul : '\x00' ∉ L ++ ['\n'] := by simpa using h0.1
    have hrest : upTo stops [] ((lines rest).map checkComment) = [] ↔
        (L :: lines rest).length ≤ 1 := by
      rw [List.length_cons]
      cases lines rest with
      | nil => exact iff_of_true rfl (Nat.le_refl 1)
      | cons l ls =>
        refine iff_of_false (List.cons_ne_nil _ _) ?_
        rw [List.length_cons]
        omega
    have hserves : (LineBuf.start heap).Serves (L ++ ['\n']) ↔
        heap.malloc 128 ≠ none ∧ HeapRoom heap 128 (doublings 128 (L ++ ['\n'])) :=
      ⟨fun h => ⟨h.first rfl, h.room⟩, fun h => ⟨fun _ => h.1, h.2⟩⟩
    rw [List.tail_cons, rawLines_line hn, List.take_succ_cons, endsWell_line hn, List.append_cons L]
    by_cases hs : (LineBuf.start heap).Serves (L ++ ['\n'])
    · obtain ⟨b', hgrown, hround⟩ := scriptLoop_served stops hfirst hb hnul hs
      rw [hround, if_pos rfl]
      have hcons : ∀ ls, HeapRoomFor heap 128 ((L ++ ['\n']) :: ls) ↔
          HeapRoomFor b'.heap (firstCapacity b'.max) ls := by
        intro ls
        rw [hgrown.heap, hgrown.size]
        exact and_iff_right hs.room
      rw [hcons, and_iff_right (hserves.mp hs).1]
      have h1 := scriptLoop_iff stops [] hgrown.ok hgrown.line
        (show rest.length < (L ++ ['\n'] ++ rest).length by
          simp only [List.length_append, List.length_singleton]
          omega)
        (fun l hl => hlen l (List.mem_cons_of_mem _ hl)) h0.2.2
      rw [List.nil_append] at h1
      rw [← h1]
      constructor
      · exact Or.inr
      · intro h
        refine h.elim (fun hle => ?_) id
        rw [hrest.mpr hle]
        obtain rfl : rest = [] := by
          by_contra hr
          have := List.length_pos_iff.mpr (lines_ne_nil hr)
          rw [List.length_cons] at hle
          omega
        rw [List.append_nil, List.length_append, List.length_singleton]
        exact scriptLoop_nil hgrown.ok false
    · rw [scriptLoop_unserved hfirst hb hnul hs, eq_comm, hrest]
      refine ⟨Or.inl, fun h => h.elim id fun h => ?_⟩
      exact absurd (hserves.mpr ⟨h.1, h.2.1.1⟩) hs
  · rw [lines_last hn hne] at hlen ⊢
    have hfirst : FirstLine file [] := .last hn hne (hlen file List.mem_cons_self)
    obtain ⟨k, hk⟩ : ∃ k, file.length = k + 1 :=
      ⟨file.length - 1, by have := List.length_pos_iff.mpr hne; omega⟩
    refine iff_of_true ?_ (Or.inl (Nat.le_refl 1))
    show scriptLoop stops (file.length + 1) true (.start heap) [] file = []
    rw [hk]
    by_cases hs : (LineBuf.start heap).Serves file
    · obtain ⟨b', hgrown, hround⟩ := scriptLoop_served stops hfirst hb h0 hs
      have hlast := hround (k + 1) true []
      rw [List.append_nil, if_pos rfl, scriptLoop_nil hgrown.ok] at hlast
      exact hlast
    · have hlast : scriptLoop stops (k + 1 + 1) true (.start heap) [] (file ++ []) = [] :=
        scriptLoop_unserved hfirst hb h0 hs true
      rw [List.append_nil] at hlast
      exact hlast

/-- a script of two commands, the first with a comment and the second with a `'\r'` in its comment -/
theorem script_texts_ls : scriptTexts (fun _ => false) .plenty
    "#!boogsh\nls# all\npwd#\r\n".toList = ["ls".toList, "pwd".toList] := by
  have hroom : ∀ n d, n < 2 ^ 31 → n * 2 ^ d < 2 ^ 32 → HeapRoom .plenty n d :=
    fun n d h h' => ⟨h, h', Heap.not_refuses_plenty _ _⟩
  have hr : Readable .plenty (fun _ => false) "#!boogsh\nls# all\npwd#\r\n".toList :=
    Or.inr ⟨Option.some_ne_none _, ⟨hroom _ _ (by decide) (by decide),
      hroom _ _ (by decide) (by decide), hroom _ _ (by decide) (by decide), trivial⟩,
        Or.inl (by decide)⟩
  exact (script_texts_iff .plenty (fun _ => false) "#!boogsh\nls# all\npwd#\r\n".toList
    (by decide) (by decide)).mpr hr

/-- without a newline at the end of the script `ls` becomes `l` -/
theorem last_line_is_cut : ¬ ∀ (heap : Heap) (stops : List Str → Bool) (file : Str),
    (∀ l ∈ lines file, l.length < bufferSize) → '\x00' ∉ file →
    scriptTexts stops heap file = upTo stops [] ((lines file).tail.map checkComment) := by
  intro h
  have h1 := h .plenty (fun _ => false) "#!boogsh\nls".toList (by decide) (by decide)
  have h2 : scriptTexts (fun _ => false) .plenty "#!boogsh\nls".toList = ["l".toList] := by
    decide +kernel
  rw [h2] at h1
  exact absurd h1 (by decide)

end Boogsh
