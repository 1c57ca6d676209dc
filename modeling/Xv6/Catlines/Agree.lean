import Xv6.Boogsh.Line
import Xv6.Catlines.Reader
import Xv6.Ulib.Stream

/-!
# The buffered reader and `getline`

Both readers cut a file at its newlines.  `agree_iff` says for which files they return the same lines:
`better_fgets` stands lines of less than `2 ^ 30` characters, and `getline`, whose buffer is doubled
at every `'\r'` and kept from line to line, gives up when the capacity is no `int` any more.
-/

namespace Catlines
open Ulib
open Boogsh (chopNewline chopNewline_of_not_mem chopNewline_concat)

def getlineLines (gs : List Got) : List Str := (gs.map Got.text).dropLast.map chopNewline

/-- both readers come to the end of the file, with the same lines -/
def Agree (heap : Heap) (heaps : Nat → Heap) (chunks : List Str) : Prop :=
  ∃ gs ls, readAll heap none 0 chunks.flatten = .ok gs ∧
    betterLines heaps (chunks.flatten.length + 1) (.start (chunks.map some)) = .ok ls ∧
    ls = getlineLines gs

/-- every line has less than `2 ^ 30` characters -/
def Short (content : Str) : Prop := ∀ l ∈ content.splitOn '\n', l.length < 2 ^ 30

/-- the lines are short, and the capacity of `getline`, with the room behind what is in its buffer,
stays a number of its type -/
structure Keeps (content : Str) : Prop where
  short : Short content
  passes : (Fill.start 128).Passes content
  final : (Fill.start 128).final content < 2 ^ 32

section
variable {heap : Heap} {heaps : Nat → Heap} {s : Static} {L left rest content : Str} {c : Char}
  {calls : Nat} {ls : List Str}

/-! ## the lines of `better_fgets` -/

theorem short_nil : Short [] := by
  intro l hl
  rw [List.splitOn_nil, List.mem_singleton] at hl
  rw [hl]
  exact Nat.two_pow_pos 30

theorem short_last (hn : '\n' ∉ L) : Short L ↔ L.length < 2 ^ 30 := by
  unfold Short
  rw [List.splitOn_eq_singleton hn, List.forall_mem_singleton]

theorem short_line (hn : '\n' ∉ L) : Short (L ++ '\n' :: rest) ↔ L.length < 2 ^ 30 ∧ Short rest := by
  unfold Short
  rw [List.splitOn_append_cons_self, List.splitOn_eq_singleton hn, List.singleton_append,
    List.forall_mem_cons]

theorem betterLines_nil (hm : ∀ k n, (heaps k).malloc n ≠ none) (hs : Ready s []) :
    betterLines heaps (calls + 1) s = .ok [] := by
  have hspec := betterFgets_spec (heaps calls) (hm calls) hs List.not_mem_nil
  rw [betterLines]
  generalize betterFgets (heaps calls) s = res at hspec ⊢
  cases hspec with
  | eof s' hl ha hs' => rfl
  | last line s' hn hne => exact absurd rfl hne
  | line L rest line s' hl =>
    exact absurd hl.symm (List.append_ne_nil_of_right_ne_nil L (List.cons_ne_nil _ _))
  | long L rest hl hn hlen =>
    rw [(List.append_eq_nil_iff.mp hl.symm).1] at hlen
    exact absurd hlen (by decide)

theorem betterLines_spec (hl : LinesOf left ls) (hm : ∀ k n, (heaps k).malloc n ≠ none)
    (hs : Ready s left) (h0 : '\x00' ∉ left) (hcalls : left.length < calls) :
    (Short left → betterLines heaps calls s = .ok (ls.dropLast.map chopNewline)) ∧
    (¬ Short left → betterLines heaps calls s = .error .wrapped) := by
  induction hl generalizing s calls with
  | nil =>
    obtain ⟨calls, rfl⟩ : ∃ k, calls = k + 1 := ⟨calls - 1, by omega⟩
    exact ⟨fun _ => betterLines_nil hm hs, fun h => absurd short_nil h⟩
  | @last L hn hne =>
    obtain ⟨calls, rfl⟩ : ∃ k, calls = k + 2 :=
      ⟨calls - 2, by have := List.length_pos_iff.mpr hne; omega⟩
    have hspec := betterFgets_spec (heaps (calls + 1)) (hm _) hs h0
    rw [short_last hn, betterLines]
    generalize betterFgets (heaps (calls + 1)) s = res at hspec ⊢
    cases hspec with
    | eof s' hl => exact absurd hl hne
    | last line s' hn' hne' hlen hline hs' =>
      refine ⟨fun _ => ?_, fun h => absurd hlen h⟩
      dsimp only
      rw [betterLines_nil hm hs', hline]
      exact congrArg (fun x => Except.ok [x]) (chopNewline_of_not_mem hn).symm
    | line L' rest line s' hl => exact absurd (by rw [hl]; simp) hn
    | long L' rest hl hn' hlen =>
      refine ⟨fun h => ?_, fun _ => rfl⟩
      rw [hl, List.length_append] at h
      rw [List.nil_append] at hlen
      omega
  | @line L rest ls hn hl ih =>
    obtain ⟨calls, rfl⟩ : ∃ k, calls = k + 1 := ⟨calls - 1, by omega⟩
    have hspec := betterFgets_spec (heaps calls) (hm _) hs h0
    rw [short_line hn, betterLines]
    generalize betterFgets (heaps calls) s = res at hspec ⊢
    cases hspec with
    | eof s' hl' =>
      exact absurd hl' (List.append_ne_nil_of_right_ne_nil L (List.cons_ne_nil _ _))
    | last line s' hn' => exact absurd (List.mem_append_right L List.mem_cons_self) hn'
    | line L' rest' line s' hl' hn' hlen hline hs' =>
      obtain ⟨rfl, rfl⟩ := line_inj hn hn' hl'
      have h0' : '\x00' ∉ rest := fun h =>
        h0 (List.mem_append_right L (List.mem_cons_of_mem _ h))
      rw [List.length_append, List.length_cons] at hcalls
      obtain ⟨h1, h2⟩ := ih hs' h0' (show rest.length < calls by omega)
      refine ⟨fun h => ?_, fun h => ?_⟩
      · dsimp only
        rw [h1 h.2, hline, List.dropLast_cons_of_ne_nil hl.ne_nil, List.map_cons,
          chopNewline_concat]
        rfl
      · dsimp only
        rw [h2 fun hr => h ⟨hlen, hr⟩]
    | long L' rest' hl' hn' hlen =>
      refine ⟨fun h => ?_, fun _ => rfl⟩
      have hle : L'.length ≤ L.length := by
        by_contra hgt
        have hget : (L ++ '\n' :: rest)[L.length]? = some '\n' := by
          rw [List.getElem?_append_right (Nat.le_refl _), Nat.sub_self]
          rfl
        rw [hl', List.getElem?_append_left (by omega)] at hget
        exact hn' (List.mem_of_getElem? hget)
      have := h.1
      rw [List.nil_append] at hlen
      omega

/-! ## the lines of `getline` -/

theorem Ready.start {chunks : List Str} (hc : ∀ chunk ∈ chunks, chunk ≠ [] ∧ chunk.length ≤ readSz) :
    Ready (.start (chunks.map some)) chunks.flatten where
  length := List.length_replicate ..
  pos := Int.le_refl _
  size := Int.natCast_nonneg _
  reads := by
    intro r hr
    obtain ⟨chunk, hm, rfl⟩ := List.mem_map.mp hr
    exact ⟨chunk, rfl, hc chunk hm⟩
  unread := by
    show (List.replicate readSz '\x00').take 0 ++ ((chunks.map some).map (·.getD [])).flatten = _
    rw [List.map_map]
    exact congrArg List.flatten (List.map_id chunks)

theorem getlines_ne_null {buf stream : Str} {n : Nat} (hm : ∀ n, heap.malloc n ≠ none)
    (hbuf : buf.length = n) (hn2 : 2 ≤ n) (hn : n < 2 ^ 32) :
    getlines heap calls (some buf) n stream ≠ .error .null := by
  induction calls generalizing n buf stream with
  | zero =>
    intro h
    cases h
  | succ calls ih =>
    rcases getlineAt_cases heap stream hbuf hn2 hn with ⟨g, hg, hret, -⟩ | ⟨-, k, -, -, h⟩ | ⟨hg, -⟩
    · have hle : n ≤ g.n := by
        rw [hret.n]
        exact (Fill.start n).le_scan_n stream
      by_cases h0 : g.count = 0
      · rw [getlines_zero hg h0]
        intro h
        cases h
      · rw [getlines_succ hg h0]
        have hrest := @ih g.buf g.rest g.n hret.placed.block (hn2.trans hle) hret.lt
        cases hrun : getlines heap calls (some g.buf) g.n g.rest with
        | ok gs =>
          intro h
          cases h
        | error e =>
          rw [hrun] at hrest
          exact fun h => hrest (congrArg Except.error (Except.error.inj h))
    · exact absurd h (hm _)
    · rw [getlines, hg]
      intro h
      cases h

/-- all calls of `getline` on a file, when there is memory -/
theorem readAll_cases (hm : ∀ n, heap.malloc n ≠ none) (content : Str) :
    readAll heap none 0 content = .error .wrapped ∧
      ((Fill.start 128).Passes content → 2 ^ 32 ≤ (Fill.start 128).final content) ∨
    ∃ gs, readAll heap none 0 content = .ok gs ∧ Outcome 128 content gs := by
  cases hbuf : heap.malloc 128 with
  | none => exact absurd hbuf (hm 128)
  | some buf =>
    have hlen := heap.length _ _ hbuf
    unfold readAll
    rw [getlines_null hbuf]
    exact (getlines_spec heap content hlen (by decide) (by decide)
      (Nat.lt_succ_self _)).resolve_left (getlines_ne_null hm hlen (by decide) (by decide))

/-- the two readers agree on a file just when it keeps the sizes of both in range -/
theorem agree_iff (heap : Heap) (heaps : Nat → Heap) (chunks : List Str)
    (hm : ∀ n, heap.malloc n ≠ none) (hms : ∀ k n, (heaps k).malloc n ≠ none)
    (hc : ∀ chunk ∈ chunks, chunk ≠ [] ∧ chunk.length ≤ readSz) (h0 : '\x00' ∉ chunks.flatten) :
    Agree heap heaps chunks ↔ Keeps chunks.flatten := by
  obtain ⟨ls, hls⟩ := LinesOf.exists_of chunks.flatten
  obtain ⟨hshort, hlong⟩ := betterLines_spec hls hms (.start hc) h0 (Nat.lt_succ_self _)
  constructor
  · rintro ⟨gs, ls', hgs, hbetter, hagree⟩
    have hsh : Short chunks.flatten := by
      by_contra hn
      rw [hlong hn] at hbetter
      exact absurd hbetter nofun
    rw [hshort hsh] at hbetter
    obtain rfl := Except.ok.inj hbetter
    obtain ⟨gs', hgs', ho⟩ := (readAll_cases hm chunks.flatten).resolve_left fun h => by
      rw [h.1] at hgs
      exact absurd hgs nofun
    obtain rfl := Except.ok.inj (hgs.symm.trans hgs')
    have hp : (Fill.start 128).Passes chunks.flatten := by
      by_contra hp
      -- `getline` returns less lines
      have hpart := ho.partly hp
      have hlt := hpart.length_lt (j := 0) rfl hls
      have hpos := List.length_pos_iff.mpr hpart.ne_nil
      have hlen := congrArg List.length hagree
      unfold getlineLines at hlen
      rw [List.length_map, List.length_dropLast, List.length_map, List.length_dropLast] at hlen
      omega
    exact ⟨hsh, hp, ho.capacity hp⟩
  · intro hk
    rcases readAll_cases hm chunks.flatten with ⟨-, hw⟩ | ⟨gs, hgs, ho⟩
    · exact absurd hk.final (Nat.not_lt.mpr (hw hk.passes))
    · refine ⟨gs, _, hgs, hshort hk.short, ?_⟩
      rw [getlineLines, LinesOf.unique hls (ho.lines hk.passes)]

end

theorem agree_two_chunks : Agree .plenty (fun _ => .plenty) ["ab\nc".toList, "d".toList] := by
  refine (agree_iff .plenty (fun _ => .plenty) ["ab\nc".toList, "d".toList] (fun _ => nofun)
    (fun _ _ => nofun) (by decide) (by decide)).mpr ⟨?_, ?_, by decide⟩
  · show Short ("ab".toList ++ '\n' :: "cd".toList)
    rw [short_line (by decide), short_last (by decide)]
    decide
  · show (Fill.start 128).Passes ['a', 'b', '\n', 'c', 'd']
    rw [Fill.passes_cons, Fill.passes_cons, Fill.passes_cons, Fill.passes_cons, Fill.passes_cons]
    exact ⟨by decide, by decide, by decide, by decide, by decide, Fill.passes_nil _⟩

/-- the second line of a file with 24 carriage returns comes from `better_fgets` only -/
theorem agree_stops : ¬ ∀ (heap : Heap) (heaps : Nat → Heap) (chunks : List Str),
    (∀ n, heap.malloc n ≠ none) → (∀ k n, (heaps k).malloc n ≠ none) →
    (∀ chunk ∈ chunks, chunk ≠ [] ∧ chunk.length ≤ readSz) → '\x00' ∉ chunks.flatten →
    Agree heap heaps chunks := by
  intro hall
  have hc : ∀ chunk ∈ [carriageReturns], chunk ≠ [] ∧ chunk.length ≤ readSz := by decide
  have hcat : [carriageReturns].flatten = carriageReturns := List.append_nil _
  obtain ⟨g, g', hrun, -⟩ := readAll_carriageReturns
  obtain ⟨gs, ls, hgs, hbetter, hagree⟩ := hall .plenty (fun _ => .plenty) [carriageReturns]
    (fun _ => nofun) (fun _ _ => nofun) hc (by decide)
  rw [hcat, hrun] at hgs
  obtain rfl := Except.ok.inj hgs
  have hls : LinesOf [carriageReturns].flatten
      [List.replicate 24 '\r' ++ ['\n'], ['a'], []] := by
    rw [hcat]
    exact .line (by decide) (.last (by decide) (by decide))
  have hshort : Short [carriageReturns].flatten := by
    rw [hcat]
    exact (short_line (by decide)).mpr ⟨by decide, (short_last (by decide)).mpr (by decide)⟩
  have hms : ∀ k n, ((fun _ => .plenty : Nat → Heap) k).malloc n ≠ none := fun _ _ => nofun
  rw [(betterLines_spec hls hms (.start hc) (by decide) (Nat.lt_succ_self _)).1 hshort] at hbetter
  obtain rfl := Except.ok.inj hbetter
  exact absurd (congrArg List.length hagree) (show ¬ 2 = 1 by decide)

end Catlines
