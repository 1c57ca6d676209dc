import Xv6.Ulib.Getline

/-!
# A reader with a buffer of its own (`better_fgets` in `user/catlines.c`)

`better_fgets` reads blocks of 4096 bytes into a static buffer and copies a line out of it, into
memory that it doubles when it is full; the sizes are `int`s.  `Ready` ties the static variables to
what is unread, and `lineLoop_spec` says which line comes out.
-/

namespace Catlines
open Ulib

/-! ## the model -/

def readSz : Nat := 4096

def lineSz : Nat := 128

/-- the static variables, and what the coming `read`s deliver; `none` is an error, and behind the
last of them is the end of the file -/
structure Static where
  buffer : Str
  pos : Nat
  size : Int
  reads : List (Option Str)

def Static.start (reads : List (Option Str)) : Static where
  buffer := List.replicate readSz '\x00'
  pos := 0
  size := 0
  reads := reads

/-- `buffer_size = read(fd, buffer, READ_SZ)` -/
def Static.read (s : Static) : Except Stop Static :=
  match s.reads with
  | [] => .ok { s with size := 0, pos := 0 }
  | none :: reads => .ok { s with size := -1, pos := 0, reads := reads }
  | some chunk :: reads =>
    if chunk.length ≤ s.buffer.length then
      .ok ⟨chunk ++ s.buffer.drop chunk.length, 0, chunk.length, reads⟩
    else .error .outside

def Static.refill (s : Static) : Except Stop Static :=
  if s.size ≤ s.pos then s.read else .ok s

/-- `line[i] = c`, where `line` may be null -/
def storeLine (line : Option Str) (i : Nat) (c : Char) : Except Stop Str :=
  match line with
  | none => .error .null
  | some line => store line i c

/-- the end of a line: the NUL, and the result -/
def endLine (s : Static) (line : Option Str) (linePos : Nat) : Except Stop (Option Str × Static) :=
  match storeLine line linePos '\x00' with
  | .error e => .error e
  | .ok line => .ok (some line, s)

/-- a larger block for a line that is full; `none` where `malloc` refuses it -/
def grow (heap : Heap) (line : Option Str) (lineSize linePos : Nat) :
    Except Stop (Option (Option Str × Nat)) :=
  if linePos + 1 < lineSize then .ok (some (line, lineSize))
  else if 2 ^ 31 ≤ lineSize * 2 then .error .wrapped
  else
    match heap.malloc (lineSize * 2), line with
    | none, _ => .ok none
    | some _, none => .error .null
    | some tmp, some line =>
      match memcpy tmp line linePos with
      | .error e => .error e
      | .ok tmp => .ok (some (some tmp, lineSize * 2))

/-- the loop of `better_fgets`; each round takes a character -/
def lineLoop (heap : Heap) : Nat → Static → Option Str → Nat → Nat →
    Except Stop (Option Str × Static)
  | 0, _, _, _, _ => .error .forever
  | rounds + 1, s, line, lineSize, linePos =>
    match s.refill with
    | .error e => .error e
    | .ok s =>
      if s.size = 0 then if linePos = 0 then .ok (none, s) else endLine s line linePos
      else if s.size < 0 then .ok (none, s)
      else
        match s.buffer[s.pos]? with
        | none => .error .outside
        | some c =>
          let s := { s with pos := s.pos + 1 }
          if c = '\n' then endLine s line linePos
          else
            match grow heap line lineSize linePos with
            | .error e => .error e
            | .ok none => .ok (none, s)
            | .ok (some (line, lineSize)) =>
              match storeLine line linePos c with
              | .error e => .error e
              | .ok line => lineLoop heap rounds s (some line) lineSize (linePos + 1)

def Static.unread (s : Static) : Str :=
  (s.buffer.take s.size.toNat).drop s.pos ++ (s.reads.map (·.getD [])).flatten

def betterFgets (heap : Heap) (s : Static) : Except Stop (Option Str × Static) :=
  lineLoop heap (s.unread.length + 1) s (heap.malloc lineSz) lineSz 0

/-- the strings that the calls return up to the first that returns NULL; each call has a heap of its
own -/
def betterLines (heaps : Nat → Heap) : Nat → Static → Except Stop (List Str)
  | 0, _ => .error .forever
  | calls + 1, s =>
    match betterFgets (heaps calls) s with
    | .error e => .error e
    | .ok (none, _) => .ok []
    | .ok (some line, s) =>
      match betterLines heaps calls s with
      | .error e => .error e
      | .ok ls => .ok (cstr line :: ls)

/-! ## the static buffer -/

structure Ready (s : Static) (left : Str) : Prop where
  length : s.buffer.length = readSz
  pos : (s.pos : Int) ≤ s.size
  size : s.size ≤ readSz
  reads : ∀ r ∈ s.reads, ∃ chunk, r = some chunk ∧ chunk ≠ [] ∧ chunk.length ≤ readSz
  unread : s.unread = left

section
variable {heap : Heap} {s : Static} {a b L left rest line : Str} {c : Char} {k : Nat}

theorem Ready.length_buffer (h : Ready s left) :
    ((s.buffer.take s.size.toNat).drop s.pos).length = s.size.toNat - s.pos := by
  have h1 := h.size
  have h2 := h.length
  rw [List.length_drop, List.length_take, h2]
  omega

theorem Ready.refill_nil (h : Ready s []) : ∃ s', s.refill = .ok s' ∧ s'.size = 0 ∧ Ready s' [] := by
  obtain ⟨hbuf, hrest⟩ := List.append_eq_nil_iff.mp h.unread
  have hlen := h.length_buffer
  rw [hbuf, List.length_nil] at hlen
  have hpos := h.pos
  have hreads : s.reads = [] := by
    cases hr : s.reads with
    | nil => rfl
    | cons r reads =>
      obtain ⟨chunk, rfl, hne, -⟩ := h.reads r (by rw [hr]; exact List.mem_cons_self)
      rw [hr, List.map_cons, List.flatten_cons] at hrest
      exact absurd (List.append_eq_nil_iff.mp hrest).1 hne
  refine ⟨{ s with size := 0, pos := 0 }, ?_, rfl, ⟨h.length, Int.le_refl _, Int.natCast_nonneg _, h.reads, ?_⟩⟩
  · unfold Static.refill Static.read
    rw [if_pos (by omega), hreads]
  · show (s.buffer.take 0).drop 0 ++ (s.reads.map (·.getD [])).flatten = []
    rw [hreads]
    rfl

/-- the next character is in the buffer, after a read where that is needed -/
theorem Ready.refill_cons (h : Ready s (c :: rest)) : ∃ s', s.refill = .ok s' ∧ 0 < s'.size ∧
    s'.buffer[s'.pos]? = some c ∧ Ready { s' with pos := s'.pos + 1 } rest := by
  have hlen := h.length_buffer
  have hun : (s.buffer.take s.size.toNat).drop s.pos ++ (s.reads.map (·.getD [])).flatten =
      c :: rest := h.unread
  by_cases hle : s.size ≤ s.pos
  · -- the buffer is used up, and the next piece starts with `c`
    have hnil : (s.buffer.take s.size.toNat).drop s.pos = [] :=
      List.eq_nil_of_length_eq_zero (by omega)
    rw [hnil, List.nil_append] at hun
    cases hr : s.reads with
    | nil =>
      rw [hr] at hun
      exact absurd hun (List.cons_ne_nil _ _).symm
    | cons r reads =>
      obtain ⟨chunk, rfl, hne, hsz⟩ := h.reads r (by rw [hr]; exact List.mem_cons_self)
      obtain ⟨x, chunk, rfl⟩ := List.exists_cons_of_ne_nil hne
      rw [hr, List.map_cons, List.flatten_cons] at hun
      obtain ⟨rfl, hrest⟩ := List.cons.inj hun
      have hfit : (x :: chunk).length ≤ s.buffer.length := by rwa [h.length]
      refine ⟨⟨x :: chunk ++ s.buffer.drop (x :: chunk).length, 0, (x :: chunk).length, reads⟩, ?_,
        by simp, rfl, ⟨?_, ?_, ?_, ?_, ?_⟩⟩
      · unfold Static.refill Static.read
        rw [if_pos hle, hr]
        exact if_pos hfit
      · show (x :: chunk ++ s.buffer.drop (x :: chunk).length).length = readSz
        rw [List.length_append, List.length_drop, h.length]
        omega
      · show ((0 + 1 : Nat) : Int) ≤ ((x :: chunk).length : Nat)
        rw [List.length_cons]
        omega
      · show ((x :: chunk).length : Int) ≤ readSz
        exact Int.ofNat_le.mpr hsz
      · exact fun r hm => h.reads r (by rw [hr]; exact List.mem_cons_of_mem _ hm)
      · show ((x :: chunk ++ s.buffer.drop (x :: chunk).length).take ((x :: chunk).length : Int).toNat).drop
          (0 + 1) ++ (reads.map (·.getD [])).flatten = rest
        rw [Int.toNat_natCast, List.take_left]
        exact hrest
  · have hlt : s.pos < s.size.toNat := by omega
    have hpos := h.size
    have hget : ((s.buffer.take s.size.toNat).drop s.pos) =
        c :: (s.buffer.take s.size.toNat).drop (s.pos + 1) ∧
        (s.buffer.take s.size.toNat).drop (s.pos + 1) ++ (s.reads.map (·.getD [])).flatten = rest := by
      cases hd : (s.buffer.take s.size.toNat).drop s.pos with
      | nil =>
        rw [hd, List.length_nil] at hlen
        omega
      | cons x tail =>
        have ht : (s.buffer.take s.size.toNat).drop (s.pos + 1) = tail := by
          rw [← List.drop_drop, hd]
          rfl
        rw [hd] at hun
        obtain ⟨rfl, hrest⟩ := List.cons.inj hun
        exact ⟨by rw [ht], by rw [ht]; exact hrest⟩
    refine ⟨s, ?_, by omega, ?_, ⟨h.length, ?_, h.size, h.reads, hget.2⟩⟩
    · unfold Static.refill
      exact if_neg hle
    · have h0 := congrArg (fun l : Str => l[0]?) hget.1
      rw [List.getElem?_drop, Nat.add_zero, List.getElem?_take_of_lt hlt] at h0
      exact h0
    · show ((s.pos + 1 : Nat) : Int) ≤ s.size
      omega

/-! ## a line -/

/-- the ways in which a call ends that has copied `a`, and then finds `left` -/
inductive LineEnds (a left : Str) : Except Stop (Option Str × Static) → Prop
  | eof (s : Static) (hl : left = []) (ha : a = []) (hs : Ready s []) : LineEnds a left (.ok (none, s))
  | last (line : Str) (s : Static) (hn : '\n' ∉ left) (hne : a ++ left ≠ [])
      (hlen : (a ++ left).length < 2 ^ 30) (hline : cstr line = a ++ left) (hs : Ready s []) :
      LineEnds a left (.ok (some line, s))
  | line (L rest line : Str) (s : Static) (hl : left = L ++ '\n' :: rest) (hn : '\n' ∉ L)
      (hlen : (a ++ L).length < 2 ^ 30) (hline : cstr line = a ++ L) (hs : Ready s rest) :
      LineEnds a left (.ok (some line, s))
  | long (L rest : Str) (hl : left = L ++ rest) (hn : '\n' ∉ L) (hlen : 2 ^ 30 ≤ (a ++ L).length) :
      LineEnds a left (.error .wrapped)

theorem LineEnds.cons {res : Except Stop (Option Str × Static)} (hc : c ≠ '\n')
    (h : LineEnds (a ++ [c]) rest res) : LineEnds a (c :: rest) res := by
  have hcat : ∀ t : Str, (a ++ [c]) ++ t = a ++ c :: t := fun t => (List.append_cons a c t).symm
  have hmem : ∀ {t : Str}, '\n' ∉ t → '\n' ∉ c :: t :=
    fun ht hm => (List.mem_cons.mp hm).elim (fun e => hc e.symm) ht
  cases h with
  | eof s hl ha => exact absurd ha (List.append_ne_nil_of_right_ne_nil a (List.cons_ne_nil c []))
  | last line s hn hne hlen hline hs =>
    rw [hcat] at hne hlen hline
    exact .last line s (hmem hn) hne hlen hline hs
  | line L rest line s hl hn hlen hline hs =>
    rw [hcat] at hlen hline
    exact .line (c :: L) rest line s (by rw [hl]; rfl) (hmem hn) hlen hline hs
  | long L rest hl hn hlen =>
    rw [hcat] at hlen
    exact .long (c :: L) rest (by rw [hl]; rfl) (hmem hn) hlen

theorem endLine_eq (h0 : '\x00' ∉ a) (hb : b ≠ []) :
    ∃ line, endLine s (some (a ++ b)) a.length = .ok (some line, s) ∧ cstr line = a := by
  refine ⟨a ++ '\x00' :: b.drop 1, ?_, ?_⟩
  · unfold endLine storeLine
    dsimp only
    rw [store_append hb rfl]
  · unfold cstr
    have ha : ∀ x ∈ a, decide (x ≠ '\x00') = true := fun x hx =>
      decide_eq_true fun e => h0 (e ▸ hx)
    rw [List.takeWhile_append_of_pos ha]
    exact List.append_nil a

theorem grow_cases (heap : Heap) (hm : ∀ n, heap.malloc n ≠ none)
    (hsz : (a ++ b).length = 128 * 2 ^ k) (hb : b ≠ []) (hk : k ≤ 23) :
    (∃ b' k', grow heap (some (a ++ b)) (128 * 2 ^ k) a.length =
        .ok (some (some (a ++ b'), 128 * 2 ^ k')) ∧ (a ++ b').length = 128 * 2 ^ k' ∧
        2 ≤ b'.length ∧ k' ≤ 23) ∨
    grow heap (some (a ++ b)) (128 * 2 ^ k) a.length = .error .wrapped ∧ 2 ^ 30 ≤ a.length + 1 := by
  have hpow : 2 ^ k ≤ 2 ^ 23 := Nat.pow_le_pow_right (by decide) hk
  have hb1 := List.length_pos_iff.mpr hb
  have hsum := hsz
  rw [List.length_append] at hsum
  unfold grow
  by_cases hroom : a.length + 1 < 128 * 2 ^ k
  · rw [if_pos hroom]
    exact Or.inl ⟨b, k, rfl, hsz, by omega, hk⟩
  rw [if_neg hroom]
  by_cases hmax : 2 ^ 31 ≤ 128 * 2 ^ k * 2
  · rw [if_pos hmax]
    exact Or.inr ⟨rfl, by omega⟩
  rw [if_neg hmax]
  cases hm' : heap.malloc (128 * 2 ^ k * 2) with
  | none => exact absurd hm' (hm _)
  | some tmp =>
    have htmp := heap.length _ _ hm'
    have hcopy : memcpy tmp (a ++ b) a.length = .ok (a ++ tmp.drop a.length) := by
      have hint : (asInt a.length).toNat = a.length := by
        unfold asInt
        rw [if_pos (by omega)]
        rfl
      unfold memcpy
      dsimp only
      rw [hint, if_pos ⟨by omega, by rw [hsz]; omega⟩, List.take_left]
    have hk' : k + 1 ≤ 23 := by
      by_contra hge
      obtain rfl : k = 23 := by omega
      exact hmax (by decide)
    dsimp only
    rw [hcopy]
    refine Or.inl ⟨tmp.drop a.length, k + 1, ?_, ?_, ?_, hk'⟩
    · rw [Nat.pow_succ, Nat.mul_assoc]
    · rw [List.length_append, List.length_drop, htmp, Nat.pow_succ]
      omega
    · rw [List.length_drop, htmp]
      omega

theorem lineLoop_spec (heap : Heap) (hm : ∀ n, heap.malloc n ≠ none) {rounds : Nat}
    (hs : Ready s left) (h0 : '\x00' ∉ a ++ left) (hsz : (a ++ b).length = 128 * 2 ^ k)
    (hb : b ≠ []) (hk : k ≤ 23) (hfuel : left.length < rounds) :
    LineEnds a left (lineLoop heap rounds s (some (a ++ b)) (128 * 2 ^ k) a.length) := by
  induction rounds generalizing s left a b k with
  | zero => exact absurd hfuel (Nat.not_lt_zero _)
  | succ rounds ih =>
    have hpow : 2 ^ k ≤ 2 ^ 23 := Nat.pow_le_pow_right (by decide) hk
    have hshort : a.length < 2 ^ 30 := by
      have hb1 := List.length_pos_iff.mpr hb
      rw [List.length_append] at hsz
      omega
    have ha0 : '\x00' ∉ a := fun h => h0 (List.mem_append_left _ h)
    unfold lineLoop
    cases left with
    | nil =>
      obtain ⟨s', hrefill, hsize, hs'⟩ := hs.refill_nil
      rw [hrefill]
      dsimp only
      rw [if_pos hsize]
      by_cases hnil : a = []
      · rw [if_pos (by rw [hnil]; rfl)]
        exact .eof s' rfl hnil hs'
      · rw [if_neg (fun e => hnil (List.eq_nil_of_length_eq_zero e))]
        obtain ⟨line, hline, hstr⟩ := endLine_eq (s := s') ha0 hb
        rw [hline]
        refine .last line s' List.not_mem_nil ?_ ?_ ?_ hs'
        · rwa [List.append_nil]
        · rwa [List.append_nil]
        · rwa [List.append_nil]
    | cons c rest =>
      obtain ⟨s', hrefill, hsize, hget, hs'⟩ := hs.refill_cons
      rw [hrefill]
      dsimp only
      rw [if_neg (by omega), if_neg (by omega), hget]
      dsimp only
      by_cases hc : c = '\n'
      · rw [if_pos hc]
        obtain ⟨line, hline, hstr⟩ := endLine_eq (s := { s' with pos := s'.pos + 1 }) ha0 hb
        rw [hline]
        refine .line [] rest line _ (by rw [hc]; rfl) List.not_mem_nil ?_ ?_ hs'
        · rwa [List.append_nil]
        · rwa [List.append_nil]
      rw [if_neg hc]
      rcases grow_cases heap hm hsz hb hk with ⟨b', k', hg, hsz', hb', hk'⟩ | ⟨hg, hlong⟩
      · rw [hg]
        dsimp only
        obtain ⟨x, b'', rfl⟩ := List.exists_cons_of_ne_nil (List.ne_nil_of_length_pos (by omega : 0 < b'.length))
        have hstore : storeLine (some (a ++ x :: b'')) a.length c = .ok ((a ++ [c]) ++ b'') := by
          unfold storeLine
          dsimp only
          rw [store_append (List.cons_ne_nil _ _) rfl, ← List.append_cons]
          rfl
        have hsz'' : ((a ++ [c]) ++ b'').length = 128 * 2 ^ k' := by
          rw [← hsz', ← List.append_cons, List.length_append, List.length_append]
          rfl
        have hb'' : b'' ≠ [] := by
          rintro rfl
          rw [List.length_singleton] at hb'
          omega
        have h0' : '\x00' ∉ (a ++ [c]) ++ rest := by rwa [← List.append_cons]
        have hlen : a.length + 1 = (a ++ [c]).length := by
          rw [List.length_append, List.length_singleton]
        rw [hstore]
        dsimp only
        rw [hlen]
        exact .cons hc (ih hs' h0' hsz'' hb'' hk' (Nat.lt_of_succ_lt_succ hfuel))
      · rw [hg]
        exact .long [c] rest rfl (fun hm' => hc (List.mem_singleton.mp hm').symm)
          (by rw [List.length_append]; exact hlong)

theorem betterFgets_spec (heap : Heap) (hm : ∀ n, heap.malloc n ≠ none) (hs : Ready s left)
    (h0 : '\x00' ∉ left) : LineEnds [] left (betterFgets heap s) := by
  unfold betterFgets
  cases hl : heap.malloc lineSz with
  | none => exact absurd hl (hm _)
  | some line =>
    have hlen : ([] ++ line).length = 128 * 2 ^ 0 := heap.length _ _ hl
    have hne : line ≠ [] := by
      rintro rfl
      exact absurd hlen (by decide)
    refine lineLoop_spec heap hm hs h0 hlen hne (Nat.zero_le _) ?_
    rw [hs.unread]
    exact Nat.lt_succ_self _

end

end Catlines
