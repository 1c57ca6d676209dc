import Xv6.Ulib.Getline

/-!
# A stream read by calls of `getline`

The calls up to the first that returns 0 return the lines of the stream, as long as the room behind
what is in the buffer is an `int`: `fgets` takes it as one, and reads nothing when it is negative.
`reads_iff` is this condition, with `Fill` for the capacity at each character.
-/

namespace Ulib

/-! ## what the calls have to return -/

def Got.text (g : Got) : Str := g.buf.take g.count

/-- the result is terminated at its count, inside of the block that `*n` is the size of -/
structure Got.Placed (g : Got) : Prop where
  block : g.buf.length = g.n
  nul : g.buf[g.count]? = some '\x00'
  room : g.count + 1 ≤ g.n

/-- `l` ends in its only newline -/
def IsLine (l : Str) : Prop := ∃ L, l = L ++ ['\n'] ∧ '\n' ∉ L

/-- the results of the calls up to the one that returns 0: their texts, in order, are the stream,
and all lines but the last end in their only newline -/
structure Reads (stream : Str) (gs : List Got) : Prop where
  bytes : (gs.map Got.text).flatten = stream
  lines : ∀ l ∈ (gs.map Got.text).dropLast.dropLast, IsLine l
  final : ∃ g, gs.getLast? = some g ∧ g.count = 0
  placed : ∀ g ∈ gs, g.Placed

def readAll (heap : Heap) (line : Option Str) (n : Nat) (stream : Str) : Except Stop (List Got) :=
  getlines heap (stream.length + 1) line n stream

/-- the null pointer with capacity 0, or a buffer of at least two bytes with its capacity -/
def Supplied (line : Option Str) (n : Nat) : Prop :=
  (line = none ∧ n = 0) ∨ ∃ buf, line = some buf ∧ buf.length = n ∧ 2 ≤ n ∧ n < 2 ^ 32

def firstCapacity (n : Nat) : Nat := if n = 0 then 128 else n

/-- at each character of the stream the room in the buffer is an `int` -/
def Fill.Passes (f : Fill) (stream : Str) : Prop :=
  ∀ p c s, stream = p ++ c :: s → (p.foldl Fill.put f).n - (p.foldl Fill.put f).used < 2 ^ 31

def Fill.final (f : Fill) (stream : Str) : Nat := (stream.foldl Fill.put f).eof.n

/-! ## the bookkeeping -/

section
variable {heap : Heap} {f : Fill} {n calls : Nat} {c : Char} {s t L stream rest buf : Str}
  {r : Str × Fill}

theorem Fill.passes_nil (f : Fill) : f.Passes [] := by
  intro p c s h
  exact absurd h.symm (List.append_ne_nil_of_right_ne_nil p (List.cons_ne_nil c s))

theorem Fill.passes_cons : f.Passes (c :: s) ↔ f.n - f.used < 2 ^ 31 ∧ (f.put c).Passes s := by
  constructor
  · intro h
    refine ⟨h [] c s rfl, fun p d t hs => ?_⟩
    exact h (c :: p) d t (by rw [hs]; rfl)
  · rintro ⟨h0, h⟩ p d t hs
    cases p with
    | nil => exact h0
    | cons x p =>
      obtain ⟨rfl, htail⟩ := List.cons.inj hs
      exact h p d t htail

theorem Fill.passes_append : f.Passes (s ++ t) ↔ f.Passes s ∧ (s.foldl Fill.put f).Passes t := by
  induction s generalizing f with
  | nil => exact (and_iff_right f.passes_nil).symm
  | cons c s ih => rw [List.cons_append, passes_cons, ih, passes_cons, and_assoc, List.foldl_cons]

theorem Fill.put_newline (f : Fill) : f.put '\n' = .start f.n := if_pos rfl

theorem Fill.le_final (f : Fill) (stream : Str) : f.n ≤ f.final stream := by
  induction stream generalizing f with
  | nil =>
    show f.n ≤ f.eof.n
    unfold eof
    split
    · exact Nat.le_refl _
    · exact Nat.le_mul_of_pos_right _ (by decide)
  | cons c stream ih =>
    have h := f.put_n c
    have := ih (f.put c)
    show f.n ≤ (f.put c).final stream
    omega

theorem Fill.final_append : f.final (s ++ t) = (s.foldl Fill.put f).final t := by
  unfold final
  rw [List.foldl_append]

/-- there is room for a character and the NUL, and an `int` is large enough behind a piece -/
structure Fill.Ok (f : Fill) : Prop where
  room : f.used + 2 ≤ f.n
  small : f.fresh = false → f.n - f.used < 2 ^ 31

theorem Fill.Ok.start (hn : 2 ≤ n) : (Fill.start n).Ok := ⟨by rwa [Fill.start], nofun⟩

theorem Fill.Ok.put (h : f.Ok) (hs : ¬ f.Stuck) (c : Char) : (f.put c).Ok := by
  have hroom := h.room
  unfold Fill.put
  split
  · exact .start (by omega)
  · split
    · refine ⟨?_, nofun⟩
      show f.used + 1 + 2 ≤ f.n * 2
      omega
    · rename_i hfull
      obtain ⟨-, hfull⟩ := not_or.mp hfull
      refine ⟨?_, fun _ => ?_⟩
      · show f.used + 1 + 2 ≤ f.n
        omega
      · show f.n - (f.used + 1) < 2 ^ 31
        cases hf : f.fresh with
        | false =>
          have := h.small hf
          omega
        | true =>
          by_contra hge
          exact hs ⟨hf, by omega⟩

/-- what a call reads: a line, the rest of the file, or what comes before a room that is no `int` -/
inductive Fill.Scanned (f : Fill) (input : Str) (r : Str × Fill) : Prop
  | line (L rest : Str) (hin : input = L ++ '\n' :: rest) (hn : '\n' ∉ L)
      (hp : f.Passes (L ++ ['\n'])) (hr : r = (L ++ ['\n'], .start (L.foldl Fill.put f).n))
  | last (hn : '\n' ∉ input) (hp : f.Passes input) (hr : r = (input, (input.foldl Fill.put f).eof))
  | stuck (L : Str) (c : Char) (rest : Str) (hin : input = L ++ c :: rest) (hn : '\n' ∉ L)
      (hs : (L.foldl Fill.put f).Stuck) (hr : r = (L, L.foldl Fill.put f))

theorem Fill.scan_cases (h : f.Ok) (input : Str) : f.Scanned input (f.scan input) := by
  induction input generalizing f with
  | nil => exact .last List.not_mem_nil f.passes_nil rfl
  | cons c input ih =>
    rw [scan_cons]
    by_cases hs : f.Stuck
    · rw [if_pos hs]
      exact .stuck [] c input rfl List.not_mem_nil hs rfl
    have hsmall : f.n - f.used < 2 ^ 31 := by
      cases hf : f.fresh with
      | false => exact h.small hf
      | true =>
        by_contra hge
        exact hs ⟨hf, Nat.le_of_not_lt hge⟩
    rw [if_neg hs]
    by_cases hn : c = '\n'
    · rw [if_pos hn, hn, put_newline]
      exact .line [] input rfl List.not_mem_nil (passes_cons.mpr ⟨hsmall, passes_nil _⟩) rfl
    rw [if_neg hn]
    generalize hr : (f.put c).scan input = r
    cases hr ▸ ih (h.put hs c) with
    | line L rest hin hnl hp hr =>
      subst hr
      refine .line (c :: L) rest (by rw [hin]; rfl) ?_ (passes_cons.mpr ⟨hsmall, hp⟩) rfl
      exact fun hm => (List.mem_cons.mp hm).elim (fun e => hn e.symm) hnl
    | last hnl hp hr =>
      subst hr
      refine .last ?_ (passes_cons.mpr ⟨hsmall, hp⟩) rfl
      exact fun hm => (List.mem_cons.mp hm).elim (fun e => hn e.symm) hnl
    | stuck L d rest hin hnl hs' hr =>
      subst hr
      refine .stuck (c :: L) d rest (by rw [hin]; rfl) ?_ hs' rfl
      exact fun hm => (List.mem_cons.mp hm).elim (fun e => hn e.symm) hnl

theorem Fill.put_used (f : Fill) (hc : c ≠ '\n') : (f.put c).used = f.used + 1 := by
  unfold put
  rw [if_neg hc]
  split <;> rfl

theorem Fill.foldl_used (hn : '\n' ∉ L) : (L.foldl Fill.put f).used = f.used + L.length := by
  induction L generalizing f with
  | nil => rfl
  | cons c L ih =>
    rw [List.mem_cons, not_or] at hn
    rw [List.foldl_cons, ih hn.2, f.put_used (Ne.symm hn.1), List.length_cons]
    omega

/-- a stream that stops a call does not pass -/
theorem Fill.Stuck.not_passes (h : (s.foldl Fill.put f).Stuck) : ¬ f.Passes (s ++ c :: rest) := by
  intro hp
  exact absurd (hp s c rest rfl) (Nat.not_lt.mpr h.2)

/-- a call in a stream that passes needs no more than the whole stream -/
theorem Fill.scan_n_le_final (f : Fill) (hf : f.Ok) (hp : f.Passes stream) :
    (f.scan stream).2.n ≤ f.final stream := by
  generalize hr : f.scan stream = r
  cases hr ▸ Fill.scan_cases hf stream with
  | line L rest hin _ _ hr' =>
    rw [hin, hr', final_append]
    exact (L.foldl Fill.put f).le_final ('\n' :: rest)
  | last _ _ hr' =>
    rw [hr']
    exact Nat.le_refl _
  | stuck L c rest hin _ hs _ =>
    rw [hin] at hp
    exact absurd hp hs.not_passes

/-! ## one call -/

theorem getlineAt_spec (heap : Heap) (stream : Str) (hbuf : buf.length = n) (hn2 : 2 ≤ n) (hn : n < 2 ^ 32) :
    Ends heap n [] stream ((Fill.start n).scan stream) (getlineAt heap (some buf) n stream) :=
  getlineAtLoop_spec (s := []) ((Nat.zero_add _).trans hbuf) hn2 hn (Nat.lt_succ_self _)

structure Returned (input : Str) (r : Str × Fill) (g : Got) : Prop where
  text : g.text = r.1
  count : g.count = r.1.length
  n : g.n = r.2.n
  rest : g.rest = input.drop r.1.length
  placed : g.Placed
  lt : g.n < 2 ^ 32

theorem Holds.placed {m : Nat} (h : Holds buf m s) (rest : Str) : (Got.mk s.length buf m rest).Placed ∧
    (Got.mk s.length buf m rest).text = s := by
  obtain ⟨hlen, t, ht⟩ := h
  refine ⟨⟨hlen, ?_, ?_⟩, ?_⟩
  · show buf[s.length]? = _
    rw [← ht, List.append_assoc, List.getElem?_append_right (Nat.le_refl _), Nat.sub_self]
    rfl
  · show s.length + 1 ≤ m
    rw [← hlen, ← ht, List.length_append, List.length_append, List.length_singleton]
    omega
  · show buf.take s.length = s
    rw [← ht, List.append_assoc, List.take_left]

/-- a call returns, or `malloc` refuses a block, or the capacity is doubled too often -/
theorem getlineAt_cases (heap : Heap) (stream : Str) (hbuf : buf.length = n) (hn2 : 2 ≤ n) (hn : n < 2 ^ 32) :
    (∃ g, getlineAt heap (some buf) n stream = .ok g ∧
      Returned stream ((Fill.start n).scan stream) g ∧
        ¬ heap.Refuses n ((Fill.start n).scan stream).2.n) ∨
    getlineAt heap (some buf) n stream = .error .null ∧
      heap.Refuses n ((Fill.start n).scan stream).2.n ∨
    getlineAt heap (some buf) n stream = .error .wrapped ∧
      2 ^ 32 ≤ ((Fill.start n).scan stream).2.n ∧
        ¬ heap.Refuses n ((Fill.start n).scan stream).2.n := by
  have hspec := getlineAt_spec heap stream hbuf hn2 hn
  generalize getlineAt heap (some buf) n stream = res at hspec ⊢
  cases hspec with
  | ok buf' hr lt holds =>
    rw [List.nil_append] at holds ⊢
    obtain ⟨hp, ht⟩ := holds.placed (stream.drop _)
    exact Or.inl ⟨_, rfl, ⟨ht, rfl, rfl, rfl, hp, lt⟩, hr⟩
  | null hr => exact Or.inr (Or.inl ⟨rfl, hr⟩)
  | wrapped hr h => exact Or.inr (Or.inr ⟨rfl, h, hr⟩)

theorem getlineAt_room (heap : Heap) (stream : Str) (hbuf : buf.length = n) (hn2 : 2 ≤ n) (hn : n < 2 ^ 32)
    (hroom : ¬ heap.Refuses n ((Fill.start n).scan stream).2.n)
    (hlt : ((Fill.start n).scan stream).2.n < 2 ^ 32) :
    ∃ g, getlineAt heap (some buf) n stream = .ok g ∧
      Returned stream ((Fill.start n).scan stream) g := by
  rcases getlineAt_cases heap stream hbuf hn2 hn with
    ⟨g, hg, hret, -⟩ | ⟨-, h⟩ | ⟨-, h, -⟩
  · exact ⟨g, hg, hret⟩
  · exact absurd h hroom
  · exact absurd hlt (Nat.not_lt.mpr h)

theorem getlineAt_nothing (heap : Heap) (stream : Str) (hbuf : buf.length = n) (hn2 : 2 ≤ n) (hn : n < 2 ^ 32)
    (hr : (Fill.start n).scan stream = ([], .start n)) :
    ∃ g, getlineAt heap (some buf) n stream = .ok g ∧ Returned stream ([], .start n) g := by
  have h := getlineAt_room heap stream hbuf hn2 hn
  rw [hr] at h
  exact h (heap.not_refuses_self (by omega)) hn

/-! ## all calls -/

/-- the texts of the calls: the lines of the stream, and nothing at its end -/
inductive LinesOf : Str → List Str → Prop
  | nil : LinesOf [] [[]]
  | last {L : Str} (hn : '\n' ∉ L) (hne : L ≠ []) : LinesOf L [L, []]
  | line {L rest : Str} {ls : List Str} (hn : '\n' ∉ L) (h : LinesOf rest ls) :
      LinesOf (L ++ '\n' :: rest) ((L ++ ['\n']) :: ls)

theorem LinesOf.ne_nil {ls : List Str} (h : LinesOf s ls) : ls ≠ [] := by
  cases h with
  | nil | last | line => exact List.cons_ne_nil _ _

theorem LinesOf.flatten {ls : List Str} (h : LinesOf s ls) : ls.flatten = s := by
  induction h with
  | nil => rfl
  | last => simp
  | line hn h ih =>
    rw [List.flatten_cons, ih, List.append_assoc]
    rfl

theorem LinesOf.isLine {ls : List Str} (h : LinesOf s ls) : ∀ l ∈ ls.dropLast.dropLast, IsLine l := by
  induction h with
  | nil | last => exact fun l hl => absurd hl List.not_mem_nil
  | @line L rest ls hn h ih =>
    intro l hl
    rw [List.dropLast_cons_of_ne_nil h.ne_nil] at hl
    by_cases h0 : ls.dropLast = []
    · rw [h0] at hl
      exact absurd hl List.not_mem_nil
    rw [List.dropLast_cons_of_ne_nil h0] at hl
    rcases List.mem_cons.mp hl with rfl | hm
    · exact ⟨_, rfl, hn⟩
    · exact ih l hm

/-- the texts of the calls on a stream that does not pass, read with capacity `n` at first: some
lines, and what comes before a room that is no `int` -/
inductive Partly : Nat → Str → List Str → Prop
  | stop {m : Nat} {s : Str} (hs : s ≠ []) : Partly m s [[]]
  | inside {m d : Nat} {L s : Str} (hL : L ≠ []) (hs : s ≠ []) (lt : m * 2 ^ d < 2 ^ 32)
      (le : 2 ^ 31 + L.length ≤ m * 2 ^ d) : Partly m (L ++ s) [L, []]
  | line {m d : Nat} {L rest : Str} {ls : List Str} (hn : '\n' ∉ L)
      (h : Partly (m * 2 ^ d) rest ls) : Partly m (L ++ '\n' :: rest) ((L ++ ['\n']) :: ls)

theorem Partly.flatten {ls : List Str} (h : Partly n s ls) : ls.flatten ≠ s := by
  induction h with
  | stop hs => exact fun e => hs e.symm
  | inside hL hs _ _ =>
    rw [List.flatten_cons, List.flatten_singleton, List.append_nil]
    exact fun e => hs (List.append_right_eq_self.mp e.symm)
  | line hn h ih =>
    rw [List.flatten_cons, List.append_assoc]
    exact fun e => ih (List.cons.inj (List.append_cancel_left e)).2

theorem line_inj {L' rest' : Str} (hn : '\n' ∉ L) (hn' : '\n' ∉ L')
    (h : L ++ '\n' :: rest = L' ++ '\n' :: rest') : L = L' ∧ rest = rest' := by
  have hl := congrArg (List.takeWhile (· ≠ '\n')) h
  have htake : ∀ {M t : Str}, '\n' ∉ M → (M ++ '\n' :: t).takeWhile (· ≠ '\n') = M := by
    intro M t hM
    have hp : ∀ x ∈ M, decide (x ≠ '\n') = true := by
      intro x hx
      exact decide_eq_true fun e => hM (e ▸ hx)
    rw [List.takeWhile_append_of_pos hp]
    exact List.append_nil M
  rw [htake hn, htake hn'] at hl
  subst hl
  exact ⟨rfl, (List.cons.inj (List.append_cancel_left h)).2⟩

theorem LinesOf.exists_of (stream : Str) : ∃ ls, LinesOf stream ls := by
  induction hlen : stream.length using Nat.strongRecOn generalizing stream with
  | ind k ih =>
    by_cases hn : '\n' ∈ stream
    · obtain ⟨L, rest, rfl, hL⟩ := List.eq_append_cons_of_mem hn
      rw [List.length_append, List.length_cons] at hlen
      obtain ⟨ls, hls⟩ := ih rest.length (by omega) rest rfl
      exact ⟨_, .line hL hls⟩
    · by_cases hne : stream = []
      · rw [hne]
        exact ⟨_, .nil⟩
      · exact ⟨_, .last hn hne⟩

theorem LinesOf.two_le {ls : List Str} (h : LinesOf stream ls) (hne : stream ≠ []) : 2 ≤ ls.length := by
  cases h with
  | nil => exact absurd rfl hne
  | last => exact Nat.le_refl 2
  | line _ h => exact Nat.succ_le_succ (List.length_pos_iff.mpr h.ne_nil)

theorem LinesOf.line_inv {ls : List Str} (h : LinesOf (L ++ '\n' :: rest) ls) (hn : '\n' ∉ L) :
    ∃ ls', ls = (L ++ ['\n']) :: ls' ∧ LinesOf rest ls' := by
  generalize he : L ++ '\n' :: rest = s at h
  cases h with
  | nil => exact absurd he (List.append_ne_nil_of_right_ne_nil L (List.cons_ne_nil _ _))
  | last hn' =>
    rw [← he] at hn'
    exact absurd (List.mem_append_right L List.mem_cons_self) hn'
  | line hn' h =>
    obtain ⟨rfl, rfl⟩ := line_inj hn hn' he
    exact ⟨_, rfl, h⟩

theorem LinesOf.unique {ls ls' : List Str} (h : LinesOf stream ls) (h' : LinesOf stream ls') :
    ls = ls' := by
  induction h generalizing ls' with
  | nil =>
    generalize he : ([] : Str) = s at h'
    cases h' with
    | nil => rfl
    | last _ hne => exact absurd he.symm hne
    | line => exact absurd he.symm (List.append_ne_nil_of_right_ne_nil _ (List.cons_ne_nil _ _))
  | last hn hne =>
    cases h' with
    | nil => exact absurd rfl hne
    | last => rfl
    | line => exact absurd (List.mem_append_right _ List.mem_cons_self) hn
  | line hn h ih =>
    obtain ⟨ls'', rfl, hl'⟩ := LinesOf.line_inv h' hn
    rw [ih hl']

theorem Partly.ne_nil {m : Nat} {ls : List Str} (h : Partly m s ls) : ls ≠ [] := by
  cases h with
  | stop | inside | line => exact List.cons_ne_nil _ _

/-- with a power of two for its capacity, `getline` stops between two lines, and misses one -/
theorem Partly.length_lt {m j : Nat} {ls ls' : List Str} (h : Partly m stream ls)
    (hm : m = 128 * 2 ^ j) (hl : LinesOf stream ls') : ls.length < ls'.length := by
  induction h generalizing j ls' with
  | stop hs => exact LinesOf.two_le hl hs
  | @inside m d L s hL hs lt le =>
    have hpos := List.length_pos_iff.mpr hL
    rw [hm, Nat.mul_assoc, ← Nat.pow_add] at lt le
    have hexp : j + d ≤ 24 := by
      by_contra hgt
      have := Nat.pow_le_pow_right (show 0 < 2 by decide) (show 25 ≤ j + d by omega)
      omega
    have := Nat.pow_le_pow_right (show 0 < 2 by decide) hexp
    omega
  | @line m d L rest ls hn h ih =>
    obtain ⟨ls'', rfl, hl'⟩ := LinesOf.line_inv hl hn
    exact Nat.succ_lt_succ (ih (j := j + d) (by rw [hm, Nat.mul_assoc, ← Nat.pow_add]) hl')

/-- the calls on a stream: they read its lines if it passes, and leave some of it if not -/
structure Outcome (n : Nat) (stream : Str) (gs : List Got) : Prop where
  lines : (Fill.start n).Passes stream → LinesOf stream (gs.map Got.text)
  partly : ¬ (Fill.start n).Passes stream → Partly n stream (gs.map Got.text)
  capacity : (Fill.start n).Passes stream → (Fill.start n).final stream < 2 ^ 32
  final : ∃ g, gs.getLast? = some g ∧ g.count = 0
  placed : ∀ g ∈ gs, g.Placed

theorem getlines_null (hm : heap.malloc 128 = some buf) : getlines heap (calls + 1) none 0 stream =
    getlines heap (calls + 1) (some buf) 128 stream := by
  have h : getlineAt heap none 0 stream = getlineAt heap (some buf) 128 stream := by
    unfold getlineAt
    dsimp only
    rw [if_pos rfl, hm]
  rw [getlines, getlines, h]

theorem getlines_succ {g : Got} (hg : getlineAt heap (some buf) n stream = .ok g)
    (h0 : g.count ≠ 0) : getlines heap (calls + 1) (some buf) n stream =
      match getlines heap calls (some g.buf) g.n g.rest with
      | .error e => .error e
      | .ok gs => .ok (g :: gs) := by
  rw [getlines, hg]
  exact if_neg h0

theorem getlines_zero {g : Got} (hg : getlineAt heap (some buf) n stream = .ok g)
    (h0 : g.count = 0) : getlines heap (calls + 1) (some buf) n stream = .ok [g] := by
  rw [getlines, hg]
  exact if_pos h0

theorem getlines_two {g g' : Got} (hg : getlineAt heap (some buf) n stream = .ok g)
    (h0 : g.count ≠ 0) (hg' : getlineAt heap (some g.buf) g.n g.rest = .ok g') (h0' : g'.count = 0) :
    getlines heap (calls + 2) (some buf) n stream = .ok [g, g'] := by
  rw [getlines_succ hg h0, getlines_zero hg' h0']

theorem Outcome.nothing {g : Got} (h : Returned stream ([], .start n) g)
    (hs : stream = [] ∨ ¬ (Fill.start n).Passes stream) : Outcome n stream [g] where
  lines := by
    intro hp
    rw [List.map_singleton, h.text, hs.resolve_right (not_not.mpr hp)]
    exact .nil
  partly := by
    intro hp
    rw [List.map_singleton, h.text]
    refine .stop fun e => hp ?_
    rw [e]
    exact Fill.passes_nil _
  capacity := by
    intro hp
    rw [hs.resolve_right (not_not.mpr hp)]
    have hn := h.lt
    rw [h.n] at hn
    exact hn
  final := ⟨g, rfl, h.count⟩
  placed := fun x hx => List.mem_singleton.mp hx ▸ h.placed

theorem Outcome.two {g g' : Got} {m : Nat} (h : Returned stream r g) (hne : r.1 ≠ [])
    (h' : Returned g.rest ([], .start m) g')
    (hs : ((stream = r.1 ∧ r.2 = (stream.foldl Fill.put (.start n)).eof) ∧ '\n' ∉ stream) ∧
        (Fill.start n).Passes stream ∨
      Partly n stream [r.1, []] ∧ ¬ (Fill.start n).Passes stream) :
    Outcome n stream [g, g'] where
  lines := by
    intro hp
    obtain ⟨⟨e, -⟩, hn⟩ := (hs.resolve_right fun h => h.2 hp).1
    show LinesOf stream [g.text, g'.text]
    rw [h.text, h'.text, ← e]
    rw [← e] at hne
    exact .last hn hne
  partly := by
    intro hp
    show Partly n stream [g.text, g'.text]
    rw [h.text, h'.text]
    exact (hs.resolve_left fun h => hp h.2).1
  capacity := by
    intro hp
    obtain ⟨⟨-, e⟩, -⟩ := (hs.resolve_right fun h => h.2 hp).1
    have hn := h.lt
    rw [h.n, e] at hn
    exact hn
  final := ⟨g', rfl, h'.count⟩
  placed := by
    intro x hx
    rcases List.mem_cons.mp hx with rfl | hx
    · exact h.placed
    · exact List.mem_singleton.mp hx ▸ h'.placed

theorem Outcome.line {g : Got} {gs : List Got} {d : Nat} (hnl : '\n' ∉ L)
    (hp : (Fill.start n).Passes (L ++ ['\n']))
    (h : Returned stream (L ++ ['\n'], .start (L.foldl Fill.put (.start n)).n) g)
    (hs : stream = (L ++ ['\n']) ++ rest) (hd : g.n = n * 2 ^ d) (ho : Outcome g.n rest gs) :
    Outcome n stream (g :: gs) := by
  have hpass : (Fill.start n).Passes stream ↔ (Fill.start g.n).Passes rest := by
    rw [hs, Fill.passes_append, List.foldl_append, List.foldl_cons, List.foldl_nil,
      Fill.put_newline, h.n]
    exact and_iff_right hp
  have hfinal : (Fill.start n).final stream = (Fill.start g.n).final rest := by
    rw [hs, Fill.final_append, List.foldl_append, List.foldl_cons, List.foldl_nil,
      Fill.put_newline, h.n]
    rfl
  refine ⟨fun hq => ?_, fun hq => ?_, fun hq => ?_, ?_, fun x hx => ?_⟩
  · rw [List.map_cons, h.text, hs, List.append_assoc]
    exact .line hnl (ho.lines (hpass.mp hq))
  · rw [List.map_cons, h.text, hs, List.append_assoc]
    have hrest := ho.partly (fun h' => hq (hpass.mpr h'))
    rw [hd] at hrest
    exact .line hnl hrest
  · rw [hfinal]
    exact ho.capacity (hpass.mp hq)
  · obtain ⟨x, hx, h0⟩ := ho.final
    refine ⟨x, ?_, h0⟩
    rw [List.getLast?_cons_of_ne_nil (by rintro rfl; exact absurd hx nofun)]
    exact hx
  · rcases List.mem_cons.mp hx with rfl | hx
    · exact h.placed
    · exact ho.placed x hx

theorem getlines_spec (heap : Heap) (stream : Str) (hbuf : buf.length = n) (hn2 : 2 ≤ n) (hn : n < 2 ^ 32)
    (hcalls : stream.length < calls) :
    getlines heap calls (some buf) n stream = .error .null ∨
    getlines heap calls (some buf) n stream = .error .wrapped ∧
      ((Fill.start n).Passes stream → 2 ^ 32 ≤ (Fill.start n).final stream) ∨
    ∃ gs, getlines heap calls (some buf) n stream = .ok gs ∧ Outcome n stream gs := by
  induction calls generalizing n buf stream with
  | zero => exact absurd hcalls (Nat.not_lt_zero _)
  | succ calls ih =>
    rcases getlineAt_cases heap stream hbuf hn2 hn with
      ⟨g, hg, hret, -⟩ | ⟨hg, -⟩ | ⟨hg, hw, -⟩
    · have hok := Fill.Ok.start hn2
      have hle : n ≤ g.n := by
        rw [hret.n]
        exact (Fill.start n).le_scan_n stream
      have hblock := hret.placed.block
      obtain ⟨d, hd⟩ : ∃ d, g.n = n * 2 ^ d := by
        rw [hret.n]
        exact (Fill.start n).scan_n stream
      generalize hr : (Fill.start n).scan stream = r at hret
      cases hr ▸ Fill.scan_cases hok stream with
      | line L rest hin hnl hp hr' =>
        subst hr'
        have hg0 : g.count ≠ 0 := by
          rw [hret.count, List.length_append]
          exact Nat.succ_ne_zero _
        have hcat : stream = (L ++ ['\n']) ++ rest := by rw [hin, List.append_assoc]; rfl
        have hgrest : g.rest = rest := by rw [hret.rest, hcat, List.drop_left]
        rw [hin, List.length_append, List.length_cons] at hcalls
        rw [getlines_succ hg hg0, hgrest]
        rcases ih rest hblock (hn2.trans hle) hret.lt (by omega) with
          he | ⟨he, hw⟩ | ⟨gs, he, ho⟩
        · rw [he]
          exact Or.inl rfl
        · rw [he]
          refine Or.inr (Or.inl ⟨rfl, fun hq => ?_⟩)
          rw [hcat, Fill.passes_append] at hq
          rw [hcat, Fill.final_append]
          rw [List.foldl_append, List.foldl_cons, List.foldl_nil, Fill.put_newline] at hq ⊢
          rw [hret.n] at hw
          exact hw hq.2
        · rw [he]
          exact Or.inr (Or.inr ⟨g :: gs, rfl, .line hnl hp hret hcat hd ho⟩)
      | last hnl hp hr' =>
        subst hr'
        cases stream with
        | nil => exact Or.inr (Or.inr ⟨[g], getlines_zero hg hret.count, .nothing hret (Or.inl rfl)⟩)
        | cons c stream =>
          obtain ⟨calls, rfl⟩ : ∃ k, calls = k + 1 :=
            ⟨calls - 1, by rw [List.length_cons] at hcalls; omega⟩
          have hgrest : g.rest = [] := hret.rest.trans List.drop_length
          obtain ⟨g', hg', hret'⟩ := getlineAt_nothing heap g.rest hblock
            (hn2.trans hle) hret.lt (by rw [hgrest]; rfl)
          refine Or.inr (Or.inr ⟨[g, g'], ?_, ?_⟩)
          · exact getlines_two hg (by rw [hret.count]; exact Nat.succ_ne_zero _) hg' hret'.count
          · exact .two hret (List.cons_ne_nil _ _) hret' (Or.inl ⟨⟨⟨rfl, rfl⟩, hnl⟩, hp⟩)
      | stuck L c rest hin hnl hs hr' =>
        subst hr'
        have hno : ¬ (Fill.start n).Passes stream := by
          rw [hin]
          exact hs.not_passes
        cases L with
        | nil => exact Or.inr (Or.inr ⟨[g], getlines_zero hg hret.count, .nothing hret (Or.inr hno)⟩)
        | cons d L =>
          obtain ⟨calls, rfl⟩ : ∃ k, calls = k + 1 :=
            ⟨calls - 1, by rw [hin, List.length_append, List.length_cons] at hcalls; omega⟩
          have hgrest : g.rest = c :: rest := by rw [hret.rest, hin, List.drop_left]
          have hstuck : (Fill.start g.n).Stuck := by
            refine ⟨rfl, ?_⟩
            have h2 := hs.2
            rw [hret.n]
            exact h2.trans (Nat.sub_le_sub_left (Nat.zero_le _) _)
          obtain ⟨g', hg', hret'⟩ := getlineAt_nothing heap g.rest hblock
            (hn2.trans hle) hret.lt (by rw [hgrest, Fill.scan_cons, if_pos hstuck])
          refine Or.inr (Or.inr ⟨[g, g'], ?_, ?_⟩)
          · exact getlines_two hg (by rw [hret.count]; exact Nat.succ_ne_zero _) hg' hret'.count
          · refine .two hret (List.cons_ne_nil _ _) hret' (Or.inr ⟨?_, hno⟩)
            rw [hin]
            have h2 := hs.2
            rw [← hret.n, Fill.foldl_used hnl, hd] at h2
            rw [show (Fill.start n).used = 0 from rfl, Nat.zero_add] at h2
            exact .inside (List.cons_ne_nil _ _) (List.cons_ne_nil _ _) (hd ▸ hret.lt) (by omega)
    · rw [getlines, hg]
      exact Or.inl rfl
    · rw [getlines, hg]
      refine Or.inr (Or.inl ⟨rfl, fun hq => hw.trans ?_⟩)
      exact (Fill.start n).scan_n_le_final (.start hn2) hq

theorem Outcome.reads {gs : List Got} (h : Outcome n stream gs) :
    Reads stream gs ↔ (Fill.start n).Passes stream := by
  constructor
  · intro hr
    by_contra hp
    exact (h.partly hp).flatten hr.bytes
  · intro hp
    have hl := h.lines hp
    exact ⟨hl.flatten, hl.isLine, h.final, h.placed⟩

theorem getlineAt_first {line : Option Str} (hs : Supplied line n) (input : Str) :
    line = none ∧ heap.malloc 128 = none ∧ getlineAt heap line n input = .error .null ∨
    ∃ b, (line = none → heap.malloc 128 ≠ none) ∧
      getlineAt heap line n input = getlineAt heap (some b) (firstCapacity n) input ∧
      b.length = firstCapacity n ∧ 2 ≤ firstCapacity n ∧ firstCapacity n < 2 ^ 32 := by
  rcases hs with ⟨rfl, rfl⟩ | ⟨b, rfl, hb, h2, h32⟩
  · cases hbuf : heap.malloc 128 with
    | none =>
      refine Or.inl ⟨rfl, rfl, ?_⟩
      unfold getlineAt
      dsimp only
      rw [if_pos rfl, hbuf]
    | some b =>
      refine Or.inr ⟨b, fun _ => nofun, ?_, heap.length _ _ hbuf, by decide, by decide⟩
      unfold getlineAt
      dsimp only
      rw [if_pos rfl, hbuf]
      rfl
  · rw [firstCapacity, if_neg (by omega)]
    exact Or.inr ⟨b, nofun, rfl, hb, h2, h32⟩

theorem readAll_outcome {line : Option Str} (hline : Supplied line n)
    (hmalloc : readAll heap line n stream ≠ .error .null)
    (hcap : readAll heap line n stream ≠ .error .wrapped) :
    ∃ gs, readAll heap line n stream = .ok gs ∧ Outcome (firstCapacity n) stream gs := by
  unfold readAll at hmalloc hcap ⊢
  rcases getlineAt_first hline stream with ⟨-, -, hnull⟩ | ⟨b, -, hcall, hb, hn2, hn⟩
  · refine absurd ?_ hmalloc
    rw [getlines, hnull]
  · have hcalls : ∀ calls, getlines heap (calls + 1) line n stream =
        getlines heap (calls + 1) (some b) (firstCapacity n) stream := by
      intro calls
      rw [getlines, hcall, ← getlines]
    rw [hcalls] at hmalloc hcap ⊢
    have hspec := getlines_spec heap stream hb hn2 hn (Nat.lt_succ_self stream.length)
    exact (hspec.resolve_left hmalloc).resolve_left fun h => hcap h.1

/-- the calls of `getline` return the lines of a stream just when the room stays an `int` -/
theorem reads_iff (heap : Heap) (line : Option Str) (n : Nat) (stream : Str)
    (hline : Supplied line n) (hmalloc : readAll heap line n stream ≠ .error .null)
    (hcap : readAll heap line n stream ≠ .error .wrapped) :
    (∃ gs, readAll heap line n stream = .ok gs ∧ Reads stream gs) ↔
      (Fill.start (firstCapacity n)).Passes stream := by
  obtain ⟨gs, hgs, ho⟩ := readAll_outcome hline hmalloc hcap
  constructor
  · rintro ⟨gs', hgs', hr⟩
    obtain rfl := Except.ok.inj (hgs.symm.trans hgs')
    exact ho.reads.mp hr
  · intro hp
    exact ⟨gs, hgs, ho.reads.mpr hp⟩

end

def Heap.plenty : Heap := ⟨fun n => some (List.replicate n 'x'), fun n b h => by
  rw [← Option.some.inj h, List.length_replicate]⟩

theorem reads_two_lines : ∃ gs, readAll .plenty none 0 "ab\ncd".toList = .ok gs ∧
    Reads "ab\ncd".toList gs := by
  refine (reads_iff .plenty none 0 "ab\ncd".toList (Or.inl ⟨rfl, rfl⟩) (by decide +kernel)
    (by decide +kernel)).mpr ?_
  show (Fill.start 128).Passes ['a', 'b', '\n', 'c', 'd']
  rw [Fill.passes_cons, Fill.passes_cons, Fill.passes_cons, Fill.passes_cons, Fill.passes_cons]
  exact ⟨by decide, by decide, by decide, by decide, by decide, Fill.passes_nil _⟩

theorem Heap.not_refuses_plenty (n m : Nat) : ¬ Heap.plenty.Refuses n m :=
  fun ⟨_, _, _, h⟩ => absurd h nofun

def carriageReturns : Str := List.replicate 24 '\r' ++ "\na".toList

/-- the first call makes a buffer of `2 ^ 31` bytes, and the second reads nothing -/
theorem readAll_carriageReturns : ∃ g g', readAll .plenty none 0 carriageReturns = .ok [g, g'] ∧
    g.text = List.replicate 24 '\r' ++ ['\n'] ∧ g'.text = [] := by
  have hscan : (Fill.start 128).scan carriageReturns =
      (List.replicate 24 '\r' ++ ['\n'], .start (2 ^ 31)) := by decide
  obtain ⟨g, hg, hret⟩ := getlineAt_room .plenty carriageReturns
    (List.length_replicate (n := 128) (a := 'x')) (by decide) (by decide)
    (Heap.not_refuses_plenty _ _) (by rw [hscan]; decide)
  rw [hscan] at hret
  have hrest : g.rest = ['a'] := hret.rest.trans (by decide)
  have hn : g.n = 2 ^ 31 := hret.n
  obtain ⟨g', hg', hret'⟩ := getlineAt_nothing .plenty g.rest hret.placed.block
    (by rw [hn]; decide) hret.lt (by rw [hn, hrest]; decide)
  refine ⟨g, g', ?_, hret.text, hret'.text⟩
  unfold readAll
  rw [getlines_null rfl]
  exact getlines_two hg (by rw [hret.count]; decide) hg' hret'.count

/-- the second line of a file with 24 carriage returns is not read -/
theorem reads_stops : ¬ ∀ (heap : Heap) (line : Option Str) (n : Nat) (stream : Str),
    Supplied line n → readAll heap line n stream ≠ .error .null →
    readAll heap line n stream ≠ .error .wrapped →
    ∃ gs, readAll heap line n stream = .ok gs ∧ Reads stream gs := by
  intro hall
  obtain ⟨g, g', hrun, ht, ht'⟩ := readAll_carriageReturns
  obtain ⟨gs, hgs, hr⟩ := hall .plenty none 0 carriageReturns (Or.inl ⟨rfl, rfl⟩)
    (by rw [hrun]; exact nofun) (by rw [hrun]; exact nofun)
  obtain rfl := Except.ok.inj (hrun.symm.trans hgs)
  have hbytes := hr.bytes
  rw [List.map_cons, List.map_singleton, ht, ht'] at hbytes
  exact absurd hbytes (by decide)

end Ulib
