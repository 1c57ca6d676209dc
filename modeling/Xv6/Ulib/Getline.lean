import Xv6.Ulib.Str

/-!
# Lines in a buffer that grows (`fgets`, `getline`)

`getline` as it works on memory: a store has to be inside the buffer, `malloc` may answer NULL, the
capacity is a `uint`, and `fgets` and `memmove` take their sizes as an `int`.  `Fill` is the
bookkeeping of a call, one character at a time: the capacity is doubled behind every piece that does
not end in a newline, whatever ended the piece.  `getlineAt_spec` says what one call leaves.
-/

namespace Ulib

/-! ## the model -/

/-- why a call does not return -/
inductive Stop where
  /-- an access through the null pointer -/
  | null
  /-- the capacity goes past `uint` -/
  | wrapped
  /-- an access outside of the buffer -/
  | outside
  | forever
  deriving DecidableEq

/-- what `malloc` answers to a request for this many bytes; `getline` doubles its requests, so that
it makes none twice -/
structure Heap where
  malloc : Nat → Option Str
  length : ∀ n b, malloc n = some b → b.length = n

/-- `buf[i] = c` -/
def store (buf : Str) (i : Nat) (c : Char) : Except Stop Str :=
  if i < buf.length then .ok (buf.set i c) else .error .outside

/-- a `uint` that is passed as an `int` -/
def asInt (n : Nat) : Int := if n < 2 ^ 31 then n else n - 2 ^ 32

/-- the end of `fgets`: a NUL behind the `i` characters that were read -/
def fgetsEnd (off i : Nat) (buf input : Str) : Except Stop (Str × Nat × Str) :=
  match store buf (off + i) '\x00' with
  | .error e => .error e
  | .ok buf => .ok (buf, i, input)

/-- the loop of `fgets(buf + off, max, fd)`, behind its first `i` characters -/
def fgetsAtLoop (off : Nat) (max : Int) : Nat → Str → Str → Except Stop (Str × Nat × Str)
  | i, buf, [] => fgetsEnd off i buf []
  | i, buf, c :: input =>
    if i + 1 < max then
      match store buf (off + i) c with
      | .error e => .error e
      | .ok buf =>
        if c = '\n' ∨ c = '\r' then fgetsEnd off (i + 1) buf input
        else fgetsAtLoop off max (i + 1) buf input
    else fgetsEnd off i buf (c :: input)

/-- the buffer, the number of characters, and what stays to be read -/
def fgetsAt (off : Nat) (max : Int) (buf input : Str) : Except Stop (Str × Nat × Str) :=
  fgetsAtLoop off max 0 buf input

/-- `memcpy` between two blocks; `memmove` takes the size as an `int` -/
def memcpy (dst src : Str) (n : Nat) : Except Stop Str :=
  let k := (asInt n).toNat
  if k ≤ dst.length ∧ k ≤ src.length then .ok (src.take k ++ dst.drop k) else .error .outside

/-- what a call of `getline` leaves: its result, the buffer, `*n`, and what stays to be read -/
structure Got where
  count : Nat
  buf : Str
  n : Nat
  rest : Str
  deriving DecidableEq

/-- the rounds of `getline`, behind the first `totalRead` characters -/
def getlineAtLoop (heap : Heap) : Nat → Str → Nat → Nat → Str → Except Stop Got
  | 0, _, _, _, _ => .error .forever
  | rounds + 1, buf, n, totalRead, input =>
    match fgetsAt totalRead (asInt (n - totalRead)) buf input with
    | .error e => .error e
    | .ok (buf, readSz, rest) =>
      if readSz = 0 then .ok ⟨totalRead, buf, n, rest⟩
      else if buf[totalRead + readSz - 1]? = some '\n' then .ok ⟨totalRead + readSz, buf, n, rest⟩
      else if 2 ^ 32 ≤ n * 2 then .error .wrapped
      else
        match heap.malloc (n * 2) with
        | none => .error .null
        | some newBuf =>
          match memcpy newBuf buf n with
          | .error e => .error e
          | .ok newBuf => getlineAtLoop heap rounds newBuf (n * 2) (totalRead + readSz) rest

/-- `getline(&line, &n, fd)`; no line is the null pointer -/
def getlineAt (heap : Heap) (line : Option Str) (n : Nat) (input : Str) : Except Stop Got :=
  match line with
  | some buf => getlineAtLoop heap (input.length + 1) buf n 0 input
  | none =>
    if n = 0 then
      match heap.malloc 128 with
      | none => .error .null
      | some buf => getlineAtLoop heap (input.length + 1) buf 128 0 input
    else .error .null

/-- the calls of `getline` up to the first that returns 0 -/
def getlines (heap : Heap) : Nat → Option Str → Nat → Str → Except Stop (List Got)
  | 0, _, _, _ => .error .forever
  | calls + 1, line, n, input =>
    match getlineAt heap line n input with
    | .error e => .error e
    | .ok g =>
      if g.count = 0 then .ok [g]
      else
        match getlines heap calls (some g.buf) g.n g.rest with
        | .error e => .error e
        | .ok gs => .ok (g :: gs)

/-! ## the bookkeeping -/

/-- the capacity, how many characters of a line are in the buffer, and whether `fgets` is called for
the next one -/
structure Fill where
  n : Nat
  used : Nat
  fresh : Bool
  deriving DecidableEq

def Fill.start (n : Nat) : Fill := ⟨n, 0, true⟩

/-- one character: the capacity is doubled at a `'\r'`, and where only the NUL has room -/
def Fill.put (f : Fill) (c : Char) : Fill :=
  if c = '\n' then .start f.n
  else if c = '\r' ∨ f.used + 2 = f.n then ⟨f.n * 2, f.used + 1, true⟩
  else ⟨f.n, f.used + 1, false⟩

/-- the end of the file: the capacity is doubled for what was read last -/
def Fill.eof (f : Fill) : Fill := if f.fresh then f else ⟨f.n * 2, f.used, true⟩

/-- the room is no `int`: `fgets` reads nothing -/
def Fill.Stuck (f : Fill) : Prop := f.fresh = true ∧ 2 ^ 31 ≤ f.n - f.used

instance (f : Fill) : Decidable f.Stuck := inferInstanceAs (Decidable (_ ∧ _))

/-- what one call reads, and the bookkeeping at its end -/
def Fill.scan : Fill → Str → Str × Fill
  | f, [] => ([], f.eof)
  | f, c :: input =>
    if f.Stuck then ([], f)
    else if c = '\n' then ([c], f.put c)
    else (c :: ((f.put c).scan input).1, ((f.put c).scan input).2)

/-- one of the sizes up to `m` that are asked for is refused -/
def Heap.Refuses (heap : Heap) (n m : Nat) : Prop :=
  ∃ k, n * 2 ^ (k + 1) ≤ m ∧ n * 2 ^ (k + 1) < 2 ^ 32 ∧ heap.malloc (n * 2 ^ (k + 1)) = none

/-- the string `s` at the start of a block of `n` bytes -/
structure Holds (buf : Str) (n : Nat) (s : Str) : Prop where
  length : buf.length = n
  starts : (s ++ ['\x00']) <+: buf

/-! ## one piece -/

section
variable {heap : Heap} {f : Fill} {n u m i off : Nat} {max : Int} {a b s buf input rest : Str} {c : Char}

theorem store_append (hb : b ≠ []) (ha : a.length = i) :
    store (a ++ b) i c = .ok (a ++ c :: b.drop 1) := by
  cases b with
  | nil => exact absurd rfl hb
  | cons x b =>
    unfold store
    rw [if_pos (by rw [List.length_append, List.length_cons]; omega), ← ha,
      List.set_append_right _ _ (Nat.le_refl _), Nat.sub_self]
    rfl

theorem fgetsEnd_append (hb : b ≠ []) (ha : a.length = off + i) :
    fgetsEnd off i (a ++ b) input = .ok (a ++ '\x00' :: b.drop 1, i, input) := by
  unfold fgetsEnd
  rw [store_append hb ha]

theorem fgetsLoop_nil (room : Nat) : fgetsLoop room [] = ([], []) := by
  cases room with
  | zero => rfl
  | succ room => rfl

/-- `fgets` puts its piece and a NUL behind what is in the buffer -/
theorem fgetsAtLoop_eq (ha : a.length = off + i) (hb : b ≠ []) (hroom : max ≤ i + b.length)
    (hs : fgetsLoop (max - (i + 1)).toNat input = (s, rest)) :
    fgetsAtLoop off max i (a ++ b) input =
      .ok (a ++ (s ++ '\x00' :: b.drop (s.length + 1)), i + s.length, rest) := by
  induction input generalizing i a b s with
  | nil =>
    rw [fgetsLoop_nil] at hs
    obtain ⟨rfl, rfl⟩ := Prod.mk.inj hs
    exact fgetsEnd_append hb ha
  | cons c input ih =>
    unfold fgetsAtLoop
    by_cases hlt : i + 1 < max
    · obtain ⟨room, hr⟩ : ∃ room, (max - (i + 1)).toNat = room + 1 :=
        ⟨(max - (i + 1)).toNat - 1, by omega⟩
      obtain ⟨x, b, rfl⟩ := List.exists_cons_of_ne_nil hb
      rw [List.length_cons] at hroom
      have hb' : b ≠ [] := by
        rintro rfl
        rw [List.length_nil] at hroom
        omega
      have ha' : (a ++ [c]).length = off + (i + 1) := by
        rw [List.length_append, List.length_singleton, ha]
        omega
      have hcat : a ++ c :: b = (a ++ [c]) ++ b := List.append_cons a c b
      rw [hr] at hs
      rw [if_pos hlt, store_append hb ha]
      dsimp only
      rw [List.drop_one, List.tail_cons, hcat]
      by_cases hc : c = '\n' ∨ c = '\r'
      · have h1 : fgetsLoop (room + 1) (c :: input) = ([c], input) := if_pos hc
        obtain ⟨rfl, rfl⟩ := Prod.mk.inj (h1.symm.trans hs)
        rw [if_pos hc, fgetsEnd_append hb' ha', List.append_assoc]
        rfl
      · have h1 : fgetsLoop (room + 1) (c :: input) =
            (c :: (fgetsLoop room input).1, (fgetsLoop room input).2) := if_neg hc
        obtain ⟨rfl, rfl⟩ := Prod.mk.inj (h1.symm.trans hs)
        have hnext : fgetsLoop (max - ((i + 1 : Nat) + 1)).toNat input =
            ((fgetsLoop room input).1, (fgetsLoop room input).2) := by
          rw [show (max - ((i + 1 : Nat) + 1)).toNat = room by omega]
        rw [if_neg hc, ih ha' hb' (by omega) hnext, List.append_assoc, List.length_cons,
          Nat.add_right_comm, Nat.add_assoc i]
        rfl
    · have h1 : (max - (i + 1)).toNat = 0 := by omega
      rw [h1] at hs
      obtain ⟨rfl, rfl⟩ := Prod.mk.inj ((show fgetsLoop 0 (c :: input) = ([], c :: input) from
        rfl).symm.trans hs)
      rw [if_neg hlt]
      exact fgetsEnd_append hb ha

theorem fgetsLoop_append {room : Nat} (hs : fgetsLoop room input = (s, rest)) : input = s ++ rest := by
  induction input generalizing room s with
  | nil =>
    rw [fgetsLoop_nil] at hs
    obtain ⟨rfl, rfl⟩ := Prod.mk.inj hs
    rfl
  | cons c input ih =>
    cases room with
    | zero =>
      obtain ⟨rfl, rfl⟩ := Prod.mk.inj hs
      rfl
    | succ room =>
      by_cases hc : c = '\n' ∨ c = '\r'
      · have h1 : fgetsLoop (room + 1) (c :: input) = ([c], input) := if_pos hc
        obtain ⟨rfl, rfl⟩ := Prod.mk.inj (h1.symm.trans hs)
        rfl
      · have h1 : fgetsLoop (room + 1) (c :: input) =
            (c :: (fgetsLoop room input).1, (fgetsLoop room input).2) := if_neg hc
        obtain ⟨rfl, rfl⟩ := Prod.mk.inj (h1.symm.trans hs)
        exact congrArg (c :: ·) (ih rfl)

theorem Fill.scan_cons (f : Fill) (c : Char) (input : Str) : f.scan (c :: input) =
    if f.Stuck then ([], f)
    else if c = '\n' then ([c], f.put c)
    else (c :: ((f.put c).scan input).1, ((f.put c).scan input).2) := rfl

theorem fgetsLoop_length {room : Nat} (hs : fgetsLoop room input = (s, rest)) : s.length ≤ room := by
  induction input generalizing room s with
  | nil =>
    rw [fgetsLoop_nil] at hs
    obtain ⟨rfl, rfl⟩ := Prod.mk.inj hs
    exact Nat.zero_le _
  | cons c input ih =>
    cases room with
    | zero =>
      obtain ⟨rfl, rfl⟩ := Prod.mk.inj hs
      exact Nat.zero_le _
    | succ room =>
      by_cases hc : c = '\n' ∨ c = '\r'
      · have h1 : fgetsLoop (room + 1) (c :: input) = ([c], input) := if_pos hc
        obtain ⟨rfl, rfl⟩ := Prod.mk.inj (h1.symm.trans hs)
        exact Nat.succ_le_succ (Nat.zero_le _)
      · have h1 : fgetsLoop (room + 1) (c :: input) =
            (c :: (fgetsLoop room input).1, (fgetsLoop room input).2) := if_neg hc
        obtain ⟨rfl, rfl⟩ := Prod.mk.inj (h1.symm.trans hs)
        exact Nat.succ_le_succ (ih rfl)

/-- nothing is read only without room, or at the end of the file -/
theorem fgetsLoop_eq_nil {room : Nat} (hs : fgetsLoop room input = ([], rest)) :
    room = 0 ∨ input = [] := by
  cases room with
  | zero => exact Or.inl rfl
  | succ room =>
    cases input with
    | nil => exact Or.inr rfl
    | cons c input =>
      have h1 : fgetsLoop (room + 1) (c :: input) = if c = '\n' ∨ c = '\r' then ([c], input)
          else (c :: (fgetsLoop room input).1, (fgetsLoop room input).2) := rfl
      rw [h1] at hs
      split at hs
      · exact absurd (congrArg Prod.fst hs) nofun
      · exact absurd (congrArg Prod.fst hs) nofun

/-- a call behind `u` characters that goes on with another piece -/
theorem Fill.scan_piece (hroom : u + 2 ≤ n) (hs : fgetsLoop (n - u - 1) input = (s, rest)) :
    (s.getLast? = some '\n' ∧ (Fill.mk n u false).scan input = (s, .start n)) ∨
    (s.getLast? ≠ some '\n' ∧ (Fill.mk n u false).scan input =
      (s ++ ((Fill.mk (n * 2) (u + s.length) true).scan rest).1,
        ((Fill.mk (n * 2) (u + s.length) true).scan rest).2)) := by
  induction input generalizing u s with
  | nil =>
    rw [fgetsLoop_nil] at hs
    obtain ⟨rfl, rfl⟩ := Prod.mk.inj hs
    exact Or.inr ⟨nofun, rfl⟩
  | cons c input ih =>
    obtain ⟨room, hr⟩ : ∃ room, n - u - 1 = room + 1 := ⟨n - u - 2, by omega⟩
    have hns : ¬ (Fill.mk n u false).Stuck := fun h => absurd h.1 nofun
    rw [hr] at hs
    rw [Fill.scan_cons, if_neg hns]
    by_cases hn : c = '\n'
    · have h1 : fgetsLoop (room + 1) (c :: input) = ([c], input) := if_pos (Or.inl hn)
      obtain ⟨rfl, rfl⟩ := Prod.mk.inj (h1.symm.trans hs)
      refine Or.inl ⟨by rw [hn]; rfl, ?_⟩
      rw [if_pos hn]
      unfold Fill.put
      rw [if_pos hn]
    rw [if_neg hn]
    by_cases hc : c = '\r'
    · have h1 : fgetsLoop (room + 1) (c :: input) = ([c], input) := if_pos (Or.inr hc)
      obtain ⟨rfl, rfl⟩ := Prod.mk.inj (h1.symm.trans hs)
      have hput : (Fill.mk n u false).put c = ⟨n * 2, u + 1, true⟩ := by
        unfold Fill.put
        rw [if_neg hn, if_pos (Or.inl hc)]
      refine Or.inr ⟨fun h => hn (Option.some.inj h), ?_⟩
      rw [hput]
      rfl
    have h1 : fgetsLoop (room + 1) (c :: input) =
        (c :: (fgetsLoop room input).1, (fgetsLoop room input).2) :=
      if_neg (not_or.mpr ⟨hn, hc⟩)
    obtain ⟨rfl, rfl⟩ := Prod.mk.inj (h1.symm.trans hs)
    by_cases hfull : u + 2 = n
    · -- the piece ends here
      obtain rfl : room = 0 := by omega
      have hput : (Fill.mk n u false).put c = ⟨n * 2, u + 1, true⟩ := by
        unfold Fill.put
        rw [if_neg hn, if_pos (Or.inr hfull)]
      refine Or.inr ⟨fun h => hn (Option.some.inj h), ?_⟩
      rw [hput]
      rfl
    · have hput : (Fill.mk n u false).put c = ⟨n, u + 1, false⟩ := by
        unfold Fill.put
        rw [if_neg hn, if_neg (not_or.mpr ⟨hc, hfull⟩)]
      have hnext : fgetsLoop (n - (u + 1) - 1) input =
          ((fgetsLoop room input).1, (fgetsLoop room input).2) := by
        rw [show n - (u + 1) - 1 = room by omega]
      rw [hput, List.length_cons, ← Nat.add_assoc, Nat.add_right_comm]
      rcases ih (by omega) hnext with ⟨hl, he⟩ | ⟨hl, he⟩
      · refine Or.inl ⟨?_, by rw [he]⟩
        rw [List.getLast?_cons_of_ne_nil (fun h0 => by rw [h0] at hl; exact absurd hl nofun)]
        exact hl
      · refine Or.inr ⟨?_, ?_⟩
        · cases hp : (fgetsLoop room input).1 with
          | nil => exact fun h => hn (Option.some.inj h)
          | cons x p =>
            rw [hp] at hl
            exact hl
        · rw [he]
          rfl

/-- the first character of a piece that is read makes no difference -/
theorem Fill.scan_fresh (hns : ¬ (Fill.mk n u true).Stuck) (c : Char) (input : Str) :
    (Fill.mk n u true).scan (c :: input) = (Fill.mk n u false).scan (c :: input) := by
  have hns' : ¬ (Fill.mk n u false).Stuck := fun h => absurd h.1 nofun
  rw [Fill.scan_cons, Fill.scan_cons, if_neg hns, if_neg hns']
  rfl

/-! ## one call -/

theorem Fill.put_n (f : Fill) (c : Char) : (f.put c).n = f.n ∨ (f.put c).n = f.n * 2 := by
  unfold Fill.put
  split
  · exact Or.inl rfl
  · split
    · exact Or.inr rfl
    · exact Or.inl rfl

theorem Fill.foldl_n (f : Fill) (s : Str) : ∃ d, (s.foldl Fill.put f).n = f.n * 2 ^ d := by
  induction s generalizing f with
  | nil => exact ⟨0, (Nat.mul_one _).symm⟩
  | cons c s ih =>
    obtain ⟨d, hd⟩ := ih (f.put c)
    rcases f.put_n c with h | h
    · exact ⟨d, by rw [List.foldl_cons, hd, h]⟩
    · refine ⟨d + 1, ?_⟩
      rw [List.foldl_cons, hd, h, Nat.mul_assoc, ← Nat.pow_succ']

theorem Fill.scan_n (f : Fill) (input : Str) : ∃ d, (f.scan input).2.n = f.n * 2 ^ d := by
  induction input generalizing f with
  | nil =>
    show ∃ d, f.eof.n = _
    unfold Fill.eof
    split
    · exact ⟨0, (Nat.mul_one _).symm⟩
    · exact ⟨1, rfl⟩
  | cons c input ih =>
    rw [Fill.scan_cons]
    split
    · exact ⟨0, (Nat.mul_one _).symm⟩
    · split
      · rename_i hc
        refine ⟨0, ?_⟩
        unfold Fill.put
        rw [if_pos hc]
        exact (Nat.mul_one _).symm
      · obtain ⟨d, hd⟩ := ih (f.put c)
        rcases f.put_n c with h | h
        · exact ⟨d, by rw [hd, h]⟩
        · refine ⟨d + 1, ?_⟩
          rw [hd, h, Nat.mul_assoc, ← Nat.pow_succ']

theorem Fill.le_scan_n (f : Fill) (input : Str) : f.n ≤ (f.scan input).2.n := by
  obtain ⟨d, hd⟩ := f.scan_n input
  rw [hd]
  exact Nat.le_mul_of_pos_right _ (Nat.two_pow_pos d)

theorem Heap.not_refuses_self (heap : Heap) (hn : 0 < n) : ¬ heap.Refuses n n := by
  rintro ⟨k, hk, -⟩
  have h2 : 2 ≤ 2 ^ (k + 1) := Nat.le_self_pow (Nat.succ_ne_zero k) 2
  have := Nat.mul_le_mul_left n h2
  omega

theorem Heap.refuses_double (h : n * 2 ≤ m) : heap.Refuses n m ↔
    (n * 2 < 2 ^ 32 ∧ heap.malloc (n * 2) = none) ∨ heap.Refuses (n * 2) m := by
  have hmul : ∀ k, n * 2 * 2 ^ (k + 1) = n * 2 ^ (k + 1 + 1) := by
    intro k
    rw [Nat.pow_succ' (n := k + 1), Nat.mul_assoc]
  constructor
  · rintro ⟨k, hk⟩
    cases k with
    | zero => exact Or.inl hk.2
    | succ k =>
      rw [← hmul] at hk
      exact Or.inr ⟨k, hk⟩
  · rintro (h0 | ⟨k, hk⟩)
    · exact ⟨0, h, h0⟩
    · rw [hmul] at hk
      exact ⟨k + 1, hk⟩

/-- the ways in which a call ends that has `s` in its buffer and reads `r` -/
inductive Ends (heap : Heap) (n : Nat) (s input : Str) (r : Str × Fill) : Except Stop Got → Prop
  | ok (buf : Str) (hr : ¬ heap.Refuses n r.2.n) (lt : r.2.n < 2 ^ 32)
      (holds : Holds buf r.2.n (s ++ r.1)) :
      Ends heap n s input r (.ok ⟨(s ++ r.1).length, buf, r.2.n, input.drop r.1.length⟩)
  | null (hr : heap.Refuses n r.2.n) : Ends heap n s input r (.error .null)
  | wrapped (hr : ¬ heap.Refuses n r.2.n) (le : 2 ^ 32 ≤ r.2.n) :
      Ends heap n s input r (.error .wrapped)

theorem Ends.more {r : Str × Fill} {t : Str} {res : Except Stop Got}
    (h0 : heap.malloc (n * 2) ≠ none) (hle : n * 2 ≤ r.2.n)
    (h : Ends heap (n * 2) (s ++ t) rest r res) : Ends heap n s (t ++ rest) (t ++ r.1, r.2) res := by
  have href : heap.Refuses n r.2.n ↔ heap.Refuses (n * 2) r.2.n :=
    (Heap.refuses_double hle).trans (or_iff_right fun h => h0 h.2)
  cases h with
  | ok buf hr lt holds =>
    rw [List.append_assoc] at holds ⊢
    have hdrop : rest.drop r.1.length = (t ++ rest).drop (t ++ r.1).length := by
      rw [List.length_append, ← List.drop_drop, List.drop_left]
    rw [hdrop]
    exact .ok buf (mt href.mp hr) lt holds
  | null hr => exact .null (href.mpr hr)
  | wrapped hr hw => exact .wrapped (mt href.mp hr) hw

/-- what `fgets` does in a round of `getline`, and what is read after it -/
inductive Round (n : Nat) (s input : Str) (r : Str × Fill) : Str → Str → Prop
  | stop (h : r = ([], ⟨n, s.length, true⟩)) : Round n s input r [] input
  | line (t rest : Str) (hin : input = t ++ rest) (hl : t.getLast? = some '\n')
      (h : r = (t, .start n)) : Round n s input r t rest
  | more (t rest : Str) (hin : input = t ++ rest) (ht : t ≠ []) (hl : t.getLast? ≠ some '\n')
      (h : r = (t ++ ((Fill.mk (n * 2) (s ++ t).length true).scan rest).1,
        ((Fill.mk (n * 2) (s ++ t).length true).scan rest).2)) : Round n s input r t rest

theorem fgetsAt_round (input : Str) (hb : s.length + b.length = n) (hroom : s.length + 2 ≤ n) (hn : n < 2 ^ 32) :
    ∃ t rest b', fgetsAt s.length (asInt (n - s.length)) (s ++ b) input =
        .ok (s ++ t ++ '\x00' :: b', t.length, rest) ∧
      (s ++ t ++ '\x00' :: b').length = n ∧
      Round n s input ((Fill.mk n s.length true).scan input) t rest := by
  have hbne : b ≠ [] := by
    rintro rfl
    rw [List.length_nil] at hb
    omega
  have hmax : asInt (n - s.length) ≤ (0 : Nat) + (b.length : Int) := by
    unfold asInt
    split <;> omega
  obtain ⟨⟨t, rest⟩, ht⟩ : ∃ p, fgetsLoop (asInt (n - s.length) - ((0 : Nat) + 1)).toNat input = p :=
    ⟨_, rfl⟩
  have hin := fgetsLoop_append ht
  have hget : fgetsAt s.length (asInt (n - s.length)) (s ++ b) input =
      .ok (s ++ (t ++ '\x00' :: b.drop (t.length + 1)), 0 + t.length, rest) :=
    fgetsAtLoop_eq (Nat.add_zero _).symm hbne hmax ht
  have htb : t.length + 1 ≤ b.length := by
    have := fgetsLoop_length ht
    omega
  rw [Nat.zero_add, ← List.append_assoc] at hget
  refine ⟨t, rest, _, hget, ?_, ?_⟩
  · simp only [List.length_append, List.length_cons, List.length_drop]
    omega
  by_cases hstuck : (Fill.mk n s.length true).Stuck
  · -- the room is no `int`
    have h0 : (asInt (n - s.length) - ((0 : Nat) + 1)).toNat = 0 := by
      have := hstuck.2
      unfold asInt
      rw [if_neg (by simpa using this)]
      omega
    rw [h0] at ht
    obtain ⟨rfl, rfl⟩ := Prod.mk.inj ((show fgetsLoop 0 input = ([], input) by
      cases input <;> rfl).symm.trans ht)
    refine .stop ?_
    cases input with
    | nil => rfl
    | cons c input => exact if_pos hstuck
  · have hsmall : n - s.length < 2 ^ 31 := by
      by_contra hge
      exact hstuck ⟨rfl, Nat.le_of_not_lt hge⟩
    have h1 : (asInt (n - s.length) - ((0 : Nat) + 1)).toNat = n - s.length - 1 := by
      unfold asInt
      rw [if_pos hsmall]
      omega
    rw [h1] at ht
    cases input with
    | nil =>
      rw [fgetsLoop_nil] at ht
      obtain ⟨rfl, rfl⟩ := Prod.mk.inj ht
      exact .stop rfl
    | cons c input =>
      rw [Fill.scan_fresh hstuck]
      rcases Fill.scan_piece hroom ht with ⟨hl, he⟩ | ⟨hl, he⟩
      · exact .line t rest hin hl he
      · rw [← List.length_append] at he
        refine .more t rest hin ?_ hl he
        rintro rfl
        rcases fgetsLoop_eq_nil ht with h | h
        · omega
        · exact absurd h nofun

theorem getlineAtLoop_spec {rounds : Nat} (hb : s.length + b.length = n) (hroom : s.length + 2 ≤ n)
    (hn : n < 2 ^ 32) (hfuel : input.length < rounds) :
    Ends heap n s input ((Fill.mk n s.length true).scan input)
      (getlineAtLoop heap rounds (s ++ b) n s.length input) := by
  induction rounds generalizing n s b input with
  | zero => exact absurd hfuel (Nat.not_lt_zero _)
  | succ rounds ih =>
    obtain ⟨t, rest, b', hget, hlen, hround⟩ := fgetsAt_round input hb hroom hn
    generalize hr : (Fill.mk n s.length true).scan input = r at hround ⊢
    have hself := heap.not_refuses_self (show 0 < n by omega)
    have hholds : Holds (s ++ t ++ '\x00' :: b') n (s ++ t) :=
      ⟨hlen, b', List.append_assoc (s ++ t) ['\x00'] b'⟩
    unfold getlineAtLoop
    rw [hget]
    dsimp only
    cases hround with
    | stop h =>
      subst h
      rw [if_pos List.length_nil]
      have hends := @Ends.ok heap n s input ([], ⟨n, s.length, true⟩) _ hself hn hholds
      rw [List.append_nil] at hends ⊢
      exact hends
    | line _ _ hin hl h =>
      subst h
      have hne : ¬ t.length = 0 := by
        intro h0
        rw [List.eq_nil_of_length_eq_zero h0] at hl
        exact absurd hl nofun
      have hlast : (s ++ t ++ '\x00' :: b')[s.length + t.length - 1]? = some '\n' := by
        rw [List.getElem?_append_left (by rw [List.length_append]; omega),
          List.getElem?_append_right (by omega), show s.length + t.length - 1 - s.length =
            t.length - 1 by omega, ← List.getLast?_eq_getElem?]
        exact hl
      rw [if_neg hne, if_pos hlast]
      have hends := @Ends.ok heap n s input (t, .start n) _ hself hn hholds
      rw [hin, List.drop_left, ← hin, List.length_append] at hends
      exact hends
    | more _ _ hin ht hl h =>
      subst h
      have hne : ¬ t.length = 0 := fun h0 => ht (List.eq_nil_of_length_eq_zero h0)
      have hlast : ¬ (s ++ t ++ '\x00' :: b')[s.length + t.length - 1]? = some '\n' := by
        rw [List.getElem?_append_left (by rw [List.length_append]; omega),
          List.getElem?_append_right (by omega), show s.length + t.length - 1 - s.length =
            t.length - 1 by omega, ← List.getLast?_eq_getElem?]
        exact hl
      have hle := (Fill.mk (n * 2) (s ++ t).length true).le_scan_n rest
      rw [if_neg hne, if_neg hlast]
      by_cases hw : 2 ^ 32 ≤ n * 2
      · rw [if_pos hw]
        refine .wrapped ?_ (hw.trans hle)
        rintro ⟨k, -, hk, -⟩
        have h2 : 2 ≤ 2 ^ (k + 1) := Nat.le_self_pow (Nat.succ_ne_zero k) 2
        have := Nat.mul_le_mul_left n h2
        omega
      rw [if_neg hw]
      cases hm : heap.malloc (n * 2) with
      | none => exact .null ((Heap.refuses_double hle).mpr (Or.inl ⟨Nat.lt_of_not_le hw, hm⟩))
      | some newBuf =>
        -- the old block is copied to the front of the new one
        have hnew := heap.length _ _ hm
        have hint : (asInt n).toNat = n := by
          unfold asInt
          rw [if_pos (by omega)]
          rfl
        have hcopy : memcpy newBuf (s ++ t ++ '\x00' :: b') n =
            .ok (s ++ t ++ ('\x00' :: b' ++ newBuf.drop n)) := by
          unfold memcpy
          dsimp only
          rw [hint, if_pos ⟨by omega, by omega⟩, ← hlen, List.take_length, hlen,
            List.append_assoc (s ++ t)]
        dsimp only
        rw [hcopy, hin]
        dsimp only
        rw [← List.length_append]
        have hlen' : (s ++ t).length + ('\x00' :: b' ++ newBuf.drop n).length = n * 2 := by
          rw [@List.length_append _ _ (newBuf.drop n), ← Nat.add_assoc, ← List.length_append, hlen,
            List.length_drop, hnew]
          omega
        have hshort : (s ++ t).length + 1 ≤ n := by
          rw [← hlen, @List.length_append _ (s ++ t), List.length_cons]
          omega
        have htail : rest.length < rounds := by
          rw [hin, List.length_append] at hfuel
          omega
        exact .more (by rw [hm]; exact nofun) hle (ih hlen' (by omega) (by omega) htail)

end

end Ulib
