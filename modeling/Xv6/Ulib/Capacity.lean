import Xv6.Ulib.Stream

/-!
# How far `getline` grows its buffer

A call that returns `len` should leave a capacity of at most `2 * (len + 1)`, unless it found a larger
one.  It does so after a line whose pieces end where the buffer is full; `frugal_iff` says which other
lines do: the capacity is also doubled at a `'\r'`, and at the end of the file.
-/

namespace Ulib

def firstLine : Str → Str
  | [] => []
  | c :: s => if c = '\n' then [c] else c :: firstLine s

/-- a call that returns `len` leaves at most `max(n, 2 * (len + 1))` bytes, and the capacity does not
wrap for a line of less than `2 ^ 30` bytes -/
structure Frugal (heap : Heap) (buf : Str) (n : Nat) (stream : Str) : Prop where
  bound : ∀ g, getlineAt heap (some buf) n stream = .ok g → g.n ≤ max n (2 * (g.count + 1))
  fits : (firstLine stream).length < 2 ^ 30 → getlineAt heap (some buf) n stream ≠ .error .wrapped

/-- the part of a stream that a call can take: a line, the rest of the file, or what comes before a
room that is no `int` -/
def taken (n : Nat) (stream : Str) : Str := ((Fill.start n).scan stream).1

/-- the capacity that this part needs, as a number -/
def needed (n : Nat) (stream : Str) : Nat := ((Fill.start n).scan stream).2.n

/-- behind `f`: at a `'\r'` in `l` the capacity is at most `m`, and behind `l` no piece is open -/
structure Fill.Tight (f : Fill) (m : Nat) (l : Str) : Prop where
  cr : ∀ p s, l = p ++ '\r' :: s → (p.foldl Fill.put f).n ≤ m
  closed : (l.foldl Fill.put f).fresh = true

section
variable {heap : Heap} {f : Fill} {n m : Nat} {c : Char} {l stream buf : Str}

theorem Fill.tight_nil : f.Tight m [] ↔ f.fresh = true :=
  ⟨Tight.closed, fun h => ⟨fun p s e =>
    absurd e.symm (List.append_ne_nil_of_right_ne_nil p (List.cons_ne_nil _ s)), h⟩⟩

theorem Fill.tight_cons : f.Tight m (c :: l) ↔ (c = '\r' → f.n ≤ m) ∧ (f.put c).Tight m l := by
  constructor
  · intro h
    refine ⟨fun hc => h.cr [] l (by rw [hc]; rfl), fun p s e => ?_, h.closed⟩
    exact h.cr (c :: p) s (by rw [e]; rfl)
  · rintro ⟨h0, h⟩
    refine ⟨fun p s e => ?_, h.closed⟩
    cases p with
    | nil => exact h0 (List.cons.inj e).1
    | cons x p =>
      obtain ⟨rfl, htail⟩ := List.cons.inj e
      exact h.cr p s htail

/-- the capacity is kept, or it is at most twice what the line needs, just when the line is tight -/
theorem Fill.scan_bound (h : f.Ok) (hm : m = f.used + (f.scan stream).1.length + 1) :
    ((f.scan stream).2.n = f.n ∨ (f.scan stream).2.n ≤ 2 * m) ↔ f.Tight m (f.scan stream).1 := by
  induction stream generalizing f with
  | nil =>
    have hroom := h.room
    rw [show (f.scan []).1.length = 0 from rfl] at hm
    show (f.eof.n = f.n ∨ f.eof.n ≤ 2 * m) ↔ f.Tight m []
    rw [tight_nil]
    unfold eof
    cases hf : f.fresh with
    | true => exact iff_of_true (Or.inl rfl) rfl
    | false =>
      refine iff_of_false ?_ nofun
      rw [if_neg nofun]
      show ¬ (f.n * 2 = f.n ∨ f.n * 2 ≤ 2 * m)
      omega
  | cons c stream ih =>
    have hroom := h.room
    rw [scan_cons] at hm ⊢
    by_cases hs : f.Stuck
    · rw [if_pos hs]
      exact iff_of_true (Or.inl rfl) (tight_nil.mpr hs.1)
    rw [if_neg hs] at hm ⊢
    by_cases hc : c = '\n'
    · rw [if_pos hc, hc, put_newline]
      refine iff_of_true (Or.inl rfl) (tight_cons.mpr ⟨nofun, ?_⟩)
      rw [put_newline]
      exact tight_nil.mpr rfl
    rw [if_neg hc] at hm ⊢
    have hused : (f.put c).used = f.used + 1 := put_used f hc
    have hle := (f.put c).le_scan_n stream
    rw [List.length_cons] at hm
    have hih := ih (h.put hs c) (by rw [hused]; omega)
    dsimp only
    rw [tight_cons, ← hih]
    -- the capacity behind `c`
    have hn : (c = '\r' ∧ (f.put c).n = f.n * 2) ∨ (c ≠ '\r' ∧ f.used + 2 = f.n ∧
        (f.put c).n = f.n * 2) ∨ (c ≠ '\r' ∧ (f.put c).n = f.n) := by
      unfold put
      rw [if_neg hc]
      by_cases hr : c = '\r'
      · rw [if_pos (Or.inl hr)]
        exact Or.inl ⟨hr, rfl⟩
      · by_cases hfull : f.used + 2 = f.n
        · rw [if_pos (Or.inr hfull)]
          exact Or.inr (Or.inl ⟨hr, hfull, rfl⟩)
        · rw [if_neg (not_or.mpr ⟨hr, hfull⟩)]
          exact Or.inr (Or.inr ⟨hr, rfl⟩)
    generalize ((f.put c).scan stream).2.n = k at hle ⊢
    rcases hn with ⟨hr, hn⟩ | ⟨hr, hfull, hn⟩ | ⟨hr, hn⟩
    · constructor
      · intro hk
        exact ⟨fun _ => by omega, by omega⟩
      · rintro ⟨h1, h2⟩
        have := h1 hr
        omega
    · constructor
      · intro hk
        exact ⟨fun e => absurd e hr, by omega⟩
      · rintro ⟨-, h2⟩
        omega
    · rw [hn]
      exact (and_iff_right fun e => absurd e hr).symm

theorem Fill.scan_length_le (f : Fill) (stream : Str) :
    (f.scan stream).1.length ≤ (firstLine stream).length := by
  induction stream generalizing f with
  | nil => exact Nat.le_refl _
  | cons c stream ih =>
    rw [scan_cons]
    unfold firstLine
    split
    · exact Nat.zero_le _
    · split
      · exact Nat.le_refl _
      · exact Nat.succ_le_succ (ih _)

/-- the bound holds for a line just when it is tight, when a block is refused, or when a line of
`2 ^ 30` bytes or more needs a capacity that is no `uint` -/
theorem frugal_iff (heap : Heap) (buf : Str) (n : Nat) (stream : Str) (hbuf : buf.length = n)
    (hn2 : 2 ≤ n) (hn : n < 2 ^ 32) : Frugal heap buf n stream ↔
      (Fill.start n).Tight ((taken n stream).length + 1) (taken n stream) ∨
      heap.Refuses n (needed n stream) ∨
      2 ^ 32 ≤ needed n stream ∧ 2 ^ 30 ≤ (firstLine stream).length := by
  have hbound : (needed n stream = n ∨ needed n stream ≤ 2 * ((taken n stream).length + 1)) ↔
      (Fill.start n).Tight ((taken n stream).length + 1) (taken n stream) :=
    Fill.scan_bound (.start hn2) (by rw [show (Fill.start n).used = 0 from rfl, Nat.zero_add]; rfl)
  have hle : n ≤ needed n stream := (Fill.start n).le_scan_n stream
  have hlen : (taken n stream).length ≤ (firstLine stream).length :=
    (Fill.start n).scan_length_le stream
  rcases getlineAt_cases heap stream hbuf hn2 hn with ⟨g, hg, hret, href⟩ | ⟨hg, href⟩ | ⟨hg, hw, href⟩
  · -- the call returns
    have hgn : g.n = needed n stream := hret.n
    have hcount : g.count = (taken n stream).length := hret.count
    have hlt := hret.lt
    have hmax : Frugal heap buf n stream ↔ (needed n stream = n ∨
        needed n stream ≤ 2 * ((taken n stream).length + 1)) := by
      constructor
      · intro h
        have := h.bound g hg
        omega
      · intro h
        refine ⟨fun g' hg' => ?_, fun _ => by rw [hg]; exact nofun⟩
        obtain rfl := Except.ok.inj (hg.symm.trans hg')
        omega
    rw [hmax, hbound, or_iff_left]
    rintro (h | ⟨h, -⟩)
    · exact href h
    · omega
  · -- a block is refused
    refine iff_of_true ⟨fun g hg' => ?_, fun _ => by rw [hg]; exact nofun⟩ (Or.inr (Or.inl href))
    exact absurd (hg.symm.trans hg') nofun
  · -- the capacity goes past `uint`
    have hw' : 2 ^ 32 ≤ needed n stream := hw
    constructor
    · intro h
      refine Or.inr (Or.inr ⟨hw', ?_⟩)
      by_contra hlt
      exact h.fits (Nat.lt_of_not_le hlt) hg
    · intro h
      refine ⟨fun g hg' => absurd (hg.symm.trans hg') nofun, fun hlt => ?_⟩
      rcases h with h | h | ⟨-, h⟩
      · rcases hbound.mpr h with h1 | h1
        · omega
        · omega
      · exact absurd h href
      · omega

end

/-- a line that the buffer has room for -/
theorem frugal_two_lines : Frugal .plenty (List.replicate 128 'x') 128 "ab\ncd".toList := by
  refine (frugal_iff .plenty (List.replicate 128 'x') 128 "ab\ncd".toList (List.length_replicate ..)
    (by decide) (by decide)).mpr (Or.inl ⟨fun p s hs => ?_, by decide⟩)
  have hmem : '\r' ∈ taken 128 "ab\ncd".toList := by
    rw [hs]
    exact List.mem_append_right p List.mem_cons_self
  exact absurd hmem (by decide)

/-- one character at the end of a file doubles a buffer of 128 bytes -/
theorem grows_at_eof : ¬ ∀ (heap : Heap) (buf : Str) (n : Nat) (stream : Str), buf.length = n →
    2 ≤ n → n < 2 ^ 32 → Frugal heap buf n stream := by
  intro hall
  have h := hall .plenty (List.replicate 128 'x') 128 ['a'] (List.length_replicate ..) (by decide)
    (by decide)
  obtain ⟨g, hg, hret⟩ := getlineAt_room .plenty ['a']
    (List.length_replicate (n := 128) (a := 'x')) (by decide) (by decide)
    (Heap.not_refuses_plenty _ _) (by decide)
  have hb := h.bound g hg
  rw [hret.n, hret.count] at hb
  exact absurd hb (by decide)

end Ulib
