import Xv6.Lib.RingBuf
import Xv6.Lib.Run

/-!
# Console input (`consoleintr`, `consoleread`)

The ring `cons.buf` has three counters, all `uint` that wrap: what is before `r` was read, what is
before `w` is committed, and what is before `e` is being edited.  A step is a `consoleintr`, or a
piece of a `consoleread` up to its next `sleep` or its end, since both hold `cons.lock`; readers have
buffers that may be written.  The echo is left out.

`committed` and `taken` are a record that the machine does not read: the bytes below `w` in the
order of their commits, and the bytes that readers took, each with the reader; a `^D` that ends a
read is one of them.
-/

namespace Console
open Lib

/-! ## the model -/

def inputBufSize : Nat := 128

/-- `uint` counts modulo this -/
def word : Nat := 2 ^ 32

/-- the difference of two `uint` -/
def sub (a b : Nat) : Nat := (a + word - b) % word

/-- `C('P')`, `C('U')`, `C('H')`, the Delete key, `C('D')` -/
def ctrlP : UInt8 := 16
def ctrlU : UInt8 := 21
def ctrlH : UInt8 := 8
def delete : UInt8 := 0x7f
def ctrlD : UInt8 := 4

def newline : UInt8 := 10
def carriageReturn : UInt8 := 13

/-- `cons` -/
structure Cons where
  buf : Nat → UInt8
  r : Nat
  w : Nat
  e : Nat

/-- the loop of `C('U')`; each round takes `e` one closer to `w` -/
def killLoop : Nat → Cons → Cons
  | 0, s => s
  | k + 1, s =>
    if s.e ≠ s.w ∧ s.buf (sub s.e 1 % inputBufSize) ≠ newline then
      killLoop k { s with e := sub s.e 1 }
    else s

def consoleintr (s : Cons) (c : UInt8) : Cons :=
  if c = ctrlP then s
  else if c = ctrlU then killLoop (sub s.e s.w) s
  else if c = ctrlH ∨ c = delete then
    if s.e ≠ s.w then { s with e := sub s.e 1 } else s
  else if c ≠ 0 ∧ sub s.e s.r < inputBufSize then
    let c := if c = carriageReturn then newline else c
    let s := { s with
      buf := Function.update s.buf (s.e % inputBufSize) c
      e := (s.e + 1) % word }
    if c = newline ∨ c = ctrlD ∨ sub s.e s.r = inputBufSize then { s with w := s.e } else s
  else s

/-- a piece of a read: what it copied, whether a `^D` was taken, the `n` that is left, and whether
it has to sleep -/
structure Piece where
  cons : Cons
  got : List UInt8
  eof : Bool
  left : Nat
  asleep : Bool

/-- the loop of `consoleread` -/
def readLoop (target : Nat) : Nat → Cons → List UInt8 → Piece
  | 0, s, got => ⟨s, got, false, 0, false⟩
  | n + 1, s, got =>
    if s.r = s.w then ⟨s, got, false, n + 1, true⟩
    else
      let c := s.buf (s.r % inputBufSize)
      let s := { s with r := (s.r + 1) % word }
      if c = ctrlD then
        -- for next time, when something was read
        if n + 1 < target then ⟨{ s with r := sub s.r 1 }, got, false, n + 1, false⟩
        else ⟨s, got, true, n + 1, false⟩
      else if c = newline then ⟨s, got ++ [c], false, n, false⟩
      else readLoop target n s (got ++ [c])

/-- `call` has `target` and `n` of a reader that is asleep -/
structure State where
  cons : Cons
  call : Nat → Option (Nat × Nat)
  committed : List UInt8
  taken : List (Nat × UInt8)

def newly (s s' : Cons) : List UInt8 :=
  (List.range (sub s'.w s.w)).map (fun i => s'.buf ((s.w + i) % inputBufSize))

def Piece.taken (x : Piece) : List UInt8 := x.got ++ if x.eof then [ctrlD] else []

/-- reader `p` goes on; one that would sleep and is killed returns -1 -/
def State.goOn (s : State) (p target n : Nat) (killed : Bool) : State :=
  let x := readLoop target n s.cons []
  { s with
    cons := x.cons
    call := Function.update s.call p
      (if x.asleep = true ∧ killed = false then some (target, x.left) else none)
    taken := s.taken ++ x.taken.map (fun c => (p, c)) }

inductive Act where
  | intr (c : UInt8)
  | read (p : Nat) (n : Int) (killed : Bool)
  | wake (p : Nat) (killed : Bool)

def step (s : State) : Act → Option State
  | .intr c => some { s with
      cons := consoleintr s.cons c
      committed := s.committed ++ newly s.cons (consoleintr s.cons c) }
  | .read p n killed =>
    match s.call p with
    | none => some (s.goOn p n.toNat n.toNat killed)
    | some _ => none
  | .wake p killed =>
    match s.call p with
    | none => none
    | some (target, n) => some (s.goOn p target n killed)

def Step (s : State) (a : Act) (t : State) : Prop := step s a = some t

def start (buf : Nat → UInt8) : State where
  cons := ⟨buf, 0, 0, 0⟩
  call := fun _ => none
  committed := []
  taken := []

def pending (s : Cons) : List UInt8 :=
  (List.range (sub s.w s.r)).map (fun i => s.buf ((s.r + i) % inputBufSize))

/-! ## the ring -/

def Cons.ring (s : Cons) : RingBuf UInt8 := ⟨s.buf, s.r, s.e⟩

/-- `xs` is committed, `ys` is being edited -/
structure Inv (s : Cons) (xs ys : List UInt8) : Prop where
  ring : s.ring.Holds word inputBufSize (xs ++ ys)
  w : s.w = (s.r + xs.length) % word

theorem size_dvd : inputBufSize ∣ word := by decide

section
variable {s : Cons} {xs ys : List UInt8} {c : UInt8} {a k : Nat}

theorem sub_add (h : k < word) : sub ((a + k) % word) (a % word) = k := by
  unfold sub
  unfold word at *
  omega

theorem Inv.r_lt (h : Inv s xs ys) : s.r < word := h.ring.nread_lt

theorem Inv.e_eq (h : Inv s xs ys) : s.e = (s.r + (xs.length + ys.length)) % word := by
  have he := h.ring.nwrite_eq
  rw [List.length_append] at he
  exact he

theorem Inv.le (h : Inv s xs ys) : xs.length + ys.length ≤ inputBufSize := by
  have hle := h.ring.le
  rwa [List.length_append] at hle

theorem Inv.sub_w (h : Inv s xs ys) : sub s.w s.r = xs.length := by
  have hle := h.le
  have hsub := sub_add (a := s.r) (k := xs.length) (by unfold inputBufSize word at *; omega)
  rwa [Nat.mod_eq_of_lt h.r_lt, ← h.w] at hsub

theorem Inv.sub_e (h : Inv s xs ys) : sub s.e s.r = xs.length + ys.length := by
  have hle := h.le
  have hsub := sub_add (a := s.r) (k := xs.length + ys.length)
    (by unfold inputBufSize word at *; omega)
  rwa [Nat.mod_eq_of_lt h.r_lt, ← h.e_eq] at hsub

theorem Inv.e_eq_w (h : Inv s xs ys) : s.e = s.w ↔ ys = [] := by
  have hle := h.le
  rw [h.e_eq, h.w, ← List.length_eq_zero_iff]
  unfold inputBufSize word at *
  omega

theorem Inv.r_eq_w (h : Inv s xs ys) : s.r = s.w ↔ xs = [] := by
  have hle := h.le
  have hr := h.r_lt
  rw [h.w, ← List.length_eq_zero_iff]
  unfold inputBufSize word at *
  omega

theorem Inv.pending_eq (h : Inv s xs ys) : pending s = xs := by
  unfold pending
  rw [h.sub_w]
  exact h.ring.cells

/-! ## `consoleintr` -/

theorem Inv.erase (h : Inv s xs (ys ++ [c])) : Inv { s with e := sub s.e 1 } xs ys := by
  refine ⟨?_, h.w⟩
  have hring := h.ring
  rw [← List.append_assoc] at hring
  exact hring.unpush

theorem Inv.push (h : Inv s xs ys) (hroom : sub s.e s.r < inputBufSize) (c : UInt8) :
    Inv { s with
      buf := Function.update s.buf (s.e % inputBufSize) c
      e := (s.e + 1) % word } xs (ys ++ [c]) := by
  rw [h.sub_e] at hroom
  refine ⟨?_, h.w⟩
  rw [← List.append_assoc]
  exact h.ring.push size_dvd (by rw [List.length_append]; exact hroom) c

theorem Inv.commit (h : Inv s xs ys) : Inv { s with w := s.e } (xs ++ ys) [] := by
  refine ⟨?_, ?_⟩
  · rw [List.append_nil]
    exact h.ring
  · rw [List.length_append]
    exact h.e_eq

theorem newly_same {s' : Cons} (h : s'.w = s.w) : newly s s' = [] := by
  have hsub : sub s'.w s.w = 0 := by
    rw [h]
    unfold sub word
    omega
  unfold newly
  rw [hsub]
  rfl

theorem Inv.newly_commit {s₀ : Cons} (h : Inv s xs ys) (hw : s₀.w = s.w) :
    newly s₀ { s with w := s.e } = ys := by
  have hle := h.le
  have hsub : sub s.e s₀.w = ys.length := by
    have hsub := sub_add (a := s.r + xs.length) (k := ys.length)
      (by unfold inputBufSize word at *; omega)
    rwa [← h.w, Nat.add_assoc, ← h.e_eq, ← hw] at hsub
  have hcells := h.ring.cells_behind size_dvd
  unfold newly
  dsimp only
  rw [hsub, hw, h.w]
  exact hcells

theorem killLoop_inv (h : Inv s xs ys) (k : Nat) : ∃ zs, Inv (killLoop k s) xs zs ∧
    (killLoop k s).w = s.w ∧ (killLoop k s).r = s.r := by
  induction k generalizing s ys with
  | zero => exact ⟨ys, h, rfl, rfl⟩
  | succ k ih =>
    unfold killLoop
    split
    · rename_i hne
      rcases List.eq_nil_or_concat ys with rfl | ⟨zs, c, rfl⟩
      · exact absurd (h.e_eq_w.mpr rfl) hne.1
      · rw [List.concat_eq_append] at h
        exact ih h.erase
    · exact ⟨ys, h, rfl, rfl⟩

/-- the rounds are enough: the loop of `C('U')` ends where its condition fails -/
theorem killLoop_stops (h : Inv s xs ys) (k : Nat) (hk : sub s.e s.w ≤ k) :
    ¬((killLoop k s).e ≠ (killLoop k s).w ∧
      (killLoop k s).buf (sub (killLoop k s).e 1 % inputBufSize) ≠ newline) := by
  induction k generalizing s ys with
  | zero =>
    have he : s.e = s.w := by
      have hw := h.w
      have he := h.e_eq
      unfold sub at hk
      unfold word at *
      omega
    exact fun hn => hn.1 he
  | succ k ih =>
    unfold killLoop
    split
    · rename_i hne
      rcases List.eq_nil_or_concat ys with rfl | ⟨zs, c, rfl⟩
      · exact absurd (h.e_eq_w.mpr rfl) hne.1
      · rw [List.concat_eq_append] at h
        refine ih h.erase ?_
        have hw := h.w
        have he := h.e_eq
        have hne := hne.1
        show sub (sub s.e 1) s.w ≤ k
        unfold sub at *
        unfold word at *
        omega
    · rename_i hstop
      exact hstop

/-- what one input byte does: it edits, or it commits what is edited -/
theorem consoleintr_inv (h : Inv s xs ys) (c : UInt8) :
    ∃ zs, Inv (consoleintr s c) (xs ++ newly s (consoleintr s c)) zs := by
  have hkeep : ∀ {s' : Cons} {zs : List UInt8}, s'.w = s.w → Inv s' xs zs →
      ∃ zs, Inv s' (xs ++ newly s s') zs := by
    intro s' zs hw hi
    rw [newly_same hw, List.append_nil]
    exact ⟨zs, hi⟩
  unfold consoleintr
  split
  · exact hkeep rfl h
  · split
    · obtain ⟨zs, hz, hw, -⟩ := killLoop_inv h (sub s.e s.w)
      exact hkeep hw hz
    · split
      · split
        · rename_i hne
          rcases List.eq_nil_or_concat ys with rfl | ⟨zs, d, rfl⟩
          · exact absurd (h.e_eq_w.mpr rfl) hne
          · rw [List.concat_eq_append] at h
            exact hkeep rfl h.erase
        · exact hkeep rfl h
      · split
        · rename_i hroom
          dsimp only
          generalize (if c = carriageReturn then newline else c) = d
          have hpush := h.push hroom.2 d
          split
          · have hnew := @Inv.newly_commit _ _ _ s hpush rfl
            dsimp only at hnew
            refine ⟨[], ?_⟩
            rw [hnew]
            exact hpush.commit
          · exact hkeep rfl hpush
        · exact hkeep rfl h

/-- erase and kill-line leave what is committed -/
theorem consoleintr_erase (h : Inv s xs ys) (hc : c = ctrlU ∨ c = ctrlH ∨ c = delete) :
    (consoleintr s c).w = s.w ∧ ∃ zs, Inv (consoleintr s c) xs zs := by
  have hp : c ≠ ctrlP := by
    rcases hc with rfl | rfl | rfl
    · decide
    · decide
    · decide
  have hw : (consoleintr s c).w = s.w := by
    unfold consoleintr
    rw [if_neg hp]
    split
    · obtain ⟨zs, -, hw, -⟩ := killLoop_inv h (sub s.e s.w)
      exact hw
    · rename_i hu
      rw [if_pos (hc.resolve_left hu)]
      split
      · rfl
      · rfl
  obtain ⟨zs, hz⟩ := consoleintr_inv h c
  rw [newly_same hw, List.append_nil] at hz
  exact ⟨hw, zs, hz⟩

/-! ## `consoleread` -/

theorem Inv.pop (h : Inv s (c :: xs) ys) : Inv { s with r := (s.r + 1) % word } xs ys := by
  refine ⟨h.ring.pop size_dvd, ?_⟩
  show s.w = ((s.r + 1) % word + xs.length) % word
  rw [Nat.mod_add_mod, h.w, List.length_cons, Nat.add_assoc, Nat.add_comm 1]

theorem sub_succ (h : s.r < word) : sub ((s.r + 1) % word) 1 = s.r := by
  unfold sub
  unfold word at *
  omega

/-- a read takes committed bytes, first to last -/
theorem readLoop_inv (target n : Nat) (h : Inv s xs ys) (got : List UInt8) :
    ∃ zs rest, xs = zs ++ rest ∧ Inv (readLoop target n s got).cons rest ys ∧
      (readLoop target n s got).taken = got ++ zs := by
  have hnone : ∀ n b, ∃ zs rest, xs = zs ++ rest ∧ Inv (⟨s, got, false, n, b⟩ : Piece).cons rest ys ∧
      (⟨s, got, false, n, b⟩ : Piece).taken = got ++ zs :=
    fun n b => ⟨[], xs, rfl, h, rfl⟩
  induction n generalizing s xs got with
  | zero => exact hnone 0 false
  | succ n ih =>
    unfold readLoop
    cases xs with
    | nil =>
      rw [if_pos (h.r_eq_w.mpr rfl)]
      exact hnone (n + 1) true
    | cons c xs =>
      have hhead : s.buf (s.r % inputBufSize) = c := h.ring.head
      rw [if_neg (fun he => absurd (h.r_eq_w.mp he) nofun), hhead]
      dsimp only
      by_cases hd : c = ctrlD
      · rw [if_pos hd]
        split
        · rw [sub_succ h.r_lt]
          exact hnone (n + 1) false
        · refine ⟨[c], xs, rfl, h.pop, ?_⟩
          rw [hd]
          rfl
      · rw [if_neg hd]
        split
        · exact ⟨[c], xs, rfl, h.pop, List.append_nil _⟩
        · obtain ⟨zs, rest, rfl, hi, ht⟩ :=
            ih h.pop (got ++ [c]) (fun n b => ⟨[], xs, rfl, h.pop, rfl⟩)
          refine ⟨c :: zs, rest, rfl, hi, ?_⟩
          rw [ht, List.append_assoc]
          rfl

end

/-! ## runs -/

/-- the record fits what is in the ring -/
def Kept (s : State) : Prop :=
  ∃ xs ys, Inv s.cons xs ys ∧ s.committed = s.taken.map Prod.snd ++ xs

section
variable {s t : State}

theorem kept_start (buf : Nat → UInt8) : Kept (start buf) :=
  ⟨[], [], ⟨RingBuf.Holds.empty buf (by decide), rfl⟩, rfl⟩

theorem Kept.goOn (h : Kept s) (p target n : Nat) (killed : Bool) :
    Kept (s.goOn p target n killed) := by
  obtain ⟨xs, ys, hi, hc⟩ := h
  obtain ⟨zs, rest, rfl, hi', ht⟩ := readLoop_inv target n hi []
  refine ⟨rest, ys, hi', ?_⟩
  show s.committed = (s.taken ++ (readLoop target n s.cons []).taken.map (fun c => (p, c))).map
    Prod.snd ++ rest
  have hid : (zs.map (fun c => (p, c))).map Prod.snd = zs := by
    rw [List.map_map]
    exact List.map_id zs
  rw [ht, List.nil_append, List.map_append, hid, hc, List.append_assoc]

theorem Kept.step {a : Act} (h : Kept s) (hs : Step s a t) : Kept t := by
  unfold Step Console.step at hs
  cases a with
  | intr c =>
    obtain rfl := Option.some.inj hs
    obtain ⟨xs, ys, hi, hc⟩ := h
    obtain ⟨zs, hz⟩ := consoleintr_inv hi c
    refine ⟨_, zs, hz, ?_⟩
    show s.committed ++ _ = _
    rw [hc, List.append_assoc]
  | read p n killed =>
    dsimp only at hs
    cases hp : s.call p with
    | none =>
      rw [hp] at hs
      obtain rfl := Option.some.inj hs
      exact h.goOn p _ _ killed
    | some q =>
      rw [hp] at hs
      exact absurd hs nofun
  | wake p killed =>
    dsimp only at hs
    cases hp : s.call p with
    | none =>
      rw [hp] at hs
      exact absurd hs nofun
    | some q =>
      rw [hp] at hs
      obtain rfl := Option.some.inj hs
      exact h.goOn p _ _ killed

end

/-- in every run the counters are in order, edits leave the committed bytes, and what was taken, with
what waits in the ring, is what was committed -/
theorem console_queue (buf : Nat → UInt8) (l : List Act) (s : State)
    (h : Run Step (start buf) l s) :
    sub s.cons.w s.cons.r ≤ sub s.cons.e s.cons.r ∧ sub s.cons.e s.cons.r ≤ inputBufSize ∧
    (∀ c, c = ctrlU ∨ c = ctrlH ∨ c = delete → (consoleintr s.cons c).w = s.cons.w ∧
      pending (consoleintr s.cons c) = pending s.cons) ∧
    s.committed = s.taken.map Prod.snd ++ pending s.cons := by
  obtain ⟨xs, ys, hi, hc⟩ := h.invariant (fun _ _ _ hk hs => Kept.step hk hs) (kept_start buf)
  refine ⟨?_, ?_, fun c hce => ?_, ?_⟩
  · rw [hi.sub_w, hi.sub_e]
    exact Nat.le_add_right _ _
  · rw [hi.sub_e]
    exact hi.le
  · obtain ⟨hw, zs, hz⟩ := consoleintr_erase hi hce
    exact ⟨hw, hz.pending_eq.trans hi.pending_eq.symm⟩
  · rw [hi.pending_eq]
    exact hc

theorem console_queue_line : ∃ s : State, Run Step (start (fun _ => 0))
      [.intr 97, .intr newline, .intr 98, .read 1 5 false] s ∧
    (sub s.cons.w s.cons.r ≤ sub s.cons.e s.cons.r ∧ sub s.cons.e s.cons.r ≤ inputBufSize ∧
    (∀ c, c = ctrlU ∨ c = ctrlH ∨ c = delete → (consoleintr s.cons c).w = s.cons.w ∧
      pending (consoleintr s.cons c) = pending s.cons) ∧
    s.committed = s.taken.map Prod.snd ++ pending s.cons) ∧
    s.committed = [97, newline] ∧ s.taken = [(1, 97), (1, newline)] := by
  have hrun : Run Step (start (fun _ => 0)) [.intr 97, .intr newline, .intr 98, .read 1 5 false] _ :=
    .cons rfl (.cons rfl (.cons rfl (.single rfl)))
  exact ⟨_, hrun, console_queue _ _ _ hrun, by decide, by decide⟩

end Console
