import Xv6.Lib.RingBuf
import Xv6.Lib.Run

/-!
# Pipes (`kernel/pipe.c`, and `sleep`, `wakeup`, `kill` of `kernel/proc.c`)

Any number of processes call `pipewrite`, `piperead` and `pipeclose` on one pipe.  A step is a piece
of one of them between two points where a `kill` may come in: a test of `killed`, a byte, a `sleep`.
`sleep` gives up `pi->lock` and is one step, since `p->lock` is held in between; a process that is
awake again has to take `pi->lock` before it goes on.

The pages that `copyin` and `copyout` may use are given with the call: `src i` is the byte at
`addr + i`, and `dst i` says whether a byte may go there.  A pipe whose two ends are closed is not
taken away: callers have no end any more, and what is proved for all calls holds for none.

`stored` and `returned` are a record that the machine does not read, and so is the `fresh` of a
writer: the bytes that it stored since it took the lock.
-/

namespace Pipe
open Lib

def pipeSize : Nat := 512

/-- `uint` counts modulo this -/
def word : Nat := 2 ^ 32

theorem pipeSize_lt : pipeSize < word := by decide

theorem pipeSize_dvd : pipeSize ∣ word := by decide

/-- `&pi->nread` and `&pi->nwrite`, to sleep on -/
inductive Chan where
  | nread
  | nwrite
  deriving DecidableEq

/-- `struct pipe`, but for its lock -/
structure Buf extends RingBuf UInt8 where
  readopen : Bool
  writeopen : Bool

/-- where a process is, with the arguments and variables of its call -/
inductive Pc where
  /-- in no call; `ret` is the result of the last one -/
  | out (ret : Int)
  /-- wants `pi->lock`, at the start of `pipewrite` or behind its `sleep` -/
  | wantWrite (src : Nat → Option UInt8) (n : Int) (i : Nat)
  /-- at the head of the loop of `pipewrite` -/
  | writing (src : Nat → Option UInt8) (n : Int) (i fresh : Nat)
  /-- behind the test of `readopen` and `killed` -/
  | storing (src : Nat → Option UInt8) (n : Int) (i fresh : Nat)
  | wantRead (dst : Nat → Bool) (n : Int)
  /-- at the head of the first loop of `piperead` -/
  | reading (dst : Nat → Bool) (n : Int)
  /-- behind the test of `killed` -/
  | dozing (dst : Nat → Bool) (n : Int)
  /-- at the head of the second loop; `got` are the bytes copied out, `i` of them -/
  | copying (dst : Nat → Bool) (n : Int) (got : List UInt8)

/-- `asleep` is the channel of a process that is `SLEEPING` -/
structure State where
  buf : Buf
  lock : Option Nat
  pc : Nat → Pc
  killed : Nat → Bool
  asleep : Nat → Option Chan
  stored : List UInt8
  returned : List UInt8

def fresh (data : Nat → UInt8) : State where
  buf := { data := data, nread := 0, nwrite := 0, readopen := true, writeopen := true }
  lock := none
  pc := fun _ => .out 0
  killed := fun _ => false
  asleep := fun _ => none
  stored := []
  returned := []

/-! ## the model -/

def State.goto (s : State) (p : Nat) (pc : Pc) : State := { s with pc := Function.update s.pc p pc }

/-- `acquire(&pi->lock)` -/
def State.acquire (s : State) (p : Nat) : State := { s with lock := some p }

/-- `release(&pi->lock)` and `return` -/
def State.ret (s : State) (p : Nat) (v : Int) : State := { s.goto p (.out v) with lock := none }

/-- `sleep(c, &pi->lock)`; the process goes on at `pc` -/
def State.sleep (s : State) (p : Nat) (c : Chan) (pc : Pc) : State :=
  { s.goto p pc with lock := none, asleep := Function.update s.asleep p (some c) }

/-- `wakeup(c)` by process `me` -/
def State.wakeup (s : State) (me : Nat) (c : Chan) : State :=
  { s with asleep := fun q => if q ≠ me ∧ s.asleep q = some c then none else s.asleep q }

def State.kill (s : State) (q : Nat) : State :=
  { s with killed := Function.update s.killed q true, asleep := Function.update s.asleep q none }

/-- `pi->data[pi->nwrite++ % PIPESIZE] = ch` -/
def State.put (s : State) (ch : UInt8) : State :=
  { s with buf := { s.buf with toRingBuf := s.buf.push word pipeSize ch }, stored := s.stored ++ [ch] }

/-- `pi->nread++` -/
def State.take (s : State) : State := { s with buf := { s.buf with toRingBuf := s.buf.pop word } }

/-- `pi->nread == pi->nwrite` -/
def State.Empty (s : State) : Prop := s.buf.nread = s.buf.nwrite

/-- `pi->nwrite == pi->nread + PIPESIZE` -/
def State.Full (s : State) : Prop := s.buf.nwrite = (s.buf.nread + pipeSize) % word

instance (s : State) : Decidable s.Empty := inferInstanceAs (Decidable (_ = _))
instance (s : State) : Decidable s.Full := inferInstanceAs (Decidable (_ = _))

/-- the end of `piperead` -/
def State.finish (s : State) (p : Nat) (got : List UInt8) : State :=
  { (s.wakeup p .nwrite).ret p got.length with returned := s.returned ++ got }

def pipeclose (s : State) (p : Nat) (writable : Bool) : State :=
  if writable then { s with buf := { s.buf with writeopen := false } }.wakeup p .nread
  else { s with buf := { s.buf with readopen := false } }.wakeup p .nwrite

/-- process `p` goes on in its call -/
def advance (s : State) (p : Nat) : Option State :=
  match s.pc p with
  | .out _ => none
  | .wantWrite src n i =>
    if s.lock = none ∧ s.asleep p = none then some ((s.acquire p).goto p (.writing src n i 0))
    else none
  | .writing src n i fresh =>
    if i < n then
      if s.buf.readopen = false ∨ s.killed p = true then some (s.ret p (-1))
      else some (s.goto p (.storing src n i fresh))
    else some ((s.wakeup p .nread).ret p i)
  | .storing src n i fresh =>
    if s.Full then some ((s.wakeup p .nread).sleep p .nwrite (.wantWrite src n i))
    else
      match src i with
      | none => some ((s.wakeup p .nread).ret p i)
      | some ch => some ((s.put ch).goto p (.writing src n (i + 1) (fresh + 1)))
  | .wantRead dst n =>
    if s.lock = none ∧ s.asleep p = none then some ((s.acquire p).goto p (.reading dst n))
    else none
  | .reading dst n =>
    if s.Empty ∧ s.buf.writeopen = true then
      if s.killed p = true then some (s.ret p (-1)) else some (s.goto p (.dozing dst n))
    else some (s.goto p (.copying dst n []))
  | .dozing dst n => some (s.sleep p .nread (.wantRead dst n))
  | .copying dst n got =>
    if got.length < n then
      if s.Empty then some (s.finish p got)
      else if dst got.length = true then
        some (s.take.goto p (.copying dst n (got ++ [s.buf.data (s.buf.nread % pipeSize)])))
      else some (s.take.finish p got)
    else some (s.finish p got)

inductive Act where
  | write (src : Nat → Option UInt8) (n : Int)
  | read (dst : Nat → Bool) (n : Int)
  | close (writable : Bool)
  | kill (q : Nat)
  | advance

/-- process `p` does `a` -/
def step (s : State) (p : Nat) (a : Act) : Option State :=
  match a with
  | .kill q => some (s.kill q)
  | .advance => advance s p
  | .write src n =>
    match s.pc p with
    | .out _ => some (s.goto p (.wantWrite src n 0))
    | _ => none
  | .read dst n =>
    match s.pc p with
    | .out _ => some (s.goto p (.wantRead dst n))
    | _ => none
  | .close writable =>
    match s.pc p with
    | .out _ => if s.lock = none then some (pipeclose s p writable) else none
    | _ => none

def Step (s : State) (e : Nat × Act) (t : State) : Prop := step s e.1 e.2 = some t

/-! ## what a step can do -/

/-- the steps of a process in a call, one by one -/
inductive Move (s : State) (p : Nat) : State → Prop
  | lockWrite {src : Nat → Option UInt8} {n : Int} {i : Nat} (h : s.pc p = .wantWrite src n i)
      (hl : s.lock = none) (ha : s.asleep p = none) :
      Move s p ((s.acquire p).goto p (.writing src n i 0))
  | refused {src : Nat → Option UInt8} {n : Int} {i fresh : Nat} (h : s.pc p = .writing src n i fresh)
      (hi : i < n) (hk : s.buf.readopen = false ∨ s.killed p = true) : Move s p (s.ret p (-1))
  | tested {src : Nat → Option UInt8} {n : Int} {i fresh : Nat} (h : s.pc p = .writing src n i fresh)
      (hi : i < n) (hr : s.buf.readopen = true) : Move s p (s.goto p (.storing src n i fresh))
  | wrote {src : Nat → Option UInt8} {n : Int} {i fresh : Nat} (h : s.pc p = .writing src n i fresh)
      (hi : n ≤ i) : Move s p ((s.wakeup p .nread).ret p i)
  | full {src : Nat → Option UInt8} {n : Int} {i fresh : Nat} (h : s.pc p = .storing src n i fresh)
      (hf : s.Full) : Move s p ((s.wakeup p .nread).sleep p .nwrite (.wantWrite src n i))
  | badSrc {src : Nat → Option UInt8} {n : Int} {i fresh : Nat} (h : s.pc p = .storing src n i fresh)
      (hf : ¬ s.Full) (hs : src i = none) : Move s p ((s.wakeup p .nread).ret p i)
  | store {src : Nat → Option UInt8} {n : Int} {i fresh : Nat} {ch : UInt8}
      (h : s.pc p = .storing src n i fresh) (hf : ¬ s.Full) (hs : src i = some ch) :
      Move s p ((s.put ch).goto p (.writing src n (i + 1) (fresh + 1)))
  | lockRead {dst : Nat → Bool} {n : Int} (h : s.pc p = .wantRead dst n) (hl : s.lock = none)
      (ha : s.asleep p = none) : Move s p ((s.acquire p).goto p (.reading dst n))
  | killed {dst : Nat → Bool} {n : Int} (h : s.pc p = .reading dst n) (he : s.Empty)
      (hw : s.buf.writeopen = true) : Move s p (s.ret p (-1))
  | doze {dst : Nat → Bool} {n : Int} (h : s.pc p = .reading dst n) (he : s.Empty)
      (hw : s.buf.writeopen = true) : Move s p (s.goto p (.dozing dst n))
  | start {dst : Nat → Bool} {n : Int} (h : s.pc p = .reading dst n)
      (he : ¬ (s.Empty ∧ s.buf.writeopen = true)) : Move s p (s.goto p (.copying dst n []))
  | sleep {dst : Nat → Bool} {n : Int} (h : s.pc p = .dozing dst n) :
      Move s p (s.sleep p .nread (.wantRead dst n))
  | done {dst : Nat → Bool} {n : Int} {got : List UInt8} (h : s.pc p = .copying dst n got)
      (hd : n ≤ got.length ∨ s.Empty) : Move s p (s.finish p got)
  | copy {dst : Nat → Bool} {n : Int} {got : List UInt8} (h : s.pc p = .copying dst n got)
      (hi : got.length < n) (he : ¬ s.Empty) (hd : dst got.length = true) :
      Move s p (s.take.goto p (.copying dst n (got ++ [s.buf.data (s.buf.nread % pipeSize)])))
  | badDst {dst : Nat → Bool} {n : Int} {got : List UInt8} (h : s.pc p = .copying dst n got)
      (hi : got.length < n) (he : ¬ s.Empty) (hd : dst got.length = false) :
      Move s p (s.take.finish p got)

theorem advance_move {s t : State} {p : Nat} (h : advance s p = some t) : Move s p t := by
  unfold advance at h
  cases hpc : s.pc p with
  | out ret =>
    rw [hpc] at h
    exact absurd h nofun
  | wantWrite src n i =>
    rw [hpc] at h
    dsimp only at h
    split at h
    · rename_i hl
      obtain rfl := Option.some.inj h
      exact .lockWrite hpc hl.1 hl.2
    · exact absurd h nofun
  | writing src n i fresh =>
    rw [hpc] at h
    dsimp only at h
    split at h
    · rename_i hi
      split at h
      · rename_i hk
        obtain rfl := Option.some.inj h
        exact .refused hpc hi hk
      · rename_i hk
        obtain rfl := Option.some.inj h
        exact .tested hpc hi (by simpa using (not_or.mp hk).1)
    · rename_i hi
      obtain rfl := Option.some.inj h
      exact .wrote hpc (Int.not_lt.mp hi)
  | storing src n i fresh =>
    rw [hpc] at h
    dsimp only at h
    split at h
    · rename_i hf
      obtain rfl := Option.some.inj h
      exact .full hpc hf
    · rename_i hf
      cases hs : src i with
      | none =>
        rw [hs] at h
        obtain rfl := Option.some.inj h
        exact .badSrc hpc hf hs
      | some ch =>
        rw [hs] at h
        obtain rfl := Option.some.inj h
        exact .store hpc hf hs
  | wantRead dst n =>
    rw [hpc] at h
    dsimp only at h
    split at h
    · rename_i hl
      obtain rfl := Option.some.inj h
      exact .lockRead hpc hl.1 hl.2
    · exact absurd h nofun
  | reading dst n =>
    rw [hpc] at h
    dsimp only at h
    split at h
    · rename_i he
      split at h
      · obtain rfl := Option.some.inj h
        exact .killed hpc he.1 he.2
      · obtain rfl := Option.some.inj h
        exact .doze hpc he.1 he.2
    · rename_i he
      obtain rfl := Option.some.inj h
      exact .start hpc he
  | dozing dst n =>
    rw [hpc] at h
    obtain rfl := Option.some.inj h
    exact .sleep hpc
  | copying dst n got =>
    rw [hpc] at h
    dsimp only at h
    split at h
    · rename_i hi
      split at h
      · rename_i he
        obtain rfl := Option.some.inj h
        exact .done hpc (Or.inr he)
      · rename_i he
        split at h
        · rename_i hd
          obtain rfl := Option.some.inj h
          exact .copy hpc hi he hd
        · rename_i hd
          obtain rfl := Option.some.inj h
          exact .badDst hpc hi he (by simpa using hd)
    · rename_i hi
      obtain rfl := Option.some.inj h
      exact .done hpc (Or.inl (Int.not_lt.mp hi))

/-- the steps of all processes -/
inductive Trans (s : State) : Nat × Act → State → Prop
  | kill (p q : Nat) : Trans s (p, .kill q) (s.kill q)
  | move {p : Nat} {t : State} (h : Move s p t) : Trans s (p, .advance) t
  | write {p : Nat} {v : Int} (src : Nat → Option UInt8) (n : Int) (h : s.pc p = .out v) :
      Trans s (p, .write src n) (s.goto p (.wantWrite src n 0))
  | read {p : Nat} {v : Int} (dst : Nat → Bool) (n : Int) (h : s.pc p = .out v) :
      Trans s (p, .read dst n) (s.goto p (.wantRead dst n))
  | close {p : Nat} {v : Int} (writable : Bool) (h : s.pc p = .out v) (hl : s.lock = none) :
      Trans s (p, .close writable) (pipeclose s p writable)

theorem Step.trans {s t : State} {e : Nat × Act} (h : Step s e t) : Trans s e t := by
  obtain ⟨p, a⟩ := e
  unfold Step step at h
  cases a with
  | kill q =>
    obtain rfl := Option.some.inj h
    exact .kill p q
  | advance => exact .move (advance_move h)
  | write src n =>
    dsimp only at h
    split at h
    · rename_i hpc
      obtain rfl := Option.some.inj h
      exact .write src n hpc
    · exact absurd h nofun
  | read dst n =>
    dsimp only at h
    split at h
    · rename_i hpc
      obtain rfl := Option.some.inj h
      exact .read dst n hpc
    · exact absurd h nofun
  | close writable =>
    dsimp only at h
    split at h
    · rename_i hpc
      split at h
      · rename_i hl
        obtain rfl := Option.some.inj h
        exact .close writable hpc hl
      · exact absurd h nofun
    · exact absurd h nofun

/-! ## the lock -/

def Pc.locked : Pc → Bool
  | .out _ => false
  | .wantWrite _ _ _ => false
  | .wantRead _ _ => false
  | _ => true

/-- what a process that does not hold the lock may sleep on -/
def Pc.waits : Pc → Option Chan
  | .wantWrite _ _ _ => some .nwrite
  | .wantRead _ _ => some .nread
  | _ => none

structure Disc (s : State) : Prop where
  lock : ∀ p, (s.pc p).locked = true ↔ s.lock = some p
  asleep : ∀ p c, s.asleep p = some c → (s.pc p).waits = some c

section
variable {s t : State} {p q : Nat} {c : Chan} {pc : Pc}

@[simp] theorem State.goto_self : (s.goto p pc).pc p = pc := Function.update_self _ _ _

theorem State.goto_of_ne (h : q ≠ p) : (s.goto p pc).pc q = s.pc q := Function.update_of_ne h _ _

theorem disc_fresh (data : Nat → UInt8) : Disc (fresh data) :=
  ⟨fun _ => ⟨nofun, nofun⟩, nofun⟩

theorem Disc.awake (h : Disc s) (hp : (s.pc p).waits = none) : s.asleep p = none := by
  cases ha : s.asleep p with
  | none => rfl
  | some c => exact absurd ((h.asleep p c ha).symm.trans hp) nofun

theorem Disc.waits_of_locked (h : (s.pc p).locked = true) : (s.pc p).waits = none := by
  cases hpc : s.pc p with
  | wantWrite src n i =>
    rw [hpc] at h
    exact absurd h nofun
  | wantRead dst n =>
    rw [hpc] at h
    exact absurd h nofun
  | out ret => rfl
  | writing src n i fresh => rfl
  | storing src n i fresh => rfl
  | reading dst n => rfl
  | dozing dst n => rfl
  | copying dst n got => rfl

theorem Disc.goto (h : Disc s) (hl : pc.locked = (s.pc p).locked) (ha : s.asleep p = none) :
    Disc (s.goto p pc) := by
  constructor
  · intro q
    by_cases e : q = p
    · subst e
      rw [State.goto_self, hl]
      exact h.lock q
    · rw [State.goto_of_ne e]
      exact h.lock q
  · intro q c hq
    by_cases e : q = p
    · subst e
      exact absurd (ha.symm.trans hq) nofun
    · rw [State.goto_of_ne e]
      exact h.asleep q c hq

theorem Disc.acquire (h : Disc s) (hl : s.lock = none) (ha : s.asleep p = none)
    (hpc : pc.locked = true) : Disc ((s.acquire p).goto p pc) := by
  constructor
  · intro q
    by_cases e : q = p
    · subst e
      rw [State.goto_self]
      exact ⟨fun _ => rfl, fun _ => hpc⟩
    · rw [State.goto_of_ne e]
      refine ⟨fun hq => absurd (hl.symm.trans ((h.lock q).mp hq)) nofun, fun hq => ?_⟩
      exact absurd (Option.some.inj hq).symm e
  · intro q c hq
    by_cases e : q = p
    · subst e
      exact absurd (ha.symm.trans hq) nofun
    · rw [State.goto_of_ne e]
      exact h.asleep q c hq

theorem Disc.release (h : Disc s) (hl : s.lock = some p) (hpc : pc.locked = false) (q : Nat) :
    ((s.goto p pc).pc q).locked = true ↔ (none : Option Nat) = some q := by
  refine ⟨fun hq => ?_, nofun⟩
  by_cases e : q = p
  · subst e
    rw [State.goto_self, hpc] at hq
    exact absurd hq nofun
  · rw [State.goto_of_ne e] at hq
    exact absurd (Option.some.inj (hl.symm.trans ((h.lock q).mp hq))).symm e

theorem Disc.ret (h : Disc s) (hl : s.lock = some p) (v : Int) : Disc (s.ret p v) := by
  refine ⟨h.release hl rfl, fun q c hq => ?_⟩
  by_cases e : q = p
  · subst e
    have ha := h.awake (Disc.waits_of_locked ((h.lock q).mpr hl))
    exact absurd (ha.symm.trans hq) nofun
  · show ((s.goto p (.out v)).pc q).waits = some c
    rw [State.goto_of_ne e]
    exact h.asleep q c hq

theorem Disc.sleep (h : Disc s) (hl : s.lock = some p) (hpc : pc.locked = false)
    (hw : pc.waits = some c) : Disc (s.sleep p c pc) := by
  refine ⟨h.release hl hpc, fun q c' hq => ?_⟩
  change Function.update s.asleep p (some c) q = some c' at hq
  show ((s.goto p pc).pc q).waits = some c'
  by_cases e : q = p
  · subst e
    rw [Function.update_self] at hq
    rw [State.goto_self, hw, hq]
  · rw [Function.update_of_ne e] at hq
    rw [State.goto_of_ne e]
    exact h.asleep q c' hq

theorem State.asleep_wakeup {c' : Chan} (h : (s.wakeup p c).asleep q = some c') :
    s.asleep q = some c' ∧ (q = p ∨ c' ≠ c) := by
  change (if q ≠ p ∧ s.asleep q = some c then none else s.asleep q) = some c' at h
  split at h
  · exact absurd h nofun
  · rename_i hn
    refine ⟨h, ?_⟩
    by_cases e : q = p
    · exact Or.inl e
    · exact Or.inr (fun ec => hn ⟨e, ec ▸ h⟩)

/-- a process that is awake wakes all that sleep on the channel -/
theorem State.asleep_wakeup_of_awake {c' : Chan} (hp : s.asleep p = none)
    (h : (s.wakeup p c).asleep q = some c') : s.asleep q = some c' ∧ c' ≠ c := by
  obtain ⟨h1, h2⟩ := State.asleep_wakeup h
  refine ⟨h1, h2.resolve_left ?_⟩
  rintro rfl
  exact absurd (hp.symm.trans h1) nofun

theorem State.asleep_kill {c' : Chan} (h : (s.kill p).asleep q = some c') :
    s.asleep q = some c' := by
  change Function.update s.asleep p none q = some c' at h
  by_cases e : q = p
  · subst e
    rw [Function.update_self] at h
    exact absurd h nofun
  · rwa [Function.update_of_ne e] at h

theorem Disc.wakeup (h : Disc s) : Disc (s.wakeup p c) :=
  ⟨h.lock, fun q c' hq => h.asleep q c' (State.asleep_wakeup hq).1⟩

theorem Disc.kill (h : Disc s) : Disc (s.kill p) :=
  ⟨h.lock, fun q c' hq => h.asleep q c' (State.asleep_kill hq)⟩

theorem Disc.take (h : Disc s) : Disc s.take := ⟨h.lock, h.asleep⟩

theorem Disc.finish (h : Disc s) (hl : s.lock = some p) {got : List UInt8} :
    Disc (s.finish p got) := by
  have hr : Disc ((s.wakeup p .nwrite).ret p got.length) := h.wakeup.ret hl _
  exact ⟨hr.lock, hr.asleep⟩

theorem Disc.pipeclose (h : Disc s) (w : Bool) : Disc (pipeclose s p w) := by
  unfold Pipe.pipeclose
  cases w with
  | true => exact Disc.wakeup ⟨h.lock, h.asleep⟩
  | false => exact Disc.wakeup ⟨h.lock, h.asleep⟩

/-- a process that is past its `acquire` holds the lock -/
theorem Disc.holds (h : Disc s) (e : s.pc p = pc) (hl : pc.locked = true) : s.lock = some p :=
  (h.lock p).mp (e ▸ hl)

theorem Disc.move (h : Disc s) (hm : Move s p t) : Disc t := by
  have hgo : ∀ {pc pc' : Pc}, s.pc p = pc → pc.locked = true → pc'.locked = true →
      Disc (s.goto p pc') := by
    intro pc pc' e hl hl'
    refine h.goto ?_ (h.awake (Disc.waits_of_locked (e ▸ hl)))
    rw [e, hl, hl']
  cases hm with
  | lockWrite e hl ha => exact h.acquire hl ha rfl
  | refused e hi hk => exact h.ret (h.holds e rfl) _
  | tested e hi hr => exact hgo e rfl rfl
  | wrote e hi => exact h.wakeup.ret (h.holds e rfl) _
  | full e hf => exact h.wakeup.sleep (h.holds e rfl) rfl rfl
  | badSrc e hf hs => exact h.wakeup.ret (h.holds e rfl) _
  | store e hf hs => exact ⟨(hgo e rfl rfl).lock, (hgo e rfl rfl).asleep⟩
  | lockRead e hl ha => exact h.acquire hl ha rfl
  | killed e he hw => exact h.ret (h.holds e rfl) _
  | doze e he hw => exact hgo e rfl rfl
  | start e he => exact hgo e rfl rfl
  | sleep e => exact h.sleep (h.holds e rfl) rfl rfl
  | done e hd => exact h.finish (h.holds e rfl)
  | copy e hi he hd => exact ⟨(hgo e rfl rfl).lock, (hgo e rfl rfl).asleep⟩
  | badDst e hi he hd => exact h.take.finish (h.holds e rfl)

theorem Disc.trans {e : Nat × Act} (h : Disc s) (ht : Trans s e t) : Disc t := by
  cases ht with
  | kill p q => exact h.kill
  | move hm => exact h.move hm
  | write src n e => exact h.goto (by rw [e]; rfl) (h.awake (by rw [e]; rfl))
  | read dst n e => exact h.goto (by rw [e]; rfl) (h.awake (by rw [e]; rfl))
  | close w e hl => exact h.pipeclose w

end

end Pipe
