import Xv6.Pipe.Model

/-!
# Pipes are queues

`Fifo.queue`: the bytes that writers stored are those that readers returned, those that the reader
with the lock has copied out, and those in the buffer.  The counters wrap at `2 ^ 32`; what is in the
buffer does not depend on it.
-/

namespace Pipe
open Lib

def Pc.got : Pc → List UInt8
  | .copying _ _ got => got
  | _ => []

def State.inHand (s : State) : List UInt8 :=
  match s.lock with
  | some p => (s.pc p).got
  | none => []

def Pc.isRead : Pc → Bool
  | .wantRead _ _ => true
  | .reading _ _ => true
  | .dozing _ _ => true
  | .copying _ _ _ => true
  | _ => false

def ValidSrc (src : Nat → Option UInt8) (n : Int) : Prop := ∀ i : Nat, i < n → (src i).isSome = true

def ValidDst (dst : Nat → Bool) (n : Int) : Prop := ∀ i : Nat, i < n → dst i = true

/-- the call has valid addresses and a positive count -/
def ValidCall (_ : State) (e : Nat × Act) : Prop :=
  match e.2 with
  | .write src n => 0 < n ∧ ValidSrc src n
  | .read dst n => 0 < n ∧ ValidDst dst n
  | _ => True

def Pc.Valid : Pc → Prop
  | .out _ => True
  | .wantWrite src n _ => ValidSrc src n
  | .writing src n _ _ => ValidSrc src n
  | .storing src n i _ => ValidSrc src n ∧ i < n
  | .wantRead dst n => 0 < n ∧ ValidDst dst n
  | .reading dst n => 0 < n ∧ ValidDst dst n
  | .dozing dst n => 0 < n ∧ ValidDst dst n
  | .copying dst n _ => 0 < n ∧ ValidDst dst n

/-- where the stored bytes are -/
def Queue (s : State) : Prop :=
  ∃ xs, s.buf.Holds word pipeSize xs ∧ s.stored = s.returned ++ s.inHand ++ xs

structure Fifo (s : State) : Prop where
  disc : Disc s
  queue : Queue s
  valid : ∀ p, (s.pc p).Valid
  /-- a reader that has copied nothing yet found bytes, or no write end -/
  first : ∀ p dst n, s.lock = some p → s.pc p = .copying dst n [] →
    ¬ (s.Empty ∧ s.buf.writeopen = true)

section
variable {s t : State} {p q : Nat} {pc : Pc}

theorem State.inHand_of_lock (h : s.lock = some p) : s.inHand = (s.pc p).got := by
  unfold State.inHand
  rw [h]

theorem State.inHand_of_free (h : s.lock = none) : s.inHand = [] := by
  unfold State.inHand
  rw [h]

theorem fifo_fresh (data : Nat → UInt8) : Fifo (fresh data) where
  disc := disc_fresh data
  queue := ⟨[], .empty data (by decide), rfl⟩
  valid := fun _ => trivial
  first := nofun

theorem Queue.congr (h : Queue s) (hb : t.buf.toRingBuf = s.buf.toRingBuf)
    (hs : t.stored = s.stored) (hr : t.returned ++ t.inHand = s.returned ++ s.inHand) : Queue t := by
  obtain ⟨xs, hxs, he⟩ := h
  exact ⟨xs, hb ▸ hxs, by rw [hs, he, hr]⟩

/-- a step that leaves the buffer alone, and neither takes bytes in hand nor returns some -/
theorem Fifo.quiet (h : Fifo s) (ht : Disc t) (hb : t.buf = s.buf) (hs : t.stored = s.stored)
    (hr : t.returned = s.returned) (hin : t.inHand = s.inHand) (hv : ∀ q, (t.pc q).Valid)
    (hf : ∀ q dst n, t.lock = some q → t.pc q = .copying dst n [] →
      (s.lock = some q ∧ s.pc q = .copying dst n []) ∨ ¬ (s.Empty ∧ s.buf.writeopen = true)) :
    Fifo t := by
  refine ⟨ht, h.queue.congr (by rw [hb]) hs (by rw [hr, hin]), hv, fun q dst n hl e => ?_⟩
  unfold State.Empty
  rw [hb]
  rcases hf q dst n hl e with ⟨h1, h2⟩ | h1
  · exact h.first q dst n h1 h2
  · exact h1

theorem valid_goto (h : ∀ q, (s.pc q).Valid) (hpc : pc.Valid) (q : Nat) :
    ((s.goto p pc).pc q).Valid := by
  by_cases e : q = p
  · subst e
    rw [State.goto_self]
    exact hpc
  · rw [State.goto_of_ne e]
    exact h q

theorem Fifo.goto (h : Fifo s) (hl : s.lock = some p) (ht : Disc (s.goto p pc)) (hv : pc.Valid)
    (hg : pc.got = (s.pc p).got)
    (hf : ∀ dst n, pc = .copying dst n [] → ¬ (s.Empty ∧ s.buf.writeopen = true)) :
    Fifo (s.goto p pc) := by
  have hin : (s.goto p pc).inHand = s.inHand := by
    rw [State.inHand_of_lock (show (s.goto p pc).lock = some p from hl), State.goto_self, hg,
      State.inHand_of_lock hl]
  refine h.quiet ht rfl rfl rfl hin (valid_goto h.valid hv) (fun q dst n hq e => Or.inr ?_)
  obtain rfl : q = p := (Option.some.inj (hl.symm.trans hq)).symm
  rw [State.goto_self] at e
  exact hf dst n e

theorem Fifo.acquire (h : Fifo s) (hl : s.lock = none) (ht : Disc ((s.acquire p).goto p pc))
    (hv : pc.Valid) (hg : pc.got = []) (hf : ∀ dst n, pc ≠ .copying dst n []) :
    Fifo ((s.acquire p).goto p pc) := by
  have hin : ((s.acquire p).goto p pc).inHand = s.inHand := by
    rw [State.inHand_of_lock (show ((s.acquire p).goto p pc).lock = some p from rfl),
      State.goto_self, hg, State.inHand_of_free hl]
  refine h.quiet ht rfl rfl rfl hin (valid_goto h.valid hv) (fun q dst n hq e => ?_)
  obtain rfl : q = p := (Option.some.inj hq).symm
  rw [State.goto_self] at e
  exact absurd e (hf dst n)

theorem Fifo.release (h : Fifo s) (hl : s.lock = some p) (hg : (s.pc p).got = []) (ht : Disc t)
    (hlock : t.lock = none) (hb : t.buf = s.buf) (hs : t.stored = s.stored)
    (hr : t.returned = s.returned) (hpc : t.pc = (s.goto p pc).pc) (hv : pc.Valid) : Fifo t := by
  have hin : t.inHand = s.inHand := by
    rw [State.inHand_of_free hlock, State.inHand_of_lock hl, hg]
  refine h.quiet ht hb hs hr hin (fun q => ?_) (fun q dst n hq _ => ?_)
  · rw [hpc]
    exact valid_goto h.valid hv q
  · exact absurd (hlock.symm.trans hq) nofun

theorem Fifo.store {src : Nat → Option UInt8} {n : Int} {i fresh : Nat} {ch : UInt8} (h : Fifo s)
    (e : s.pc p = .storing src n i fresh) (hf : ¬ s.Full)
    (ht : Disc ((s.put ch).goto p (.writing src n (i + 1) (fresh + 1)))) :
    Fifo ((s.put ch).goto p (.writing src n (i + 1) (fresh + 1))) := by
  have hl := h.disc.holds e rfl
  obtain ⟨xs, hxs, hst⟩ := h.queue
  have hroom : xs.length < pipeSize := by
    have hne : xs.length ≠ pipeSize := fun he => hf ((hxs.full_iff pipeSize_lt).mpr he)
    exact Nat.lt_of_le_of_ne hxs.le hne
  have hv := h.valid p
  rw [e] at hv
  refine ⟨ht, ⟨xs ++ [ch], hxs.push pipeSize_dvd hroom ch, ?_⟩, valid_goto h.valid hv.1, ?_⟩
  · have hin : s.inHand = [] := by rw [State.inHand_of_lock hl, e]; rfl
    rw [State.inHand_of_lock (s := (s.put ch).goto p _) hl, State.goto_self]
    show s.stored ++ [ch] = s.returned ++ [] ++ (xs ++ [ch])
    rw [hst, hin, List.append_assoc]
  · intro q dst m hq e'
    obtain rfl : q = p := (Option.some.inj (hl.symm.trans hq)).symm
    rw [State.goto_self] at e'
    exact absurd e' nofun

theorem Fifo.copy {dst : Nat → Bool} {n : Int} {got : List UInt8} (h : Fifo s)
    (e : s.pc p = .copying dst n got) (he : ¬ s.Empty)
    (ht : Disc (s.take.goto p (.copying dst n (got ++ [s.buf.data (s.buf.nread % pipeSize)])))) :
    Fifo (s.take.goto p (.copying dst n (got ++ [s.buf.data (s.buf.nread % pipeSize)]))) := by
  have hl := h.disc.holds e rfl
  obtain ⟨xs, hxs, hst⟩ := h.queue
  obtain ⟨x, ys, rfl⟩ : ∃ x ys, xs = x :: ys :=
    List.exists_cons_of_ne_nil (fun hn => he ((hxs.empty_iff pipeSize_lt).mpr hn))
  have hv := h.valid p
  rw [e] at hv
  refine ⟨ht, ⟨ys, hxs.pop pipeSize_dvd, ?_⟩, valid_goto h.valid hv, ?_⟩
  · have hin : s.inHand = got := by rw [State.inHand_of_lock hl, e]; rfl
    rw [State.inHand_of_lock (s := s.take.goto p _) hl, State.goto_self]
    show s.stored = s.returned ++ (got ++ [s.buf.data (s.buf.nread % pipeSize)]) ++ ys
    rw [hst, hin, hxs.head]
    simp
  · intro q dst' m hq e'
    obtain rfl : q = p := (Option.some.inj (hl.symm.trans hq)).symm
    rw [State.goto_self] at e'
    exact absurd (Pc.copying.inj e').2.2 (by simp)

theorem Fifo.finish {dst : Nat → Bool} {n : Int} {got : List UInt8} (h : Fifo s)
    (e : s.pc p = .copying dst n got) (ht : Disc (s.finish p got)) : Fifo (s.finish p got) := by
  have hl := h.disc.holds e rfl
  refine ⟨ht, h.queue.congr rfl rfl ?_, fun q =>
    valid_goto h.valid (show (Pc.out got.length).Valid from trivial) q, nofun⟩
  show s.returned ++ got ++ (s.finish p got).inHand = s.returned ++ s.inHand
  rw [State.inHand_of_lock hl, State.inHand_of_free rfl, e, List.append_nil]
  rfl

theorem Fifo.move (h : Fifo s) (hm : Move s p t) : Fifo t := by
  have ht := h.disc.move hm
  have hv := h.valid p
  cases hm with
  | lockWrite e hl ha =>
    rw [e] at hv
    exact h.acquire hl ht hv rfl nofun
  | lockRead e hl ha =>
    rw [e] at hv
    exact h.acquire hl ht hv rfl nofun
  | refused e _ _ | wrote e _ | badSrc e _ _ | killed e _ _ =>
    exact h.release (h.disc.holds e rfl) (by rw [e]; rfl) ht rfl rfl rfl rfl rfl trivial
  | full e hf =>
    rw [e] at hv
    exact h.release (h.disc.holds e rfl) (by rw [e]; rfl) ht rfl rfl rfl rfl rfl hv.1
  | sleep e =>
    rw [e] at hv
    exact h.release (h.disc.holds e rfl) (by rw [e]; rfl) ht rfl rfl rfl rfl rfl hv
  | tested e hi hr =>
    rw [e] at hv
    exact h.goto (h.disc.holds e rfl) ht ⟨hv, hi⟩ (by rw [e]; rfl) nofun
  | doze e he hw =>
    rw [e] at hv
    exact h.goto (h.disc.holds e rfl) ht hv (by rw [e]; rfl) nofun
  | start e he =>
    rw [e] at hv
    exact h.goto (h.disc.holds e rfl) ht hv (by rw [e]; rfl) (fun _ _ _ => he)
  | store e hf hs => exact h.store e hf ht
  | copy e hi he hd => exact h.copy e he ht
  | done e hd => exact h.finish e ht
  | badDst e hi he hd =>
    rw [e] at hv
    exact absurd (hd.symm.trans (hv.2 _ hi)) nofun

theorem Fifo.call {v : Int} (h : Fifo s) (e : s.pc p = .out v) (ht : Disc (s.goto p pc))
    (hv : pc.Valid) : Fifo (s.goto p pc) := by
  have hne : ∀ q, s.lock = some q → q ≠ p := by
    rintro q hq rfl
    have hl := (h.disc.lock q).mpr hq
    rw [e] at hl
    exact absurd hl nofun
  have hin : (s.goto p pc).inHand = s.inHand := by
    unfold State.inHand
    cases hl : s.lock with
    | none =>
      rw [show (s.goto p pc).lock = none from hl]
    | some q =>
      rw [show (s.goto p pc).lock = some q from hl]
      dsimp only
      rw [State.goto_of_ne (hne q hl)]
  refine h.quiet ht rfl rfl rfl hin (valid_goto h.valid hv) (fun q dst n hq e' => Or.inl ⟨hq, ?_⟩)
  rwa [State.goto_of_ne (hne q hq)] at e'

theorem Fifo.step {e : Nat × Act} (h : Fifo s) (hs : guarded ValidCall Step s e t) : Fifo t := by
  obtain ⟨hv, hstep⟩ := hs
  have htr := hstep.trans
  have ht := h.disc.trans htr
  cases htr with
  | kill p q => exact h.quiet ht rfl rfl rfl rfl h.valid (fun _ _ _ hl e => Or.inl ⟨hl, e⟩)
  | move hm => exact h.move hm
  | write src n e => exact h.call e ht hv.2
  | read dst n e => exact h.call e ht hv
  | @close p v w e hl =>
    have hfree : (pipeclose s p w).lock = none := by cases w <;> exact hl
    refine ⟨ht, h.queue.congr ?_ ?_ ?_, ?_, fun q dst n hq => absurd (hfree.symm.trans hq) nofun⟩
    · cases w <;> rfl
    · cases w <;> rfl
    · cases w <;> rfl
    · cases w <;> exact h.valid

theorem Fifo.zero (h : Fifo s) (hm : Move s p t) (hr : (s.pc p).isRead = true)
    (hz : t.pc p = .out 0) : t.Empty ∧ t.buf.writeopen = false := by
  have hv := h.valid p
  cases hm with
  | refused e _ _ | tested e _ _ | wrote e _ | full e _ | badSrc e _ _ | store e _ _ =>
    rw [e] at hr
    exact absurd hr nofun
  | lockWrite | lockRead | doze | start | copy =>
    rw [State.goto_self] at hz
    exact absurd hz nofun
  | killed e he hw =>
    have hz' : Pc.out (-1) = .out 0 := State.goto_self.symm.trans hz
    exact absurd hz' nofun
  | sleep e =>
    have hz' : Pc.wantRead _ _ = .out 0 := State.goto_self.symm.trans hz
    exact absurd hz' nofun
  | badDst e hi he hd =>
    rw [e] at hv
    exact absurd (hd.symm.trans (hv.2 _ hi)) nofun
  | @done dst n got e hd =>
    rw [e] at hv
    have hz' : Pc.out got.length = .out 0 := State.goto_self.symm.trans hz
    have hnil : got = [] := by
      rw [← List.length_eq_zero_iff]
      exact Int.natCast_eq_zero.mp (Pc.out.inj hz')
    subst hnil
    have hempty : s.Empty := by
      rcases hd with hd | hd
      · exact absurd hv.1 (Int.not_lt.mpr hd)
      · exact hd
    have hfirst := h.first p dst n (h.disc.holds e rfl) e
    refine ⟨hempty, ?_⟩
    show s.buf.writeopen = false
    cases hw : s.buf.writeopen with
    | false => rfl
    | true => exact absurd ⟨hempty, hw⟩ hfirst

end

/-- any interleaving of calls with valid addresses and positive counts -/
theorem fifo (data : Nat → UInt8) (l : List (Nat × Act)) (s : State)
    (hrun : Run (guarded ValidCall Step) (fresh data) l s) :
    s.returned <+: s.stored ∧ (s.buf.nwrite + word - s.buf.nread) % word ≤ pipeSize ∧
      ∀ p t, Step s (p, .advance) t → (s.pc p).isRead = true → t.pc p = .out 0 →
        t.Empty ∧ t.buf.writeopen = false := by
  have h : Fifo s := hrun.invariant (fun _ _ _ hi hs => hi.step hs) (fifo_fresh data)
  obtain ⟨xs, hxs, hst⟩ := h.queue
  refine ⟨?_, ?_, fun p t hs hr hz => ?_⟩
  · rw [hst, List.append_assoc]
    exact List.prefix_append _ _
  · rw [hxs.sub_eq pipeSize_lt]
    exact hxs.le
  · exact h.zero (advance_move hs) hr hz

def twoBytes : List (Nat × Act) :=
  [(0, .write (fun i => some (UInt8.ofNat i)) 2), (1, .read (fun _ => true) 3)] ++
    List.replicate 6 (0, .advance) ++ List.replicate 5 (1, .advance)

theorem validCall_twoBytes : ∀ e ∈ twoBytes, ∀ s, ValidCall s e := by
  intro e he s
  unfold twoBytes at he
  simp only [List.mem_append, List.mem_cons, List.not_mem_nil, or_false, List.mem_replicate] at he
  rcases he with ((rfl | rfl) | ⟨-, rfl⟩) | ⟨-, rfl⟩
  · exact ⟨by decide, fun _ _ => rfl⟩
  · exact ⟨by decide, fun _ _ => rfl⟩
  · trivial
  · trivial

theorem fifo_twoBytes : ∃ s, Run (guarded ValidCall Step) (fresh (fun _ => 0)) twoBytes s ∧
    s.returned = [0, 1] ∧ s.returned <+: s.stored := by
  have hsome : (exec (fun s e => step s e.1 e.2) (fresh (fun _ => 0)) twoBytes).map State.returned
      = some [0, 1] := by
    decide +kernel
  obtain ⟨s, hs, he⟩ := Option.map_eq_some_iff.mp hsome
  have hrun : Run Step (fresh (fun _ => 0)) twoBytes s := Run.of_exec (fun _ _ _ h => h) hs
  have hg := hrun.guard validCall_twoBytes
  exact ⟨s, hg, he, (fifo _ _ s hg).1⟩

end Pipe
