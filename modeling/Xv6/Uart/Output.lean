import Mathlib.Algebra.BigOperators.Fin
import Mathlib.Tactic.Linarith
import Xv6.Lib.Merge
import Xv6.Uart.Model

/-!
# What is sent

The line is at all times a merge of what the writers and the CPUs have given away: the device never
has more bytes than CPUs and one, so that none is lost.  Each step takes something off the work that
there is, and where nobody can do a step, nothing is left.
-/

namespace Uart
open Lib

section
variable {ι β : Type*} {s t : State ι β} {c : β}

def Tx.hand : Tx β → List β
  | .write c => [c]
  | _ => []

def State.waiting (s : State ι β) : Finset (Fin ncpu) := Finset.univ.filter (s.seen · = true)

theorem waiting_le (s : State ι β) : s.waiting.card ≤ ncpu :=
  (Finset.card_le_univ _).trans_eq (Fintype.card_fin ncpu)

/-- the device has room for every byte that it is given -/
theorem thr_eq (hroom : s.fifo.length < depth) :
    s.thr c = { s with fifo := s.fifo ++ [c], pending := false } := by
  unfold State.thr
  rw [if_pos hroom]

/-! ## work -/

/-- how many bytes are in the ring -/
def State.queued (s : State ι β) : Nat := (s.buf.nwrite + word - s.buf.nread) % word

def Tx.work : Tx β → Nat
  | .free => 0
  | .loop => 1
  | .write _ => 6

/-- the interrupts that are there or under way -/
def State.interrupts (s : State ι β) : Nat := 2 * s.intr.toNat + 3 * (s.pending.toNat + s.rx)

/-- what a CPU has to do for `uartputc_sync` -/
def State.syncWork (s : State ι β) (k : Fin ncpu) : Nat :=
  6 * (s.sync k).length + (!s.seen k).toNat

theorem sum_add_of_eq_off {κ : Type*} [Fintype κ] [DecidableEq κ] {f g : κ → Nat} (k : κ)
    (hne : ∀ j, j ≠ k → g j = f j) : ∑ j, g j + f k = ∑ j, f j + g k := by
  have hf := Finset.add_sum_erase Finset.univ f (Finset.mem_univ k)
  have hg := Finset.add_sum_erase Finset.univ g (Finset.mem_univ k)
  have he : ∑ j ∈ Finset.univ.erase k, g j = ∑ j ∈ Finset.univ.erase k, f j :=
    Finset.sum_congr rfl fun j hj => hne j (Finset.ne_of_mem_erase hj)
  omega

theorem sum_syncWork (k : Fin ncpu) (hne : ∀ j, j ≠ k → t.syncWork j = s.syncWork j) :
    ∑ j, t.syncWork j + s.syncWork k = ∑ j, s.syncWork j + t.syncWork k :=
  sum_add_of_eq_off k hne

/-! ## where nobody can go on -/

theorem uartstart_stuck (h : uartstart s = none) : s.tx = .free := by
  unfold uartstart at h
  cases htx : s.tx with
  | free => rfl
  | loop =>
    rw [htx] at h
    dsimp only at h
    split at h
    · cases h
    · split at h <;> cases h
  | write c =>
    rw [htx] at h
    cases h

theorem transmit_stuck (h : transmit s = none) : s.fifo = [] := by
  unfold transmit at h
  split at h
  · assumption
  · cases h

theorem uartintr_stuck (h : uartintr s = none) (htx : s.tx = .free) : s.intr = false := by
  unfold uartintr at h
  rw [htx] at h
  cases hintr : s.intr with
  | false => rfl
  | true =>
    rw [hintr] at h
    cases h

theorem interrupt_stuck (h : interrupt s = none) (hintr : s.intr = false) : s.pending = false := by
  unfold interrupt at h
  split at h
  · cases h
  · rename_i hcond
    exact Bool.eq_false_iff.mpr fun e => hcond ⟨hintr, .inl e⟩

theorem uartputcSync_stuck {k : Fin ncpu} (h : uartputcSync s k = none) (hfifo : s.fifo = []) :
    s.sync k = [] := by
  unfold uartputcSync at h
  cases hk : s.sync k with
  | nil => rfl
  | cons c rest =>
    rw [hk, hfifo] at h
    cases hseen : s.seen k <;> rw [hseen] at h <;> cases h

end

section
variable {ι β : Type*} [DecidableEq ι]

/-- `out` is on its way to the line behind `sent`; what is left of the texts is what they were
without these two -/
def Taken (text : ι → List β) (sync : Fin ncpu → List β) (s : State ι β) (sent out : List β) : Prop :=
  ∃ p q : ι ⊕ Fin ncpu → List β, Merge p sent ∧ Merge q out ∧
    (∀ i, text i = p (.inl i) ++ q (.inl i) ++ s.text i) ∧
    ∀ k, sync k = p (.inr k) ++ s.sync k ∧ q (.inr k) = []

/-- `xs` is the queue in `uart_tx_buf` -/
structure Inv (text : ι → List β) (sync : Fin ncpu → List β) (s : State ι β) (xs : List β) : Prop where
  holds : s.buf.Holds word uartTxBufSize xs
  taken : Taken text sync s (s.line ++ s.fifo) (s.tx.hand ++ xs)
  room : s.fifo.length + s.tx.hand.length + s.waiting.card ≤ ncpu + 1
  /-- who sleeps waits for room -/
  asleep : ∀ i, s.asleep i = true → xs.length = uartTxBufSize
  /-- somebody will go on with the queue -/
  alive : xs ≠ [] → s.tx = .free → s.fifo ≠ [] ∨ s.pending = true ∨ s.intr = true

variable {text : ι → List β} {sync : Fin ncpu → List β} {s t : State ι β} {xs sent out : List β}
  {c : β}

theorem Taken.congr (h : Taken text sync s sent out) (ht : t.text = s.text) (hs : t.sync = s.sync) :
    Taken text sync t sent out := by
  obtain ⟨p, q, hp, hq, htext, hsync⟩ := h
  exact ⟨p, q, hp, hq, fun i => ht ▸ htext i, fun k => hs ▸ hsync k⟩

/-- a byte goes on -/
theorem Taken.move (h : Taken text sync s sent (c :: out)) : Taken text sync s (sent ++ [c]) out := by
  obtain ⟨p, q, hp, hq, htext, hsync⟩ := h
  obtain ⟨p', q', hp', hq', hpq⟩ := hp.move hq
  refine ⟨p', q', hp', hq', fun i => (hpq _).1 ▸ htext i, fun k => ?_⟩
  obtain ⟨hsync, hnil⟩ := hsync k
  obtain ⟨happ, hnil'⟩ := hpq (.inr k)
  rw [hnil, hnil' hnil, List.append_nil, List.append_nil] at happ
  exact ⟨happ ▸ hsync, hnil' hnil⟩

/-- a writer puts a byte behind all others -/
theorem Taken.put {i : ι} {rest : List β} (h : Taken text sync s sent out)
    (hi : s.text i = c :: rest) (ht : t.text = Function.update s.text i rest)
    (hs : t.sync = s.sync) : Taken text sync t sent (out ++ [c]) := by
  obtain ⟨p, q, hp, hq, htext, hsync⟩ := h
  refine ⟨p, _, hp, hq.snoc (.inl i) c, fun j => ?_, fun k => ?_⟩
  · rw [htext j, ht]
    by_cases hj : j = i
    · subst hj
      rw [Function.update_self, Function.update_self, hi, List.append_assoc, List.append_assoc,
        List.append_assoc]
      rfl
    · rw [Function.update_of_ne hj, Function.update_of_ne (fun e => hj (Sum.inl.inj e))]
  · rw [hs, Function.update_of_ne Sum.inr_ne_inl]
    exact hsync k

/-- a CPU passes by the writers -/
theorem Taken.pass {k : Fin ncpu} {rest : List β} (h : Taken text sync s sent out)
    (hk : s.sync k = c :: rest) (ht : t.text = s.text)
    (hs : t.sync = Function.update s.sync k rest) : Taken text sync t (sent ++ [c]) out := by
  obtain ⟨p, q, hp, hq, htext, hsync⟩ := h
  refine ⟨_, q, hp.snoc (.inr k) c, hq, fun i => ?_, fun j => ?_⟩
  · rw [ht, Function.update_of_ne Sum.inl_ne_inr]
    exact htext i
  · obtain ⟨hsync, hnil⟩ := hsync j
    refine ⟨?_, hnil⟩
    rw [hsync, hs]
    by_cases hj : j = k
    · subst hj
      rw [Function.update_self, Function.update_self, hk, List.append_assoc]
      rfl
    · rw [Function.update_of_ne hj, Function.update_of_ne (fun e => hj (Sum.inr.inj e))]

theorem start_inv (data : Nat → β) (rx : Nat) : Inv text sync (start data text sync rx) [] where
  holds := .empty data (by decide)
  taken := ⟨fun _ => [], fun _ => [], .nil, .nil, fun _ => rfl, fun _ => ⟨rfl, rfl⟩⟩
  room := by
    have h : (start data text sync rx).waiting.card ≤ ncpu :=
      (Finset.card_le_univ _).trans_eq (Fintype.card_fin ncpu)
    exact (Nat.zero_add _).trans_le (h.trans (Nat.le_succ _))
  asleep i h := by cases h
  alive h := absurd rfl h

/-! ## work -/

/-- the writers that may run -/
def State.awake [Fintype ι] (s : State ι β) : Finset ι := Finset.univ.filter (s.asleep · = false)

/-- a bound for the steps that are left: a byte that leaves the ring may wake all writers -/
def State.work [Fintype ι] (s : State ι β) : Nat :=
  (Fintype.card ι + 8) * ∑ i, (s.text i).length + (Fintype.card ι + 6) * s.queued + s.tx.work +
    s.awake.card + s.interrupts + 4 * s.fifo.length + ∑ k, s.syncWork k

theorem Inv.queued_eq (h : Inv text sync s xs) : s.queued = xs.length := h.holds.sub_eq bufSize_lt

theorem uartputc_stuck {i : ι} (h : uartputc s i = none) (htx : s.tx = .free)
    (hawake : s.asleep i = false) : s.text i = [] := by
  unfold uartputc at h
  cases hi : s.text i with
  | nil => rfl
  | cons c rest =>
    rw [htx, hawake, hi] at h
    dsimp only at h
    split at h <;> cases h

/-- where nobody can go on, all is sent -/
theorem Inv.done (h : Inv text sync s xs) (hstuck : ∀ a t, ¬Step s a t) :
    Merge (Sum.elim text sync) s.line := by
  have hnone : ∀ a, next s a = none := fun a =>
    Option.eq_none_iff_forall_not_mem.mpr fun t ht => hstuck a t ht
  have htx := uartstart_stuck (hnone .uartstart)
  have hfifo := transmit_stuck (hnone .transmit)
  have hintr := uartintr_stuck (hnone .uartintr) htx
  have hpending := interrupt_stuck (hnone .interrupt) hintr
  have hxs : xs = [] := by
    by_contra hne
    rcases h.alive hne htx with e | e | e
    · exact e hfifo
    · exact Bool.false_ne_true (hpending.symm.trans e)
    · exact Bool.false_ne_true (hintr.symm.trans e)
  subst hxs
  have htext : ∀ i, s.text i = [] := fun i =>
    uartputc_stuck (hnone (.uartputc i)) htx (Bool.eq_false_iff.mpr fun e => by cases h.asleep i e)
  obtain ⟨p, q, hp, hq, hleft, hright⟩ := h.taken
  rw [htx] at hq
  rw [hfifo, List.append_nil] at hp
  have hall : Sum.elim text sync = p := by
    funext w
    cases w with
    | inl i =>
      show text i = _
      rw [hleft i, hq.eq_nil, htext i, List.append_nil, List.append_nil]
    | inr k =>
      show sync k = _
      rw [(hright k).1, uartputcSync_stuck (hnone (.uartputcSync k)) hfifo, List.append_nil]
  rwa [hall]

/-! ## steps -/

variable [Fintype ι]

/-- a step keeps the invariant and takes something off the work -/
def Goes (text : ι → List β) (sync : Fin ncpu → List β) (s t : State ι β) : Prop :=
  (∃ xs, Inv text sync t xs) ∧ t.work < s.work

theorem uartputc_goes {i : ι} (h : Inv text sync s xs) (hstep : uartputc s i = some t) :
    Goes text sync s t := by
  unfold uartputc at hstep
  split at hstep
  · rename_i c rest htx hawake htext
    split at hstep
    · -- the ring is full
      rename_i hfull
      obtain rfl := Option.some.inj hstep
      have hlen := (h.holds.full_iff bufSize_lt).mp hfull
      refine ⟨⟨xs, h.holds, h.taken.congr rfl rfl, h.room, fun _ _ => hlen, h.alive⟩, ?_⟩
      have hcard : State.awake { s with asleep := Function.update s.asleep i true } =
          s.awake.erase i := by
        ext j
        by_cases hj : j = i
        · subst hj
          simp [State.awake]
        · simp [State.awake, hj]
      have hmem : i ∈ s.awake := Finset.mem_filter.mpr ⟨Finset.mem_univ i, hawake⟩
      have hlt := Finset.card_erase_lt_of_mem hmem
      rw [← hcard] at hlt
      exact Nat.add_lt_add_right (Nat.add_lt_add_right (Nat.add_lt_add_right
        (Nat.add_lt_add_left hlt _) _) _) _
    · rename_i hfull
      obtain rfl := Option.some.inj hstep
      have hlen : xs.length < uartTxBufSize :=
        lt_of_le_of_ne h.holds.le fun e => hfull ((h.holds.full_iff bufSize_lt).mpr e)
      have htaken := h.taken.put htext (t := { s with
        buf := s.buf.push word uartTxBufSize c
        text := Function.update s.text i rest
        tx := .loop }) rfl rfl
      have hroom := h.room
      rw [htx] at htaken hroom
      have hinv : Inv text sync { s with
          buf := s.buf.push word uartTxBufSize c
          text := Function.update s.text i rest
          tx := .loop } (xs ++ [c]) :=
        ⟨h.holds.push bufSize_dvd hlen c, htaken, hroom,
          fun j hj => absurd (h.asleep j hj) hlen.ne, fun _ hfree => by cases hfree⟩
      refine ⟨⟨_, hinv⟩, ?_⟩
      have hsum := sum_add_of_eq_off (f := fun j => (s.text j).length)
        (g := fun j => (Function.update s.text i rest j).length) i
        fun j hj => by rw [Function.update_of_ne hj]
      rw [htext, Function.update_self, List.length_cons] at hsum
      have hone : ∑ j, (s.text j).length = ∑ j, (Function.update s.text i rest j).length + 1 := by
        omega
      show _ + _ * State.queued _ + 1 + s.awake.card + s.interrupts + 4 * s.fifo.length +
        ∑ k, s.syncWork k < _
      unfold State.work
      rw [hinv.queued_eq, h.queued_eq, htx, hone, List.length_append, List.length_singleton]
      simp only [Tx.work]
      linarith
  · cases hstep

/-- `uartstart` is done for now -/
theorem Inv.leave (h : Inv text sync s xs) (htx : s.tx = .loop)
    (halive : xs ≠ [] → s.fifo ≠ [] ∨ s.pending = true ∨ s.intr = true) :
    Goes text sync s { s with tx := .free } := by
  have htaken := h.taken
  have hroom := h.room
  rw [htx] at htaken hroom
  refine ⟨⟨xs, h.holds, htaken, hroom, h.asleep, fun hne _ => halive hne⟩, ?_⟩
  show _ + _ + 0 + s.awake.card + s.interrupts + 4 * s.fifo.length + ∑ k, s.syncWork k < _
  unfold State.work
  rw [htx]
  simp only [Tx.work, State.queued]
  omega

/-- `uartstart` takes a byte from the ring -/
theorem Inv.take (h : Inv text sync s (c :: xs)) (htx : s.tx = .loop) (hfifo : s.fifo = []) :
    Goes text sync s { s with
      buf := s.buf.pop word
      asleep := fun _ => false
      tx := .write c } := by
  have htaken := h.taken
  rw [htx] at htaken
  have hinv : Inv text sync { s with
      buf := s.buf.pop word
      asleep := fun _ => false
      tx := .write c } xs := by
    refine ⟨h.holds.pop bufSize_dvd, htaken, ?_, fun i hi => absurd hi Bool.false_ne_true,
      fun _ hfree => by cases hfree⟩
    show s.fifo.length + 1 + s.waiting.card ≤ ncpu + 1
    have hle := waiting_le s
    rw [hfifo, List.length_nil]
    omega
  refine ⟨⟨xs, hinv⟩, ?_⟩
  have hawake : (State.awake { s with
      buf := s.buf.pop word
      asleep := fun _ => false
      tx := .write c }).card ≤ Fintype.card ι := Finset.card_le_univ _
  show _ + _ * State.queued _ + 6 + Finset.card _ + s.interrupts + 4 * s.fifo.length +
    ∑ k, s.syncWork k < _
  unfold State.work
  rw [hinv.queued_eq, h.queued_eq, htx, List.length_cons]
  simp only [Tx.work]
  linarith

theorem uartstart_goes (h : Inv text sync s xs) (hstep : uartstart s = some t) :
    Goes text sync s t := by
  unfold uartstart at hstep
  cases htx : s.tx with
  | free =>
    rw [htx] at hstep
    cases hstep
  | loop =>
    rw [htx] at hstep
    dsimp only at hstep
    split at hstep
    · rename_i hempty
      obtain rfl := Option.some.inj hstep
      exact h.leave htx fun hne => absurd ((h.holds.empty_iff bufSize_lt).mp hempty) hne
    · rename_i hempty
      split at hstep
      · rename_i hidle
        obtain rfl := Option.some.inj hstep
        cases xs with
        | nil => exact absurd ((h.holds.empty_iff bufSize_lt).mpr rfl) hempty
        | cons c xs =>
          rw [h.holds.head]
          exact h.take htx (List.isEmpty_iff.mp hidle)
      · rename_i hbusy
        obtain rfl := Option.some.inj hstep
        exact h.leave htx fun _ => .inl fun e => hbusy (List.isEmpty_iff.mpr e)
  | write c =>
    rw [htx] at hstep
    obtain rfl := Option.some.inj hstep
    have htaken := h.taken
    have hroom := h.room
    rw [htx] at htaken hroom
    have hlt : s.fifo.length < depth := by
      have hle : s.fifo.length + 1 + s.waiting.card ≤ 8 + 1 := hroom
      show _ < 16
      omega
    rw [thr_eq hlt]
    refine ⟨⟨xs, h.holds, ?_, ?_, h.asleep, fun _ hfree => by cases hfree⟩, ?_⟩
    · have hmoved := htaken.move
      rw [List.append_assoc] at hmoved
      exact hmoved.congr rfl rfl
    · show (s.fifo ++ [c]).length + 0 + s.waiting.card ≤ _
      rw [List.length_append]
      exact hroom
    · show _ + _ * s.queued + 1 + s.awake.card + (2 * s.intr.toNat + 3 * (0 + s.rx)) +
        4 * (s.fifo ++ [c]).length + ∑ k, s.syncWork k < _
      unfold State.work State.interrupts
      rw [htx, List.length_append, List.length_singleton]
      simp only [Tx.work]
      omega

theorem interrupt_goes (h : Inv text sync s xs) (hstep : interrupt s = some t) :
    Goes text sync s t := by
  unfold interrupt at hstep
  split at hstep
  · rename_i hcond
    obtain ⟨hintr, hreason⟩ := hcond
    obtain rfl := Option.some.inj hstep
    refine ⟨⟨xs, h.holds, h.taken.congr rfl rfl, h.room, h.asleep,
      fun _ _ => .inr (.inr rfl)⟩, ?_⟩
    have hless : 2 + 3 * (0 + (s.rx - 1)) < s.interrupts := by
      unfold State.interrupts
      rw [hintr]
      rcases hreason with hpending | hrx
      · rw [hpending]
        show _ < 2 * 0 + 3 * (1 + s.rx)
        omega
      · show _ < 2 * 0 + 3 * (s.pending.toNat + s.rx)
        omega
    exact Nat.add_lt_add_right (Nat.add_lt_add_right (Nat.add_lt_add_left hless _) _) _
  · cases hstep

theorem uartintr_goes (h : Inv text sync s xs) (hstep : uartintr s = some t) :
    Goes text sync s t := by
  unfold uartintr at hstep
  split at hstep
  · rename_i htx hintr
    obtain rfl := Option.some.inj hstep
    have htaken := h.taken
    have hroom := h.room
    rw [htx] at htaken hroom
    refine ⟨⟨xs, h.holds, htaken, hroom, h.asleep, fun _ hfree => by cases hfree⟩, ?_⟩
    show _ + _ * s.queued + 1 + s.awake.card + (2 * 0 + 3 * (s.pending.toNat + s.rx)) +
      4 * s.fifo.length + ∑ k, s.syncWork k < _
    unfold State.work State.interrupts
    rw [htx, hintr]
    simp only [Tx.work, Bool.toNat_true]
    omega
  · cases hstep

theorem transmit_goes (h : Inv text sync s xs) (hstep : transmit s = some t) :
    Goes text sync s t := by
  unfold transmit at hstep
  split at hstep
  · cases hstep
  · rename_i c rest hfifo
    obtain rfl := Option.some.inj hstep
    have htaken := h.taken
    have hroom := h.room
    rw [hfifo] at htaken hroom
    refine ⟨⟨xs, h.holds, ?_, ?_, h.asleep, fun _ _ => ?_⟩, ?_⟩
    · show Taken text sync _ (s.line ++ [c] ++ rest) _
      rw [List.append_assoc]
      exact htaken.congr rfl rfl
    · exact (Nat.add_le_add_right (Nat.add_le_add_right (Nat.le_succ _) _) _).trans hroom
    · cases rest with
      | nil => exact .inr (.inl (Bool.or_true _))
      | cons d rest => exact .inl (List.cons_ne_nil _ _)
    · have hpending : (s.pending || rest.isEmpty).toNat ≤ 1 := Bool.toNat_le _
      show _ + s.awake.card + (2 * s.intr.toNat + 3 * ((s.pending || rest.isEmpty).toNat + s.rx)) +
        4 * rest.length + ∑ k, s.syncWork k < _
      unfold State.work State.interrupts
      rw [hfifo, List.length_cons]
      simp only [State.queued]
      omega

/-- the test of `LSR_TX_IDLE` -/
theorem Inv.test {k : Fin ncpu} (h : Inv text sync s xs) (hseen : s.seen k = false)
    (hfifo : s.fifo = []) :
    Goes text sync s { s with seen := Function.update s.seen k true } := by
  refine ⟨⟨xs, h.holds, h.taken.congr rfl rfl, ?_, h.asleep, h.alive⟩, ?_⟩
  · have hle := waiting_le { s with seen := Function.update s.seen k true }
    have hhand : s.tx.hand.length ≤ 1 := by
      cases s.tx <;> simp [Tx.hand]
    have hnil : s.fifo.length = 0 := List.length_eq_zero_iff.mpr hfifo
    show s.fifo.length + s.tx.hand.length + _ ≤ ncpu + 1
    omega
  · have hsum := sum_syncWork (s := s) (t := { s with seen := Function.update s.seen k true }) k
      fun j hj => by
        show _ + (!Function.update s.seen k true j).toNat = _
        rw [Function.update_of_ne hj]
        rfl
    have hone : s.syncWork k = 6 * (s.sync k).length + 1 := by
      unfold State.syncWork
      rw [hseen]
      rfl
    have hzero : State.syncWork { s with seen := Function.update s.seen k true } k =
        6 * (s.sync k).length := by
      show _ + (!Function.update s.seen k true k).toNat = _
      rw [Function.update_self]
      rfl
    exact Nat.add_lt_add_left (by omega) _

/-- the byte behind the test -/
theorem Inv.send {k : Fin ncpu} {rest : List β} (h : Inv text sync s xs)
    (hsync : s.sync k = c :: rest) (hseen : s.seen k = true) :
    Goes text sync s { s.thr c with
      sync := Function.update s.sync k rest
      seen := Function.update s.seen k false } := by
  have hmem : k ∈ s.waiting := Finset.mem_filter.mpr ⟨Finset.mem_univ k, hseen⟩
  have hwaiting : State.waiting { s with seen := Function.update s.seen k false } =
      s.waiting.erase k := by
    ext j
    by_cases hj : j = k
    · subst hj
      simp [State.waiting]
    · simp [State.waiting, hj]
  have hcard := Finset.card_erase_add_one hmem
  have hroom := h.room
  have hlt : s.fifo.length < depth := by
    have hle : s.fifo.length + s.tx.hand.length + s.waiting.card ≤ 8 + 1 := hroom
    show _ < 16
    omega
  rw [thr_eq hlt]
  refine ⟨⟨xs, h.holds, ?_, ?_, h.asleep, fun _ _ => .inl (by simp)⟩, ?_⟩
  · show Taken text sync _ (s.line ++ (s.fifo ++ [c])) _
    rw [← List.append_assoc]
    exact h.taken.pass hsync rfl rfl
  · show (s.fifo ++ [c]).length + s.tx.hand.length + Finset.card (State.waiting { s with
      seen := Function.update s.seen k false }) ≤ _
    rw [hwaiting, List.length_append, List.length_singleton]
    omega
  · have hsum := sum_syncWork (s := s) (t := { s with
        sync := Function.update s.sync k rest
        seen := Function.update s.seen k false }) k
      fun j hj => by
        show 6 * (Function.update s.sync k rest j).length +
          (!Function.update s.seen k false j).toNat = _
        rw [Function.update_of_ne hj, Function.update_of_ne hj]
        rfl
    have hold : s.syncWork k = 6 * (rest.length + 1) := by
      unfold State.syncWork
      rw [hseen, hsync]
      rfl
    have hnew : State.syncWork { s with
        sync := Function.update s.sync k rest
        seen := Function.update s.seen k false } k = 6 * rest.length + 1 := by
      show 6 * (Function.update s.sync k rest k).length +
        (!Function.update s.seen k false k).toNat = _
      rw [Function.update_self, Function.update_self]
      rfl
    show _ + s.awake.card + (2 * s.intr.toNat + 3 * (0 + s.rx)) + 4 * (s.fifo ++ [c]).length +
      ∑ j, State.syncWork { s with
        sync := Function.update s.sync k rest
        seen := Function.update s.seen k false } j < _
    unfold State.work State.interrupts
    rw [List.length_append, List.length_singleton]
    simp only [State.queued]
    omega

theorem uartputcSync_goes {k : Fin ncpu} (h : Inv text sync s xs)
    (hstep : uartputcSync s k = some t) : Goes text sync s t := by
  unfold uartputcSync at hstep
  split at hstep
  · cases hstep
  · rename_i hseen
    split at hstep
    · rename_i hidle
      obtain rfl := Option.some.inj hstep
      exact h.test hseen (List.isEmpty_iff.mp hidle)
    · cases hstep
  · rename_i hsync hseen
    obtain rfl := Option.some.inj hstep
    exact h.send hsync hseen

theorem step_goes {a : Action ι} (h : Inv text sync s xs) (hstep : Step s a t) :
    Goes text sync s t := by
  cases a with
  | uartputc i => exact uartputc_goes h hstep
  | uartstart => exact uartstart_goes h hstep
  | interrupt => exact interrupt_goes h hstep
  | uartintr => exact uartintr_goes h hstep
  | transmit => exact transmit_goes h hstep
  | uartputcSync k => exact uartputcSync_goes h hstep

theorem start_work (data : Nat → β) (rx : Nat) : (start data text sync rx).work =
    (Fintype.card ι + 8) * ∑ i, (text i).length + 6 * ∑ k, (sync k).length + 3 * rx +
      Fintype.card ι + ncpu := by
  have hinv : Inv text sync (start data text sync rx) [] := start_inv data rx
  have hawake : (start data text sync rx).awake = Finset.univ :=
    Finset.filter_true_of_mem fun _ _ => rfl
  have hsync : ∑ k, (start data text sync rx).syncWork k = 6 * ∑ k, (sync k).length + ncpu := by
    show ∑ k, (6 * (sync k).length + 1) = _
    rw [Finset.sum_add_distrib, ← Finset.mul_sum]
    simp
  unfold State.work
  rw [hinv.queued_eq, hawake, hsync, Finset.card_univ]
  show (Fintype.card ι + 8) * ∑ i, (text i).length + (Fintype.card ι + 6) * 0 + 0 +
    Fintype.card ι + (2 * 0 + 3 * (0 + rx)) + 4 * 0 + _ = _
  omega

end

/-- in every run the line is a merge of first parts of what the writers and the CPUs were to send; the
run comes to an end, and then all of it was sent -/
theorem uart_output {ι β : Type*} [DecidableEq ι] [Fintype ι] (data : Nat → β) (text : ι → List β)
    (sync : Fin ncpu → List β) (rx : Nat) (l : List (Action ι)) (s : State ι β)
    (h : Run Step (start data text sync rx) l s) :
    (∃ p : ι ⊕ Fin ncpu → List β, Merge p s.line ∧ (∀ i, p (.inl i) <+: text i) ∧
      ∀ k, p (.inr k) <+: sync k) ∧
    ((∀ a t, ¬Step s a t) → Merge (Sum.elim text sync) s.line) ∧
    l.length ≤ (Fintype.card ι + 8) * ∑ i, (text i).length + 6 * ∑ k, (sync k).length + 3 * rx +
      Fintype.card ι + ncpu := by
  have hstart : ∃ xs, Inv text sync (start data text sync rx) xs := ⟨[], start_inv data rx⟩
  have hgoes : ∀ s a t, (∃ xs, Inv text sync s xs) → Step s a t →
      (∃ xs, Inv text sync t xs) ∧ t.work < s.work := by
    rintro s a t ⟨xs, hs⟩ hstep
    exact step_goes hs hstep
  obtain ⟨xs, hs⟩ := h.invariant (fun s a t hs hstep => (hgoes s a t hs hstep).1) hstart
  refine ⟨?_, hs.done, ?_⟩
  · obtain ⟨p, q, hp, _, hleft, hright⟩ := hs.taken
    obtain ⟨p', p'', hline, _, hparts⟩ := hp.split
    refine ⟨p', hline, fun i => ?_, fun k => ?_⟩
    · rw [hleft i, hparts, List.append_assoc, List.append_assoc]
      exact List.prefix_append _ _
    · rw [(hright k).1, hparts, List.append_assoc]
      exact List.prefix_append _ _
  · have hle := h.length_le State.work hgoes hstart
    rw [start_work] at hle
    omega

theorem ncpu_pos : 0 < ncpu := by decide

def firstCpu : Fin ncpu := ⟨0, ncpu_pos⟩

def twoTexts : Bool → List Nat
  | false => [1, 2]
  | true => [3]

def oneSync (k : Fin ncpu) : List Nat := if k = firstCpu then [9] else []

/-- `uartputc_sync` sends its byte behind the one of `uartstart`, which it has not seen -/
def twoWriters : List (Action Bool) :=
  [.uartputcSync firstCpu, .uartputc false, .uartstart, .uartstart, .uartputcSync firstCpu,
    .uartstart, .uartputc true, .uartstart, .transmit, .transmit, .interrupt, .uartintr, .uartstart,
    .uartstart, .uartstart, .transmit]

theorem uart_output_twoWriters :
    ∃ s : State Bool Nat, Run Step (start (fun _ => 0) twoTexts oneSync 0) twoWriters s ∧
      s.line = [1, 9, 3] ∧
      (∃ p : Bool ⊕ Fin ncpu → List Nat, Merge p s.line ∧ (∀ i, p (.inl i) <+: twoTexts i) ∧
        ∀ k, p (.inr k) <+: oneSync k) ∧
      ((∀ a t, ¬Step s a t) → Merge (Sum.elim twoTexts oneSync) s.line) ∧
      twoWriters.length ≤ (Fintype.card Bool + 8) * ∑ i, (twoTexts i).length +
        6 * ∑ k, (oneSync k).length + 3 * 0 + Fintype.card Bool + ncpu := by
  have hrun : Run Step (start (fun _ => 0) twoTexts oneSync 0) twoWriters _ :=
    .cons rfl (.cons rfl (.cons rfl (.cons rfl (.cons rfl (.cons rfl (.cons rfl (.cons rfl
      (.cons rfl (.cons rfl (.cons rfl (.cons rfl (.cons rfl (.cons rfl (.cons rfl
        (.single rfl)))))))))))))))
  exact ⟨_, hrun, rfl, uart_output _ _ _ 0 twoWriters _ hrun⟩

end Uart
