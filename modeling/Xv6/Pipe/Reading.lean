import Xv6.Pipe.Model
import Xv6.Vm.Words

/-!
# What a read takes out of a pipe (`piperead`)

`piperead` with the page table of the process and the bytes of the memory.  A byte leaves the pipe
before it is copied to the process, so it is lost when its address is not mapped: a read takes out
what it returns exactly when the addresses of all bytes that it gets to are mapped.
-/

namespace Pipe
open Lib Copy Words
open Vm hiding Mem copyout walk walkaddr

/-! ## the model -/

section
variable (t : UserTable) (addr : UInt64)

/-- the second loop of `piperead`, for this many rounds at most: the pipe, the memory, and `i` -/
def pipereadLoop : Nat → RingBuf UInt8 → Mem → Nat → RingBuf UInt8 × Mem × Nat
  | 0, b, m, i => (b, m, i)
  | rounds + 1, b, m, i =>
    if b.nread = b.nwrite then (b, m, i)
    else
      let ch := b.data (b.nread % pipeSize)
      let b := b.pop word
      let r := copyout t.walkaddr m (addr + UInt64.ofNat i) (fun _ => ch) 1
      if r.2 = -1 then (b, r.1, i) else pipereadLoop rounds b r.1 (i + 1)

/-- `piperead`, as soon as it need not sleep; `none` is to sleep -/
def piperead (b : Buf) (m : Mem) (n : Int) (killed : Bool) : Option (Buf × Mem × Int) :=
  if b.nread = b.nwrite ∧ b.writeopen = true then
    if killed then some (b, m, -1) else none
  else
    let r := pipereadLoop t addr n.toNat b.toRingBuf m 0
    some ({ b with toRingBuf := r.1 }, r.2.1, r.2.2)

end

/-- from `m` to `m'`, the bytes `ys` went to the addresses behind `i`; of two that go to one place,
the later one stays -/
structure Delivered (t : UserTable) (addr : UInt64) (i : Nat) (ys : List UInt8) (m m' : Mem) :
    Prop where
  bytes : ∀ j y, ys[j]? = some y →
    (∀ k, j < k → k < ys.length → phys t (user addr (i + k)) ≠ phys t (user addr (i + j))) →
    m' (phys t (user addr (i + j))) = y
  frame : ∀ pa, (∀ j < ys.length, phys t (user addr (i + j)) ≠ pa) → m' pa = m pa

/-- from a pipe with the bytes `xs`, a read takes the bytes that it returns, and no other -/
structure NothingLost (t : UserTable) (addr : UInt64) (xs : List UInt8) (m : Mem)
    (r : Buf × Mem × Int) : Prop where
  count : r.2.2.toNat ≤ xs.length
  removed : r.1.Holds word pipeSize (xs.drop r.2.2.toNat)
  stored : Delivered t addr 0 (xs.take r.2.2.toNat) m r.2.1
  /-- the next read of a byte, with any buffer that is mapped -/
  next : ∀ x ys, xs.drop r.2.2.toNat = x :: ys → ∀ t' addr' m' killed, Mapped t' (user addr' 0) →
    ∃ b', piperead t' addr' r.1 m' 1 killed =
      some (b', Function.update m' (phys t' (user addr' 0)) x, 1)

section
variable {t : UserTable} {addr : UInt64} {m m' : Mem} {i k n : Nat} {xs ys : List UInt8} {y : UInt8}
  {b : RingBuf UInt8}

/-! ## one byte -/

theorem user_add (addr : UInt64) (i : Nat) : user (addr + UInt64.ofNat i) 0 = user addr i := by
  unfold user
  rw [UInt64.toNat_add, UInt64.toNat_ofNat']
  omega

theorem copyout_one (t : UserTable) (m : Mem) (addr : UInt64) (i : Nat) (y : UInt8) :
    (Mapped t (user addr i) → copyout t.walkaddr m (addr + UInt64.ofNat i) (fun _ => y) 1 =
      (Function.update m (phys t (user addr i)) y, 0)) ∧
    (¬ Mapped t (user addr i) →
      copyout t.walkaddr m (addr + UInt64.ofNat i) (fun _ => y) 1 = (m, -1)) := by
  have hva : (addr + UInt64.ofNat i).toNat < 2 ^ 64 := UInt64.toNat_lt _
  have huser : (addr + UInt64.ofNat i).toNat = user addr i := by
    rw [← user_add]
    exact (Nat.mod_eq_of_lt hva).symm
  unfold copyout
  rw [copyoutLoop_eq (fun _ h => walkaddr_of_le h) hva (Nat.le_refl _),
    show (1 : UInt64).toNat = 1 from rfl, huser]
  unfold Paging.store
  constructor
  · intro h
    rw [byteAddr_of_mapped h]
    rfl
  · intro h
    rw [byteAddr_of_not h]
    rfl

theorem Delivered.nil : Delivered t addr i [] m m := ⟨nofun, fun _ _ => rfl⟩

theorem Delivered.cons
    (h : Delivered t addr (i + 1) ys (Function.update m (phys t (user addr i)) y) m') :
    Delivered t addr i (y :: ys) m m' := by
  have hshift : ∀ j, i + (j + 1) = i + 1 + j := fun j => by omega
  refine ⟨fun j z hj hlast => ?_, fun pa hpa => ?_⟩
  · cases j with
    | zero =>
      obtain rfl := Option.some.inj hj
      rw [Nat.add_zero, h.frame, Function.update_self]
      intro k hk
      rw [← hshift]
      exact hlast (k + 1) (Nat.succ_pos k) (Nat.succ_lt_succ hk)
    | succ j =>
      rw [hshift]
      refine h.bytes j z hj (fun k hjk hk => ?_)
      rw [← hshift, ← hshift]
      exact hlast (k + 1) (Nat.succ_lt_succ hjk) (Nat.succ_lt_succ hk)
  · have h0 : phys t (user addr i) ≠ pa := hpa 0 (Nat.succ_pos _)
    rw [h.frame pa (fun j hj => ?_), Function.update_of_ne (Ne.symm h0)]
    rw [← hshift]
    exact hpa (j + 1) (Nat.succ_lt_succ hj)

/-! ## the loop -/

/-- the bytes that are mapped arrive; one more is taken out if the next address is not mapped -/
theorem pipereadLoop_spec (hb : b.Holds word pipeSize xs) (n i : Nat) (m : Mem) :
    ∃ k b' m', pipereadLoop t addr n b m i = (b', m', i + k) ∧ k ≤ min n xs.length ∧
      (∀ j < k, Mapped t (user addr (i + j))) ∧ Delivered t addr i (xs.take k) m m' ∧
      (k = min n xs.length ∧ b'.Holds word pipeSize (xs.drop k) ∨
        k < min n xs.length ∧ ¬ Mapped t (user addr (i + k)) ∧
          b'.Holds word pipeSize (xs.drop (k + 1))) := by
  induction n generalizing b xs i m with
  | zero =>
    refine ⟨0, b, m, rfl, Nat.zero_le _, fun j hj => absurd hj (Nat.not_lt_zero j), .nil,
      Or.inl ⟨?_, hb⟩⟩
    rw [Nat.zero_min]
  | succ n ih =>
    unfold pipereadLoop
    cases xs with
    | nil =>
      rw [if_pos ((hb.empty_iff pipeSize_lt).mpr rfl)]
      exact ⟨0, b, m, rfl, Nat.zero_le _, fun j hj => absurd hj (Nat.not_lt_zero j), .nil,
        Or.inl ⟨rfl, hb⟩⟩
    | cons x xs =>
      rw [if_neg (fun he => absurd ((hb.empty_iff pipeSize_lt).mp he) nofun), hb.head]
      have hpop := hb.pop pipeSize_dvd
      obtain ⟨hgood, hbad⟩ := copyout_one t m addr i x
      have hmin : min (n + 1) (x :: xs).length = min n xs.length + 1 := by
        rw [List.length_cons, Nat.add_min_add_right]
      by_cases hm : Mapped t (user addr i)
      · dsimp only
        rw [hgood hm, if_neg nofun]
        obtain ⟨k, b', m', heq, hle, hmap, hdel, hend⟩ :=
          ih hpop (i + 1) (Function.update m (phys t (user addr i)) x)
        have hshift : ∀ j, i + 1 + j = i + (j + 1) := fun j => by omega
        refine ⟨k + 1, b', m', ?_, ?_, fun j hj => ?_, hdel.cons, ?_⟩
        · rw [heq, hshift]
        · rw [hmin]
          exact Nat.succ_le_succ hle
        · cases j with
          | zero => exact hm
          | succ j =>
            rw [← hshift]
            exact hmap j (Nat.lt_of_succ_lt_succ hj)
        · rw [hmin, ← hshift]
          rcases hend with ⟨rfl, hh⟩ | ⟨hlt, hno, hh⟩
          · exact Or.inl ⟨rfl, hh⟩
          · exact Or.inr ⟨Nat.succ_lt_succ hlt, hno, hh⟩
      · dsimp only
        rw [hbad hm, if_pos rfl]
        refine ⟨0, b.pop word, m, rfl, Nat.zero_le _, fun j hj => absurd hj (Nat.not_lt_zero j),
          .nil, Or.inr ⟨?_, hm, hpop⟩⟩
        rw [hmin]
        exact Nat.succ_pos _

theorem holds_length {zs : List UInt8} (h : b.Holds word pipeSize ys)
    (h' : b.Holds word pipeSize zs) : ys.length = zs.length := by
  rw [← h.sub_eq pipeSize_lt, ← h'.sub_eq pipeSize_lt]

end

/-! ## a call -/

section
variable {t : UserTable} {addr : UInt64} {b : Buf} {xs : List UInt8} {m : Mem}

theorem piperead_next {x : UInt8} {ys : List UInt8} (hb : b.Holds word pipeSize (x :: ys))
    (hm : Mapped t (user addr 0)) (killed : Bool) : ∃ b', piperead t addr b m 1 killed =
      some (b', Function.update m (phys t (user addr 0)) x, 1) := by
  have hne : b.nread ≠ b.nwrite := fun he => absurd ((hb.empty_iff pipeSize_lt).mp he) nofun
  have hcopy := (copyout_one t m addr 0 x).1 hm
  have hloop : pipereadLoop t addr 1 b.toRingBuf m 0 =
      (b.toRingBuf.pop word, Function.update m (phys t (user addr 0)) x, 1) := by
    unfold pipereadLoop
    rw [if_neg hne, hb.head]
    dsimp only
    rw [hcopy, if_neg nofun]
    rfl
  unfold piperead
  rw [if_neg (fun h => hne h.1), show (1 : Int).toNat = 1 from rfl, hloop]
  exact ⟨_, rfl⟩

theorem NothingLost.of_removed {b' : Buf} {m' : Mem} {k : Nat} (hle : k ≤ xs.length)
    (hb : b'.Holds word pipeSize (xs.drop k)) (hd : Delivered t addr 0 (xs.take k) m m') :
    NothingLost t addr xs m (b', m', k) := by
  refine ⟨hle, hb, hd, fun x ys hx t' addr' m'' killed hm => ?_⟩
  have hb' : b'.Holds word pipeSize (x :: ys) := hx ▸ hb
  exact piperead_next hb' hm killed

/-- a read loses nothing exactly when every address that it gets to is mapped -/
theorem nothing_lost_iff (t : UserTable) (addr : UInt64) (b : Buf) (xs : List UInt8) (m : Mem)
    (n : Int) (killed : Bool) (hb : b.Holds word pipeSize xs) :
    (∀ r, piperead t addr b m n killed = some r → NothingLost t addr xs m r) ↔
      ∀ i < min n.toNat xs.length, Mapped t (user addr i) := by
  unfold piperead
  by_cases hw : b.nread = b.nwrite ∧ b.writeopen = true
  · rw [if_pos hw]
    obtain rfl := (hb.empty_iff pipeSize_lt).mp hw.1
    refine iff_of_true (fun r hr => ?_) (fun i hi => ?_)
    · cases killed with
      | false => exact absurd hr nofun
      | true =>
        obtain rfl := Option.some.inj hr
        exact ⟨Nat.le_refl 0, hb, .nil, nofun⟩
    · rw [List.length_nil, Nat.min_zero] at hi
      exact absurd hi (Nat.not_lt_zero i)
  · rw [if_neg hw]
    obtain ⟨k, b', m', heq, hle, hmap, hdel, hend⟩ := @pipereadLoop_spec t addr xs b.toRingBuf hb n.toNat 0 m
    simp only [Nat.zero_add] at heq hmap hend
    have hlen : k ≤ xs.length := hle.trans (Nat.min_le_right _ _)
    rw [heq]
    rcases hend with ⟨hk, hh⟩ | ⟨hlt, hno, hh⟩
    · refine iff_of_true (fun r hr => ?_) (fun i hi => hmap i (hk ▸ hi))
      obtain rfl := Option.some.inj hr
      exact .of_removed hlen hh hdel
    · refine iff_of_false (fun hall => ?_) (fun hall => hno (hall k hlt))
      have hlost := (hall _ rfl).removed
      have hlen := holds_length hh hlost
      rw [List.length_drop, List.length_drop] at hlen
      have hk : ((k : Int)).toNat = k := rfl
      rw [hk] at hlen
      omega

end

/-! ## the steps of the machine -/

section
variable {t : UserTable} {addr : UInt64} {s : State} {p : Nat} {dst : Nat → Bool} {n : Int}
  {got : List UInt8}

/-- a process that has the lock runs through the loop, and leaves the pipe as the function does -/
theorem copying_run (hdst : ∀ i, dst i = true ↔ Mapped t (user addr i)) (m : Mem)
    (hpc : s.pc p = .copying dst n got) : ∃ l s', Run Step s l s' ∧ (∀ e ∈ l, e = (p, .advance)) ∧
      s'.buf.toRingBuf =
        (pipereadLoop t addr (n - got.length).toNat s.buf.toRingBuf m got.length).1 ∧
      s'.pc p = .out
        (pipereadLoop t addr (n - got.length).toNat s.buf.toRingBuf m got.length).2.2 := by
  induction hr : (n - got.length).toNat generalizing s got m with
  | zero =>
    have hstep : Step s (p, .advance) (s.finish p got) := by
      show advance s p = _
      unfold advance
      rw [hpc]
      dsimp only
      rw [if_neg (by omega)]
    exact ⟨_, _, .single hstep, fun e he => List.mem_singleton.mp he, rfl, State.goto_self⟩
  | succ rounds ih =>
    have hlt : (got.length : Int) < n := by omega
    unfold pipereadLoop
    by_cases he : s.buf.nread = s.buf.nwrite
    · have hempty : s.Empty := he
      have hstep : Step s (p, .advance) (s.finish p got) := by
        show advance s p = _
        unfold advance
        rw [hpc]
        dsimp only
        rw [if_pos hlt, if_pos hempty]
      rw [if_pos he]
      exact ⟨_, _, .single hstep, fun e he => List.mem_singleton.mp he, rfl, State.goto_self⟩
    · have hsome : ¬ s.Empty := he
      rw [if_neg he]
      dsimp only
      obtain ⟨hgood, hbad⟩ :=
        copyout_one t m addr got.length (s.buf.data (s.buf.nread % pipeSize))
      by_cases hm : Mapped t (user addr got.length)
      · rw [hgood hm, if_neg nofun]
        have hstep : Step s (p, .advance) (s.take.goto p
            (.copying dst n (got ++ [s.buf.data (s.buf.nread % pipeSize)]))) := by
          show advance s p = _
          unfold advance
          rw [hpc]
          dsimp only
          rw [if_pos hlt, if_neg hsome, if_pos ((hdst _).mpr hm)]
        have hlen : (got ++ [s.buf.data (s.buf.nread % pipeSize)]).length = got.length + 1 := by
          rw [List.length_append, List.length_singleton]
        obtain ⟨l, s', hrun, hl, hbuf, hout⟩ := ih
          (Function.update m (phys t (user addr got.length)) (s.buf.data (s.buf.nread % pipeSize)))
          State.goto_self (by rw [hlen]; omega)
        rw [hlen] at hbuf hout
        refine ⟨_, s', .cons hstep hrun, fun e he => ?_, hbuf, hout⟩
        rcases List.mem_cons.mp he with rfl | he
        · rfl
        · exact hl e he
      · rw [hbad hm, if_pos rfl]
        have hstep : Step s (p, .advance) (s.take.finish p got) := by
          show advance s p = _
          unfold advance
          rw [hpc]
          dsimp only
          rw [if_pos hlt, if_neg hsome, if_neg (fun h => hm ((hdst _).mp h))]
        exact ⟨_, _, .single hstep, fun e he => List.mem_singleton.mp he, rfl, State.goto_self⟩

end

/-! ## failing input -/

/-- the page-table pages of a process that has page 0, at 20480 -/
def onePagePtes (page i : Nat) : UInt64 :=
  if i ≠ 0 then 0
  else if page = 4096 then 2049
  else if page = 8192 then 3073
  else if page = 12288 then 5143
  else 0

def onePage : UserTable where
  ptes := onePagePtes
  pagetable := 4096
  nonzero := by
    intro va page i _ hv _
    unfold onePagePtes at hv ⊢
    split
    · rename_i h
      rw [if_pos h] at hv
      exact absurd rfl hv
    · rename_i h
      rw [if_neg h] at hv
      split
      · decide
      · split
        · decide
        · split
          · decide
          · rename_i h1 h2 h3
            rw [if_neg h1, if_neg h2, if_neg h3] at hv
            exact absurd rfl hv

theorem onePage_mapped {va : Nat} (h : va < 4096) : Mapped onePage va := by
  have hpx : ∀ level, level < 3 → px level va = 0 := by
    intro level hl
    unfold px
    rw [Nat.div_eq_of_lt, Nat.zero_mod]
    exact h.trans_le (Nat.pow_le_pow_right (show 0 < 2 by decide) (by omega) : 2 ^ 12 ≤ _)
  refine ⟨h.trans (by decide), 12288, 0, ?_, by decide, by decide⟩
  unfold Words.walk walkLoop walkLoop walkLoop
  rw [hpx 0 (by decide), hpx 1 (by decide), hpx 2 (by decide)]
  decide

def onePipe : Buf where
  toRingBuf := (RingBuf.mk (fun _ => 0) 0 0).push word pipeSize 7
  readopen := true
  writeopen := true

theorem onePipe_holds : onePipe.Holds word pipeSize [7] :=
  (RingBuf.Holds.empty _ (by decide)).push pipeSize_dvd (by decide) 7

/-- a read of the byte into a page that is there -/
theorem nothing_lost_page : onePipe.Holds word pipeSize [7] ∧
    ∀ r, piperead onePage 0 onePipe (fun _ => 0) 1 false = some r →
      NothingLost onePage 0 [7] (fun _ => 0) r :=
  ⟨onePipe_holds, (nothing_lost_iff onePage 0 onePipe [7] (fun _ => 0) 1 false onePipe_holds).mpr
    (fun i hi => onePage_mapped ((Nat.mod_le _ _).trans_lt (by
      have h1 : i < 1 := hi
      have h0 : (0 : UInt64).toNat = 0 := rfl
      omega)))⟩

/-- a read into a page that is not there returns 0, and the byte is gone -/
theorem byte_lost : ¬ ∀ (t : UserTable) (addr : UInt64) (b : Buf) (xs : List UInt8) (m : Mem)
    (n : Int) (killed : Bool) (r : Buf × Mem × Int), b.Holds word pipeSize xs →
    piperead t addr b m n killed = some r → NothingLost t addr xs m r := by
  intro h
  have hlost := h onePage 4096 onePipe [7] (fun _ => 0) 1 false
    ({ onePipe with toRingBuf := onePipe.pop word }, fun _ => 0, 0) onePipe_holds (by rfl)
  have hempty := (hlost.removed.empty_iff pipeSize_lt).mp (by rfl)
  exact absurd hempty nofun

end Pipe
