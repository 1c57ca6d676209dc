import Xv6.Virtio.Steps

/-!
# What the disk driver is for

`Disk` is a disk whose calls take effect at once: a call of `virtio_disk_rw` begins, moves one block
between the disk and its buffer, and returns.  The driver with its rings, its descriptors and a
device that takes requests out of order behaves so: each call is carried out once, before it
returns.
-/

namespace Virtio
open Lib

/-! ## the disk that the callers see -/

structure Call (B : Type) where
  b : B
  write : Bool
  done : Bool

/-- `contents` of a buffer are its block number and its data -/
@[ext] structure Disk (T B S : Type) where
  block : Nat → S × S
  contents : B → Nat × (S × S)
  call : T → Option (Call B)

inductive Event (T B S : Type) where
  | call (t : T) (b : B) (write : Bool)
  | perform (t : T)
  | ret (t : T)
  | store (b : B) (blockno : Nat) (data : S × S)

section
variable {T B S : Type} [DecidableEq T] [DecidableEq B]

inductive Disk.Step : Disk T B S → Event T B S → Disk T B S → Prop
  | call {d : Disk T B S} {t : T} {b : B} {write : Bool} : d.call t = none →
      Disk.Step d (.call t b write)
        { d with call := Function.update d.call t (some ⟨b, write, false⟩) }
  | read {d : Disk T B S} {t : T} {b : B} : d.call t = some ⟨b, false, false⟩ →
      Disk.Step d (.perform t)
        { d with
          contents := Function.update d.contents b ((d.contents b).1, d.block (d.contents b).1)
          call := Function.update d.call t (some ⟨b, false, true⟩) }
  | write {d : Disk T B S} {t : T} {b : B} : d.call t = some ⟨b, true, false⟩ →
      Disk.Step d (.perform t)
        { d with
          block := Function.update d.block (d.contents b).1 (d.contents b).2
          call := Function.update d.call t (some ⟨b, true, true⟩) }
  | ret {d : Disk T B S} {t : T} {b : B} {write : Bool} : d.call t = some ⟨b, write, true⟩ →
      Disk.Step d (.ret t) { d with call := Function.update d.call t none }
  | store {d : Disk T B S} {b : B} {n : Nat} {x : S × S} :
      (∀ t c, d.call t = some c → c.b ≠ b) →
      Disk.Step d (.store b n x) { d with contents := Function.update d.contents b (n, x) }

end

/-! ## the driver as such a disk -/

section
variable {T B S : Type}

/-- the device writes 0 into the status byte when it has carried out the request -/
def State.call (s : State T B S) (t : T) : Option (Call B) :=
  match s.thread t with
  | .out => none
  | .alloc b write => some ⟨b, write, false⟩
  | .wait b i => some ⟨b, (s.ops i).out, (s.info i).status = 0⟩

def State.abs (s : State T B S) : Disk T B S where
  block := fun n => (s.sectors (n * 2), s.sectors (n * 2 + 1))
  contents := fun b => ((s.buf b).blockno, (s.buf b).data)
  call := s.call

/-- what the callers see of a step -/
inductive Shows (s : State T B S) : Act T B S → List (Event T B S) → Prop
  | call {t : T} {b : B} {write : Bool} : Shows s (.call t b write) [.call t b write]
  | ret {t : T} {b : B} {i : Nat} : s.thread t = .wait b i → (s.buf b).disk = false →
      Shows s (.wake t) [.ret t]
  | wake {t : T} : (∀ b i, s.thread t = .wait b i → (s.buf b).disk = true) → Shows s (.wake t) []
  | intr : Shows s .intr []
  | fetch : Shows s .fetch []
  | perform {t : T} {b : B} {i : Nat} : s.thread t = .wait b i →
      Shows s (.complete i) [.perform t]
  | store {b : B} {n : Nat} {x : S × S} : Shows s (.store b n x) [.store b n x]

variable {s t : State T B S} {g : Ghost T} {b : B} {p : T} {i j k : Nat} {write : Bool}

theorem call_wait (hp : s.thread p = .wait b i) :
    s.call p = some ⟨b, (s.ops i).out, (s.info i).status = 0⟩ := by
  unfold State.call
  rw [hp]

theorem call_congr (hthread : t.thread p = s.thread p)
    (hwait : ∀ b i, s.thread p = .wait b i →
      (t.ops i).out = (s.ops i).out ∧ (t.info i).status = (s.info i).status) :
    t.call p = s.call p := by
  unfold State.call
  rw [hthread]
  cases hp : s.thread p with
  | out => rfl
  | alloc b write => rfl
  | wait b i =>
    obtain ⟨hop, hstatus⟩ := hwait b i hp
    dsimp only
    rw [hop, hstatus]

variable [DecidableEq T]

theorem call_update {x : Option (Call B)} (hp : t.call p = x)
    (hother : ∀ q, q ≠ p → t.call q = s.call q) : t.call = Function.update s.call p x := by
  funext q
  by_cases hq : q = p
  · rw [hq, Function.update_self, hp]
  · rw [Function.update_of_ne hq, hother q hq]

theorem complete_call (h : Inv s g) (hp : s.thread p = .wait b i) (hthread : t.thread = s.thread)
    (hops : t.ops = s.ops)
    (hinfo : t.info = Function.update s.info i { s.info i with status := 0 }) :
    t.call = Function.update s.call p (some ⟨b, (s.ops i).out, true⟩) := by
  refine call_update ?_ (fun q hq => ?_)
  · rw [call_wait (by rw [hthread]; exact hp), hops, hinfo, Function.update_self]
    rfl
  · refine call_congr (by rw [hthread]) (fun c m hm => ⟨by rw [hops], ?_⟩)
    rw [hinfo]
    refine congrArg Info.status (Function.update_of_ne ?_ ..)
    rintro rfl
    exact hq (h.thread_of_head hm hp)

/-! ## `virtio_disk_rw` -/

theorem alloc_abs {D : Nat → Desc B} :
    State.abs { s with desc := D, thread := Function.update s.thread p (.alloc b write) } =
      { s.abs with call := Function.update s.call p (some ⟨b, write, false⟩) } := by
  refine Disk.ext rfl rfl (call_update ?_ (fun q hq => ?_))
  · unfold State.call
    dsimp only
    rw [Function.update_self]
  · exact call_congr (Function.update_of_ne hq ..) (fun _ _ _ => ⟨rfl, rfl⟩)

theorem finish_abs {D : Nat → Desc B} {f : Nat → Bool} :
    State.abs { s with
      info := Function.update s.info i { s.info i with b := none }
      desc := D
      free := f
      thread := Function.update s.thread p .out } =
      { s.abs with call := Function.update s.call p none } := by
  refine Disk.ext rfl rfl (call_update ?_ (fun q hq => ?_))
  · unfold State.call
    dsimp only
    rw [Function.update_self]
  · refine call_congr (Function.update_of_ne hq ..) (fun c m hm => ⟨rfl, ?_⟩)
    show (Function.update s.info i { s.info i with b := none } m).status = _
    by_cases hmi : m = i
    · rw [hmi, Function.update_self]
    · rw [Function.update_of_ne hmi]

variable [DecidableEq B]

theorem submit_abs (h : Inv s g) (hi : ∀ n, s.free n = false → n ≠ i) :
    (submit (s.take i j k) p b write i j k).abs =
      { s.abs with call := Function.update s.call p (some ⟨b, write, false⟩) } := by
  refine Disk.ext rfl (funext fun c => ?_) (call_update ?_ (fun q hq => ?_))
  · show ((Function.update s.buf b { s.buf b with disk := true } c).blockno,
      (Function.update s.buf b { s.buf b with disk := true } c).data) = _
    by_cases hc : c = b
    · rw [hc, Function.update_self]
      rfl
    · rw [Function.update_of_ne hc]
      rfl
  · have hp : (submit (s.take i j k) p b write i j k).thread p = .wait b i :=
      Function.update_self ..
    rw [call_wait hp]
    show some (Call.mk b (Function.update s.ops i _ i).out
      (decide ((Function.update s.info i _ i).status = 0))) = _
    rw [Function.update_self, Function.update_self]
    rfl
  · refine call_congr (Function.update_of_ne hq ..) (fun c m hm => ?_)
    have hne : m ≠ i := hi m (h.own m q (h.head hm)).2.1
    refine ⟨congrArg Op.out (Function.update_of_ne hne ..), ?_⟩
    exact congrArg Info.status (Function.update_of_ne hne ..)

theorem enter_abs (h : Inv s g) (ht : (∃ D, t = { s with
        desc := D, thread := Function.update s.thread p (.alloc b write) }) ∨
      ∃ i j k, (∀ n, s.free n = false → n ≠ i) ∧ t = submit (s.take i j k) p b write i j k) :
    t.abs = { s.abs with call := Function.update s.call p (some ⟨b, write, false⟩) } := by
  obtain ⟨D, rfl⟩ | ⟨i, j, k, hi, rfl⟩ := ht
  · exact alloc_abs
  · exact submit_abs h hi

/-! ## the device -/

theorem block_update {D : Nat → S} {m : Nat} {x : S × S} :
    (fun n => (Function.update (Function.update D (m * 2) x.1) (m * 2 + 1) x.2 (n * 2),
      Function.update (Function.update D (m * 2) x.1) (m * 2 + 1) x.2 (n * 2 + 1))) =
      Function.update (fun n => (D (n * 2), D (n * 2 + 1))) m x := by
  funext n
  rw [Function.update_of_ne (show n * 2 ≠ m * 2 + 1 by omega)]
  by_cases hn : n = m
  · rw [hn, Function.update_self, Function.update_self, Function.update_self]
  · rw [Function.update_of_ne (show n * 2 ≠ m * 2 by omega),
      Function.update_of_ne (show n * 2 + 1 ≠ m * 2 + 1 by omega),
      Function.update_of_ne (show n * 2 + 1 ≠ m * 2 by omega), Function.update_of_ne hn]

/-- a request whose status byte is not 0 is carried out -/
theorem complete_abs (h : Inv s g) (hp : s.thread p = .wait b i)
    (hsector : (s.ops i).sector = (s.buf b).blockno * 2) (hstatus : (s.info i).status ≠ 0)
    (ht : t = { transfer s (s.ops i) b with
      info := Function.update (transfer s (s.ops i) b).info i
        { (transfer s (s.ops i) b).info i with status := 0 }
      fetched := (transfer s (s.ops i) b).fetched.erase i
      used := (transfer s (s.ops i) b).used.push half num i }) :
    Disk.Step s.abs (.perform p) t.abs := by
  have hcall : s.abs.call p = some ⟨b, (s.ops i).out, false⟩ := by
    show s.call p = _
    rw [call_wait hp, decide_eq_false hstatus]
  cases hout : (s.ops i).out with
  | true =>
    have htr : transfer s (s.ops i) b = { s with
        sectors := Function.update (Function.update s.sectors (s.ops i).sector (s.buf b).data.1)
          ((s.ops i).sector + 1) (s.buf b).data.2 } := if_pos hout
    rw [htr, hsector] at ht
    have hdone := complete_call (t := t) h hp (by rw [ht]) (by rw [ht]) (by rw [ht])
    rw [hout] at hcall hdone
    have habs : t.abs = { s.abs with
        block := Function.update s.abs.block (s.abs.contents b).1 (s.abs.contents b).2
        call := Function.update s.abs.call p (some ⟨b, true, true⟩) } := by
      refine Disk.ext ?_ ?_ hdone
      · rw [ht]
        exact block_update
      · rw [ht]
        rfl
    rw [habs]
    exact Disk.Step.write hcall
  | false =>
    have htr : transfer s (s.ops i) b = { s with
        buf := Function.update s.buf b { s.buf b with
          data := (s.sectors (s.ops i).sector, s.sectors ((s.ops i).sector + 1)) } } := by
      unfold transfer
      rw [hout]
      rfl
    rw [htr, hsector] at ht
    have hdone := complete_call (t := t) h hp (by rw [ht]) (by rw [ht]) (by rw [ht])
    rw [hout] at hcall hdone
    have habs : t.abs = { s.abs with
        contents := Function.update s.abs.contents b
          ((s.abs.contents b).1, s.abs.block (s.abs.contents b).1)
        call := Function.update s.abs.call p (some ⟨b, false, true⟩) } := by
      refine Disk.ext ?_ (funext fun c => ?_) hdone
      · rw [ht]
        rfl
      · rw [ht]
        show ((Function.update s.buf b _ c).blockno, (Function.update s.buf b _ c).data) =
          Function.update (fun b => ((s.buf b).blockno, (s.buf b).data)) b _ c
        by_cases hc : c = b
        · rw [hc, Function.update_self, Function.update_self]
          rfl
        · rw [Function.update_of_ne hc, Function.update_of_ne hc]
    rw [habs]
    exact Disk.Step.read hcall

/-! ## steps and runs -/

/-- a step is done, and the callers see steps of the abstract disk -/
def Refines (s : State T B S) (a : Act T B S) (r : Except Stop (State T B S)) : Prop :=
  ∃ t g k, r = .ok t ∧ Inv t g ∧ Shows s a k ∧ Run Disk.Step s.abs k t.abs

theorem Refines.quiet {a : Act T B S} (hinv : Inv t g) (hshows : Shows s a [])
    (habs : t.abs = s.abs) : Refines s a (.ok t) :=
  ⟨t, g, [], rfl, hinv, hshows, by rw [habs]; exact .nil _⟩

theorem call_refines (h : Inv s g) (hp : s.thread p = .out) (hno : ∀ t, (s.thread t).buf ≠ some b)
    (hblock : (s.buf b).blockno * 2 < word) : Refines s (.call p b write) (enter s p b write) := by
  obtain ⟨t, g', ht, hinv, hshape⟩ := enter_inv write h
    (fun c i e => by cases hp.symm.trans e) (fun t _ => hno t) hblock
  refine ⟨t, g', _, ht, hinv, .call, .single ?_⟩
  rw [enter_abs h hshape]
  refine Disk.Step.call ?_
  show s.call p = none
  unfold State.call
  rw [hp]

theorem retry_refines (h : Inv s g) (hp : s.thread p = .alloc b write) :
    Refines s (.wake p) (enter s p b write) := by
  have hbuf : (s.thread p).buf = some b := by
    rw [hp]
    rfl
  obtain ⟨t, g', ht, hinv, hshape⟩ := enter_inv write h
    (fun c i e => by cases hp.symm.trans e) (fun t hne e => hne (h.alone t p b e hbuf))
    (h.block p b hbuf)
  rw [ht]
  refine Refines.quiet hinv (.wake fun c i e => ?_) ?_
  · cases hp.symm.trans e
  · have hcall : s.call p = some ⟨b, write, false⟩ := by
      unfold State.call
      rw [hp]
    rw [enter_abs h hshape, ← hcall, Function.update_eq_self]
    rfl

theorem finish_refines (h : Inv s g) (hp : s.thread p = .wait b i)
    (hdisk : (s.buf b).disk = false) :
    Refines s (.wake p) (finish s p i) := by
  obtain ⟨j, k, hown, ht⟩ := finish_ok h hp
  refine ⟨_, _, _, ht, finish_inv h hp hdisk hown, .ret hp hdisk, .single ?_⟩
  rw [finish_abs]
  refine Disk.Step.ret (show s.call p = some ⟨b, (s.ops i).out, true⟩ from ?_)
  rw [call_wait hp, decide_eq_true ((h.status p b i hp).mpr (.inr hdisk))]

theorem intr_refines (h : Inv s g) (hne : s.used.nread ≠ s.used.nwrite) :
    Refines s .intr (intr s) := by
  obtain ⟨t, b, i, U, ht, hU, hok⟩ := intr_ok h hne
  rw [hok]
  refine Refines.quiet (intr_inv h ht hU) .intr (Disk.ext rfl (funext fun c => ?_) rfl)
  show ((Function.update s.buf b _ c).blockno, (Function.update s.buf b _ c).data) = _
  by_cases hc : c = b
  · rw [hc, Function.update_self]
    rfl
  · rw [Function.update_of_ne hc]
    rfl

theorem complete_refines (h : Inv s g) (hi : i ∈ s.fetched) :
    Refines s (.complete i) (complete s i) := by
  have hmem : i ∈ g.queue s := List.mem_append_left _ (List.mem_append_right _ hi)
  obtain ⟨p, b, hp, hdisk⟩ := (h.queue i).mp hmem
  obtain ⟨j, k, hc, -⟩ := h.waits p b i hp
  -- it is not in `used`, and the buffer is not done
  have hstatus : (s.info i).status ≠ 0 := by
    rw [Ne, h.status p b i hp]
    rintro (hu | hd)
    · exact (List.nodup_append.mp h.nodup).2.2 i (List.mem_append_right _ hi) i hu rfl
    · cases hd.symm.trans hdisk
  obtain ⟨F, D, htr, hF⟩ := transfer_fields s (s.ops i) b
  have hinv := complete_inv (D := D) h hi hF
  have hok : complete s i = .ok { transfer s (s.ops i) b with
      info := Function.update (transfer s (s.ops i) b).info i
        { (transfer s (s.ops i) b).info i with status := 0 }
      fetched := (transfer s (s.ops i) b).fetched.erase i
      used := (transfer s (s.ops i) b).used.push half num i } := by
    unfold complete
    rw [if_pos hi, hc.request]
  refine ⟨_, ⟨g.own, g.avail, g.used ++ [i]⟩, _, hok, ?_, .perform hp,
    .single (complete_abs h hp hc.sector hstatus rfl)⟩
  rw [htr]
  exact hinv

theorem step_refines {a : Act T B S} (h : Inv s g) (hp : Promised s a) :
    Refines s a (step s a) ∨ step s a = .error .undefined := by
  cases a with
  | call p b write =>
    unfold step
    dsimp only
    cases ht : s.thread p with
    | out => exact .inl (call_refines h ht hp.1 hp.2)
    | alloc c w => exact .inr rfl
    | wait c i => exact .inr rfl
  | wake p =>
    unfold step
    dsimp only
    cases ht : s.thread p with
    | out => exact .inr rfl
    | alloc b write => exact .inl (retry_refines h ht)
    | wait b i =>
      dsimp only
      cases hdisk : (s.buf b).disk with
      | true =>
        refine .inl (Refines.quiet h (.wake fun c m e => ?_) rfl)
        obtain ⟨rfl, -⟩ := Pc.wait.inj (ht.symm.trans e)
        exact hdisk
      | false => exact .inl (finish_refines h ht hdisk)
  | intr =>
    by_cases hne : s.used.nread = s.used.nwrite
    · exact .inr (if_pos hne)
    · exact .inl (intr_refines h hne)
  | fetch =>
    by_cases hne : s.avail.nread = s.avail.nwrite
    · exact .inr (if_pos hne)
    · obtain ⟨A, hinv⟩ := fetch_inv h hne
      refine .inl ?_
      show Refines s .fetch (fetch s)
      unfold fetch
      rw [if_neg hne]
      exact Refines.quiet hinv .fetch rfl
  | complete i =>
    by_cases hi : i ∈ s.fetched
    · exact .inl (complete_refines h hi)
    · exact .inr (if_neg hi)
  | store b n x =>
    refine .inl ⟨_, _, _, rfl, store_inv h hp, .store, .single ?_⟩
    have habs : State.abs { s with
        buf := Function.update s.buf b { s.buf b with blockno := n, data := x } } =
        { s.abs with contents := Function.update s.abs.contents b (n, x) } := by
      refine Disk.ext rfl (funext fun c => ?_) rfl
      show ((Function.update s.buf b _ c).blockno, (Function.update s.buf b _ c).data) =
        Function.update (fun b => ((s.buf b).blockno, (s.buf b).data)) b _ c
      by_cases hc : c = b
      · rw [hc, Function.update_self, Function.update_self]
      · rw [Function.update_of_ne hc, Function.update_of_ne hc]
    rw [habs]
    refine Disk.Step.store (fun t c hcall e => hp t ?_)
    have hcall' : s.call t = some c := hcall
    unfold State.call at hcall'
    cases ht : s.thread t with
    | out =>
      rw [ht] at hcall'
      cases hcall'
    | alloc d w =>
      rw [ht] at hcall'
      obtain rfl := Option.some.inj hcall'
      exact congrArg some e
    | wait d i =>
      rw [ht] at hcall'
      obtain rfl := Option.some.inj hcall'
      exact congrArg some e

theorem run_refines {buf : B → Buf S} {D : Nat → S} {l : List (Act T B S)}
    (h : Run (guarded Promised Step) (start buf D) l s) :
    (∃ g, Inv s g) ∧ ∃ k, Run Disk.Step (start buf D : State T B S).abs k s.abs := by
  refine h.invariant (I := fun s => (∃ g, Inv s g) ∧
    ∃ k, Run Disk.Step (start buf D : State T B S).abs k s.abs) ?_
    ⟨⟨_, start_inv buf D⟩, [], .nil _⟩
  rintro s a t ⟨⟨g, hg⟩, k, hk⟩ ht
  obtain ⟨u, g', k', hu, hinv, -, hrun⟩ | herr := step_refines hg ht.1
  · obtain rfl := Except.ok.inj (hu.symm.trans ht.2)
    exact ⟨⟨g', hinv⟩, k ++ k', hk.append hrun⟩
  · cases herr.symm.trans ht.2

/-- every run of the driver with its device is a run of a disk that carries out each call at once,
and once between the call and its return -/
theorem driver_refines_disk {buf : B → Buf S} {D : Nat → S} {l : List (Act T B S)}
    (h : Run (guarded Promised Step) (start buf D) l s) :
    (∃ k, Run Disk.Step (start buf D : State T B S).abs k s.abs) ∧
      ∀ a t, Promised s a → step s a = .ok t → ∃ k, Shows s a k ∧ Run Disk.Step s.abs k t.abs := by
  obtain ⟨⟨g, hg⟩, hrun⟩ := run_refines h
  refine ⟨hrun, fun a t hp ht => ?_⟩
  obtain ⟨u, -, k, hu, -, hshows, hk⟩ | herr := step_refines hg hp
  · obtain rfl := Except.ok.inj (hu.symm.trans ht)
    exact ⟨k, hshows, hk⟩
  · cases herr.symm.trans ht

/-- a process reads block 5 -/
theorem driver_refines_disk_read : ∃ s : State Unit Unit Nat,
    (s.buf ()).data = (110, 111) ∧ s.thread () = .out ∧
      ∃ k, Run Disk.Step (start (fun _ => ⟨5, false, 0, 0⟩) (fun n => n + 100) :
        State Unit Unit Nat).abs k s.abs :=
  have hrun : ∃ s : State Unit Unit Nat, Run (guarded Promised Step)
      (start (fun _ => ⟨5, false, 0, 0⟩) (fun n => n + 100))
      [.call () () false, .fetch, .complete 0, .intr, .wake ()] s ∧
      (s.buf ()).data = (110, 111) ∧ s.thread () = .out :=
    ⟨_, .cons ⟨⟨fun _ => Option.some_ne_none () |>.symm, by decide⟩, rfl⟩ (.cons ⟨trivial, rfl⟩
      (.cons ⟨trivial, rfl⟩ (.cons ⟨trivial, rfl⟩ (.cons ⟨trivial, rfl⟩ (.nil _))))), rfl, rfl⟩
  have ⟨s, hs, hdata, hout⟩ := hrun
  ⟨s, hdata, hout, (driver_refines_disk hs).1⟩

end

end Virtio
