import Mathlib.Data.BitVec
import Xv6.Proc.Model
import Xv6.Vm.Proc

/-!
# The trace of results (`STRACE_RETURN`)

The calls of `kernel/sysproc.c` that print their result, and the part of `syscall` that stores it.
What a call reads from the kernel is an argument: `k i` is the kernel when the call has slept `i`
times, with everything that other processes did until then.  Nobody but `syscall` writes the
trapframe of a process that is in a call.  The lines that are printed on entry are left out.
-/

namespace Strace
open Proc (nproc)

/-! ## the model -/

/-- the calls with `STRACE_RETURN` -/
inductive Call where
  | getpid
  | fork
  | wait
  | sbrk
  | sleep
  | kill
  | uptime
  | shutdown
  | reboot
  | unixtime
  | wait2
  deriving DecidableEq

/-- `SYS_getpid` and so on -/
def Call.num : Call → Nat
  | .fork => 1
  | .wait => 3
  | .kill => 6
  | .getpid => 11
  | .sbrk => 12
  | .sleep => 13
  | .uptime => 14
  | .reboot => 22
  | .shutdown => 23
  | .unixtime => 24
  | .wait2 => 26

/-- of `struct trapframe`, the arguments that these calls take -/
structure Frame where
  a0 : BitVec 64
  a1 : BitVec 64

/-- the table of processes, the memory, `ticks`, the register of the clock, whether there are pages
for a child of the caller, and whether its `copyout` reaches an `int` at an address -/
structure Kernel where
  table : Proc.State
  mem : Vm.Sys
  ticks : BitVec 32
  clock : BitVec 64
  pages : Bool
  reach : BitVec 64 → Bool

/-- a line of the trace: `[pid] [syscall #num] return: ret` -/
structure Line where
  pid : Nat
  num : Nat
  ret : Int
  deriving DecidableEq

def argint (x : BitVec 64) : BitVec 32 := x.setWidth 32

/-- an `int` in a `uint64` -/
def ofInt (v : Int) : BitVec 64 := (BitVec.ofInt 32 v).signExtend 64

/-- `STRACE_RETURN(c); return r;`.  The macro prints the saved `a0` with `%d` -/
def leave (k : Kernel) (p : Fin nproc) (f : Frame) (c : Call) (r : BitVec 64) :
    Option (List Line × BitVec 64) :=
  some (if (k.table.slot p).strace then
    [⟨(k.table.slot p).pid, c.num, (f.a0.setWidth 32).toInt⟩] else [], r)

/-- a pointer that `wait2` is given -/
def Kernel.pointer (k : Kernel) (a : BitVec 64) : Option Bool :=
  if a = 0 then none else some (k.reach a)

section
variable (kend : Nat) (k : Nat → Kernel) (p : Fin nproc) (f : Frame) (i : Nat)

def sysGetpid : Option (List Line × BitVec 64) :=
  leave (k i) p f .getpid (ofInt ((k 0).table.slot p).pid)

def sysFork : Option (List Line × BitVec 64) :=
  let s := Proc.fork (k 0).table p (k 0).pages
  match s.pc p with
  | .fork np => leave (k i) p f .fork (ofInt (s.slot np).pid)
  | .ret v => leave (k i) p f .fork (ofInt v)
  | _ => none

def sysWait : Option (List Line × BitVec 64) :=
  match (Proc.wait2 (k i).table p ((k i).pointer f.a0) none).pc p with
  | .ret v => leave (k i) p f .wait (ofInt v)
  | _ => none

def sysSbrk : Option (List Line × BitVec 64) :=
  match Vm.growproc kend (k 0).mem p (argint f.a0).toInt with
  | none => none
  | some (_, false) => leave (k i) p f .sbrk (-1)
  | some (_, true) => leave (k i) p f .sbrk (BitVec.ofNat 64 ((k 0).mem.proc p).sz)

/-- `ticks - ticks0` is a `uint`, and `n` is compared as one -/
def sysSleep : Option (List Line × BitVec 64) :=
  if (k i).ticks - (k 0).ticks < argint f.a0 then
    if ((k i).table.slot p).killed then leave (k i) p f .sleep (-1) else none
  else leave (k i) p f .sleep 0

def sysKill : Option (List Line × BitVec 64) :=
  leave (k i) p f .kill (ofInt (Proc.kill (k 0).table (argint f.a0).toInt).2)

def sysUptime : Option (List Line × BitVec 64) :=
  leave (k i) p f .uptime ((k 0).ticks.setWidth 64)

def sysShutdown : Option (List Line × BitVec 64) := leave (k i) p f .shutdown 0

def sysReboot : Option (List Line × BitVec 64) := leave (k i) p f .reboot 0

def sysUnixtime : Option (List Line × BitVec 64) := leave (k i) p f .unixtime (k 0).clock

def sysWait2 : Option (List Line × BitVec 64) :=
  match (Proc.wait2 (k i).table p ((k i).pointer f.a0) ((k i).pointer f.a1)).pc p with
  | .ret v => leave (k i) p f .wait2 (ofInt v)
  | _ => none

def syscalls : Call → Option (List Line × BitVec 64)
  | .getpid => sysGetpid k p f i
  | .fork => sysFork k p f i
  | .wait => sysWait k p f i
  | .sbrk => sysSbrk kend k p f i
  | .sleep => sysSleep k p f i
  | .kill => sysKill k p f i
  | .uptime => sysUptime k p f i
  | .shutdown => sysShutdown k p f i
  | .reboot => sysReboot k p f i
  | .unixtime => sysUnixtime k p f i
  | .wait2 => sysWait2 k p f i

/-- `p->trapframe->a0 = syscalls[num]()` -/
def syscall (c : Call) : Option (List Line × Frame) :=
  (syscalls kend k p f i c).map (fun r => (r.1, { f with a0 := r.2 }))

/-! ## what has to be in `a0` -/

/-- for a `wait2` that ends with this scan, `x` is the pid of the zombie, or -1 where there is none
or where its status cannot be stored -/
def WaitMeets (s : Proc.State) (addr res : Option Bool) (x : BitVec 32) : Prop :=
  match s.findZombie p with
  | some q =>
    if addr = some false ∨ res = some false then x = -1 else x = BitVec.ofNat 32 (s.slot q).pid
  | none => x = -1

/-- `uvmalloc` finds no pages for `n` more bytes -/
def NoPages (s : Vm.Sys) (n : Int) : Prop :=
  ∃ pt m, (s.proc p).pagetable = some pt ∧
    Vm.uvmalloc kend ⟨s.free, pt⟩ (s.proc p).sz ((((s.proc p).sz : Int) + n) % 2 ^ 64).toNat
      true false = some (m, 0)

/-- the old value of `a0` happens to be what the call will find -/
def Meets : Call → Prop
  | .getpid => argint f.a0 = BitVec.ofNat 32 ((k 0).table.slot p).pid
  | .fork =>
    if (k 0).table.firstUnused.isSome ∧ (k 0).pages then
      argint f.a0 = BitVec.ofNat 32 (k 0).table.nextpid
    else argint f.a0 = -1
  | .wait => WaitMeets p (k i).table ((k i).pointer f.a0) none (argint f.a0)
  | .sbrk =>
    (argint f.a0).signExtend 64 = BitVec.ofNat 64 ((k 0).mem.proc p).sz ∧
    -- where more memory is asked for, it is there
    (0 < (argint f.a0).toInt → ¬ NoPages kend p (k 0).mem (argint f.a0).toInt)
  | .sleep =>
    argint f.a0 = 0 ∨
    (argint f.a0 = -1 ∧ ((k i).table.slot p).killed = true ∧ (k i).ticks - (k 0).ticks ≠ -1)
  | .kill => argint f.a0 = -1 ∨ (argint f.a0 = 0 ∧ ∃ q, ((k 0).table.slot q).pid = 0)
  | .uptime => argint f.a0 = (k 0).ticks ∧ (k 0).ticks.toNat < 2 ^ 31
  | .shutdown => argint f.a0 = 0
  | .reboot => argint f.a0 = 0
  | .unixtime => (argint f.a0).signExtend 64 = (k 0).clock
  | .wait2 =>
    WaitMeets p (k i).table ((k i).pointer f.a0) ((k i).pointer f.a1) (argint f.a0)

end

/-! ## numbers -/

section
variable {x y : BitVec 32} {r : BitVec 64}

theorem toInt_extend : (x.signExtend 64).toInt = x.toInt :=
  BitVec.toInt_signExtend_of_le (by decide)

theorem printed_iff : x.toInt = r.toInt ↔ x.signExtend 64 = r := by
  rw [← toInt_extend, BitVec.toInt_inj]

theorem extend_inj : x.signExtend 64 = y.signExtend 64 ↔ x = y := by
  rw [← BitVec.toInt_inj, toInt_extend, toInt_extend, BitVec.toInt_inj]

theorem extend_eq_ofInt (v : Int) : x.signExtend 64 = ofInt v ↔ x = BitVec.ofInt 32 v := extend_inj

theorem extend_eq_neg_one : x.signExtend 64 = -1 ↔ x = -1 := by
  have h : (-1 : BitVec 64) = (-1 : BitVec 32).signExtend 64 := by decide
  rw [h, extend_inj]

theorem extend_eq_zero : x.signExtend 64 = 0 ↔ x = 0 := by
  have h : (0 : BitVec 64) = (0 : BitVec 32).signExtend 64 := by decide
  rw [h, extend_inj]

/-- an `int` is the zero extension of a `uint` only where neither is negative -/
theorem extend_eq_setWidth : x.signExtend 64 = y.setWidth 64 ↔ x = y ∧ y.toNat < 2 ^ 31 := by
  have hy := y.isLt
  have hz : (y.setWidth 64).toInt = y.toNat := by
    rw [BitVec.toInt_eq_toNat_cond, BitVec.toNat_setWidth, Nat.mod_eq_of_lt (by omega)]
    omega
  rw [← BitVec.toInt_inj, toInt_extend, hz, BitVec.toInt_eq_toNat_cond]
  have hx := x.isLt
  rw [← BitVec.toNat_inj]
  split
  · omega
  · omega

end

/-! ## one call -/

section
variable {kend : Nat} {k : Nat → Kernel} {p : Fin nproc} {f f' : Frame} {i : Nat} {c : Call}
  {out : List Line} {r : BitVec 64}

/-- behind `STRACE_RETURN` the line is right exactly when `a0` already had the result -/
theorem leave_iff (ht : ((k i).table.slot p).strace = true)
    (h : (leave (k i) p f c r).map (fun r => (r.1, { f with a0 := r.2 })) = some (out, f')) :
    out = [⟨((k i).table.slot p).pid, c.num, f'.a0.toInt⟩] ↔ (argint f.a0).signExtend 64 = r := by
  unfold leave at h
  rw [if_pos ht] at h
  obtain ⟨rfl, rfl⟩ := Prod.mk.inj (Option.some.inj h)
  rw [← printed_iff]
  simp [argint]

theorem fork_return_iff (ht : ((k i).table.slot p).strace = true)
    (h : syscall kend k p f i .fork = some (out, f')) :
    out = [⟨((k i).table.slot p).pid, Call.fork.num, f'.a0.toInt⟩] ↔ Meets kend k p f i .fork := by
  unfold syscall syscalls sysFork Proc.fork at h
  unfold Meets
  dsimp only at h ⊢
  cases hu : (k 0).table.firstUnused with
  | none =>
    rw [hu] at h
    simp only [Proc.State.goto, Function.update_self] at h
    rw [leave_iff ht h, extend_eq_ofInt]
    simp
  | some np =>
    rw [hu] at h
    dsimp only at h
    cases hm : (k 0).pages with
    | false =>
      rw [hm] at h
      simp only [Proc.State.goto, Function.update_self, Bool.false_eq_true, if_false] at h
      rw [leave_iff ht h, extend_eq_ofInt]
      simp
    | true =>
      rw [hm] at h
      simp only [Proc.State.goto, Proc.State.allocproc, Function.update_self, if_true] at h
      rw [leave_iff ht h, extend_eq_ofInt]
      simp

theorem wait2_iff {s : Proc.State} {addr res : Option Bool} {v : Int}
    (h : (Proc.wait2 s p addr res).pc p = .ret v) (x : BitVec 32) :
    x = BitVec.ofInt 32 v ↔ WaitMeets p s addr res x := by
  unfold Proc.wait2 at h
  unfold WaitMeets
  cases hz : s.findZombie p with
  | some q =>
    rw [hz] at h
    dsimp only at h ⊢
    split at h
    · rename_i hbad
      simp only [Proc.State.goto, Function.update_self, Proc.Pc.ret.injEq] at h
      rw [if_pos hbad, ← h]
      exact Iff.rfl
    · rename_i hgood
      simp only [Proc.State.goto, Function.update_self, Proc.Pc.ret.injEq] at h
      rw [if_neg hgood, ← h, BitVec.ofInt_natCast]
  | none =>
    rw [hz] at h
    dsimp only at h ⊢
    split at h
    · simp only [Proc.State.goto, Function.update_self, Proc.Pc.ret.injEq] at h
      rw [← h]
      exact Iff.rfl
    · simp only [Proc.State.goto, Function.update_self] at h
      exact absurd h nofun

theorem growproc_fails_iff {s s' : Vm.Sys} {n : Int} {b : Bool}
    (h : Vm.growproc kend s p n = some (s', b)) : b = false ↔ 0 < n ∧ NoPages kend p s n := by
  unfold Vm.growproc at h
  unfold NoPages
  cases hpt : (s.proc p).pagetable with
  | none =>
    rw [hpt] at h
    exact absurd h nofun
  | some pt =>
    rw [hpt] at h
    dsimp only at h
    by_cases hpos : 0 < n
    · rw [if_pos hpos] at h
      split at h
      · exact absurd h nofun
      · rename_i m hu
        obtain ⟨-, rfl⟩ := Prod.mk.inj (Option.some.inj h)
        exact ⟨fun _ => ⟨hpos, pt, m, rfl, hu⟩, fun _ => rfl⟩
      · rename_i m sz hsz hu
        obtain ⟨-, rfl⟩ := Prod.mk.inj (Option.some.inj h)
        refine ⟨nofun, ?_⟩
        rintro ⟨-, pt', m', hpt', hu'⟩
        obtain rfl := Option.some.inj hpt'
        rw [hu] at hu'
        exact absurd (Prod.mk.inj (Option.some.inj hu')).2 hsz
    · have hb : b = true := by
        rw [if_neg hpos] at h
        split at h
        · split at h
          · exact absurd h nofun
          · exact (Prod.mk.inj (Option.some.inj h)).2.symm
        · exact (Prod.mk.inj (Option.some.inj h)).2.symm
      rw [hb]
      exact ⟨nofun, fun hn => absurd hn.1 hpos⟩

/-- `sbrk` returns the old size, which is what it was given only where the size doubles -/
theorem sbrk_return_iff (ht : ((k i).table.slot p).strace = true)
    (h : syscall kend k p f i .sbrk = some (out, f')) :
    out = [⟨((k i).table.slot p).pid, Call.sbrk.num, f'.a0.toInt⟩] ↔ Meets kend k p f i .sbrk := by
  unfold syscall syscalls sysSbrk at h
  unfold Meets
  dsimp only at h ⊢
  cases hg : Vm.growproc kend (k 0).mem p (argint f.a0).toInt with
  | none =>
    rw [hg] at h
    exact absurd h nofun
  | some sb =>
    obtain ⟨s', b⟩ := sb
    have hfail := growproc_fails_iff hg
    rw [hg] at h
    cases b with
    | false =>
      obtain ⟨hpos, hno⟩ := hfail.mp rfl
      dsimp only at h
      rw [leave_iff ht h, extend_eq_neg_one]
      constructor
      · intro hx
        rw [hx] at hpos
        exact absurd hpos (by decide)
      · rintro ⟨-, hroom⟩
        exact absurd hno (hroom hpos)
    | true =>
      dsimp only at h
      rw [leave_iff ht h]
      exact ⟨fun hx => ⟨hx, fun hpos hno => nomatch hfail.mpr ⟨hpos, hno⟩⟩, And.left⟩

theorem sleep_return_iff (ht : ((k i).table.slot p).strace = true)
    (h : syscall kend k p f i .sleep = some (out, f')) :
    out = [⟨((k i).table.slot p).pid, Call.sleep.num, f'.a0.toInt⟩] ↔
      Meets kend k p f i .sleep := by
  unfold syscall syscalls sysSleep at h
  unfold Meets
  dsimp only at h ⊢
  by_cases hlt : (k i).ticks - (k 0).ticks < argint f.a0
  · rw [if_pos hlt] at h
    cases hk : ((k i).table.slot p).killed with
    | false =>
      rw [hk] at h
      exact absurd h nofun
    | true =>
      rw [hk, if_pos rfl] at h
      rw [leave_iff ht h, extend_eq_neg_one]
      constructor
      · intro hx
        refine Or.inr ⟨hx, rfl, fun hd => ?_⟩
        rw [hx, hd] at hlt
        exact absurd hlt (by decide)
      · rintro (hx | hx)
        · rw [hx] at hlt
          exact absurd hlt BitVec.not_lt_zero
        · exact hx.1
  · rw [if_neg hlt] at h
    rw [leave_iff ht h, extend_eq_zero]
    refine ⟨Or.inl, ?_⟩
    rintro (hx | ⟨hx, -, hd⟩)
    · exact hx
    · rw [hx, BitVec.lt_def] at hlt
      refine absurd (BitVec.eq_of_toNat_eq ?_) hd
      have hmax := ((k i).ticks - (k 0).ticks).isLt
      have hm : (-1 : BitVec 32).toNat = 2 ^ 32 - 1 := by decide
      rw [hm] at hlt ⊢
      omega

theorem kill_result (s : Proc.State) (pid : Int) :
    (Proc.kill s pid).2 = if ∃ q, ((s.slot q).pid : Int) = pid then 0 else -1 := by
  unfold Proc.kill
  cases hq : Fin.find? (fun q => ((s.slot q).pid : Int) = pid) with
  | none =>
    rw [if_neg]
    rintro ⟨q, h⟩
    exact absurd h (of_decide_eq_false (Fin.eq_false_of_find?_eq_none hq q))
  | some q => rw [if_pos ⟨q, of_decide_eq_true (Fin.eq_true_of_find?_eq_some hq)⟩]

theorem kill_return_iff (ht : ((k i).table.slot p).strace = true)
    (h : syscall kend k p f i .kill = some (out, f')) :
    out = [⟨((k i).table.slot p).pid, Call.kill.num, f'.a0.toInt⟩] ↔
      Meets kend k p f i .kill := by
  unfold syscall syscalls sysKill at h
  unfold Meets
  dsimp only at h ⊢
  rw [leave_iff ht h, extend_eq_ofInt, kill_result]
  by_cases hq : ∃ q, (((k 0).table.slot q).pid : Int) = (argint f.a0).toInt
  · rw [if_pos hq]
    obtain ⟨q, hq⟩ := hq
    constructor
    · intro hx
      rw [hx] at hq
      exact Or.inr ⟨hx, q, Int.ofNat_eq_zero.mp hq⟩
    · rintro (hx | hx)
      · rw [hx] at hq
        -- no pid is negative
        have hm : (-1 : BitVec 32).toInt = -1 := by decide
        omega
      · exact hx.1
  · rw [if_neg hq]
    refine ⟨Or.inl, ?_⟩
    rintro (hx | ⟨hx, q, hz⟩)
    · exact hx
    · refine absurd ⟨q, ?_⟩ hq
      rw [hx, hz]
      rfl

end

/-- for a traced process and every call with `STRACE_RETURN`, on every path: the one line that is
printed has the result that the process gets exactly when `a0` held that value before -/
theorem strace_return_iff (kend : Nat) (k : Nat → Kernel) (p : Fin nproc) (f f' : Frame) (i : Nat)
    (c : Call) (out : List Line) (ht : ((k i).table.slot p).strace = true)
    (h : syscall kend k p f i c = some (out, f')) :
    out = [⟨((k i).table.slot p).pid, c.num, f'.a0.toInt⟩] ↔ Meets kend k p f i c := by
  cases c with
  | getpid =>
    rw [leave_iff ht h, extend_eq_ofInt, BitVec.ofInt_natCast]
    exact Iff.rfl
  | fork => exact fork_return_iff ht h
  | wait =>
    unfold syscall syscalls sysWait at h
    dsimp only at h
    split at h
    · rename_i v hv
      rw [leave_iff ht h, extend_eq_ofInt]
      exact wait2_iff hv _
    · exact absurd h nofun
  | sbrk => exact sbrk_return_iff ht h
  | sleep => exact sleep_return_iff ht h
  | kill => exact kill_return_iff ht h
  | uptime =>
    rw [leave_iff ht h]
    exact extend_eq_setWidth
  | shutdown =>
    rw [leave_iff ht h]
    exact extend_eq_zero
  | reboot =>
    rw [leave_iff ht h]
    exact extend_eq_zero
  | unixtime =>
    rw [leave_iff ht h]
    exact Iff.rfl
  | wait2 =>
    unfold syscall syscalls sysWait2 at h
    dsimp only at h
    split at h
    · rename_i v hv
      rw [leave_iff ht h, extend_eq_ofInt]
      exact wait2_iff hv _
    · exact absurd h nofun

def traced : Kernel where
  table := Proc.start.setSlot Proc.initproc
    { Proc.start.slot Proc.initproc with strace := true }
  mem := ⟨[], fun _ => ⟨.unused, none, 0, none, none⟩⟩
  ticks := 0
  clock := 0
  pages := true
  reach := fun _ => true

/-- `sleep(0)` returns 0, and its line says so -/
theorem strace_return_sleep : ∃ out f', syscall 0 (fun _ => traced) Proc.initproc ⟨0, 0⟩ 0 .sleep =
      some (out, f') ∧ out = [⟨1, 13, f'.a0.toInt⟩] :=
  ⟨_, _, rfl, (strace_return_iff 0 (fun _ => traced) Proc.initproc ⟨0, 0⟩ _ 0 .sleep _ rfl rfl).mpr
    (Or.inl rfl)⟩

/-- `getpid()` with 0 in `a0` returns 1 and prints 0 -/
theorem strace_return_getpid : ∃ out f', syscall 0 (fun _ => traced) Proc.initproc ⟨0, 0⟩ 0 .getpid =
      some (out, f') ∧ ¬ (out = [⟨1, 11, f'.a0.toInt⟩]) ∧ out = [⟨1, 11, 0⟩] ∧ f'.a0 = 1 :=
  ⟨_, _, rfl, by decide, rfl, rfl⟩

end Strace
