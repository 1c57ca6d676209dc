import Mathlib.Data.Fintype.Card
import Mathlib.Tactic.Abel
import Xv6.Vm.Load

/-!
# Who owns a page

The free list and what the processes own are together a fixed collection of pages, and every
process that there is has the pages of its size.  `fork`, `sbrk`, `wait` and `exit` keep that.
-/

namespace Vm
open Lib

/-- the pages of a process: page-table pages, user pages and the trapframe -/
def Proc.own (x : Proc) : Multiset Nat :=
  (match x.pagetable with
    | none => 0
    | some t => t.tables + t.leaves) + single x.trapframe

/-- a page table has the pages of `[0, PGROUNDUP(sz))`, the trapframe and the trampoline -/
structure Proc.Mapped (trampoline : Nat) (x : Proc) (t : PageTable) (tf : Nat) : Prop where
  pagetable : x.pagetable = some t
  trapframe : x.trapframe = some tf
  ok : t.Ok
  upto : t.Upto (pages x.sz)
  tops : t.Tops trampoline tf

structure Proc.Good (trampoline : Nat) (x : Proc) : Prop where
  unused : x.state = .unused → x.sz = 0 ∧ x.pagetable = none ∧ x.trapframe = none
  used : x.state ≠ .unused → ∃ t tf, x.Mapped trampoline t tf

structure Inv (trampoline : Nat) (A : Multiset Nat) (s : Sys) : Prop where
  total : (s.free : Multiset Nat) + ∑ p, (s.proc p).own = A
  good : ∀ p, (s.proc p).Good trampoline

/-- no page is taken, and no process has come or gone -/
structure Restored (s s' : Sys) : Prop where
  free : (s'.free : Multiset Nat) = s.free
  state : ∀ q, (s'.proc q).state = (s.proc q).state

/-- a process that is not there -/
def Proc.absent (parent : Option (Fin nproc)) : Proc := ⟨.unused, parent, 0, none, none⟩

section
variable {kend trampoline tf n newsz : Nat} {A R T : Multiset Nat} {s s' : Sys} {p q np : Fin nproc}
  {t : PageTable} {x : Proc} {m m' : Mem} {free : List Nat}

theorem Proc.own_none (h1 : x.pagetable = none) (h2 : x.trapframe = none) : x.own = 0 := by
  unfold Proc.own
  rw [h1, h2]
  exact add_zero _

theorem Proc.own_absent (parent : Option (Fin nproc)) : (Proc.absent parent).own = 0 :=
  Proc.own_none rfl rfl

theorem Proc.Mapped.own (h : x.Mapped trampoline t tf) :
    x.own = t.tables + t.leaves + {tf} := by
  unfold Proc.own
  rw [h.pagetable, h.trapframe]
  rfl

theorem Proc.Mapped.good (h : x.Mapped trampoline t tf) (hx : x.state ≠ .unused) :
    x.Good trampoline := ⟨fun e => absurd e hx, fun _ => ⟨t, tf, h⟩⟩

theorem Proc.Good.absent (parent : Option (Fin nproc)) :
    (Proc.absent parent).Good trampoline := ⟨fun _ => ⟨rfl, rfl, rfl⟩, fun h => absurd rfl h⟩

theorem Proc.Mapped.complete (h : x.Mapped trampoline t tf) (free : List Nat) :
    Complete (free + t.tables + t.leaves) trampoline tf (pages x.sz) ⟨free, t⟩ :=
  ⟨⟨h.ok, rfl⟩, h.upto, h.tops⟩

/-- another process `p`, and another free list -/
def Sys.put (s : Sys) (p : Fin nproc) (x : Proc) (free : List Nat) : Sys :=
  ⟨free, Function.update s.proc p x⟩

@[simp] theorem put_self : (s.put p x free).proc p = x := Function.update_self ..

theorem put_of_ne (h : q ≠ p) : (s.put p x free).proc q = s.proc q := Function.update_of_ne h _ _

theorem put_state : ((s.put p x free).proc q).state = if q = p then x.state else (s.proc q).state := by
  by_cases h : q = p
  · rw [if_pos h, h, put_self]
  · rw [if_neg h, put_of_ne h]

@[simp] theorem put_free : (s.put p x free).free = free := rfl

@[simp] theorem put_put {y : Proc} {free' : List Nat} :
    (s.put p x free).put p y free' = s.put p y free' := by
  unfold Sys.put
  rw [Function.update_idem]

theorem Inv.split (h : Inv trampoline A s) (p : Fin nproc) : ∃ R,
    s.free + (s.proc p).own + R = A ∧ ∀ (free : List Nat) (x : Proc), x.Good trampoline →
      free + x.own + R = A → Inv trampoline A (s.put p x free) := by
  have hsum : ∀ u : Sys, (u.proc p).own + ∑ q ∈ Finset.univ.erase p, (u.proc q).own =
      ∑ q, (u.proc q).own :=
    fun u => Finset.add_sum_erase _ (fun q => (u.proc q).own) (Finset.mem_univ p)
  refine ⟨∑ q ∈ Finset.univ.erase p, (s.proc q).own, ?_, fun free x hx e => ⟨?_, fun q => ?_⟩⟩
  · rw [add_assoc, hsum]
    exact h.total
  · have hrest : ∀ q ∈ Finset.univ.erase p, ((s.put p x free).proc q).own = (s.proc q).own := by
      intro q hq
      rw [put_of_ne (Finset.ne_of_mem_erase hq)]
    rw [← e, put_free, add_assoc, ← hsum (s.put p x free), Finset.sum_congr rfl hrest, put_self]
  · by_cases e' : q = p
    · rw [e', put_self]
      exact hx
    · rw [put_of_ne e']
      exact h.good q

theorem Inv.setFree (h : Inv trampoline A s) (hfree : (free : Multiset Nat) = s.free) :
    Inv trampoline A { s with free := free } := by
  refine ⟨?_, h.good⟩
  show (free : Multiset Nat) + _ = A
  rw [hfree]
  exact h.total

theorem le_of_add {a b c : Multiset Nat} (h : a + b = c) : a ≤ c := by
  rw [← h]
  exact Multiset.le_add_right a b

/-! ## `freeproc` -/

theorem freeproc_spec (hx : (s.proc p).Mapped trampoline t tf)
    (hr : Ram kend (s.free + (s.proc p).own)) : ∃ free,
    freeproc kend s p = some (s.put p (Proc.absent none) free) ∧
      (free : Multiset Nat) = s.free + (s.proc p).own := by
  have htotal : ((tf :: s.free : List Nat) : Multiset Nat) + t.tables + t.leaves =
      s.free + (s.proc p).own := by
    rw [hx.own, ← Multiset.cons_coe, ← Multiset.singleton_add]
    abel
  have hc := hx.complete (tf :: s.free)
  rw [htotal] at hc
  have hmanaged : Managed kend tf := by
    refine hr.managed tf ?_
    rw [hx.own]
    exact Multiset.mem_add.mpr (Or.inr (Multiset.mem_add.mpr
      (Or.inr (Multiset.mem_singleton_self tf))))
  obtain ⟨free, he, hfree⟩ := procFreepagetable_spec hc hr
  refine ⟨free, ?_, hfree⟩
  unfold freeproc
  rw [hx.trapframe]
  dsimp only
  rw [kfree_eq hmanaged, Option.bind_some, hx.pagetable]
  dsimp only
  rw [he]
  rfl

theorem freeproc_bare (kend : Nat) (h1 : (s.proc p).pagetable = none)
    (h2 : ∀ tf, (s.proc p).trapframe = some tf → Managed kend tf) : ∃ free,
    freeproc kend s p = some (s.put p (Proc.absent none) free) ∧
      (free : Multiset Nat) = s.free + (s.proc p).own := by
  unfold freeproc Proc.own
  rw [h1]
  cases htf : (s.proc p).trapframe with
  | none => exact ⟨s.free, rfl, (add_zero _).symm⟩
  | some tf =>
    refine ⟨tf :: s.free, ?_, ?_⟩
    · dsimp only
      rw [kfree_eq (h2 tf htf)]
      rfl
    · rw [← Multiset.cons_coe, ← Multiset.singleton_add, add_comm]
      exact congrArg _ (zero_add _).symm

/-! ## `allocproc` -/

/-- where a process cannot be made, nothing changes -/
theorem Inv.giveUp (h : Inv trampoline A s) (hp : (s.proc p).state = .unused)
    (hfree : (free : Multiset Nat) = s.free) :
    Inv trampoline A (s.put p (Proc.absent none) free) := by
  obtain ⟨R, e, hset⟩ := h.split p
  obtain ⟨-, h1, h2⟩ := (h.good p).unused hp
  refine hset free _ (Proc.Good.absent none) ?_
  rw [hfree, ← e, Proc.own_none h1 h2, Proc.own_absent]

theorem Restored.giveUp (hp : (s.proc p).state = .unused) (hfree : (free : Multiset Nat) = s.free) :
    Restored s (s.put p (Proc.absent none) free) := by
  refine ⟨hfree, fun q => ?_⟩
  rw [put_state]
  by_cases e : q = p
  · rw [if_pos e, e, hp]
    rfl
  · rw [if_neg e]

theorem Inv.free_le (h : Inv trampoline A s) : (s.free : Multiset Nat) ≤ A := le_of_add h.total

theorem allocproc_spec (h : Inv trampoline A s) (hr : Ram kend A) : ∃ s' r,
    allocproc kend trampoline s = some (s', r) ∧
      (r = none ∧ Inv trampoline A s' ∧ Restored s s' ∨
      ∃ np t tf free T, r = some np ∧
        Fin.find? (fun q => decide ((s.proc q).state = .unused)) = some np ∧
        (s.proc np).state = .unused ∧
        s' = s.put np ⟨.used, (s.proc np).parent, 0, some t, some tf⟩ free ∧
        Complete T trampoline tf 0 ⟨free, t⟩ ∧ T + {tf} = s.free) := by
  unfold allocproc
  cases hfind : Fin.find? (fun q => decide ((s.proc q).state = .unused)) with
  | none => exact ⟨s, none, rfl, Or.inl ⟨rfl, h, rfl, fun _ => rfl⟩⟩
  | some p =>
    have hp : (s.proc p).state = .unused := of_decide_eq_true (Fin.find?_eq_some_iff.mp hfind).1
    obtain ⟨h0, h1, h2⟩ := (h.good p).unused hp
    -- a process that has no page table yet is given up
    have hbare : ∀ (free : List Nat) (tf : Option Nat), free + single tf = (s.free : Multiset Nat) →
        ∃ s', (freeproc kend (s.put p ⟨.used, (s.proc p).parent, 0, none, tf⟩ free) p).map
          (fun s => (s, (none : Option (Fin nproc)))) = some (s', none) ∧
            Inv trampoline A s' ∧ Restored s s' := by
      intro free tf hfree
      obtain ⟨free', he, hfree'⟩ := freeproc_bare
        (s := s.put p ⟨.used, (s.proc p).parent, 0, none, tf⟩ free) (p := p) kend
        (by rw [put_self]) (fun a ha => by
          rw [put_self] at ha
          refine hr.managed a (Multiset.mem_of_le h.free_le ?_)
          rw [← hfree, show tf = some a from ha]
          exact Multiset.mem_add.mpr (Or.inr (Multiset.mem_singleton_self a)))
      have hback : (free' : Multiset Nat) = s.free := by
        rw [hfree', ← hfree, put_self]
        exact congrArg _ (zero_add _)
      rw [he, put_put]
      exact ⟨_, rfl, h.giveUp hp hback, Restored.giveUp hp hback⟩
    unfold Sys.setProc
    simp only [Function.update_self, Function.update_idem, h0, h1, h2]
    cases hf : s.free with
    | nil =>
      obtain ⟨s', he, hs'⟩ := hbare [] none (by rw [hf]; rfl)
      exact ⟨s', none, he, Or.inl ⟨rfl, hs'⟩⟩
    | cons tf free =>
      have hcons : (free : Multiset Nat) + {tf} = s.free := by
        rw [hf, ← Multiset.cons_coe, ← Multiset.singleton_add, add_comm]
      obtain ⟨free', r, he, ⟨rfl, hfree⟩ | ⟨t, rfl, hc⟩⟩ :=
        procPagetable_spec (hr.mono (le_of_add hcons |>.trans h.free_le)) trampoline tf
      · obtain ⟨s', he', hs'⟩ := hbare free' (some tf) (by rw [hfree]; exact hcons)
        dsimp only [kalloc_cons]
        rw [he]
        exact ⟨s', none, he', Or.inl ⟨rfl, hs'⟩⟩
      · dsimp only [kalloc_cons]
        rw [he, ← hf]
        exact ⟨_, some p, rfl, Or.inr ⟨p, t, tf, free', free, rfl, rfl, hp, rfl, hc, hcons⟩⟩

/-! ## `growproc` -/

theorem Inv.ram_le (h : Inv trampoline A s) (hr : Ram kend A) (p : Fin nproc) :
    Ram kend (s.free + (s.proc p).own) := by
  obtain ⟨R, e, -⟩ := h.split p
  exact hr.mono (le_of_add e)

theorem Inv.resize (h : Inv trampoline A s) (hx : (s.proc p).Mapped trampoline t tf)
    (hp : (s.proc p).state ≠ .unused)
    (hc : Complete (s.free + t.tables + t.leaves) trampoline tf (pages n) m) :
    Inv trampoline A
      (s.put p { s.proc p with sz := n, pagetable := some m.pt } m.free) := by
  obtain ⟨R, e, hset⟩ := h.split p
  have hx' : Proc.Mapped trampoline { s.proc p with sz := n, pagetable := some m.pt } m.pt tf :=
    ⟨rfl, hx.trapframe, hc.space.ok, hc.upto, hc.tops⟩
  refine hset m.free _ (hx'.good hp) ?_
  rw [← e, hx.own, hx'.own, ← add_assoc, ← add_assoc, ← add_assoc, ← add_assoc, hc.space.total]

theorem growproc_spec (h : Inv trampoline A s) (hr : Ram kend A) (hp : (s.proc p).state ≠ .unused)
    (n : Int) : ∃ s' b, growproc kend s p n = some (s', b) ∧ Inv trampoline A s' := by
  obtain ⟨t, tf, hx⟩ := (h.good p).used hp
  have hc := hx.complete s.free
  have hr' : Ram kend (s.free + t.tables + t.leaves) := by
    refine (h.ram_le hr p).mono ?_
    rw [hx.own, ← add_assoc, ← add_assoc]
    exact Multiset.le_add_right _ _
  unfold growproc
  rw [hx.pagetable]
  dsimp only
  by_cases hpos : 0 < n
  · rw [if_pos hpos]
    obtain ⟨m, r, he, hres⟩ := uvmalloc_spec (w := true) (x := false) hc.space hr' hc.upto
      ((((s.proc p).sz : Int) + n) % 2 ^ 64).toNat
    rw [he]
    cases r with
    | zero =>
      refine ⟨_, false, rfl, ?_⟩
      rcases hres with ⟨hmax, hres⟩ | ⟨-, hres⟩
      · have hsz : (s.proc p).sz = 0 := by omega
        rw [← hsz] at hres
        exact h.resize hx hp (hres.complete hc)
      · exact h.resize hx hp (hres.complete hc)
    | succ r =>
      obtain ⟨-, hres⟩ | ⟨h0, -⟩ := hres
      · exact ⟨_, true, rfl, h.resize hx hp (hres.complete hc)⟩
      · exact absurd h0 (Nat.succ_ne_zero r)
  · rw [if_neg hpos]
    by_cases hneg : n < 0
    · rw [if_pos hneg]
      obtain ⟨m, he, hres⟩ := uvmdealloc_spec hc.space hr' hc.upto
        ((((s.proc p).sz : Int) + n) % 2 ^ 64).toNat
      rw [he]
      exact ⟨_, true, rfl, h.resize hx hp (hres.complete hc)⟩
    · rw [if_neg hneg]
      exact ⟨s, true, rfl, h⟩

/-! ## `fork` -/

theorem fork_spec (h : Inv trampoline A s) (hr : Ram kend A) (hp : (s.proc p).state ≠ .unused) :
    ∃ s' b, fork kend trampoline s p = some (s', b) ∧ Inv trampoline A s' ∧
      (b = false → Restored s s') ∧
      (b = true → ∃ np, Fin.find? (fun q => decide ((s.proc q).state = .unused)) = some np ∧
        ∀ q, (s'.proc q).state = if q = np then .live else (s.proc q).state) := by
  obtain ⟨told, tf', hx⟩ := (h.good p).used hp
  unfold fork
  obtain ⟨s1, r, he, ⟨rfl, h1, hres⟩ | ⟨np, t, tf, free, T, rfl, hfind, hnp, rfl, hc, hT⟩⟩ :=
    allocproc_spec h hr
  · rw [he]
    exact ⟨s1, false, rfl, h1, fun _ => hres, nofun⟩
  · have hne : p ≠ np := fun e => hp (e ▸ hnp)
    have hrT : Ram kend T := (hr.mono h.free_le).mono (le_of_add hT)
    have hsz : pages (s.proc p).sz ≤ 2 ^ 15 :=
      (hx.complete s.free).space.upto_le ((h.ram_le hr p).mono (by
        rw [hx.own, ← add_assoc, ← add_assoc]
        exact Multiset.le_add_right _ _)) hx.upto
    obtain ⟨m, b, hcopy, hcm⟩ := uvmcopy_spec hx.ok hx.upto hsz hc hrT
    obtain ⟨R, e, hset⟩ := h.split np
    obtain ⟨-, g1, g2⟩ := (h.good np).unused hnp
    rw [Proc.own_none g1 g2, add_zero, ← hT] at e
    rw [he]
    unfold Sys.setProc Sys.put
    simp only [Function.update_self, Function.update_of_ne hne, Function.update_idem, hx.pagetable,
      hcopy]
    cases b with
    | true =>
      have hx' : Proc.Mapped trampoline
          ⟨.live, some p, (s.proc p).sz, some m.pt, some tf⟩ m.pt tf :=
        ⟨rfl, rfl, hcm.space.ok, hcm.upto, hcm.tops⟩
      refine ⟨_, true, rfl, hset m.free _ (hx'.good nofun) ?_, nofun,
        fun _ => ⟨np, hfind, fun q => put_state⟩⟩
      rw [hx'.own, ← add_assoc, ← add_assoc, hcm.space.total]
      exact e
    | false =>
      have hu := hcm.upto
      rw [if_neg nofun, ← pages_zero] at hu
      have hx' : Proc.Mapped trampoline
          ((s.put np ⟨.used, (s.proc np).parent, 0, some m.pt, some tf⟩ m.free).proc np) m.pt tf := by
        rw [put_self]
        exact ⟨rfl, rfl, hcm.space.ok, hu, hcm.tops⟩
      have htotal : m.free + ((s.put np ⟨.used, (s.proc np).parent, 0, some m.pt, some tf⟩
          m.free).proc np).own = (s.free : Multiset Nat) := by
        rw [hx'.own, ← add_assoc, ← add_assoc, hcm.space.total]
        exact hT
      obtain ⟨free', hf, hfree⟩ := freeproc_spec hx'
        (show Ram kend _ by rw [put_free, htotal]; exact hr.mono h.free_le)
      rw [put_free, htotal] at hfree
      rw [put_put] at hf
      refine ⟨s.put np (Proc.absent none) free', false, ?_, h.giveUp hnp hfree,
        fun _ => Restored.giveUp hnp hfree, nofun⟩
      rw [if_neg nofun]
      exact congrArg (Option.map _) hf

/-! ## `exit`, `wait` -/

theorem Inv.congr (h : Inv trampoline A s) (hfree : s'.free = s.free)
    (hproc : ∀ q, (s'.proc q).state = (s.proc q).state ∧ (s'.proc q).sz = (s.proc q).sz ∧
      (s'.proc q).pagetable = (s.proc q).pagetable ∧
      (s'.proc q).trapframe = (s.proc q).trapframe) : Inv trampoline A s' := by
  refine ⟨?_, fun q => ?_⟩
  · have hown : ∀ q ∈ Finset.univ, (s'.proc q).own = (s.proc q).own := by
      intro q _
      obtain ⟨-, -, h3, h4⟩ := hproc q
      unfold Proc.own
      rw [h3, h4]
    rw [hfree, Finset.sum_congr rfl hown]
    exact h.total
  · obtain ⟨h1, h2, h3, h4⟩ := hproc q
    refine ⟨fun e => ?_, fun e => ?_⟩
    · rw [h2, h3, h4]
      exact (h.good q).unused (h1 ▸ e)
    · obtain ⟨t, tf, hx⟩ := (h.good q).used (h1 ▸ e)
      exact ⟨t, tf, h3.trans hx.pagetable, h4.trans hx.trapframe, hx.ok, by rw [h2]; exact hx.upto,
        hx.tops⟩

theorem Inv.exit (h : Inv trampoline A s) (hp : (s.proc p).state ≠ .unused)
    (he : exit s p = some s') : Inv trampoline A s' := by
  unfold Vm.exit at he
  by_cases hinit : p = initproc
  · rw [if_pos hinit] at he
    exact absurd he nofun
  · rw [if_neg hinit] at he
    obtain rfl := Option.some.inj he
    have hrep : ∀ q, ((reparent s p).proc q).state = (s.proc q).state ∧
        ((reparent s p).proc q).sz = (s.proc q).sz ∧
        ((reparent s p).proc q).pagetable = (s.proc q).pagetable ∧
        ((reparent s p).proc q).trapframe = (s.proc q).trapframe := by
      intro q
      unfold reparent
      dsimp only
      by_cases e : (s.proc q).parent = some p
      · rw [if_pos e]
        exact ⟨rfl, rfl, rfl, rfl⟩
      · rw [if_neg e]
        exact ⟨rfl, rfl, rfl, rfl⟩
    have h1 : Inv trampoline A (reparent s p) := h.congr rfl hrep
    have hp1 : ((reparent s p).proc p).state ≠ .unused := by
      rw [(hrep p).1]
      exact hp
    obtain ⟨t, tf, hx⟩ := (h1.good p).used hp1
    obtain ⟨R, e, hset⟩ := h1.split p
    have hx' : Proc.Mapped trampoline { (reparent s p).proc p with state := .zombie } t tf :=
      ⟨hx.pagetable, hx.trapframe, hx.ok, hx.upto, hx.tops⟩
    refine hset (reparent s p).free _ (hx'.good nofun) ?_
    rw [hx'.own, ← hx.own]
    exact e

theorem Inv.wait {copy b : Bool} (h : Inv trampoline A s) (hr : Ram kend A)
    (he : wait kend s p copy = some (s', b)) : Inv trampoline A s' := by
  unfold Vm.wait at he
  split at he
  case h_1 q hq =>
    have hz := (of_decide_eq_true (Fin.find?_eq_some_iff.mp hq).1).2
    cases copy with
    | false =>
      obtain ⟨rfl, -⟩ := Prod.mk.inj (Option.some.inj he)
      exact h
    | true =>
      obtain ⟨t, tf, hx⟩ := (h.good q).used (by rw [hz]; nofun)
      obtain ⟨free, hf, hfree⟩ := freeproc_spec hx (h.ram_le hr q)
      rw [if_pos rfl, hf] at he
      obtain ⟨rfl, -⟩ := Prod.mk.inj (Option.some.inj he)
      obtain ⟨R, e, hset⟩ := h.split q
      refine hset free _ (Proc.Good.absent none) ?_
      rw [hfree, Proc.own_absent, add_zero]
      exact e
  case h_2 =>
    split at he
    · exact absurd he nofun
    · obtain ⟨rfl, -⟩ := Prod.mk.inj (Option.some.inj he)
      exact h

end

end Vm
