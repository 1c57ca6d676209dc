import Xv6.Vm.Inv

/-!
# Address spaces stay apart

`exec` keeps what the processes own, and so does every run of the machine.
-/

namespace Vm
open Lib

section
variable {kend trampoline tf n sz : Nat} {A R T : Multiset Nat} {s s' : Sys} {p q : Fin nproc}
  {t old : PageTable} {x : Proc} {m m' : Mem} {free l l' : List Nat} {img : Image}

/-! ## `exec` -/

theorem Inv.replace (h : Inv trampoline A s) (hx : (s.proc p).Mapped trampoline t tf)
    (hp : (s.proc p).state ≠ .unused) (hc : Complete s.free trampoline tf (pages sz) m)
    (hfree : (free : Multiset Nat) = m.free + t.tables + t.leaves) :
    Inv trampoline A (s.put p { s.proc p with sz := sz, pagetable := some m.pt } free) := by
  obtain ⟨R, e, hset⟩ := h.split p
  have hx' : Proc.Mapped trampoline { s.proc p with sz := sz, pagetable := some m.pt } m.pt tf :=
    ⟨rfl, hx.trapframe, hc.space.ok, hc.upto, hc.tops⟩
  refine hset free _ (hx'.good hp) ?_
  rw [← e, hx.own, hx'.own, hfree, ← hc.space.total]
  abel

theorem exec_spec (h : Inv trampoline A s) (hr : Ram kend A) (hp : (s.proc p).state ≠ .unused)
    (img : Image) (argv : List (Fin pgsize)) :
    ∃ s' b, exec kend trampoline s p img argv = some (s', b) ∧ Inv trampoline A s' ∧
      (∀ q, (s'.proc q).state = (s.proc q).state) ∧
      (b = false → (s'.free : Multiset Nat) = s.free) := by
  obtain ⟨told, tf, hx⟩ := (h.good p).used hp
  have hrf : Ram kend s.free := hr.mono h.free_le
  -- the new address space is given back
  have hbad : ∀ m sz, Complete s.free trampoline tf (pages sz) m → ∃ s' b,
      (procFreepagetable kend m sz).map (fun free => (({ s with free := free } : Sys), false)) =
        some (s', b) ∧ Inv trampoline A s' ∧ (∀ q, (s'.proc q).state = (s.proc q).state) ∧
          (b = false → (s'.free : Multiset Nat) = s.free) := by
    intro m sz hc
    obtain ⟨free, he, hfree⟩ := procFreepagetable_spec hc hrf
    rw [he]
    exact ⟨_, false, rfl, h.setFree hfree, fun _ => rfl, fun _ => hfree⟩
  unfold exec
  rw [hx.trapframe, hx.pagetable]
  cases img.found with
  | false => exact ⟨s, false, rfl, h, fun _ => rfl, fun _ => rfl⟩
  | true =>
  cases img.phnum with
  | none => exact ⟨s, false, rfl, h, fun _ => rfl, fun _ => rfl⟩
  | some phnum =>
  simp only []
  obtain ⟨free, r, he, ⟨rfl, hfree⟩ | ⟨t, rfl, hc⟩⟩ := procPagetable_spec hrf trampoline tf
  · rw [he]
    exact ⟨_, false, rfl, h.setFree hfree, fun _ => rfl, fun _ => hfree⟩
  rw [← pages_zero] at hc
  have huser : t.User := fun v hv pte hpte => by
    have hlt := (hc.upto v hv).mp (by rw [hpte]; rfl)
    rw [pages_zero] at hlt
    exact absurd hlt (Nat.not_lt_zero v)
  obtain ⟨m, sz, b, hload, hc, huser⟩ := loadLoop_spec img (List.range phnum) hc hrf huser
  rw [he]
  dsimp only
  rw [hload]
  cases b with
  | false => exact hbad m sz hc
  | true =>
  dsimp only
  obtain ⟨m', r, halloc, ⟨rfl, hc'⟩ | ⟨hne, u, hclear, hc'⟩⟩ := stack_spec hc hrf huser
  · rw [halloc]
    exact hbad m' _ hc'
  rw [halloc]
  simp only [hclear]
  by_cases hpush : pushStack u.pt r argv = true
  · have hold : Complete (u.free + told.tables + told.leaves) trampoline tf
        (pages (s.proc p).sz) ⟨u.free, told⟩ := hx.complete u.free
    have hle : (u.free : Multiset Nat) ≤ s.free := by
      rw [← hc'.space.total, add_assoc]
      exact Multiset.le_add_right _ _
    have hrold : Ram kend (u.free + told.tables + told.leaves) := by
      refine (h.ram_le hr p).mono ?_
      rw [hx.own, add_assoc, ← add_assoc (s.free : Multiset Nat)]
      exact (add_le_add_left hle _).trans (Multiset.le_add_right _ _)
    obtain ⟨free, hf, hfree⟩ := procFreepagetable_spec hold hrold
    rw [if_pos hpush, hf]
    refine ⟨_, true, rfl, h.replace hx hp hc' hfree, fun q => put_state.trans ?_, nofun⟩
    by_cases e : q = p
    · rw [if_pos e, e]
    · rw [if_neg e]
  · rw [if_neg hpush]
    exact hbad u r hc'

/-! ## `sys_exec` -/

/-- the strings are in pages of the free list -/
theorem fetchArgs_total (arg : Nat → Arg) (n i : Nat) (free l : List Nat)
    (argv : List (Fin pgsize)) :
    ((fetchArgs arg n i free l argv).1 : Multiset Nat) + (fetchArgs arg n i free l argv).2.1 =
      free + l := by
  induction n generalizing i free l argv with
  | zero => rfl
  | succ n ih =>
    unfold fetchArgs
    cases arg i with
    | bad => rfl
    | null => rfl
    | str len =>
      cases free with
      | nil => rfl
      | cons pa free =>
        have hmove : (free : Multiset Nat) + ((l ++ [pa] : List Nat) : Multiset Nat) =
            ((pa :: free : List Nat) : Multiset Nat) + l := by
          rw [← Multiset.coe_add, ← Multiset.cons_coe pa free, Multiset.coe_singleton,
            ← Multiset.singleton_add]
          abel
        cases len with
        | none => exact hmove
        | some len =>
          rw [← hmove]
          exact ih (i + 1) free (l ++ [pa]) (argv ++ [len])

theorem kfrees_spec (hl : ∀ pa ∈ l, Managed kend pa) (free : List Nat) : ∃ free',
    l.foldlM (fun free pa => kfree kend pa free) free = some free' ∧
      (free' : Multiset Nat) = free + l := by
  induction l generalizing free with
  | nil => exact ⟨free, rfl, (add_zero _).symm⟩
  | cons pa l ih =>
    obtain ⟨free', he, hfree⟩ := ih (fun a ha => hl a (List.mem_cons_of_mem _ ha)) (pa :: free)
    refine ⟨free', ?_, ?_⟩
    · rw [List.foldlM_cons, kfree_eq (hl pa List.mem_cons_self)]
      exact he
    · rw [hfree, ← Multiset.cons_coe, ← Multiset.cons_coe, ← Multiset.singleton_add,
        ← Multiset.singleton_add pa]
      abel

theorem freeArgs_spec (hl : ∀ pa ∈ l, Managed kend pa) : ∃ free,
    freeArgs kend s l = some { s with free := free } ∧ (free : Multiset Nat) = s.free + l := by
  obtain ⟨free, he, hfree⟩ := kfrees_spec hl s.free
  refine ⟨free, ?_, hfree⟩
  unfold freeArgs
  rw [he]
  rfl

theorem Inv.move (h : Inv trampoline A s) (hfree : (free : Multiset Nat) + R = s.free + T) :
    ∃ A', A' + R = A + T ∧ Inv trampoline A' { s with free := free } := by
  refine ⟨free + ∑ p, (s.proc p).own, ?_, rfl, h.good⟩
  rw [add_right_comm, hfree, add_right_comm, h.total]

/-- the strings are given back, whatever happens to the program -/
theorem args_spec {f : Sys → List (Fin pgsize) → Option (Sys × Bool)}
    (hf : ∀ A u argv, Inv trampoline A u → Ram kend A → (u.proc p).state ≠ .unused →
      ∃ u' b, f u argv = some (u', b) ∧ Inv trampoline A u' ∧
        (∀ q, (u'.proc q).state = (u.proc q).state) ∧
        (b = false → (u'.free : Multiset Nat) = u.free))
    (h : Inv trampoline A s) (hr : Ram kend A) (hp : (s.proc p).state ≠ .unused)
    (arg : Nat → Arg) : ∃ s' b,
    (match fetchArgs arg maxarg 0 s.free [] [] with
      | (free, pages, none) =>
        (freeArgs kend { s with free := free } pages).map (fun s => (s, false))
      | (free, pages, some argv) => (f { s with free := free } argv).bind (fun r =>
        (freeArgs kend r.1 pages).map (fun s => (s, r.2)))) = some (s', b) ∧
      Inv trampoline A s' ∧ (∀ q, (s'.proc q).state = (s.proc q).state) ∧
      (b = false → (s'.free : Multiset Nat) = s.free) := by
  have htotal := fetchArgs_total arg maxarg 0 s.free [] []
  rcases hfetch : fetchArgs arg maxarg 0 s.free [] [] with ⟨free, l, r⟩
  rw [hfetch] at htotal
  obtain ⟨A', hA, h1⟩ := h.move htotal
  rw [Multiset.coe_nil, add_zero] at hA htotal
  have hl : ∀ pa ∈ l, Managed kend pa := fun pa hpa => by
    refine hr.managed pa ?_
    rw [← hA]
    exact Multiset.mem_add.mpr (Or.inr hpa)
  have hback : ∀ u, Inv trampoline A' u → ∃ free', freeArgs kend u l =
      some { u with free := free' } ∧ (free' : Multiset Nat) = u.free + l ∧
        Inv trampoline A { u with free := free' } := by
    intro u hu
    obtain ⟨free', he, hfree⟩ := freeArgs_spec (s := u) hl
    have hmove := hfree
    rw [← add_zero (free' : Multiset Nat)] at hmove
    obtain ⟨A'', hA', hu'⟩ := hu.move hmove
    rw [add_zero, hA] at hA'
    rw [hA'] at hu'
    exact ⟨_, he, hfree, hu'⟩
  cases r with
  | none =>
    obtain ⟨free', he, hfree, hu⟩ := hback _ h1
    dsimp only
    rw [he]
    exact ⟨_, false, rfl, hu, fun _ => rfl, fun _ => hfree.trans htotal⟩
  | some argv =>
    obtain ⟨s', b, he, h', hstate, hkept⟩ := hf A' _ argv h1 (hr.mono (le_of_add hA)) hp
    obtain ⟨free', he', hfree, hu⟩ := hback s' h'
    dsimp only
    rw [he, Option.bind_some]
    dsimp only
    rw [he']
    refine ⟨_, b, rfl, hu, hstate, fun hb => ?_⟩
    rw [hfree, hkept hb]
    exact htotal

theorem sysExec_spec (h : Inv trampoline A s) (hr : Ram kend A) (hp : (s.proc p).state ≠ .unused)
    (img : Image) (arg : Nat → Arg) :
    ∃ s' b, sysExec kend trampoline s p img arg = some (s', b) ∧ Inv trampoline A s' := by
  obtain ⟨s', b, he, h', -⟩ := args_spec (f := fun u argv => exec kend trampoline u p img argv)
    (fun _ _ argv hu hru hpu => exec_spec hu hru hpu img argv) h hr hp arg
  exact ⟨s', b, he, h'⟩

/-! ## runs -/

theorem Inv.step {e : Fin nproc × Call} (hr : Ram kend A) (h : Inv trampoline A s)
    (hstep : Step kend trampoline s e s') : Inv trampoline A s' := by
  obtain ⟨p, c⟩ := e
  unfold Step Vm.step at hstep
  by_cases hlive : (s.proc p).state ≠ .live
  · rw [if_pos hlive] at hstep
    exact absurd hstep nofun
  have hp : (s.proc p).state ≠ .unused := by
    rw [not_not.mp hlive]
    nofun
  rw [if_neg hlive] at hstep
  -- a call that returns, and what is true when it does
  have hret : ∀ {o : Option (Sys × Bool)}, (∃ u b, o = some (u, b) ∧ Inv trampoline A u) →
      o.map Prod.fst = some s' → Inv trampoline A s' := by
    rintro o ⟨u, b, rfl, hu⟩ he
    obtain rfl := Option.some.inj he
    exact hu
  cases c with
  | fork =>
    obtain ⟨u, b, he, hu, -⟩ := fork_spec h hr hp
    exact hret ⟨u, b, he, hu⟩ hstep
  | exec img arg => exact hret (sysExec_spec h hr hp img arg) hstep
  | sbrk n => exact hret (growproc_spec h hr hp n) hstep
  | wait copy =>
    obtain ⟨r, he, rfl⟩ := Option.map_eq_some_iff.mp hstep
    exact h.wait hr (show Vm.wait kend s p copy = some (r.1, r.2) from he)
  | exit => exact h.exit hp hstep

theorem inv_userinit (hr : Ram kend free) (h : userinit kend trampoline free = some s) :
    Inv trampoline free s := by
  have h0 : Inv trampoline free ⟨free, fun _ => Proc.absent none⟩ := by
    refine ⟨?_, fun _ => Proc.Good.absent none⟩
    rw [Finset.sum_eq_zero (fun _ _ => Proc.own_absent none)]
    exact add_zero _
  unfold userinit at h
  obtain ⟨s1, r, he, ⟨rfl, -⟩ | ⟨np, t, tf, free1, T, rfl, -, hnp, rfl, hc, hT⟩⟩ :=
    allocproc_spec h0 hr
  · rw [show allocproc kend trampoline ⟨free, fun _ => ⟨.unused, none, 0, none, none⟩⟩ = _ from he]
      at h
    exact absurd h nofun
  · rw [show allocproc kend trampoline ⟨free, fun _ => ⟨.unused, none, 0, none, none⟩⟩ = _ from he]
      at h
    have hrT : Ram kend T := hr.mono (le_of_add hT)
    simp only [put_self, put_free] at h
    cases free1 with
    | nil => exact absurd h nofun
    | cons pa free1 =>
      dsimp only [kalloc_cons] at h
      obtain ⟨m, ⟨he', -, -⟩ | ⟨he', hs, hu, htop, -⟩, -⟩ := grow_spec (i := 0) hc.space hrT hc.upto
        rfl (show (⟨true, true, true, true⟩ : Perm) ≠ _ from nofun)
      · rw [Nat.zero_mul] at he'
        rw [he'] at h
        exact absurd h nofun
      · rw [Nat.zero_mul] at he'
        rw [he'] at h
        obtain rfl := Option.some.inj h
        obtain ⟨R, e, hset⟩ := h0.split np
        rw [Proc.own_absent, add_zero] at e
        have hx : Proc.Mapped trampoline ⟨.live, none, pgsize, some m.pt, some tf⟩ m.pt tf := by
          refine ⟨rfl, rfl, hs.ok, ?_, ?_, ?_⟩
          · rw [← pages_mul (0 + 1), Nat.zero_add, Nat.one_mul] at hu
            exact hu
          · rw [htop _ le_rfl]
            exact hc.tops.trapframe
          · rw [htop _ (Nat.le_succ _)]
            exact hc.tops.trampoline
        have hfin := hset m.free _ (hx.good nofun) (by
          rw [hx.own, ← add_assoc, ← add_assoc, hs.total, hT]
          exact e)
        unfold Sys.put at hfin
        unfold Sys.setProc Sys.put
        dsimp only
        rw [Function.update_idem]
        exact hfin

theorem ram_of_nodup (hkend : 0x80000000 ≤ kend) (hnd : l.Nodup)
    (hl : ∀ pa ∈ l, Managed kend pa) : Ram kend l := by
  refine ⟨hl, ?_⟩
  have hinj : Set.InjOn (fun pa => pa / pgsize - 0x80000) (l.toFinset : Set Nat) := by
    intro a ha b hb e
    obtain ⟨ha1, ha2, ha3⟩ := hl a (List.mem_toFinset.mp ha)
    obtain ⟨hb1, hb2, hb3⟩ := hl b (List.mem_toFinset.mp hb)
    unfold pgsize at *
    dsimp only at e
    omega
  have hmaps : Set.MapsTo (fun pa => pa / pgsize - 0x80000) (l.toFinset : Set Nat)
      (Finset.range (2 ^ 15)) := by
    intro a ha
    obtain ⟨ha1, ha2, ha3⟩ := hl a (List.mem_toFinset.mp ha)
    refine Finset.mem_coe.mpr (Finset.mem_range.mpr ?_)
    show a / pgsize - 0x80000 < 2 ^ 15
    unfold pgsize
    unfold phystop at ha3
    omega
  have hcard := Finset.card_le_card_of_injOn _ hmaps hinj
  rw [Finset.card_range, List.toFinset_card_of_nodup hnd] at hcard
  exact hcard

/-- from the first process on, the user pages of a process are those of `[0, PGROUNDUP(sz))`, and
every page is in one place: held by the kernel, free, or of one process -/
theorem isolation {kern : List Nat} {s₀ : Sys} {calls : List (Fin nproc × Call)}
    (hkend : 0x80000000 ≤ kend) (hnd : (kern ++ free).Nodup)
    (hmem : ∀ pa, pa ∈ kern ++ free ↔ Managed kend pa)
    (hinit : userinit kend trampoline free = some s₀)
    (hrun : Run (Step kend trampoline) s₀ calls s) :
    (∀ p, (s.proc p).state ≠ .unused → ∃ t, (s.proc p).pagetable = some t ∧
      ∀ v < userTop, ((t.pte v).isSome = true ↔ v * pgsize < pgroundup (s.proc p).sz)) ∧
    (kern + (s.free + ∑ p, (s.proc p).own) : Multiset Nat).Nodup ∧
    ∀ pa, pa ∈ (kern + (s.free + ∑ p, (s.proc p).own) : Multiset Nat) ↔ Managed kend pa := by
  have hr : Ram kend free := ram_of_nodup hkend hnd.of_append_right
    (fun pa hpa => (hmem pa).mp (List.mem_append_right kern hpa))
  have h : Inv trampoline free s :=
    hrun.invariant (fun _ _ _ h hstep => h.step hr hstep) (inv_userinit hr hinit)
  refine ⟨fun p hp => ?_, ?_, fun pa => ?_⟩
  · obtain ⟨t, tf, hx⟩ := (h.good p).used hp
    have hle : pages (s.proc p).sz ≤ 2 ^ 15 :=
      (hx.complete s.free).space.upto_le ((h.ram_le hr p).mono (by
        rw [hx.own, ← add_assoc, ← add_assoc]
        exact Multiset.le_add_right _ _)) hx.upto
    refine ⟨t, hx.pagetable, fun v hv => ?_⟩
    rw [lt_pgroundup (le_of_pages hle)]
    exact hx.upto v hv
  · rw [h.total, Multiset.coe_add]
    exact Multiset.coe_nodup.mpr hnd
  · rw [h.total, Multiset.coe_add]
    exact hmem pa

end

def lastPages (n : Nat) : List Nat := (List.range n).map (fun i => phystop - (i + 1) * pgsize)

theorem mem_lastPages (pa : Nat) : pa ∈ lastPages 40 ↔ Managed (phystop - 40 * pgsize) pa := by
  unfold lastPages Managed pgsize phystop
  rw [List.mem_map]
  constructor
  · rintro ⟨i, hi, rfl⟩
    have hlt := List.mem_range.mp hi
    omega
  · rintro ⟨h1, h2, h3⟩
    refine ⟨(0x88000000 - pa) / 4096 - 1, List.mem_range.mpr ?_, ?_⟩
    · omega
    · omega

def twoPages : Image where
  found := true
  phnum := some 1
  ph := fun _ => some ⟨1, 5, 4096, 0, 5000, 8000⟩
  read := fun _ _ => true

/-- the shell forks; the child runs a program with one argument, takes memory until there is none
left, gives some back and exits -/
def forkExec : List (Fin nproc × Call) :=
  [(0, .fork), (1, .exec twoPages (fun i => if i = 0 then .str (some ⟨3, three_lt_pgsize⟩) else .null)),
    (1, .sbrk 5000), (1, .sbrk 1000000), (1, .sbrk (-3000)), (0, .sbrk (-1)), (1, .exit),
    (0, .wait true)]

theorem isolation_forkExec : ∃ s₀ s, userinit (phystop - 40 * pgsize) 0x80007000 (lastPages 40) =
    some s₀ ∧ Run (Step (phystop - 40 * pgsize) 0x80007000) s₀ forkExec s ∧
    (∀ p, (s.proc p).state ≠ .unused → ∃ t, (s.proc p).pagetable = some t ∧
      ∀ v < userTop, ((t.pte v).isSome = true ↔ v * pgsize < pgroundup (s.proc p).sz)) ∧
    (([] : List Nat) + (s.free + ∑ p, (s.proc p).own) : Multiset Nat).Nodup ∧
    ∀ pa, pa ∈ (([] : List Nat) + (s.free + ∑ p, (s.proc p).own) : Multiset Nat) ↔
      Managed (phystop - 40 * pgsize) pa := by
  have hsome : ((userinit (phystop - 40 * pgsize) 0x80007000 (lastPages 40)).bind (fun s₀ =>
      Lib.exec (fun s e => step (phystop - 40 * pgsize) 0x80007000 s e.1 e.2) s₀
        forkExec)).isSome = true := by
    decide +kernel
  obtain ⟨s, hs⟩ := Option.isSome_iff_exists.mp hsome
  obtain ⟨s₀, hinit, hexec⟩ := Option.bind_eq_some_iff.mp hs
  have hrun : Run (Step (phystop - 40 * pgsize) 0x80007000) s₀ forkExec s :=
    Run.of_exec (fun _ _ _ h => h) hexec
  exact ⟨s₀, s, hinit, hrun,
    isolation (by decide) (by decide +kernel) (fun pa => mem_lastPages pa) hinit hrun⟩

end Vm
