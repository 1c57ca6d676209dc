import Xv6.Umalloc.Intact

/-!
# Growing the heap only when no free block is large enough

With an adequate block on the free list `best_fit` and `worst_fit` always serve from the list.
`first_fit` steps over every block that `check_can_split` refuses, and so over a freed block of
just the right size (`served_iff`).  A program that asks for `n` bytes and gives them back, over and
over, calls `sbrk` once as long as it meets no such refusal (`rounds_sbrk`).
-/

namespace Umalloc
open Lib

/-! ## one request -/

/-- the request is served from the free list, so `malloc` does not call `sbrk` -/
def Served (h : Heap) (n : Nat) : Prop := ∃ h' r, fsmFind h n = some (h', r) ∧ r ≠ 0

/-- `first_fit` meets a block that it takes; the other two only have to reach the end of the list -/
def Reuses (h : Heap) (n : Nat) : Prop :=
  match h.fsm with
  | .firstFit => ∃ b ∈ freeBlocks h, Accepted h n b
  | .bestFit => ListEnds h
  | .worstFit => ListEnds h

instance (h : Heap) (n : Nat) : Decidable (Reuses h n) := by
  unfold Reuses
  exact match h.fsm with
  | .firstFit => inferInstance
  | .bestFit => inferInstance
  | .worstFit => inferInstance

section
variable {h : Heap} {n : Nat} (hn : n < 2 ^ 32)
include hn

theorem served_iff_used : Served h n ↔ ∃ b, b ≠ 0 ∧ usedBlock h n = some b := by
  constructor
  · rintro ⟨h', r, e, hr⟩
    obtain ⟨b, hb, hu, _⟩ := fsmFind_used hn hr e
    exact ⟨b, hb, hu⟩
  · rintro ⟨b, hb, hu⟩
    exact ⟨_, _, fsmFind_of_used hn hb hu, serve_ne_zero hb⟩

theorem served_firstFit (hf : h.fsm = .firstFit) :
    Served h n ↔ ∃ b ∈ freeBlocks h, Accepted h n b := by
  rw [served_iff_used hn]
  constructor
  · rintro ⟨b, hb, hu⟩
    obtain ⟨l₁, l₂, hl, hacc, _⟩ := first_used hf hb hu
    exact ⟨b, hl ▸ List.mem_append_right l₁ List.mem_cons_self, hacc⟩
  · rintro ⟨b, hb, hacc⟩
    have hu := usedBlock_firstFit n hf
    cases hs : (freeBlocks h).find? (fun b => decide (Accepted h n b)) with
    | none =>
      have hno := List.find?_eq_none.mp hs b hb
      exact absurd hacc (by simpa using hno)
    | some c =>
      rw [hs] at hu
      exact ⟨c, walkFree_ne_zero (List.mem_of_find?_eq_some hs), hu⟩

theorem served_extreme {better : Nat → Nat → Bool} (hbet : Ranks better)
    (hu : usedBlock h n = extremeLoop better h n h.created.length h.freeListHead 0)
    (ha : ∃ b ∈ freeBlocks h, Adequate h n b) : Served h n ↔ ListEnds h := by
  rw [served_iff_used hn, hu]
  constructor
  · rintro ⟨b, hb, e⟩
    exact (extreme_used hbet hb e).1
  · intro he
    obtain ⟨b, hb, hab⟩ := ha
    exact extreme_found hbet he hb (hab.le hn)

/-- with an adequate block on the list, the request is served from the list exactly when the policy
in force does not step over all of them -/
theorem served_iff_reuses (ha : ∃ b ∈ freeBlocks h, Adequate h n b) :
    Served h n ↔ Reuses h n := by
  unfold Reuses
  split
  case h_1 hf => exact served_firstFit hn hf
  case h_2 hf => exact served_extreme hn ranks_gt (usedBlock_bestFit n hf) ha
  case h_3 hf => exact served_extreme hn ranks_lt (usedBlock_worstFit n hf) ha

end

/-! ## `p = malloc(n); free(p)`, over and over -/

/-- the call writes over nothing, and a request for which some free block is adequate is not
refused by all of them -/
def Frugal (s : Session) (c : Call) : Prop :=
  Harmless s c ∧ ∀ n, c = .malloc n → (∃ b ∈ freeBlocks s.heap, Adequate s.heap n b) →
    Reuses s.heap n

/-- the program asks for `n` bytes and gives them back; `calls` counts the calls of `sbrk` -/
inductive Rounds (n : Nat) : Session → Nat → Session → Prop
  | nil (s : Session) : Rounds n s 0 s
  | cons {s t u v : Session} {p calls : Nat} (halloc : guarded Frugal Step s (.malloc n) t)
      (hp : t.live.head? = some (p, n)) (hfree : guarded Frugal Step t (.free p) u)
      (rest : Rounds n u calls v) :
      Rounds n s (calls + if usedBlock s.heap n = some 0 then 1 else 0) v

section
variable {n : Nat} {s t u v : Session}

/-- after one round the freed block is on the list, and it is large enough for the next one -/
theorem round_adequate (hs : Sound s) (hT : totalSizeNeeded n < 2 ^ 32)
    (halloc : guarded Frugal Step s (.malloc n) t) {p : Nat} (hp : t.live.head? = some (p, n))
    (hfree : guarded Frugal Step t (.free p) u) :
    Sound u ∧ ∃ b ∈ freeBlocks u.heap, Adequate u.heap n b := by
  have ht := sound_step hs ⟨halloc.1.1, halloc.2⟩
  cases call_cases halloc.2 with
  | malloc _ h' p' hn hm =>
    obtain ⟨_, hbytes⟩ := sound_malloc hs hn halloc.1.1 hm
    obtain ⟨rfl, _⟩ := Prod.mk.inj (Option.some.inj hp)
    cases call_cases hfree.2 with
    | free q hq =>
      obtain ⟨hu, hmem, he⟩ := sound_free ht hq hfree.1.1
      refine ⟨hu, _, hmem, ?_⟩
      unfold Adequate
      rw [he]
      exact hbytes hT

theorem rounds_served (hs : Sound s) (hT : totalSizeNeeded n < 2 ^ 32)
    (ha : ∃ b ∈ freeBlocks s.heap, Adequate s.heap n b) {calls : Nat}
    (hr : Rounds n s calls v) : calls = 0 := by
  induction hr with
  | nil s => rfl
  | @cons s t u v p calls halloc hp hfree rest ih =>
    obtain ⟨hu, hau⟩ := round_adequate hs hT halloc hp hfree
    have hn : n < 2 ^ 32 := by
      cases call_cases halloc.2 with
      | malloc _ _ _ hn _ => exact hn
    obtain ⟨b, hb, hused⟩ := (served_iff_used hn).mp
      ((served_iff_reuses hn ha).mpr (halloc.1.2 n rfl ha))
    have hne : usedBlock s.heap n ≠ some 0 := fun e => hb (Option.some.inj (hused.symm.trans e))
    rw [ih hu hau, if_neg hne]

/-- the first round may call `sbrk`, the others do not -/
theorem rounds_sbrk (mem : Mem) {base : Nat} (h0 : 0 < base) (hle : base ≤ maxVa) (choice : Int)
    {calls : Nat}
    (hr : Rounds n { start mem base with heap := mallocSetfsm (Heap.init mem base) choice } calls v) :
    calls ≤ 1 := by
  have hs : Sound { start mem base with heap := mallocSetfsm (Heap.init mem base) choice } :=
    ⟨[], (Intact.init mem h0 hle).congr (fun _ _ => rfl) rfl rfl rfl rfl rfl rfl⟩
  cases hr with
  | nil => exact Nat.zero_le 1
  | @cons _ t u _ p calls halloc hp hfree rest =>
    have hn : n < 2 ^ 32 := by
      cases call_cases halloc.2 with
      | malloc _ _ _ hn _ => exact hn
    -- the list is empty, so the first request goes to the kernel, for less than 2 GB
    have hused : usedBlock (mallocSetfsm (Heap.init mem base) choice) n = some 0 := by
      cases hu : usedBlock (mallocSetfsm (Heap.init mem base) choice) n with
      | none =>
        obtain ⟨w, e⟩ := fsmFind_eq hn (mallocSetfsm (Heap.init mem base) choice)
        rw [hu] at e
        cases call_cases halloc.2 with
        | malloc _ h' p' _ hm =>
          unfold malloc at hm
          rw [show fsmFind (mallocSetfsm (Heap.init mem base) choice) n = none from e] at hm
          cases hm
      | some b =>
        by_cases hb : b = 0
        · rw [hb]
        · exact absurd (used_mem hb hu) (by simp [freeBlocks, walkFree, mallocSetfsm, Heap.init])
    have hbig : totalSize n < 2 ^ 31 := (halloc.1.1 0 hused).fresh
    have hT : totalSizeNeeded n < 2 ^ 32 := by
      have h1 := totalSize_spec hn
      omega
    obtain ⟨hu, hau⟩ := round_adequate hs hT halloc hp hfree
    rw [rounds_served hu hT hau rest]
    split <;> decide

end

/-- on every heap a request for which some free block is adequate is served without `sbrk` exactly
when the policy does not step over all blocks; and a program that repeats a request and gives the
bytes back calls `sbrk` at most once, if none of its requests is refused so -/
theorem reuse (h : Heap) (n : Nat) (mem : Mem) (base m calls : Nat) (choice : Int) (s : Session) :
    (n < 2 ^ 32 → (∃ b ∈ freeBlocks h, Adequate h n b) → (Served h n ↔ Reuses h n)) ∧
    (0 < base → base ≤ maxVa →
      Rounds m { start mem base with heap := mallocSetfsm (Heap.init mem base) choice } calls s →
      calls ≤ 1) :=
  ⟨fun hn ha => served_iff_reuses hn ha, fun h0 hle hr => rounds_sbrk mem h0 hle choice hr⟩

/-- best fit: a freed block of 144 bytes serves the same request again, and the first round is the
one that calls `sbrk` -/
theorem reuse_best_fit : ∃ s, Run Step (start (fun _ => 0) 16384)
    [.setfsm 1, .malloc 100, .free 20368] s ∧ Served s.heap 100 ∧
    ∃ calls, Rounds 100 { start (fun _ => 0) 16384 with
      heap := mallocSetfsm (Heap.init (fun _ => 0) 16384) 1 } calls s ∧ calls ≤ 1 := by
  have hok : Harmless { start (fun _ => 0) 16384 with
      heap := mallocSetfsm (Heap.init (fun _ => 0) 16384) 1 } (.malloc 100) := by decide +kernel
  have hnone : ¬ ∃ b ∈ freeBlocks (mallocSetfsm (Heap.init (fun _ => 0) 16384) 1),
      Adequate (mallocSetfsm (Heap.init (fun _ => 0) 16384) 1) 100 b := by decide +kernel
  have hrun : (call { start (fun _ => 0) 16384 with
      heap := mallocSetfsm (Heap.init (fun _ => 0) 16384) 1 } (.malloc 100)).map
      (fun t => (t.live.head?, decide (Harmless t (.free 20368)),
        (call t (.free 20368)).map (fun s : Session => decide (Reuses s.heap 100 ∧
          ∃ b ∈ freeBlocks s.heap, Adequate s.heap 100 b)))) = some (some (20368, 100), true,
      some true) := by decide +kernel
  obtain ⟨t, ht, e⟩ := Option.map_eq_some_iff.mp hrun
  obtain ⟨hp, e⟩ := Prod.mk.inj e
  obtain ⟨hfree, e⟩ := Prod.mk.inj e
  obtain ⟨s, hs, e⟩ := Option.map_eq_some_iff.mp e
  obtain ⟨hr, ha⟩ := of_decide_eq_true e
  have hrounds : Rounds 100 { start (fun _ => 0) 16384 with
      heap := mallocSetfsm (Heap.init (fun _ => 0) 16384) 1 } _ s :=
    .cons ⟨⟨hok, fun n hn hadq => absurd (Call.malloc.inj hn ▸ hadq) hnone⟩, ht⟩ hp
      ⟨⟨of_decide_eq_true hfree, fun n hn => absurd hn nofun⟩, hs⟩ (.nil s)
  exact ⟨s, .cons rfl (.cons ht (.single hs)),
    ((reuse s.heap 100 (fun _ => 0) 16384 100 0 1 s).1 (by decide) ha).mpr hr, _,
    hrounds, (reuse s.heap 100 (fun _ => 0) 16384 100 _ 1 s).2 (by decide) (by decide) hrounds⟩

/-- first fit: a block of one page is freed and the same request comes again; the block is refused
although it is as large as it was -/
theorem freed_page_is_refused : ¬ ∀ (mem : Mem) (base : Nat) (l : List Call) (s : Session) (n : Nat),
    0 < base → base % pageSz = 0 → base ≤ maxVa → n < 2 ^ 32 → Run Step (start mem base) l s →
      (∃ b ∈ freeBlocks s.heap, Adequate s.heap n b) → Served s.heap n := by
  intro hall
  have hrun : (runCalls (start (fun _ => 0) 16384) [.malloc 4064, .free 16416]).map
      (fun s : Session => (decide (∃ b ∈ freeBlocks s.heap, Adequate s.heap 4064 b),
        usedBlock s.heap 4064)) = some (true, some 0) := by decide +kernel
  obtain ⟨s, hs, e⟩ := Option.map_eq_some_iff.mp hrun
  obtain ⟨ha, hu⟩ := Prod.mk.inj e
  have hserved := hall _ 16384 _ s 4064 (by decide) (by decide) (by decide) (by decide)
    (run_of_runCalls hs) (of_decide_eq_true ha)
  obtain ⟨b, hb, hub⟩ := (served_iff_used (by decide)).mp hserved
  exact hb (Option.some.inj (hub.symm.trans hu))

end Umalloc
