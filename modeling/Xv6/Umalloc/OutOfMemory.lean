import Xv6.Umalloc.Safety
import Xv6.Umalloc.Policy

/-!
# `malloc` when the kernel has no memory

`sys_sbrk` returns -1 when `growproc` finds no pages, and its argument is an `int`, so that a
request of 2 GB or more shrinks the process or leaves it as it is.  `malloc` looks at neither: it
writes a header to the address that it gets.  A store to a page that the process does not have
kills it.  The stores to blocks that exist do not fault.
-/

namespace Umalloc
open Lib

/-- whether `growproc` finds the pages to go from one size to another -/
abbrev Grants := Nat → Nat → Bool

inductive Outcome where
  | returned (h : Heap) (p : Nat)
  /-- by a page fault -/
  | killed
  /-- in a search that does not end -/
  | stuck

/-- `PGROUNDUP` of the size: the pages of the process end here -/
def Heap.top (h : Heap) : Nat := (h.brk + pageSz - 1) / pageSz * pageSz

def noMemory : Nat := 2 ^ 64 - 1

def sysSbrk (grants : Grants) (h : Heap) (n : Int) : Heap × Nat :=
  if 0 < n then
    if grants h.brk (h.brk + n.toNat) then
      ({ h with
        brk := h.brk + n.toNat
        mem := fun a => if h.brk ≤ a ∧ a < h.brk + n.toNat then 0 else h.mem a }, h.brk)
    else (h, noMemory)
  else if n = 0 ∨ h.brk < (-n).toNat then (h, h.brk)
  else ({ h with brk := h.brk - (-n).toNat }, h.brk)

/-- `malloc` from `sbrk` on: the headers of the new blocks may be past the last page -/
def growOutcome (grants : Grants) (h : Heap) (nbytes : Nat) : Outcome :=
  match sysSbrk grants h (toInt (totalSize nbytes)) with
  | (h, block) =>
    if h.top < block + headerSz then .killed
    else
      match checkCanSplit (newBlock h block (totalSize nbytes)) block (totalSize nbytes % 2 ^ 32)
        nbytes with
      | (h, splitBlock) =>
        if splitBlock ≠ 0 then
          if h.top < splitBlock + headerSz then .killed
          else .returned (addFree (setFree h block) block) (splitBlock + headerSz)
        else .returned h (block + headerSz)

def mallocOutcome (grants : Grants) (h : Heap) (nbytes : Nat) : Outcome :=
  match fsmFind h nbytes with
  | none => .stuck
  | some (h, found) =>
    if found ≠ 0 then .returned h (found + headerSz) else growOutcome grants h nbytes

/-- the kernel cannot supply the memory -/
def Unsupplied (grants : Grants) (h : Heap) (n : Nat) : Prop :=
  (sysSbrk grants h (toInt (totalSize n))).2 = noMemory ∨ 2 ^ 31 ≤ totalSize n

/-- NULL is returned, and the lists and the headers are as they were -/
def Graceful (h : Heap) (o : Outcome) : Prop :=
  ∃ h', o = .returned h' 0 ∧ h'.created = h.created ∧ h'.blockListHead = h.blockListHead ∧
    h'.blockListTail = h.blockListTail ∧ h'.freeListHead = h.freeListHead ∧
    h'.freeListTail = h.freeListTail ∧ ∀ b ∈ h.created, ∀ x, b ≤ x → x < b + 48 →
      h'.mem x = h.mem x

/-! ## the break -/

structure OnPage (h : Heap) : Prop where
  brk : h.brk % pageSz = 0
  brkLe : h.brk ≤ maxVa

section
variable {h h' : Heap} {grants : Grants} {n p : Nat}

theorem OnPage.top_eq (hp : OnPage h) : h.top = h.brk := by
  have hb := hp.brk
  unfold pageSz at hb
  show (h.brk + 4096 - 1) / 4096 * 4096 = h.brk
  omega

theorem split_brk (h : Heap) (b blockSize v : Nat) : (split h b blockSize v).1.brk = h.brk := by
  obtain ⟨m, e, -⟩ := split_eq h b blockSize v
  rw [e]

theorem checkCanSplit_brk (h : Heap) (b blockSize n : Nat) :
    (checkCanSplit h b blockSize n).1.brk = h.brk := by
  unfold checkCanSplit
  dsimp only
  split
  · rfl
  · split
    · rfl
    · split
      · rfl
      · rw [split_brk]

theorem newBlock_brk (h : Heap) (b v : Nat) : (newBlock h b v).brk = h.brk := by
  unfold newBlock addBlock
  dsimp only
  split
  · rfl
  · rfl

theorem serve_brk (h : Heap) (n b : Nat) : (serve h n b).1.brk = h.brk := by
  have hc := checkCanSplit_brk h b (h.size b % 2 ^ 32) n
  unfold serve
  generalize checkCanSplit h b (h.size b % 2 ^ 32) n = r at hc
  obtain ⟨h1, ret⟩ := r
  dsimp only at hc ⊢
  split
  · exact hc
  · rw [removeFree_brk]
    exact hc

theorem OnPage.withSafe (hp : OnPage h) (v : Bool) : OnPage { h with safe := v } :=
  ⟨hp.brk, hp.brkLe⟩

theorem totalSize_pages (hn : n < 2 ^ 32) :
    totalSize n % 4096 = 0 ∧ headerSz ≤ totalSize n ∧ totalSize n ≤ 2 ^ 32 + 4096 := by
  have h1 := totalSizeNeeded_spec hn
  obtain ⟨h2, h3⟩ := totalSize_spec hn
  have h4 : totalSize n < totalSizeNeeded n + 4096 := by
    have h5 : align (n + headerSz) 16 = totalSizeNeeded n := by
      unfold totalSizeNeeded
      rw [Nat.add_comm]
    unfold headerSz at h1
    unfold totalSize
    rw [h5]
    exact (align_spec (x := totalSizeNeeded n) (a := pageSz) (by decide)
      (by unfold pageSz; omega)).2.1
  unfold headerSz at h1 ⊢
  omega

/-- an amount that is no `int` arrives 4 GB smaller -/
theorem toInt_large {S : Nat} (h1 : 2 ^ 31 ≤ S) (h2 : S ≤ 2 ^ 32 + 4096) :
    toInt S = (S : Int) - 2 ^ 32 := by
  unfold toInt
  by_cases h : S < 2 ^ 32
  · rw [Nat.mod_eq_of_lt h, if_neg (by omega)]
  · have e : S % 2 ^ 32 = S - 2 ^ 32 := by omega
    rw [e, if_pos (by omega)]
    omega

theorem toInt_pages {S : Nat} (h : S % 4096 = 0) : toInt S % 4096 = 0 := by
  unfold toInt
  split
  · omega
  · omega

/-- no call moves the break off the page boundaries -/
theorem sbrk_onPage {k : Int} {a : Nat} (hp : OnPage h) (hk : k % 4096 = 0)
    (hs : sbrk h k = some (h', a)) : OnPage h' := by
  have hb := hp.brk
  have hle := hp.brkLe
  unfold pageSz at hb
  unfold sbrk at hs
  split at hs
  · split at hs
    · obtain ⟨rfl, -⟩ := Prod.mk.inj (Option.some.inj hs)
      refine ⟨?_, by assumption⟩
      show (h.brk + k.toNat) % 4096 = 0
      omega
    · exact absurd hs nofun
  · split at hs
    · obtain ⟨rfl, -⟩ := Prod.mk.inj (Option.some.inj hs)
      exact hp
    · obtain ⟨rfl, -⟩ := Prod.mk.inj (Option.some.inj hs)
      refine ⟨?_, ?_⟩
      · show (h.brk - (-k).toNat) % 4096 = 0
        omega
      · show h.brk - (-k).toNat ≤ maxVa
        omega

theorem OnPage.of_brk (hp : OnPage h) (e : h'.brk = h.brk) : OnPage h' :=
  ⟨e ▸ hp.brk, e ▸ hp.brkLe⟩

theorem malloc_onPage (hp : OnPage h) (hn : n < 2 ^ 32) (hm : malloc h n = some (h', p)) :
    OnPage h' := by
  obtain ⟨v, e⟩ := fsmFind_eq hn h
  unfold malloc at hm
  rw [e] at hm
  cases hu : usedBlock h n with
  | none =>
    rw [hu] at hm
    exact absurd hm nofun
  | some b =>
    rw [hu, Option.map_some] at hm
    dsimp only at hm
    by_cases hb : b = 0
    · rw [if_pos hb] at hm
      dsimp only at hm
      rw [if_neg (by simp)] at hm
      unfold growHeap at hm
      cases hs : sbrk { h with safe := v } (toInt (totalSize n)) with
      | none =>
        rw [hs] at hm
        exact absurd hm nofun
      | some r =>
        obtain ⟨h1, block⟩ := r
        have hp1 := sbrk_onPage (hp.withSafe v) (toInt_pages (totalSize_pages hn).1) hs
        have hc := checkCanSplit_brk (newBlock h1 block (totalSize n)) block
          (totalSize n % 2 ^ 32) n
        rw [newBlock_brk] at hc
        rw [hs] at hm
        dsimp only at hm
        split at hm
        · obtain ⟨rfl, -⟩ := Prod.mk.inj (Option.some.inj hm)
          exact hp1.of_brk ((addFree_brk _ _).trans hc)
        · obtain ⟨rfl, -⟩ := Prod.mk.inj (Option.some.inj hm)
          exact hp1.of_brk hc
    · rw [if_neg hb, if_pos (serve_ne_zero hb)] at hm
      obtain ⟨rfl, -⟩ := Prod.mk.inj (Option.some.inj hm)
      exact hp.of_brk (serve_brk h n b)

theorem onPage_step {s t : Session} {c : Call} (hp : OnPage s.heap) (hc : Step s c t) :
    OnPage t.heap := by
  cases call_cases hc with
  | malloc n h' p hn hm => exact malloc_onPage hp hn hm
  | free q hq => exact hp.of_brk (addFree_brk _ _)
  | setfsm choice => exact hp.of_brk rfl
  | write q off v hq hoff => exact hp.of_brk rfl

/-! ## without memory -/

theorem growOutcome_killed (h1 : Heap) (block : Nat)
    (e : sysSbrk grants h (toInt (totalSize n)) = (h1, block))
    (ht : h1.top < block + headerSz) : growOutcome grants h n = .killed := by
  unfold growOutcome
  rw [e]
  exact if_pos ht

/-- the search and the way to new memory end in no NULL -/
theorem mallocOutcome_ne_null {h' : Heap} (e : mallocOutcome grants h n = .returned h' p) :
    p ≠ 0 := by
  have hpos : ∀ a, a + headerSz ≠ 0 := fun a => Nat.succ_ne_zero _
  unfold mallocOutcome at e
  split at e
  · exact absurd e nofun
  · split at e
    · obtain ⟨-, rfl⟩ := Outcome.returned.inj e
      exact hpos _
    · unfold growOutcome at e
      dsimp only at e
      split at e
      · exact absurd e nofun
      · split at e
        · split at e
          · exact absurd e nofun
          · obtain ⟨-, rfl⟩ := Outcome.returned.inj e
            exact hpos _
        · obtain ⟨-, rfl⟩ := Outcome.returned.inj e
          exact hpos _

/-- when the search finds nothing, the first store to the new block kills the process, unless the
`int` is one page -/
theorem growOutcome_unsupplied (hp : OnPage h) (hn : n < 2 ^ 32) (hno : Unsupplied grants h n) :
    growOutcome grants h n = .killed ∨ totalSize n = 2 ^ 32 + pageSz := by
  obtain ⟨hS, h32, hle⟩ := totalSize_pages hn
  have hb := hp.brk
  have hbl := hp.brkLe
  have htop := hp.top_eq
  unfold maxVa at hbl
  unfold pageSz at hb
  by_cases hbig : 2 ^ 31 ≤ totalSize n
  · have hk := toInt_large hbig hle
    by_cases hpage : totalSize n = 2 ^ 32 + pageSz
    · exact Or.inr hpage
    · unfold pageSz at hpage
      -- the process shrinks or stays, and the new block is at its old end
      obtain ⟨h1, e, hp1, hle1⟩ : ∃ h1, sysSbrk grants h (toInt (totalSize n)) = (h1, h.brk) ∧
          OnPage h1 ∧ h1.brk ≤ h.brk := by
        unfold sysSbrk
        rw [if_neg (by omega)]
        split
        · exact ⟨h, rfl, hp, Nat.le_refl _⟩
        · refine ⟨_, rfl, ⟨?_, ?_⟩, Nat.sub_le _ _⟩
          · show (h.brk - (-toInt (totalSize n)).toNat) % 4096 = 0
            omega
          · show h.brk - (-toInt (totalSize n)).toNat ≤ 2 ^ 38
            omega
      refine Or.inl (growOutcome_killed h1 h.brk e ?_)
      rw [hp1.top_eq]
      unfold headerSz
      omega
  · -- the address is -1
    have hm := hno.resolve_right hbig
    left
    unfold sysSbrk at hm
    refine growOutcome_killed h noMemory ?_ ?_
    · unfold sysSbrk
      split at hm
      · split at hm
        · unfold noMemory at hm
          dsimp only at hm
          omega
        · rename_i h1 h2
          rw [if_pos h1, if_neg h2]
      · split at hm
        · unfold noMemory at hm
          dsimp only at hm
          omega
        · unfold noMemory at hm
          dsimp only at hm
          omega
    · rw [htop]
      unfold noMemory headerSz
      omega

theorem Unsupplied.withSafe (hno : Unsupplied grants h n) (v : Bool) :
    Unsupplied grants { h with safe := v } n := by
  refine hno.imp (fun e => Eq.trans ?_ e) id
  unfold sysSbrk
  split
  · split
    · rfl
    · rfl
  · split
    · rfl
    · rfl

theorem fsmFind_none (hn : n < 2 ^ 32) (hs : fsmFind h n = some (h', 0)) :
    ∃ v, h' = { h with safe := v } := by
  obtain ⟨v, e⟩ := fsmFind_eq hn h
  rw [e] at hs
  obtain ⟨b, -, hb⟩ := Option.map_eq_some_iff.mp hs
  by_cases h0 : b = 0
  · rw [if_pos h0] at hb
    exact ⟨v, (Prod.mk.inj hb).1.symm⟩
  · rw [if_neg h0] at hb
    exact absurd (congrArg Prod.snd hb) (serve_ne_zero h0)

/-! ## with memory -/

def granted : Grants := fun _ size => decide (size ≤ maxVa)

theorem sysSbrk_granted {k : Int} {r : Heap × Nat} (hs : sbrk h k = some r) :
    sysSbrk granted h k = r := by
  unfold sbrk at hs
  unfold sysSbrk granted
  split at hs
  · split at hs
    · rename_i h1 h2
      rw [if_pos h1, if_pos (decide_eq_true h2)]
      exact Option.some.inj hs
    · exact absurd hs nofun
  · rename_i h1
    rw [if_neg h1]
    split at hs
    · rename_i h2
      rw [if_pos h2]
      exact Option.some.inj hs
    · rename_i h2
      rw [if_neg h2]
      exact Option.some.inj hs

theorem checkCanSplit_snd (b blockSize : Nat) (hne : (checkCanSplit h b blockSize n).2 ≠ 0) :
    (checkCanSplit h b blockSize n).2 = splitAt b blockSize (totalSizeNeeded n % 2 ^ 32) := by
  unfold checkCanSplit at hne ⊢
  dsimp only at hne ⊢
  split at hne
  · exact absurd rfl hne
  · rename_i h1
    rw [if_neg h1]
    split at hne
    · exact absurd rfl hne
    · rename_i h2
      rw [if_neg h2]
      split at hne
      · exact absurd rfl hne
      · rename_i h3
        rw [if_neg h3]
        rfl

/-- with memory below 2 GB the headers lie inside the new pages -/
theorem growOutcome_granted (hp : OnPage h) (hn : n < 2 ^ 32) (hS : totalSize n < 2 ^ 31)
    (hg : growHeap h n = some (h', p)) : growOutcome granted h n = .returned h' p := by
  obtain ⟨hS4, hS32, -⟩ := totalSize_pages hn
  have hT := totalSizeNeeded_spec hn
  have hTS := (totalSize_spec hn).1
  unfold headerSz at hS32 hT
  unfold growHeap at hg
  cases hs : sbrk h (toInt (totalSize n)) with
  | none =>
    rw [hs] at hg
    exact absurd hg nofun
  | some r =>
    obtain ⟨h1, block⟩ := r
    have hp1 := sbrk_onPage hp (toInt_pages hS4) hs
    rw [hs] at hg
    have hs' := hs
    rw [sbrk_of_pos (by omega) hS] at hs'
    have hbrk : block = h.brk ∧ h1.brk = h.brk + totalSize n ∧ h.brk + totalSize n ≤ maxVa := by
      split at hs'
      · obtain ⟨e1, e2⟩ := Prod.mk.inj (Option.some.inj hs')
        exact ⟨e2.symm, by rw [← e1], by assumption⟩
      · exact absurd hs' nofun
    obtain ⟨rfl, hb1, hle⟩ := hbrk
    unfold maxVa at hle
    have hmod : totalSize n % 2 ^ 32 = totalSize n := Nat.mod_eq_of_lt (by omega)
    have hc := checkCanSplit_brk (newBlock h1 h.brk (totalSize n)) h.brk (totalSize n % 2 ^ 32) n
    have hsnd := checkCanSplit_snd (h := newBlock h1 h.brk (totalSize n)) (n := n) h.brk
      (totalSize n % 2 ^ 32)
    unfold growOutcome
    rw [sysSbrk_granted hs]
    dsimp only at hg ⊢
    rw [if_neg (by rw [hp1.top_eq]; unfold headerSz; omega)]
    rw [newBlock_brk] at hc
    generalize checkCanSplit (newBlock h1 h.brk (totalSize n)) h.brk (totalSize n % 2 ^ 32) n = r
      at hg hc hsnd ⊢
    obtain ⟨h2, splitBlock⟩ := r
    dsimp only at hg hc hsnd ⊢
    by_cases hsp : splitBlock = 0
    · rw [if_neg (not_not.mpr hsp)] at hg ⊢
      obtain ⟨rfl, rfl⟩ := Prod.mk.inj (Option.some.inj hg)
      rfl
    · rw [if_pos hsp] at hg ⊢
      have hat := hsnd hsp
      rw [hmod, Nat.mod_eq_of_lt (by omega : totalSizeNeeded n < 2 ^ 32)] at hat
      unfold splitAt at hat
      rw [if_neg (by rw [(hp1.of_brk hc).top_eq, hc]; unfold headerSz; omega)]
      obtain ⟨rfl, rfl⟩ := Prod.mk.inj (Option.some.inj hg)
      rfl

/-- a call that gets its memory does what `malloc` does -/
theorem mallocOutcome_granted (hp : OnPage h) (hn : n < 2 ^ 32) (hS : totalSize n < 2 ^ 31)
    (hm : malloc h n = some (h', p)) : mallocOutcome granted h n = .returned h' p := by
  unfold malloc at hm
  unfold mallocOutcome
  cases hs : fsmFind h n with
  | none =>
    rw [hs] at hm
    exact absurd hm nofun
  | some r =>
    obtain ⟨h1, found⟩ := r
    rw [hs] at hm
    dsimp only at hm ⊢
    by_cases hf : found = 0
    · rw [if_neg (not_not.mpr hf)] at hm ⊢
      subst hf
      obtain ⟨v, rfl⟩ := fsmFind_none hn hs
      exact growOutcome_granted (hp.withSafe v) hn hS hm
    · rw [if_pos hf] at hm ⊢
      obtain ⟨rfl, rfl⟩ := Prod.mk.inj (Option.some.inj hm)
      rfl

end

/-! ## sessions -/

/-- `malloc` never returns NULL for want of memory: when no free block serves the request, the
process is killed, or it gets a page for 4 GB -/
theorem never_graceful (grants : Grants) (mem : Mem) (base : Nat) (l : List Call) (s : Session)
    (n : Nat) (hpage : base % pageSz = 0) (hle : base ≤ maxVa)
    (hrun : Run Step (start mem base) l s) (hn : n < 2 ^ 32)
    (hno : Unsupplied grants s.heap n) :
    ¬ Graceful s.heap (mallocOutcome grants s.heap n) ∧
      ((∃ h, fsmFind s.heap n = some (h, 0)) → mallocOutcome grants s.heap n = .killed ∨
        totalSize n = 2 ^ 32 + pageSz) := by
  have hp : OnPage s.heap :=
    hrun.invariant (I := fun s => OnPage s.heap) (fun _ _ _ hp hc => onPage_step hp hc)
      ⟨hpage, hle⟩
  refine ⟨?_, ?_⟩
  · rintro ⟨h', e, -⟩
    exact mallocOutcome_ne_null e rfl
  · rintro ⟨h, hs⟩
    obtain ⟨v, rfl⟩ := fsmFind_none hn hs
    have he : mallocOutcome grants s.heap n = growOutcome grants { s.heap with safe := v } n := by
      unfold mallocOutcome
      rw [hs]
      exact if_neg (not_not.mpr rfl)
    rw [he]
    exact growOutcome_unsupplied (hp.withSafe v) hn (hno.withSafe v)

def exhausted : Grants := fun _ _ => false

/-- the request of `mem` in `usertests.c` -/
theorem killed_without_memory :
    mallocOutcome exhausted (start (fun _ => 0) 16384).heap 10001 = .killed := by
  have hno : Unsupplied exhausted (start (fun _ => 0) 16384).heap 10001 :=
    Or.inl (by decide +kernel)
  exact ((never_graceful exhausted (fun _ => 0) 16384 [] _ 10001 (by decide) (by decide) (.nil _)
    (by decide) hno).2 ⟨_, rfl⟩).resolve_right (by decide +kernel)

/-- no page is left, and 3 GB are asked for while there are pages -/
theorem no_null : ¬ (∀ (grants : Grants) (mem : Mem) (base : Nat) (l : List Call) (s : Session)
    (n : Nat), base % pageSz = 0 → base ≤ maxVa → Run Step (start mem base) l s → n < 2 ^ 32 →
      Unsupplied grants s.heap n → Graceful s.heap (mallocOutcome grants s.heap n)) ∧
    growOutcome exhausted (start (fun _ => 0) 16384).heap 10001 = .killed ∧
    growOutcome granted (start (fun _ => 0) 16384).heap (3 * 2 ^ 30) = .killed := by
  refine ⟨fun hall => ?_, ?_, ?_⟩
  · obtain ⟨h', e, -⟩ := hall exhausted (fun _ => 0) 16384 [] _ 10001 (by decide) (by decide)
      (.nil _) (by decide) (Or.inl (by decide +kernel))
    exact mallocOutcome_ne_null e rfl
  · exact growOutcome_killed (start (fun _ => 0) 16384).heap noMemory rfl (by decide +kernel)
  · exact growOutcome_killed (start (fun _ => 0) 16384).heap 16384 rfl (by decide +kernel)

end Umalloc
