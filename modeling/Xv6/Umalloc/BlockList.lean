import Xv6.Umalloc.Intact

/-!
# The list of all blocks

`Complete h`: from `block_list_head` the links `next_block` visit every block once, and
`block_list_tail` and the links `prev_block` lead back.  `add_block` and `insert_split` keep it, but
`insert_split` leaves `block_list_tail` alone: when the last block is split, the new block stands
behind the tail, and the next block from the kernel cuts it off.  `complete_of_tidy_calls` is about
the sessions in which no split meets the tail.
-/

namespace Umalloc
open Lib

def BlockList (h : Heap) (L : List Nat) : Prop :=
  Dll 0 h.nextBlock h.prevBlock h.blockListHead h.blockListTail L

/-- the block list holds every block that was ever made, once -/
def Complete (h : Heap) : Prop := ∃ L, BlockList h L ∧ L.Perm h.created

section
variable {h h' : Heap} {F L : List Nat} {live : List (Nat × Nat)}

theorem prevBlock_of_frame {b : Nat} (e : ∀ x, b + 24 ≤ x → x < b + 32 → h'.mem x = h.mem x) :
    h'.prevBlock b = h.prevBlock b := load64_congr e

/-- the block list depends only on its links and end pointers -/
theorem Complete.congr (hl : Complete h)
    (em : ∀ b ∈ h.created, ∀ x, b + 16 ≤ x → x < b + 32 → h'.mem x = h.mem x)
    (ec : h'.created = h.created) (eh : h'.blockListHead = h.blockListHead)
    (et : h'.blockListTail = h.blockListTail) : Complete h' := by
  obtain ⟨L, hL, hp⟩ := hl
  refine ⟨L, ?_, ec ▸ hp⟩
  unfold BlockList
  rw [eh, et]
  refine Dll.congr hL (fun b hb => ?_) (fun b hb => ?_)
  · exact nextBlock_of_frame (fun x h1 h2 => em b (hp.mem_iff.mp hb) x h1 (by omega))
  · exact prevBlock_of_frame (fun x h1 h2 => em b (hp.mem_iff.mp hb) x (by omega) h2)

theorem complete_init (mem : Mem) (base : Nat) : Complete (Heap.init mem base) :=
  ⟨[], Dll.empty, List.Perm.nil⟩

/-- `add_block` puts the block from the kernel at the end -/
theorem Fresh.complete {m : Mem} {S : Nat} (hi : Intact h F live) (hl : Complete h)
    (hm : ∀ x < h.brk, m x = h.mem x)
    (f : Fresh { h with brk := h.brk + S, mem := m } h' h.brk S) : Complete h' := by
  obtain ⟨L, hL, hp⟩ := hl
  obtain ⟨m', g⟩ := f.globals
  have ec : h'.created = h.created ++ [h.brk] := by rw [g]
  have et : h'.blockListTail = h.brk := by rw [g]
  have eh : h'.blockListHead = if h.blockListHead = 0 then h.brk else h.blockListHead := by rw [g]
  have hb0 : h.brk ≠ 0 := Nat.ne_of_gt hi.brkPos
  refine ⟨L ++ [h.brk], ?_, ec ▸ hp.append_right [h.brk]⟩
  unfold BlockList
  rw [et, eh]
  rcases List.eq_nil_or_concat L with hnil | ⟨l, t, hcons⟩
  · subst hnil
    have h0 : h.blockListHead = 0 := chain_nil.mp hL.fwd
    have hprev : h'.prevBlock h.brk = 0 := f.prev.trans (if_pos h0)
    rw [if_pos h0]
    exact Dll.singleton hb0 f.next hprev
  · rw [List.concat_eq_append] at hcons
    subst hcons
    have h0 : h.blockListHead ≠ 0 := fun e => by
      simpa using hL.fwd.head_eq_null_iff.mp e
    have htail : h.blockListTail = t := Dll.tail_eq hL
    have hmem : ∀ y ∈ l ++ [t], y ∈ h.created := fun y hy => hp.mem_iff.mp hy
    have hbelow : ∀ y ∈ l ++ [t], y + 32 ≤ h.brk := fun y hy =>
      (le_metaEnd F y).trans (hi.below y (hmem y hy))
    have hfr : ∀ x < h.brk, (x < t + 16 ∨ t + 24 ≤ x) → h'.mem x = h.mem x := fun x hx hd =>
      (f.frame x hx (fun _ => by
        show x < h.blockListTail + 16 ∨ h.blockListTail + 24 ≤ x
        rw [htail]
        exact hd)).trans (hm x hx)
    have hfar : ∀ y ∈ l ++ [t], y ≠ t → y + 24 ≤ t ∨ t + 24 ≤ y := fun y hy hne =>
      hi.far (hmem y hy) (hmem t (by simp)) hne
    have hprev : h'.prevBlock h.brk = t := (f.prev.trans (if_neg h0)).trans htail
    have hlink : h'.nextBlock t = h.brk := by
      rw [← htail]
      exact f.link h0
    rw [if_neg h0]
    refine (htail ▸ hL : Dll 0 h.nextBlock h.prevBlock h.blockListHead t (l ++ [t])).snoc hb0
      (fun hin => ?_) (fun y hy => ?_) (fun y hy => ?_) hlink f.next hprev
    · have := hbelow _ hin
      omega
    · have hyt : y ≠ t := fun e => (List.nodup_append.mp hL.nodup).2.2 y hy t (by simp) e
      have h1 := hbelow y (by simp [hy])
      have h2 := hfar y (by simp [hy]) hyt
      exact nextBlock_of_frame (fun x h3 h4 => hfr x (by omega) (by omega))
    · have h1 := hbelow y hy
      refine prevBlock_of_frame (fun x h3 h4 => hfr x (by omega) ?_)
      by_cases e : y = t
      · omega
      · have h2 := hfar y hy e
        omega

/-- `insert_split` puts the new block behind `b`, which is not the last one -/
theorem Inserted.complete (hi : Intact h F live) (hl : Complete h) {b blockSize v new : Nat}
    (hins : Inserted h h' b blockSize v new) (hb : b ∈ h.created) (ht : b ≠ h.blockListTail)
    (hpos : 0 < new) (hnot : new ∉ h.created)
    (hv : ∀ c ∈ h.created, new + 32 ≤ c + 8 ∨ metaEnd F c ≤ new) : Complete h' := by
  obtain ⟨L, hL, hp⟩ := hl
  obtain ⟨m, g⟩ := hins.globals
  have ec : h'.created = h.created ++ [new] := by rw [g]
  have et : h'.blockListTail = h.blockListTail := by rw [g]
  have eh : h'.blockListHead = h.blockListHead := by rw [g]
  obtain ⟨l₁, l₂, rfl⟩ := List.append_of_mem (hp.mem_iff.mpr hb)
  cases l₂ with
  | nil => exact absurd (Dll.tail_eq hL).symm ht
  | cons y l₂ =>
    have hnext : h.nextBlock b = y := (chain_cons.mp (Dll.next hL)).1
    have hy0 : h.nextBlock b ≠ 0 := by
      rw [hnext]
      exact fun e => hL.fwd.1 (by simp [e])
    have hprev : h'.prevBlock y = new := by
      rw [← hnext]
      exact hins.prev_next hy0
    have hmem : ∀ z ∈ l₁ ++ b :: y :: l₂, z ∈ h.created := fun z hz => hp.mem_iff.mp hz
    have hyc : y ∈ h.created := hmem y (by simp)
    have hout : ∀ z ∈ h.created, ∀ x, z + 16 ≤ x → x < z + 32 → x < new ∨ new + 32 ≤ x :=
      fun z hz x h1 h2 => by
        have h3 := hv z hz
        have h4 := le_metaEnd F z
        omega
    -- a link of a node changes only for `b` forwards and for `y` backwards
    have hn : ∀ z ∈ h.created, z ≠ b → h'.nextBlock z = h.nextBlock z := fun z hz hne =>
      nextBlock_of_frame (fun x h1 h2 => by
        have h3 := hout z hz x h1 (by omega)
        have h4 : x < b + 8 ∨ b + 24 ≤ x := by
          have h5 := hi.far hz hb hne
          omega
        refine hins.frame x h4 h3 (fun _ => ?_)
        rw [hnext]
        by_cases e : y = z
        · omega
        · have h6 := hi.far hyc hz e
          omega)
    have hpv : ∀ z ∈ h.created, z ≠ y → h'.prevBlock z = h.prevBlock z := fun z hz hne =>
      prevBlock_of_frame (fun x h1 h2 => by
        have h3 := hout z hz x (by omega) h2
        have h4 : x < y + 24 ∨ y + 32 ≤ x := by
          have h5 := hi.far hz hyc hne
          omega
        refine hins.frame x ?_ h3 (fun _ => hnext ▸ h4)
        by_cases e : z = b
        · omega
        · have h6 := hi.far hz hb e
          omega)
    have hnod := List.nodup_append.mp hL.nodup
    have hnod₂ := List.nodup_cons.mp hnod.2.1
    have hnod₃ := List.nodup_cons.mp hnod₂.2
    refine ⟨l₁ ++ b :: new :: y :: l₂, ?_, ?_⟩
    · unfold BlockList
      rw [et, eh]
      refine Dll.insert hL (Nat.ne_of_gt hpos) (fun hin => hnot (hmem _ hin)) (fun z hz => ?_)
        hins.next_old hins.next_new (fun z hz => ?_) hprev hins.prev_new
      · rcases List.mem_append.mp hz with h1 | h1
        · exact hn z (hmem z (by simp [h1])) (hnod.2.2 z h1 b (by simp))
        · exact hn z (hmem z (by simp [List.mem_cons.mp h1])) (fun e => hnod₂.1 (e ▸ h1))
      · rcases List.mem_append.mp hz with h1 | h1
        · exact hpv z (hmem z (by simp [h1])) (hnod.2.2 z h1 y (by simp))
        · rcases List.mem_cons.mp h1 with rfl | h2
          · exact hpv z hb (fun e => hnod₂.1 (by simp [e]))
          · exact hpv z (hmem z (by simp [h2])) (fun e => hnod₃.1 (e ▸ h2))
    · rw [ec]
      have hmid : (l₁ ++ [b] ++ new :: (y :: l₂)).Perm (new :: (l₁ ++ [b] ++ (y :: l₂))) :=
        List.perm_middle
      have hperm : (l₁ ++ b :: new :: y :: l₂).Perm (new :: (l₁ ++ b :: y :: l₂)) := by
        simpa using hmid
      exact hperm.trans ((hp.cons new).trans (List.perm_append_singleton new h.created).symm)

end

/-! ## sessions -/

/-- the block list survives what `malloc` does with the block `b`, `0` for fresh memory: a block
from the kernel is not split, and neither is the one at the tail -/
def KeepsTail (h : Heap) (n b : Nat) : Prop :=
  if b = 0 then totalSize n < totalSizeNeeded n + minBlockSz
  else Refused h n b ∨ b ≠ h.blockListTail

instance (h : Heap) (n b : Nat) : Decidable (KeepsTail h n b) := by
  unfold KeepsTail
  infer_instance

/-- the call writes over nothing and does not split the last block -/
def Tidy (s : Session) : Call → Prop
  | .malloc n => Harmless s (.malloc n) ∧ ∀ b ∈ usedBlock s.heap n, KeepsTail s.heap n b
  | c => Harmless s c

instance (s : Session) (c : Call) : Decidable (Tidy s c) := by
  unfold Tidy
  exact match c with
  | .malloc n => inferInstanceAs (Decidable (_ ∧ ∀ b ∈ usedBlock s.heap n, KeepsTail s.heap n b))
  | .free ap => inferInstanceAs (Decidable (Harmless s (.free ap)))
  | .setfsm choice => inferInstanceAs (Decidable (Harmless s (.setfsm choice)))
  | .write ap off v => inferInstanceAs (Decidable (Harmless s (.write ap off v)))

theorem Tidy.harmless {s : Session} {c : Call} (h : Tidy s c) : Harmless s c := by
  cases c with
  | malloc n => exact h.1
  | free ap => exact h
  | setfsm choice => exact h
  | write ap off v => exact h

section
variable {s t : Session}

theorem complete_malloc {h' : Heap} {n p : Nat} (hs : Sound s) (hl : Complete s.heap)
    (hn : n < 2 ^ 32) (hok : Tidy s (.malloc n)) (hm : malloc s.heap n = some (h', p)) :
    Complete h' := by
  obtain ⟨F, hi⟩ := hs
  obtain ⟨hharm, hkeep⟩ := hok
  rcases malloc_cases hn hm with ⟨v, hu, hg⟩ | ⟨b, hb, hu, hr, rfl, rfl⟩ | ⟨b, hb, hu, hr, he⟩
  · have hk := hkeep 0 hu
    unfold KeepsTail at hk
    rw [if_pos rfl] at hk
    have hl' : Complete { s.heap with safe := v } := hl.congr (fun _ _ _ _ _ => rfl) rfl rfl rfl
    have hi0 := hi.withSafe v
    have hgr : Grown { s.heap with safe := v } n h' p :=
      growHeap_cases hn (hharm 0 hu).fresh hi0.brkPos hi0.tail_le hg
    cases hgr with
    | @whole m h1 hfresh hle fresh small =>
      have hf := fresh.complete hi0 hl' hfresh
      exact hf.congr (fun _ _ _ _ _ => rfl) rfl rfl rfl
    | cut hm hle fresh large => omega
  · have hbF : b ∈ F := hi.freeBlocks_eq ▸ used_mem hb hu
    have hbc := hi.free b hbF
    obtain ⟨l₁, l₂, rfl⟩ := List.append_of_mem hbF
    have hi1 := (hi.withSafe false).setSize (s.heap.size b ^^^ 1) hbc
    refine hl.congr (fun c hc x h1 h2 => ?_) (by rw [removeFree_created]; rfl)
      (by rw [removeFree_blockListHead]; rfl) (by rw [removeFree_blockListTail]; rfl)
    refine (hi1.removeFree_core hc (by omega) h2).trans (put_frame _ _ _ _ ?_)
    by_cases e : c = b
    · omega
    · have h3 := hi.far hc hbc e
      have h4 := hi.apart c hc b hbc e
      have h5 := le_metaEnd (l₁ ++ b :: l₂) c
      have h6 := le_metaEnd (l₁ ++ b :: l₂) b
      omega
  · obtain ⟨hpos, hv⟩ := (hharm b hu).split hb hr
    obtain ⟨rfl, rfl⟩ := he (Nat.ne_of_gt hpos)
    have hbF : b ∈ F := hi.freeBlocks_eq ▸ used_mem hb hu
    have hk := hkeep b hu
    unfold KeepsTail at hk
    rw [if_neg hb] at hk
    obtain ⟨hins, _, hnot⟩ := hi.carve hbF hpos hv
    have hl' : Complete { s.heap with safe := true } := hl.congr (fun _ _ _ _ _ => rfl) rfl rfl rfl
    generalize split { s.heap with safe := true } b (s.heap.size b % 2 ^ 32)
      (totalSizeNeeded n % 2 ^ 32) = r at hins ⊢
    refine hins.complete (hi.withSafe true) hl' (hi.free b hbF) (hk.resolve_left hr) hpos hnot
      (fun c hc => ?_)
    have h1 := hv.2.1 c hc (Nat.ne_of_gt (hi.pos c hc))
    rw [hi.freeBlocks_eq] at h1
    unfold headerSz at h1
    omega

theorem complete_free {q : Nat × Nat} (hs : Sound s) (hl : Complete s.heap) (hq : q ∈ s.live)
    (hok : Harmless s (.free q.1)) : Complete (free s.heap q.1) := by
  obtain ⟨F, hi⟩ := hs
  obtain ⟨h1, hb, hF⟩ := hi.used q hq
  obtain ⟨hle, hother, _⟩ := hok
  rw [hi.freeBlocks_eq] at hother
  have hq1 : q.1 - headerSz + 32 = q.1 := by
    unfold headerSz at h1 ⊢
    omega
  have hi1 := hi.setSize (s.heap.size (q.1 - headerSz) ||| 1) hb
  unfold free
  dsimp only
  refine hl.congr (fun c hc x h1 h2 => ?_) (by rw [addFree_created]; rfl)
    (by rw [addFree_blockListHead]; rfl) (by rw [addFree_blockListTail]; rfl)
  refine (hi1.addFree_core (fun d hd hne => ?_) hc (by omega) h2).trans (put_frame _ _ _ _ ?_)
  · have h3 := hother d hd hne
    omega
  · by_cases e : c = q.1 - headerSz
    · omega
    · have h3 := hi.apart c hc _ hb e
      have h4 := le_metaEnd F c
      have h5 := le_metaEnd F (q.1 - headerSz)
      omega

theorem complete_step {c : Call} (hs : Sound s) (hl : Complete s.heap)
    (hc : guarded Tidy Step s c t) : Complete t.heap := by
  obtain ⟨hok, hc⟩ := hc
  cases call_cases hc with
  | malloc n h' p hn hm => exact complete_malloc hs hl hn hok hm
  | free q hq => exact complete_free hs hl hq hok
  | setfsm choice => exact hl.congr (fun _ _ _ _ _ => rfl) rfl rfl rfl
  | write q off v hq hoff =>
    obtain ⟨F, hi⟩ := hs
    refine hl.congr (fun c hc x h1 h2 => Function.update_of_ne ?_ _ _) rfl rfl rfl
    have h3 := (hi.bytes q hq).2 c hc
    have h4 := le_metaEnd F c
    omega

end

/-- in every session in which no split meets the tail and nothing is written over -/
theorem complete_of_tidy_calls (mem : Mem) (base : Nat) (l : List Call) (s : Session) (h0 : 0 < base)
    (hle : base ≤ maxVa) (hrun : Run (guarded Tidy Step) (start mem base) l s) :
    Complete s.heap := by
  have hinv : Sound s ∧ Complete s.heap := by
    refine Run.invariant (I := fun s => Sound s ∧ Complete s.heap) ?_ hrun
      ⟨sound_start mem h0 hle, complete_init mem base⟩
    intro s c t hs hc
    exact ⟨sound_step hs.1 ⟨hc.1.harmless, hc.2⟩, complete_step hs.1 hs.2 hc⟩
  exact hinv.2

/-- two whole pages, and a split of the first one after it was freed -/
theorem complete_after_split : ∃ s, Run (guarded Tidy Step) (start (fun _ => 0) 16384)
    [.malloc 4064, .malloc 4064, .free 16416, .malloc 100] s ∧ Complete s.heap := by
  have hsome : (exec (fun s c => if Tidy s c then call s c else none) (start (fun _ => 0) 16384)
    [.malloc 4064, .malloc 4064, .free 16416, .malloc 100]).isSome = true := by decide +kernel
  obtain ⟨s, hs⟩ := Option.isSome_iff_exists.mp hsome
  have hrun : Run (guarded Tidy Step) (start (fun _ => 0) 16384)
      [.malloc 4064, .malloc 4064, .free 16416, .malloc 100] s := by
    refine Run.of_exec (fun s c t h => ?_) hs
    split at h
    · next hok => exact ⟨hok, h⟩
    · exact absurd h nofun
  exact ⟨s, hrun, complete_of_tidy_calls _ 16384 _ s (by decide) (by decide) hrun⟩

/-- one request of 100 bytes: the tail is still the first block, and the second one is behind it -/
theorem tail_not_moved : ¬ ∀ (mem : Mem) (base : Nat) (l : List Call) (s : Session),
    0 < base → base % pageSz = 0 → base ≤ maxVa → Run Step (start mem base) l s →
      Complete s.heap := by
  intro hall
  have hrun : (runCalls (start (fun _ => 0) 16384) [.malloc 100]).map
      (fun s => (s.heap.created, s.heap.blockListHead, s.heap.blockListTail))
      = some ([16384, 20336], 16384, 16384) := by decide +kernel
  obtain ⟨s, hs, e⟩ := Option.map_eq_some_iff.mp hrun
  obtain ⟨hc, e2⟩ := Prod.mk.inj e
  obtain ⟨hh, ht⟩ := Prod.mk.inj e2
  obtain ⟨L, hL, hp⟩ := hall _ 16384 _ s (by decide) (by decide) (by decide) (run_of_runCalls hs)
  rw [hc] at hp
  obtain ⟨a, b, rfl⟩ := List.length_eq_two.mp hp.length_eq
  have ha : s.heap.blockListHead = a := (chain_cons.mp hL.fwd).1
  have hb : s.heap.blockListTail = b := Dll.tail_eq (show Dll _ _ _ _ _ ([a] ++ [b]) from hL)
  have hne : a ≠ b := by simpa using hL.nodup
  exact hne (ha.symm.trans (hh.trans (ht.symm.trans hb)))

end Umalloc
