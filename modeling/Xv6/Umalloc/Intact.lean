import Xv6.Umalloc.Policy

/-!
# Headers and links that nobody writes over

The free bit in a stored size makes blocks drift into their neighbours, so `HeapInv` does not
survive the split of a free block.  `Intact` asks for less: the bytes of a header from `size` on,
and behind it the links of a free block, are shared with no other block and with no caller.  It
says nothing about sizes.  A call keeps it as long as the bytes it hands out or links through are
`Vacant` (`Intact.step`).
-/

namespace Umalloc
open Lib

/-- the end of the bytes that the allocator keeps in the block `c` -/
def metaEnd (F : List Nat) (c : Nat) : Nat := if c ∈ F then c + 48 else c + 32

structure Intact (h : Heap) (F : List Nat) (live : List (Nat × Nat)) : Prop where
  brkPos : 0 < h.brk
  brkLe : h.brk ≤ maxVa
  nodup : h.created.Nodup
  pos : ∀ b ∈ h.created, 0 < b
  below : ∀ b ∈ h.created, metaEnd F b ≤ h.brk
  apart : ∀ b ∈ h.created, ∀ c ∈ h.created, b ≠ c → metaEnd F b ≤ c + 8 ∨ metaEnd F c ≤ b + 8
  freeList : FreeList h F
  free : ∀ b ∈ F, b ∈ h.created
  used : ∀ q ∈ live, headerSz ≤ q.1 ∧ q.1 - headerSz ∈ h.created ∧ q.1 - headerSz ∉ F
  bytes : ∀ q ∈ live, q.1 + q.2 ≤ h.brk ∧
    ∀ c ∈ h.created, q.1 + q.2 ≤ c + 8 ∨ metaEnd F c ≤ q.1
  once : (live.map Prod.fst).Nodup
  tail : h.blockListHead ≠ 0 → h.blockListTail ∈ h.created
  next : ∀ b ∈ h.created, h.nextBlock b ≠ 0 → h.nextBlock b ∈ h.created

/-- `x` is a byte of the links of a block -/
def Tied (h : Heap) (F : List Nat) (x : Nat) : Prop := ∃ b ∈ h.created, b + 16 ≤ x ∧ x < metaEnd F b

theorem metaEnd_of_mem {F : List Nat} {c : Nat} (h : c ∈ F) : metaEnd F c = c + 48 := if_pos h

theorem metaEnd_of_not_mem {F : List Nat} {c : Nat} (h : c ∉ F) : metaEnd F c = c + 32 := if_neg h

theorem le_metaEnd (F : List Nat) (c : Nat) : c + 32 ≤ metaEnd F c := by
  unfold metaEnd
  split <;> omega

theorem metaEnd_mono {F G : List Nat} (hs : ∀ b ∈ F, b ∈ G) (c : Nat) : metaEnd F c ≤ metaEnd G c := by
  by_cases h : c ∈ F
  · rw [metaEnd_of_mem h, metaEnd_of_mem (hs c h)]
  · rw [metaEnd_of_not_mem h]
    exact le_metaEnd G c

theorem Intact.init (mem : Mem) {base : Nat} (h0 : 0 < base) (hle : base ≤ maxVa) :
    Intact (Heap.init mem base) [] [] where
  brkPos := h0
  brkLe := hle
  nodup := List.nodup_nil
  pos := fun _ hb => absurd hb List.not_mem_nil
  below := fun _ hb => absurd hb List.not_mem_nil
  apart := fun _ hb => absurd hb List.not_mem_nil
  freeList := Dll.empty
  free := fun _ hb => absurd hb List.not_mem_nil
  used := fun _ hb => absurd hb List.not_mem_nil
  bytes := fun _ hb => absurd hb List.not_mem_nil
  once := List.nodup_nil
  tail := fun h => absurd rfl h
  next := fun _ hb => absurd hb List.not_mem_nil

section
variable {h h' : Heap} {F : List Nat} {live : List (Nat × Nat)}

theorem nextBlock_congr {b : Nat} (hb : b ∈ h.created)
    (em : ∀ x, Tied h F x → h'.mem x = h.mem x) : h'.nextBlock b = h.nextBlock b :=
  nextBlock_of_frame (fun x h1 h2 => em x ⟨b, hb, h1, lt_of_lt_of_le (by omega) (le_metaEnd F b)⟩)

theorem Intact.lt_maxVa (hi : Intact h F live) {b : Nat} (hb : b ∈ h.created) : b + 32 ≤ maxVa :=
  (le_metaEnd F b).trans ((hi.below b hb).trans hi.brkLe)

theorem Intact.lt_word (hi : Intact h F live) {b : Nat} (hb : b ∈ h.created) : b < 2 ^ 64 := by
  have h1 := hi.lt_maxVa hb
  unfold maxVa at h1
  omega

theorem Intact.far (hi : Intact h F live) {b c : Nat} (hb : b ∈ h.created) (hc : c ∈ h.created)
    (hne : b ≠ c) : b + 24 ≤ c ∨ c + 24 ≤ b := by
  have h1 := hi.apart b hb c hc hne
  have h2 := le_metaEnd F b
  have h3 := le_metaEnd F c
  omega

theorem Intact.tail_le (hi : Intact h F live) (h0 : h.blockListHead ≠ 0) :
    h.blockListTail + 24 ≤ h.brk := by
  have h1 := hi.below _ (hi.tail h0)
  have h2 := le_metaEnd F h.blockListTail
  omega

theorem Intact.linksApart (hi : Intact h F live) : AllLinksApart F := by
  intro b hb c hc hne
  have h1 := hi.apart b (hi.free b hb) c (hi.free c hc) hne
  rw [metaEnd_of_mem hb, metaEnd_of_mem hc] at h1
  unfold LinksApart
  omega

theorem Intact.length_le (hi : Intact h F live) : F.length ≤ h.created.length :=
  List.Nodup.length_le_of_subset hi.freeList.nodup (fun b hb => hi.free b hb)

theorem Intact.freeBlocks_eq (hi : Intact h F live) : freeBlocks h = F :=
  walkFree_eq hi.freeList.fwd hi.length_le

theorem Intact.of_links (hi : Intact h F live) {G : List Nat} (eb : h'.brk = h.brk)
    (ec : h'.created = h.created) (ebh : h'.blockListHead = h.blockListHead)
    (ebt : h'.blockListTail = h.blockListTail) (hG : FreeList h' G) (hsub : ∀ b ∈ G, b ∈ F)
    (hn : ∀ b ∈ h.created, h'.nextBlock b = h.nextBlock b) : Intact h' G live := by
  have hm := metaEnd_mono hsub
  refine ⟨eb ▸ hi.brkPos, eb ▸ hi.brkLe, ec ▸ hi.nodup, ec ▸ hi.pos, ?_, ?_, hG, ?_, ?_, ?_, hi.once,
    ?_, ?_⟩
  · intro b hb
    rw [ec] at hb
    rw [eb]
    exact (hm b).trans (hi.below b hb)
  · intro b hb c hc hne
    rw [ec] at hb hc
    exact (hi.apart b hb c hc hne).imp ((hm b).trans ·) ((hm c).trans ·)
  · intro b hb
    rw [ec]
    exact hi.free b (hsub b hb)
  · intro q hq
    obtain ⟨h1, h2, h3⟩ := hi.used q hq
    rw [ec]
    exact ⟨h1, h2, fun hg => h3 (hsub _ hg)⟩
  · intro q hq
    obtain ⟨h1, h2⟩ := hi.bytes q hq
    rw [ec, eb]
    exact ⟨h1, fun c hc => (h2 c hc).imp id ((hm c).trans ·)⟩
  · rw [ebh, ebt, ec]
    exact hi.tail
  · intro b hb
    rw [ec] at hb ⊢
    rw [hn b hb]
    exact hi.next b hb

theorem Intact.congr (hi : Intact h F live) (em : ∀ x, Tied h F x → h'.mem x = h.mem x)
    (eb : h'.brk = h.brk) (ec : h'.created = h.created) (eh : h'.freeListHead = h.freeListHead)
    (et : h'.freeListTail = h.freeListTail) (ebh : h'.blockListHead = h.blockListHead)
    (ebt : h'.blockListTail = h.blockListTail) : Intact h' F live := by
  refine hi.of_links eb ec ebh ebt (hi.freeList.congr (fun x hx => em x ?_) eh et) (fun _ hb => hb)
    (fun b hb => nextBlock_congr hb em)
  obtain ⟨b, hb, h1, h2⟩ := hx
  exact ⟨b, hi.free b hb, by omega, by rw [metaEnd_of_mem hb]; omega⟩

theorem Intact.withSafe (hi : Intact h F live) (v : Bool) : Intact { h with safe := v } F live :=
  hi.congr (fun _ _ => rfl) rfl rfl rfl rfl rfl rfl

theorem Intact.drop (hi : Intact h F live) {live' : List (Nat × Nat)}
    (hs : List.Sublist live' live) : Intact h F live' :=
  { hi with
    used := fun q hq => hi.used q (hs.subset hq)
    bytes := fun q hq => hi.bytes q (hs.subset hq)
    once := hi.once.sublist (hs.map Prod.fst) }

theorem Intact.take (hi : Intact h F live) {b n : Nat} (hb : b ∈ h.created) (hF : b ∉ F)
    (hl : ∀ q ∈ live, q.1 - headerSz ≠ b) (hle : b + headerSz + n ≤ h.brk)
    (hv : ∀ c ∈ h.created, b + headerSz + n ≤ c + 8 ∨ metaEnd F c ≤ b + headerSz) :
    Intact h F ((b + headerSz, n) :: live) := by
  refine { hi with used := ?_, bytes := ?_, once := ?_ }
  · intro q hq
    rcases List.mem_cons.mp hq with rfl | h1
    · rw [Nat.add_sub_cancel]
      exact ⟨Nat.le_add_left _ _, hb, hF⟩
    · exact hi.used q h1
  · intro q hq
    rcases List.mem_cons.mp hq with rfl | h1
    · exact ⟨hle, hv⟩
    · exact hi.bytes q h1
  · rw [List.map_cons, List.nodup_cons]
    refine ⟨fun hm => ?_, hi.once⟩
    obtain ⟨q, hq, e⟩ := List.mem_map.mp hm
    exact hl q hq (by rw [e]; exact Nat.add_sub_cancel b headerSz)

/-! ## sizes and links are written -/

/-- no byte of a size field is a byte of a link -/
theorem Intact.not_tied (hi : Intact h F live) {b x : Nat} (hb : b ∈ h.created) (h1 : b + 8 ≤ x)
    (h2 : x < b + 16) : ¬ Tied h F x := by
  rintro ⟨c, hc, h3, h4⟩
  by_cases e : c = b
  · omega
  · have h5 := hi.apart c hc b hb e
    have h6 := le_metaEnd F b
    omega

theorem Intact.setSize (hi : Intact h F live) {b : Nat} (v : Nat) (hb : b ∈ h.created) :
    Intact (h.setSize b v) F live := by
  refine hi.congr (fun x hx => put_frame _ _ _ _ ?_) rfl rfl rfl rfl rfl rfl
  by_contra hc
  exact hi.not_tied hb (by omega) (by omega) hx

/-- `remove_free` writes no header -/
theorem Intact.removeFree_core {l₁ l₂ : List Nat} {r : Nat} (hi : Intact h (l₁ ++ r :: l₂) live)
    {b x : Nat} (hb : b ∈ h.created) (h1 : b + 8 ≤ x) (h2 : x < b + 32) :
    (removeFree h r).mem x = h.mem x := by
  refine removeFree_frame hi.freeList hi.linksApart ?_
  rintro ⟨c, hc, h3, h4⟩
  have hcF : c ∈ l₁ ++ r :: l₂ := by
    rcases List.mem_append.mp hc with h5 | h5 <;> simp [h5]
  by_cases e : c = b
  · omega
  · have h5 := hi.apart c (hi.free c hcF) b hb e
    rw [metaEnd_of_mem hcF] at h5
    have h6 := le_metaEnd (l₁ ++ r :: l₂) b
    omega

theorem Intact.removeFree {l₁ l₂ : List Nat} {r : Nat} (hi : Intact h (l₁ ++ r :: l₂) live) :
    Intact (removeFree h r) (l₁ ++ l₂) live := by
  have hsub : ∀ c ∈ l₁ ++ l₂, c ∈ l₁ ++ r :: l₂ := fun c hc => by
    rcases List.mem_append.mp hc with h1 | h1 <;> simp [h1]
  exact hi.of_links (by simp) (by simp) (by simp) (by simp)
    (removeFree_freeList hi.freeList hi.linksApart) hsub (fun b hb =>
      nextBlock_of_frame (fun x h1 h2 => hi.removeFree_core hb (by omega) (by omega)))

/-- `add_free` on `b` writes no header, if none is in its way -/
theorem Intact.addFree_core (hi : Intact h F live) {b c x : Nat}
    (hv : ∀ c ∈ h.created, c ≠ b → b + 48 ≤ c + 8 ∨ metaEnd F c ≤ b + 32) (hc : c ∈ h.created)
    (h1 : c + 8 ≤ x) (h2 : x < c + 32) : (addFree h b).mem x = h.mem x := by
  refine addFree_frame hi.freeList ?_
  rintro ⟨d, hd, h3, h4⟩
  have h7 := le_metaEnd F c
  rcases List.mem_append.mp hd with h5 | h5
  · by_cases e : d = c
    · omega
    · have h6 := hi.apart d (hi.free d h5) c hc e
      rw [metaEnd_of_mem h5] at h6
      omega
  · obtain rfl := List.mem_singleton.mp h5
    by_cases e : c = d
    · omega
    · have h6 := hv c hc e
      omega

/-- the free bit is not part of the bytes -/
theorem bytes_setSize {h : Heap} {b v : Nat} (hv : v / 2 = h.size b / 2) (hlt : v < 2 ^ 64) :
    (h.setSize b v).bytes b = h.bytes b := by
  have e : (h.setSize b v).size b = v := load64_store64_of_lt _ _ _ hlt
  unfold Heap.bytes
  rw [e, hv]

theorem bytes_setUsed (h : Heap) (b : Nat) : (setUsed h b).bytes b = h.bytes b := by
  refine bytes_setSize ?_ (Nat.xor_lt_two_pow (load64_lt _ _) (by decide))
  have e : (h.size b ^^^ 1) / 2 ^ 1 = h.size b / 2 ^ 1 ^^^ 1 / 2 ^ 1 := Nat.xor_div_two_pow
  simpa using e

theorem bytes_setFree (h : Heap) (b : Nat) : (setFree h b).bytes b = h.bytes b := by
  refine bytes_setSize ?_ (Nat.or_lt_two_pow (load64_lt _ _) (by decide))
  rw [or_one]
  omega

/-- links go behind the header of `b`: no other block and no caller may have bytes there -/
theorem Intact.addFree (hi : Intact h F live) {b : Nat} (hb : b ∈ h.created) (hF : b ∉ F)
    (hl : ∀ q ∈ live, q.1 - headerSz ≠ b) (hle : b + 48 ≤ h.brk)
    (hv : ∀ c ∈ h.created, c ≠ b → b + 48 ≤ c + 8 ∨ metaEnd F c ≤ b + 32)
    (hq : ∀ q ∈ live, q.1 + q.2 ≤ b + 32 ∨ b + 48 ≤ q.1) :
    Intact (addFree h b) (F ++ [b]) live := by
  have hend : ∀ c, c ≠ b → metaEnd (F ++ [b]) c = metaEnd F c := fun c hc => by
    unfold metaEnd
    simp [hc]
  have hendb : metaEnd (F ++ [b]) b = b + 48 := metaEnd_of_mem (by simp)
  have hap : ∀ c ∈ F, LinksApart c b := fun c hc => by
    have h1 := hi.apart c (hi.free c hc) b hb (fun e => hF (e ▸ hc))
    rw [metaEnd_of_mem hc, metaEnd_of_not_mem hF] at h1
    unfold LinksApart
    omega
  have hlist : FreeList (Umalloc.addFree h b) (F ++ [b]) :=
    addFree_freeList hi.freeList (Nat.ne_of_gt (hi.pos b hb)) (hi.lt_word hb)
      (fun c hc => hi.lt_word (hi.free c hc)) hap hi.linksApart
  have hnext : ∀ c ∈ h.created, (Umalloc.addFree h b).nextBlock c = h.nextBlock c := fun c hc =>
    nextBlock_of_frame (fun x h1 h2 => hi.addFree_core hv hc (by omega) (by omega))
  refine ⟨?_, ?_, ?_, ?_, ?_, ?_, hlist, ?_, ?_, ?_, hi.once, ?_, ?_⟩
  · rw [addFree_brk]
    exact hi.brkPos
  · rw [addFree_brk]
    exact hi.brkLe
  · rw [addFree_created]
    exact hi.nodup
  · rw [addFree_created]
    exact hi.pos
  · rw [addFree_created, addFree_brk]
    intro c hc
    by_cases e : c = b
    · rw [e, hendb]
      exact hle
    · rw [hend c e]
      exact hi.below c hc
  · rw [addFree_created]
    intro c hc d hd hne
    by_cases e : c = b
    · have hd' := hv d hd (fun e' => hne (e.trans e'.symm))
      rw [hend d (fun e' => hne (e.trans e'.symm)), e, hendb]
      have h1 := hi.apart b hb d hd (fun e' => hne (e.trans e'))
      rw [metaEnd_of_not_mem hF] at h1
      have h2 := le_metaEnd F d
      omega
    · rw [hend c e]
      by_cases e' : d = b
      · have hc' := hv c hc e
        rw [e', hendb]
        have h1 := hi.apart c hc b hb e
        rw [metaEnd_of_not_mem hF] at h1
        have h2 := le_metaEnd F c
        omega
      · rw [hend d e']
        exact hi.apart c hc d hd hne
  · rw [addFree_created]
    intro c hc
    rcases List.mem_append.mp hc with h1 | h1
    · exact hi.free c h1
    · rw [List.mem_singleton.mp h1]
      exact hb
  · rw [addFree_created]
    intro q hql
    obtain ⟨h1, h2, h3⟩ := hi.used q hql
    refine ⟨h1, h2, fun hm => ?_⟩
    rcases List.mem_append.mp hm with h4 | h4
    · exact h3 h4
    · exact hl q hql (List.mem_singleton.mp h4)
  · rw [addFree_created, addFree_brk]
    intro q hql
    obtain ⟨h1, h2⟩ := hi.bytes q hql
    refine ⟨h1, fun c hc => ?_⟩
    by_cases e : c = b
    · have h3 := hq q hql
      have h4 := h2 b hb
      have h5 := hl q hql
      have h6 := (hi.used q hql).1
      unfold headerSz at h5 h6
      rw [metaEnd_of_not_mem hF] at h4
      rw [e, hendb]
      omega
    · rw [hend c e]
      exact h2 c hc
  · rw [addFree_blockListHead, addFree_blockListTail, addFree_created]
    exact hi.tail
  · rw [addFree_created]
    intro c hc
    rw [hnext c hc]
    exact hi.next c hc

/-! ## blocks are made -/

/-- a block beyond all others, from memory that the kernel just added -/
theorem Fresh.intact {m : Mem} {S : Nat} (hi : Intact h F live) (hm : ∀ x < h.brk, m x = h.mem x)
    (f : Fresh { h with brk := h.brk + S, mem := m } h' h.brk S) (hS : 32 ≤ S)
    (hle : h.brk + S ≤ maxVa) : Intact h' F live ∧ h.brk ∉ h.created := by
  obtain ⟨m', g⟩ := f.globals
  have ec : h'.created = h.created ++ [h.brk] := by rw [g]
  have eb : h'.brk = h.brk + S := by rw [g]
  have hnotin : h.brk ∉ h.created := fun hin => by
    have h1 := hi.below _ hin
    have h2 := le_metaEnd F h.brk
    omega
  have hF : h.brk ∉ F := fun hin => hnotin (hi.free _ hin)
  have hend : metaEnd F h.brk = h.brk + 32 := metaEnd_of_not_mem hF
  have hfr : ∀ x < h.brk, (h.blockListHead ≠ 0 → x < h.blockListTail + 16 ∨ h.blockListTail + 24 ≤ x) →
      h'.mem x = h.mem x := fun x hx hd => (f.frame x hx hd).trans (hm x hx)
  refine ⟨⟨?_, by rw [eb]; exact hle, ?_, ?_, ?_, ?_, ?_, ?_, ?_, ?_, hi.once, ?_, ?_⟩, hnotin⟩
  · have := hi.brkPos
    omega
  · rw [ec]
    exact nodup_concat hi.nodup hnotin
  · rw [ec]
    exact forall_concat hi.pos hi.brkPos
  · rw [ec, eb]
    refine forall_concat (fun d hd => ?_) (by rw [hend]; omega)
    have := hi.below d hd
    omega
  · rw [ec]
    refine apart_concat hi.apart (fun d hd => ?_) (fun d hd => ?_)
    · have := hi.below d hd
      omega
    · have := hi.below d hd
      omega
  · refine hi.freeList.congr (fun x hx => ?_) (by rw [g]) (by rw [g])
    obtain ⟨d, hd, h1, h2⟩ := hx
    have h3 := hi.below d (hi.free d hd)
    rw [metaEnd_of_mem hd] at h3
    refine hfr x (by omega) (fun h0 => ?_)
    by_cases e : h.blockListTail = d
    · omega
    · have h4 := hi.apart _ (hi.tail h0) d (hi.free d hd) e
      have h5 := le_metaEnd F h.blockListTail
      rw [metaEnd_of_mem hd] at h4
      omega
  · intro b hb
    rw [ec]
    exact List.mem_append_left _ (hi.free b hb)
  · intro q hq
    obtain ⟨h1, h2, h3⟩ := hi.used q hq
    rw [ec]
    exact ⟨h1, List.mem_append_left _ h2, h3⟩
  · intro q hq
    obtain ⟨h1, h2⟩ := hi.bytes q hq
    rw [ec, eb]
    exact ⟨by omega, forall_concat h2 (by omega)⟩
  · rw [ec, g]
    exact fun _ => by simp
  · rw [ec]
    refine forall_concat (fun d h1 => ?_) (by rw [f.next]; exact fun h2 => absurd rfl h2)
    by_cases e : h.blockListHead ≠ 0 ∧ d = h.blockListTail
    · obtain ⟨h0, rfl⟩ := e
      rw [f.link h0]
      exact fun _ => by simp
    · have hsame : h'.nextBlock d = h.nextBlock d := nextBlock_of_frame (fun x h2 h3 => by
        have h4 := hi.below d h1
        have h5 := le_metaEnd F d
        refine hfr x (by omega) (fun h0 => ?_)
        have h6 := hi.far (hi.tail h0) h1 (fun e' => e ⟨h0, e'.symm⟩)
        omega)
      rw [hsame]
      exact fun h2 => List.mem_append_left _ (hi.next d h1 h2)

theorem Intact.separate (hi : Intact h F live) {b new : Nat} (hb : b ∈ h.created)
    (hv : ∀ c ∈ h.created, new + 32 ≤ c + 8 ∨ metaEnd F c ≤ new) : Separate h b new := by
  have hapart : ∀ c ∈ h.created, new + 32 ≤ c + 8 ∨ c + 32 ≤ new := fun c hc =>
    (hv c hc).imp id ((le_metaEnd F c).trans ·)
  refine ⟨hapart b hb, fun h0 => hapart _ (hi.next b hb h0), fun h0 => ?_⟩
  by_cases e : h.nextBlock b = b
  · exact Or.inl e
  · exact Or.inr (hi.far (hi.next b hb h0) hb e)

/-- `split` writes the header of the new block, the size and the forward link of `b`, and the
backward link of the block behind `b` -/
theorem Inserted.intact (hi : Intact h F live) {b blockSize v n new : Nat}
    (hins : Inserted h h' b blockSize v new) (hb : b ∈ h.created) (hpos : 0 < new)
    (hle : new + 32 + n ≤ h.brk)
    (hv : ∀ c ∈ h.created, new + 32 + n ≤ c + 8 ∨ metaEnd F c ≤ new)
    (hq : ∀ q ∈ live, q.1 + q.2 ≤ new ∨ new + 32 + n ≤ q.1) :
    Intact h' F ((new + headerSz, n) :: live) ∧ new ∉ h.created := by
  obtain ⟨m, g⟩ := hins.globals
  have ec : h'.created = h.created ++ [new] := by rw [g]
  have eb : h'.brk = h.brk := by rw [g]
  have hnotin : new ∉ h.created := fun hin => by
    have h1 := hv new hin
    have h2 := le_metaEnd F new
    omega
  have hF : new ∉ F := fun hin => hnotin (hi.free _ hin)
  have hend : metaEnd F new = new + 32 := metaEnd_of_not_mem hF
  have hnext : ∀ d ∈ h.created, d ≠ b → h'.nextBlock d = h.nextBlock d := fun d hd hne =>
    nextBlock_of_frame (fun x h1 h2 => by
      have h3 := hi.far hd hb hne
      have h4 := hv d hd
      have h5 := le_metaEnd F d
      refine hins.frame x (by omega) (by omega) (fun h0 => ?_)
      by_cases e : h.nextBlock b = d
      · omega
      · have h6 := hi.far (hi.next b hb h0) hd e
        omega)
  have hbase : Intact h' F live := by
    refine ⟨eb ▸ hi.brkPos, eb ▸ hi.brkLe, ?_, ?_, ?_, ?_, ?_, ?_, ?_, ?_, hi.once, ?_, ?_⟩
    · rw [ec]
      exact nodup_concat hi.nodup hnotin
    · rw [ec]
      exact forall_concat hi.pos hpos
    · rw [ec, eb]
      exact forall_concat hi.below (by rw [hend]; omega)
    · rw [ec]
      refine apart_concat hi.apart (fun d hd => ?_) (fun d hd => ?_)
      · have h3 := hv d hd
        rw [hend]
        omega
      · have h3 := hv d hd
        rw [hend]
        omega
    · refine hi.freeList.congr (fun x hx => ?_) (by rw [g]) (by rw [g])
      obtain ⟨d, hd, h1, h2⟩ := hx
      have hdc := hi.free d hd
      have h3 := hv d hdc
      rw [metaEnd_of_mem hd] at h3
      have hother : ∀ c ∈ h.created, c ≠ d → x < c + 8 ∨ c + 32 ≤ x := fun c hc hne => by
        have h4 := hi.apart c hc d hdc hne
        have h5 := le_metaEnd F c
        rw [metaEnd_of_mem hd] at h4
        omega
      refine hins.frame x ?_ (by omega) (fun h0 => ?_)
      · by_cases e : b = d
        · omega
        · have h4 := hother b hb e
          omega
      · by_cases e : h.nextBlock b = d
        · omega
        · have h4 := hother _ (hi.next b hb h0) e
          omega
    · intro d hd
      rw [ec]
      exact List.mem_append_left _ (hi.free d hd)
    · intro q hql
      obtain ⟨h1, h2, h3⟩ := hi.used q hql
      rw [ec]
      exact ⟨h1, List.mem_append_left _ h2, h3⟩
    · intro q hql
      obtain ⟨h1, h2⟩ := hi.bytes q hql
      rw [ec, eb]
      refine ⟨h1, forall_concat h2 ?_⟩
      have h4 := hq q hql
      rw [hend]
      omega
    · rw [ec, g]
      exact fun h0 => List.mem_append_left _ (hi.tail h0)
    · rw [ec]
      refine forall_concat (fun d h1 => ?_) ?_
      · by_cases e : d = b
        · rw [e, hins.next_old]
          exact fun _ => by simp
        · rw [hnext d h1 e]
          exact fun h2 => List.mem_append_left _ (hi.next d h1 h2)
      · rw [hins.next_new]
        exact fun h2 => List.mem_append_left _ (hi.next b hb h2)
  refine ⟨hbase.take (by rw [ec]; simp) hF (fun q hql e => ?_) (by rw [eb]; exact hle) ?_, hnotin⟩
  · exact hnotin (e ▸ (hi.used q hql).2.1)
  · rw [ec]
    unfold headerSz
    refine forall_concat (fun c hc => ?_) (by rw [hend]; omega)
    have h2 := hv c hc
    omega

theorem Grown.intact (hi : Intact h F live) {n p : Nat} (hn : n < 2 ^ 32)
    (hS : totalSize n < 2 ^ 31) (hg : Grown h n h' p) :
    (∃ F', Intact h' F' ((p, n) :: live)) ∧ totalSizeNeeded n ≤ h'.bytes (p - headerSz) := by
  have hT := totalSizeNeeded_spec hn
  have hTS := totalSize_spec hn
  have hbrk := hi.brkPos
  have hbelow := hi.below
  have hbytes := hi.bytes
  unfold headerSz at hT
  cases hg with
  | @whole m h1 hm hle fresh small =>
    obtain ⟨hi1, hnot⟩ := fresh.intact hi hm (by omega) hle
    obtain ⟨m1, g1⟩ := fresh.globals
    have ec : h1.created = h.created ++ [h.brk] := by rw [g1]
    have eb : h1.brk = h.brk + totalSize n := by rw [g1]
    have hBF : h.brk ∉ F := fun hF => hnot (hi.free _ hF)
    have hsize : h1.size (h.brk + headerSz - headerSz) = totalSize n := by
      rw [Nat.add_sub_cancel]
      exact fresh.size
    refine ⟨⟨F, (hi1.withSafe false).take (by show h.brk ∈ h1.created; rw [ec]; simp) hBF
      (fun q hq e => hnot (e ▸ (hi.used q hq).2.1)) ?_ (fun c hc => ?_)⟩, ?_⟩
    · show h.brk + headerSz + n ≤ h1.brk
      unfold headerSz
      omega
    · have hc' : c ∈ h.created ++ [h.brk] := ec ▸ hc
      unfold headerSz
      rcases List.mem_append.mp hc' with h2 | h2
      · have := hbelow c h2
        omega
      · rw [List.mem_singleton.mp h2, metaEnd_of_not_mem hBF]
        omega
    · show totalSizeNeeded n ≤ h1.size (h.brk + headerSz - headerSz) / 2 * 2
      rw [hsize]
      omega
  | @cut m h1 hm hle fresh large =>
    unfold minBlockSz at large
    obtain ⟨hi1, hnot⟩ := fresh.intact hi hm (by omega) hle
    obtain ⟨m1, g1⟩ := fresh.globals
    have ec : h1.created = h.created ++ [h.brk] := by rw [g1]
    have eb : h1.brk = h.brk + totalSize n := by rw [g1]
    have hBF : h.brk ∉ F := fun hF => hnot (hi.free _ hF)
    have hB : h.brk ∈ h1.created := by rw [ec]; simp
    unfold maxVa at hle
    have hnew : splitAt h.brk (totalSize n) (totalSizeNeeded n)
        = h.brk + totalSize n - totalSizeNeeded n := by
      unfold splitAt
      omega
    have hend : ∀ c ∈ h1.created, metaEnd F c ≤ h.brk + 32 := fun c hc => by
      rcases List.mem_append.mp (ec ▸ hc) with h2 | h2
      · have := hbelow c h2
        omega
      · rw [List.mem_singleton.mp h2, metaEnd_of_not_mem hBF]
    -- the bytes from the end of the rest on belong to nobody
    have hins : Inserted { h1 with safe := true } _ h.brk (totalSize n) (totalSizeNeeded n)
        (splitAt h.brk (totalSize n) (totalSizeNeeded n)) :=
      split_inserted (by omega) (by omega) ((hi1.withSafe true).separate hB (fun c hc => by
        have := hend c hc
        rw [hnew]
        omega))
    rw [hnew] at hins
    generalize split { h1 with safe := true } h.brk (totalSize n) (totalSizeNeeded n) = r at hins ⊢
    obtain ⟨m2, g2⟩ := hins.globals
    have ec2 : r.1.created = h1.created ++ [h.brk + totalSize n - totalSizeNeeded n] := by rw [g2]
    have eb2 : r.1.brk = h1.brk := by rw [g2]
    obtain ⟨hi2, hnn⟩ := hins.intact (n := n) (hi1.withSafe true) hB (by omega)
      (by show _ ≤ h1.brk; omega)
      (fun c hc => by
        have := hend c hc
        omega)
      (fun q hq => by
        have := (hbytes q hq).1
        omega)
    have hB2 : h.brk ∈ r.1.created := by rw [ec2]; exact List.mem_append_left _ hB
    have hn2 : h.brk + totalSize n - totalSizeNeeded n ∈ r.1.created := by rw [ec2]; simp
    have hi3 := hi2.setSize (r.1.size h.brk ||| 1) hB2
    have hfar : ∀ c ∈ r.1.created, c ≠ h.brk → h.brk + 48 ≤ c + 8 ∨ metaEnd F c ≤ h.brk + 32 := by
      intro c hc _
      rcases List.mem_append.mp (ec2 ▸ hc) with h2 | h2
      · exact Or.inr (hend c h2)
      · rw [List.mem_singleton.mp h2]
        omega
    refine ⟨⟨F ++ [h.brk], hi3.addFree hB2 hBF (fun q hq e => ?_) ?_ hfar (fun q hq => ?_)⟩, ?_⟩
    · rcases List.mem_cons.mp hq with rfl | h2
      · unfold headerSz at e
        omega
      · exact hnot (e ▸ (hi.used q h2).2.1)
    · show h.brk + 48 ≤ r.1.brk
      omega
    · rcases List.mem_cons.mp hq with rfl | h2
      · unfold headerSz
        omega
      · have := (hbytes q h2).1
        omega
    · have hsize : (Umalloc.addFree (setFree r.1 h.brk) h.brk).size
          (h.brk + totalSize n - totalSizeNeeded n) = totalSizeNeeded n := by
        refine Eq.trans (size_of_frame (fun x h2 h3 => ?_)) hins.size_new
        exact (hi3.addFree_core hfar hn2 h2 (by omega)).trans (put_frame _ _ _ _ (by omega))
      unfold Heap.bytes
      rw [Nat.add_sub_cancel, hsize]
      omega

end

/-! ## calls that write over nothing -/

/-- no other block has its header or links in `[lo, hi)`, and no other caller has bytes there -/
def Vacant (s : Session) (skip lo hi : Nat) : Prop :=
  hi ≤ s.heap.brk ∧
  (∀ c ∈ s.heap.created, c ≠ skip → hi ≤ c + 8 ∨ metaEnd (freeBlocks s.heap) c ≤ lo) ∧
  ∀ q ∈ s.live, q.1 ≠ skip + headerSz → q.1 + q.2 ≤ lo ∨ hi ≤ q.1

instance (s : Session) (skip lo hi : Nat) : Decidable (Vacant s skip lo hi) :=
  inferInstanceAs (Decidable (_ ∧ _ ∧ _))

/-- where a split of `b` for `n` bytes puts the new block -/
def carved (h : Heap) (n b : Nat) : Nat :=
  splitAt b (h.size b % 2 ^ 32) (totalSizeNeeded n % 2 ^ 32)

/-- what `malloc` hands out of the block `b`, `0` for fresh memory, is nobody else's -/
def MallocHarmless (s : Session) (n b : Nat) : Prop :=
  if b = 0 then totalSize n < 2 ^ 31
  else if Refused s.heap n b then Vacant s b (b + headerSz) (b + headerSz + n)
  else 0 < carved s.heap n b ∧
    Vacant s 0 (carved s.heap n b) (carved s.heap n b + headerSz + n)

instance (s : Session) (n b : Nat) : Decidable (MallocHarmless s n b) := by
  unfold MallocHarmless
  infer_instance

/-- the call writes no header, no links and no caller's bytes but its own: `malloc` with what it
hands out, `free` with the links that it puts behind the header -/
def Harmless (s : Session) : Call → Prop
  | .malloc n => ∀ b ∈ usedBlock s.heap n, MallocHarmless s n b
  | .free ap => Vacant s (ap - headerSz) ap (ap + 16)
  | .setfsm _ => True
  | .write _ _ _ => True

instance (s : Session) (c : Call) : Decidable (Harmless s c) := by
  unfold Harmless
  exact match c with
  | .malloc n => inferInstanceAs (Decidable (∀ b ∈ usedBlock s.heap n, MallocHarmless s n b))
  | .free _ => inferInstance
  | .setfsm _ => inferInstance
  | .write _ _ _ => inferInstance

/-- some list of free blocks fits the heap -/
def Sound (s : Session) : Prop := ∃ F, Intact s.heap F s.live

theorem sound_start (mem : Mem) {base : Nat} (h0 : 0 < base) (hle : base ≤ maxVa) :
    Sound (start mem base) := ⟨[], Intact.init mem h0 hle⟩

section
variable {s t : Session} {F : List Nat}

theorem MallocHarmless.fresh {n : Nat} (h : MallocHarmless s n 0) : totalSize n < 2 ^ 31 := by
  unfold MallocHarmless at h
  rwa [if_pos rfl] at h

theorem MallocHarmless.whole {n b : Nat} (h : MallocHarmless s n b) (hb : b ≠ 0)
    (hr : Refused s.heap n b) : Vacant s b (b + headerSz) (b + headerSz + n) := by
  unfold MallocHarmless at h
  rwa [if_neg hb, if_pos hr] at h

theorem MallocHarmless.split {n b : Nat} (h : MallocHarmless s n b) (hb : b ≠ 0)
    (hr : ¬ Refused s.heap n b) : 0 < carved s.heap n b ∧
      Vacant s 0 (carved s.heap n b) (carved s.heap n b + headerSz + n) := by
  unfold MallocHarmless at h
  rwa [if_neg hb, if_neg hr] at h

theorem Intact.whole (hi : Intact s.heap F s.live) {n b : Nat} (hb : b ∈ F)
    (hv : Vacant s b (b + headerSz) (b + headerSz + n)) :
    (∃ F', Intact (Umalloc.removeFree (setUsed { s.heap with safe := false } b) b) F'
      ((b + headerSz, n) :: s.live)) ∧
    (Umalloc.removeFree (setUsed { s.heap with safe := false } b) b).bytes b = s.heap.bytes b := by
  obtain ⟨l₁, l₂, rfl⟩ := List.append_of_mem hb
  have hbc := hi.free b hb
  have hmid := FreeList.mid_not_mem hi.freeList
  have hnot : b ∉ l₁ ++ l₂ := fun hm => (List.mem_append.mp hm).elim hmid.1 hmid.2
  have hsub : ∀ c ∈ l₁ ++ l₂, c ∈ l₁ ++ b :: l₂ := fun c hc => by
    rcases List.mem_append.mp hc with h1 | h1 <;> simp [h1]
  obtain ⟨hle, hother, _⟩ := hv
  rw [hi.freeBlocks_eq] at hother
  have hi0 := (hi.withSafe false).setSize (s.heap.size b ^^^ 1) hbc
  have hi1 := hi0.removeFree
  refine ⟨⟨l₁ ++ l₂, hi1.take (by rw [removeFree_created]; exact hbc) hnot ?_
    (by rw [removeFree_brk]; exact hle) (fun c hc => ?_)⟩, ?_⟩
  · intro q hq e
    exact (hi.used q hq).2.2 (e ▸ hb)
  · rw [removeFree_created] at hc
    by_cases e : c = b
    · rw [e, metaEnd_of_not_mem hnot]
      exact Or.inr (Nat.le_refl _)
    · exact (hother c hc e).imp id ((metaEnd_mono hsub c).trans ·)
  · have hsize : (Umalloc.removeFree (setUsed { s.heap with safe := false } b) b).size b
        = (setUsed { s.heap with safe := false } b).size b :=
      size_of_frame (fun x h1 h2 => hi0.removeFree_core hbc h1 (by omega))
    unfold Heap.bytes
    rw [hsize]
    exact bytes_setUsed { s.heap with safe := false } b

theorem Intact.carve (hi : Intact s.heap F s.live) {n b : Nat} (hb : b ∈ F)
    (hpos : 0 < carved s.heap n b)
    (hv : Vacant s 0 (carved s.heap n b) (carved s.heap n b + headerSz + n)) :
    Inserted { s.heap with safe := true } (Umalloc.split { s.heap with safe := true } b
      (s.heap.size b % 2 ^ 32) (totalSizeNeeded n % 2 ^ 32)).1 b (s.heap.size b % 2 ^ 32)
      (totalSizeNeeded n % 2 ^ 32) (carved s.heap n b) ∧
    Intact (Umalloc.split { s.heap with safe := true } b (s.heap.size b % 2 ^ 32)
      (totalSizeNeeded n % 2 ^ 32)).1 F ((carved s.heap n b + headerSz, n) :: s.live) ∧
    carved s.heap n b ∉ s.heap.created := by
  have hbc := hi.free b hb
  obtain ⟨hle, hother, hlive⟩ := hv
  rw [hi.freeBlocks_eq] at hother
  unfold headerSz at hle hother
  have hva : ∀ c ∈ s.heap.created, carved s.heap n b + 32 + n ≤ c + 8 ∨
      metaEnd F c ≤ carved s.heap n b := fun c hc => hother c hc (Nat.ne_of_gt (hi.pos c hc))
  have hi1 := hi.withSafe true
  have hins : Inserted { s.heap with safe := true } _ b (s.heap.size b % 2 ^ 32)
      (totalSizeNeeded n % 2 ^ 32) (carved s.heap n b) :=
    split_inserted (hi.lt_word hbc) ((Nat.mod_lt _ (by decide)).trans (by decide))
      (show Separate _ b (carved s.heap n b) from
        hi1.separate hbc (fun c hc => (hva c hc).imp (by omega) id))
  obtain ⟨hi2, hnot⟩ := hins.intact hi1 hbc hpos hle hva (fun q hq => hlive q hq (fun e => by
    obtain ⟨h1, h2, _⟩ := hi.used q hq
    have h3 := hi.pos _ h2
    unfold headerSz at h1 h3 e
    omega))
  exact ⟨hins, hi2, hnot⟩

theorem sound_malloc {h' : Heap} {n p : Nat} (hs : Sound s) (hn : n < 2 ^ 32)
    (hok : Harmless s (.malloc n)) (hm : malloc s.heap n = some (h', p)) :
    Sound { heap := h', live := (p, n) :: s.live } ∧
      (totalSizeNeeded n < 2 ^ 32 → totalSizeNeeded n ≤ h'.bytes (p - headerSz)) := by
  have hT := totalSizeNeeded_spec hn
  obtain ⟨F, hi⟩ := hs
  rcases malloc_cases hn hm with ⟨v, hu, hg⟩ | ⟨b, hb, hu, hr, rfl, rfl⟩ | ⟨b, hb, hu, hr, he⟩
  · have hi0 := hi.withSafe v
    obtain ⟨h1, h2⟩ := Grown.intact hi0 hn (hok 0 hu).fresh
      (growHeap_cases hn (hok 0 hu).fresh hi0.brkPos hi0.tail_le hg)
    exact ⟨h1, fun _ => h2⟩
  · obtain ⟨h1, h2⟩ := hi.whole (hi.freeBlocks_eq ▸ used_mem hb hu) ((hok b hu).whole hb hr)
    refine ⟨h1, fun _ => ?_⟩
    have h3 := hr.1
    have h4 := Nat.mod_le (s.heap.size b) (2 ^ 32)
    rw [Nat.add_sub_cancel, h2]
    unfold Heap.bytes
    omega
  · obtain ⟨hpos, hv⟩ := (hok b hu).split hb hr
    obtain ⟨rfl, rfl⟩ := he (Nat.ne_of_gt hpos)
    obtain ⟨hins, h1, _⟩ := hi.carve (hi.freeBlocks_eq ▸ used_mem hb hu) hpos hv
    refine ⟨⟨F, h1⟩, fun hlt => ?_⟩
    have h2 := hins.size_new
    unfold carved at h2
    unfold Heap.bytes
    rw [Nat.add_sub_cancel, h2, Nat.mod_eq_of_lt hlt]
    omega

theorem sound_free {q : Nat × Nat} (hs : Sound s) (hq : q ∈ s.live)
    (hok : Harmless s (.free q.1)) :
    Sound { heap := free s.heap q.1, live := s.live.erase q } ∧
      q.1 - headerSz ∈ freeBlocks (free s.heap q.1) ∧
      (free s.heap q.1).bytes (q.1 - headerSz) = s.heap.bytes (q.1 - headerSz) := by
  obtain ⟨F, hi⟩ := hs
  obtain ⟨h1, hb, hF⟩ := hi.used q hq
  obtain ⟨hle, hother, hlive⟩ := hok
  rw [hi.freeBlocks_eq] at hother
  have hq1 : q.1 - headerSz + 32 = q.1 := by
    unfold headerSz at h1 ⊢
    omega
  have hsub : ∀ c ∈ s.live.erase q, c ∈ s.live := fun c hc => List.mem_of_mem_erase hc
  have hne : ∀ c ∈ s.live.erase q, c.1 ≠ q.1 := by
    intro c hc e
    have h4 : (q :: s.live.erase q).map Prod.fst |>.Nodup :=
      (List.perm_cons_erase hq).map Prod.fst |>.nodup_iff.mp hi.once
    rw [List.map_cons, List.nodup_cons] at h4
    exact h4.1 (e ▸ List.mem_map_of_mem hc)
  have hi1 := (hi.setSize (s.heap.size (q.1 - headerSz) ||| 1) hb).drop
    (List.erase_sublist (a := q) (l := s.live))
  have hfar : ∀ c ∈ s.heap.created, c ≠ q.1 - headerSz →
      q.1 - headerSz + 48 ≤ c + 8 ∨ metaEnd F c ≤ q.1 - headerSz + 32 := fun c hc hcq => by
    have h2 := hother c hc hcq
    omega
  have hi2 : Intact (free s.heap q.1) (F ++ [q.1 - headerSz]) (s.live.erase q) := by
    refine hi1.addFree hb hF (fun c hc e => hne c hc ?_) ?_ hfar (fun c hc => ?_)
    · have h2 := (hi.used c (hsub c hc)).1
      omega
    · show q.1 - headerSz + 48 ≤ s.heap.brk
      omega
    · have h2 := hlive c (hsub c hc) (fun e => hne c hc (by unfold headerSz at e hq1; omega))
      omega
  refine ⟨⟨_, hi2⟩, ?_, ?_⟩
  · show q.1 - headerSz ∈ freeBlocks (free s.heap q.1)
    rw [hi2.freeBlocks_eq]
    exact List.mem_append_right F List.mem_cons_self
  · have hsize : (free s.heap q.1).size (q.1 - headerSz)
        = (setFree s.heap (q.1 - headerSz)).size (q.1 - headerSz) :=
      size_of_frame (fun x h2 h3 => hi1.addFree_core hfar hb h2 (by omega))
    unfold Heap.bytes
    rw [hsize]
    exact bytes_setFree s.heap (q.1 - headerSz)

theorem sound_write {q : Nat × Nat} (hs : Sound s) (hq : q ∈ s.live) {off : Nat} (hoff : off < q.2)
    (v : UInt8) :
    Sound { s with heap := { s.heap with mem := Function.update s.heap.mem (q.1 + off) v } } := by
  obtain ⟨F, hi⟩ := hs
  refine ⟨F, hi.congr (fun x hx => Function.update_of_ne ?_ _ _) rfl rfl rfl rfl rfl rfl⟩
  obtain ⟨c, hc, h1, h2⟩ := hx
  have h3 := (hi.bytes q hq).2 c hc
  omega

theorem sound_step {c : Call} (hs : Sound s) (hc : guarded Harmless Step s c t) : Sound t := by
  obtain ⟨hok, hc⟩ := hc
  cases call_cases hc with
  | malloc n h' p hn hm => exact (sound_malloc hs hn hok hm).1
  | free q hq => exact (sound_free hs hq hok).1
  | setfsm choice =>
    obtain ⟨F, hi⟩ := hs
    exact ⟨F, hi.congr (fun _ _ => rfl) rfl rfl rfl rfl rfl rfl⟩
  | write q off v hq hoff => exact sound_write hs hq hoff v

end

end Umalloc
