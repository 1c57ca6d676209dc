import Xv6.Blocks.Content
import Xv6.Fs.Append
import Xv6.Log.Model

/-!
# The transactions of `filewrite`

`filewrite` writes in pieces, with a transaction for each, and `begin_op` counts on `MAXOPBLOCKS`
blocks for one of them.  A piece that starts within a block can be in four blocks, but the first of
these is one that the file has already.
-/

namespace Blocks
open Lib Fs
open Log (maxOpBlocks)

/-- between `begin_op` and `end_op`: the state that `writei` starts with, and the one behind it -/
structure Section where
  start : State
  stop : State

def Section.logged (x : Section) : List Nat :=
  x.stop.log.take (x.stop.log.length - x.start.log.length)

/-- the loop of `filewrite` with its sections, and the state, `f->off` and `i` behind it; `between`
is what other processes do until the inode is locked, also to `f->off` -/
def filewriteLoop (sb : Superblock) (i : Nat) (src : Source) (n : Nat)
    (between : Nat → State × Nat → State × Nat) :
    Nat → State × Nat → Nat → List Section × Option (State × Nat × Nat)
  | 0, (s, off), k => ([], some (s, off, k))
  | fuel + 1, x, k =>
    if k < n then
      let n1 := min (n - k) writeMax
      let (s, off) := between k x
      match writei sb s.beginOp i (fun j => src (k + j)) off n1 with
      | none => ([], none)
      | some (t, r) =>
        let off := if 0 < r then off + r.toNat else off
        if r ≠ (n1 : Int) then ([⟨s.beginOp, t⟩], some (t.endOp, off, k))
        else
          let rest := filewriteLoop sb i src n between fuel (t.endOp, off) (k + n1)
          (⟨s.beginOp, t⟩ :: rest.1, rest.2)
    else ([], some (x.1, x.2, k))

/-- `filewrite` to an inode, with its sections; `none` for a panic -/
def filewrite (sb : Superblock) (i : Nat) (src : Source) (n : Int)
    (between : Nat → State × Nat → State × Nat) (s : State) (off : Nat) :
    List Section × Option (State × Nat × Int) :=
  let loop := filewriteLoop sb i src n.toNat between n.toNat (s, off) 0
  (loop.1, loop.2.map (fun x => (x.1, x.2.1, if (x.2.2 : Int) = n then n else -1)))

def State.pointer (s : State) (i : Nat) : Nat := (s.inode i).addrs ndirect

/-- from `s` to `t` the log gets blocks in `data`, at most `m` of the bitmap, one more if the file
gets its indirect block, and this one -/
structure Logs (i : Nat) (s t : State) (data : Finset Nat) (m : Nat) : Prop where
  log : ∃ (l : List Nat) (bitmap : Finset Nat), t.log = l ++ s.log ∧
    bitmap.card ≤ m + (if s.pointer i = 0 ∧ t.pointer i ≠ 0 then 1 else 0) ∧
    ∀ c ∈ l, c ∈ data ∨ c ∈ bitmap ∨ c ≠ 0 ∧ c = t.pointer i
  keep : s.pointer i ≠ 0 → t.pointer i = s.pointer i
  outstanding : t.outstanding = s.outstanding

section
variable {sb : Superblock} {s t u : State} {a b i j k bn m m' n off tot fuel N : Nat} {src : Source}
  {data data' : Finset Nat} {l : List Nat}

/-! ## what is logged -/

theorem Logs.refl (i : Nat) (s : State) : Logs i s s ∅ 0 :=
  ⟨⟨[], ∅, rfl, Nat.zero_le _, nofun⟩, fun _ => rfl, rfl⟩

theorem Logs.mono (h : Logs i s t data m) (hd : data ⊆ data') (hm : m ≤ m') :
    Logs i s t data' m' := by
  obtain ⟨l, bitmap, hl, hcard, hc⟩ := h.log
  refine ⟨⟨l, bitmap, hl, by omega, fun c hcl => ?_⟩, h.keep, h.outstanding⟩
  exact (hc c hcl).imp_left (fun h1 => hd h1)

theorem Logs.trans (h : Logs i s u data m) (h' : Logs i u t data' m') :
    Logs i s t (data ∪ data') (m + m') := by
  obtain ⟨l, bitmap, hl, hcard, hc⟩ := h.log
  obtain ⟨l', bitmap', hl', hcard', hc'⟩ := h'.log
  have hkeep := h.keep
  have hkeep' := h'.keep
  refine ⟨⟨l' ++ l, bitmap ∪ bitmap', by rw [hl', hl, List.append_assoc], ?_, fun c hcl => ?_⟩,
    fun h0 => ?_, h'.outstanding.trans h.outstanding⟩
  · -- the indirect block is new in one of the two parts
    have hunion := Finset.card_union_le bitmap bitmap'
    by_cases hu : u.pointer i = 0
    · have hs : s.pointer i = 0 := by
        by_contra h0
        exact h0 ((hkeep h0).symm.trans hu)
      rw [if_neg (fun h1 => h1.2 hu)] at hcard
      rw [hu] at hcard'
      rw [hs]
      omega
    · rw [if_neg (fun h1 => hu h1.1)] at hcard'
      rw [hkeep' hu]
      omega
  · rcases List.mem_append.mp hcl with h1 | h1
    · rcases hc' c h1 with h2 | h2 | h2
      · exact Or.inl (Finset.mem_union_right _ h2)
      · exact Or.inr (Or.inl (Finset.mem_union_right _ h2))
      · exact Or.inr (Or.inr h2)
    · rcases hc c h1 with h2 | h2 | ⟨h0, h2⟩
      · exact Or.inl (Finset.mem_union_left _ h2)
      · exact Or.inr (Or.inl (Finset.mem_union_left _ h2))
      · refine Or.inr (Or.inr ⟨h0, ?_⟩)
        rw [h2] at h0
        rw [h2, hkeep' h0]
  · have hu := hkeep h0
    exact (hkeep' (by rwa [hu])).trans hu

/-- data, the bitmap and the indirect block with its bit -/
theorem Logs.card (h : Logs i s t data m) :
    ∃ l, t.log = l ++ s.log ∧ l.toFinset.card ≤ data.card + m + 2 := by
  obtain ⟨l, bitmap, hl, hcard, hc⟩ := h.log
  refine ⟨l, hl, ?_⟩
  have hsub : l.toFinset ⊆ data ∪ bitmap ∪ {t.pointer i} := by
    intro c hcl
    rw [Finset.mem_union, Finset.mem_union, Finset.mem_singleton]
    rcases hc c (List.mem_toFinset.mp hcl) with h1 | h1 | h1
    · exact Or.inl (Or.inl h1)
    · exact Or.inl (Or.inr h1)
    · exact Or.inr h1.2
  have hle := Finset.card_le_card hsub
  have h1 := Finset.card_union_le (data ∪ bitmap) {t.pointer i}
  have h2 := Finset.card_union_le data bitmap
  rw [Finset.card_singleton] at h1
  have hbit : bitmap.card ≤ m + 1 := by
    split at hcard
    · exact hcard
    · omega
  omega

theorem logs_write (i b : Nat) (x : Block) : Logs i s (s.write b x) {b} 0 := by
  refine ⟨⟨[b], ∅, rfl, Nat.zero_le _, fun c hc => ?_⟩, fun _ => rfl, rfl⟩
  exact Or.inl (Finset.mem_singleton.mpr (List.mem_singleton.mp hc))

theorem logs_taken (sb : Superblock) (i b : Nat) : Logs i s (s.taken sb b) {b} 1 := by
  refine ⟨⟨[b, sb.bblock b], {sb.bblock b}, rfl, ?_, fun c hc => ?_⟩, fun _ => rfl, rfl⟩
  · rw [Finset.card_singleton]
    omega
  · rw [Finset.mem_singleton, Finset.mem_singleton]
    rcases List.mem_cons.mp hc with h1 | h1
    · exact Or.inl h1
    · exact Or.inr (Or.inl (List.mem_singleton.mp h1))

/-! ## `bmap` -/

theorem setAddr_pointer (hk : k ≠ ndirect) (v : Nat) :
    (s.setAddr i k v).pointer i = s.pointer i := by
  unfold State.pointer
  rw [setAddr_addrs, if_pos rfl, Function.update_of_ne hk.symm]

theorem balloc_logs (sb : Superblock) (hout : s.outstanding ≠ 0) (i : Nat) :
    ∃ t a, balloc sb s = some (t, a) ∧ Logs i s t {a} 1 := by
  rcases balloc_spec sb hout with ⟨e, -⟩ | ⟨b, e, -, -⟩
  · exact ⟨s, 0, e, (Logs.refl i s).mono (Finset.empty_subset _) (Nat.zero_le 1)⟩
  · exact ⟨_, b, e, logs_taken sb i b⟩

theorem mapSlot_logs (sb : Superblock) (hout : s.outstanding ≠ 0) (i : Nat) (hk : k < ndirect) :
    ∃ t a, mapSlot sb s i k = some (t, a) ∧ Logs i s t {a} 1 := by
  unfold mapSlot
  dsimp only
  split
  · obtain ⟨u, a, e, hu⟩ := balloc_logs sb hout i
    rw [e]
    dsimp only
    split
    · next h0 =>
      rw [h0] at hu
      exact ⟨u, 0, rfl, hu⟩
    · obtain ⟨l, bitmap, hl, hcard, hc⟩ := hu.log
      have hp : (u.setAddr i k a).pointer i = u.pointer i := setAddr_pointer hk.ne a
      refine ⟨_, a, rfl, ⟨l, bitmap, hl, ?_, fun c hcl => ?_⟩, fun h0 => ?_, hu.outstanding⟩
      · rwa [hp]
      · rw [hp]
        exact hc c hcl
      · rw [hp]
        exact hu.keep h0
  · exact ⟨s, _, rfl, (Logs.refl i s).mono (Finset.empty_subset _) (Nat.zero_le 1)⟩

/-- the indirect block; the address 0 comes with block 0 in the log at most -/
theorem mapSlot_logs_indirect (sb : Superblock) (hout : s.outstanding ≠ 0) (i : Nat) :
    ∃ t a, mapSlot sb s i ndirect = some (t, a) ∧
      (a = 0 ∧ Logs i s t {a} 1 ∨ a ≠ 0 ∧ a = t.pointer i ∧ Logs i s t ∅ 0) := by
  unfold mapSlot
  dsimp only
  split
  · next hp =>
    rcases balloc_spec sb hout with ⟨e, -⟩ | ⟨b, e, -, -⟩
    · rw [e]
      exact ⟨s, 0, rfl, Or.inl ⟨rfl, (Logs.refl i s).mono (Finset.empty_subset _) (Nat.zero_le 1)⟩⟩
    · rw [e]
      dsimp only
      split
      · next h0 =>
        have htaken := logs_taken (s := s) sb i b
        rw [h0] at htaken ⊢
        exact ⟨_, 0, rfl, Or.inl ⟨rfl, htaken⟩⟩
      · next h0 =>
        have hself : ((s.taken sb b).setAddr i ndirect b).pointer i = b := by
          unfold State.pointer
          rw [setAddr_addrs, if_pos rfl, Function.update_self]
        refine ⟨_, b, rfl, Or.inr ⟨h0, hself.symm, ⟨[b, sb.bblock b], {sb.bblock b}, rfl, ?_,
          fun c hc => ?_⟩, fun h1 => absurd hp h1, rfl⟩⟩
        · rw [hself, if_pos ⟨hp, h0⟩, Finset.card_singleton]
        · rw [hself, Finset.mem_singleton]
          rcases List.mem_cons.mp hc with h1 | h1
          · exact Or.inr (Or.inr ⟨h1.trans_ne h0, h1⟩)
          · exact Or.inr (Or.inl (List.mem_singleton.mp h1))
  · next hp => exact ⟨s, _, rfl, Or.inr ⟨hp, rfl, Logs.refl i s⟩⟩

theorem mapEntry_logs (sb : Superblock) (hout : s.outstanding ≠ 0) (h0 : s.pointer i ≠ 0)
    (j : Nat) : ∃ t a, mapEntry sb s (s.pointer i) j = some (t, a) ∧ Logs i s t {a} 1 := by
  unfold mapEntry
  dsimp only
  split
  · obtain ⟨u, a, e, hu⟩ := balloc_logs sb hout i
    have houtu : u.outstanding ≠ 0 := by
      rw [hu.outstanding]
      exact hout
    rw [e]
    dsimp only
    split
    · next ha =>
      rw [ha] at hu
      exact ⟨u, 0, rfl, hu⟩
    · rw [write_eq houtu]
      obtain ⟨l, bitmap, hl, hcard, hc⟩ := hu.log
      refine ⟨_, a, rfl, ⟨s.pointer i :: l, bitmap, congrArg _ hl, hcard, fun c hcl => ?_⟩,
        hu.keep, hu.outstanding⟩
      rcases List.mem_cons.mp hcl with h1 | h1
      · exact Or.inr (Or.inr ⟨h1.trans_ne h0, h1.trans (hu.keep h0).symm⟩)
      · exact hc c h1
  · exact ⟨s, _, rfl, (Logs.refl i s).mono (Finset.empty_subset _) (Nat.zero_le 1)⟩

theorem bmap_logs (sb : Superblock) (hout : s.outstanding ≠ 0) (i : Nat) (hbn : bn < maxfile) :
    ∃ t a, bmap sb s i bn = some (t, a) ∧ Logs i s t {a} 1 := by
  unfold bmap
  by_cases hdir : bn < ndirect
  · rw [if_pos hdir]
    exact mapSlot_logs sb hout i hdir
  · have hj : bn - ndirect < nindirect := by
      unfold maxfile at hbn
      omega
    rw [if_neg hdir]
    dsimp only
    rw [if_pos hj]
    obtain ⟨u, addr, e, ⟨h0, hu⟩ | ⟨h0, hp, hu⟩⟩ := mapSlot_logs_indirect sb hout i
    · rw [e]
      dsimp only
      rw [if_pos h0]
      rw [h0] at hu
      exact ⟨u, 0, rfl, hu⟩
    · rw [e]
      dsimp only
      rw [if_neg h0, hp]
      have houtu : u.outstanding ≠ 0 := by
        rw [hu.outstanding]
        exact hout
      obtain ⟨t, a, e', ht⟩ := mapEntry_logs sb houtu (hp.symm.trans_ne h0) (bn - ndirect)
      have htrans := hu.trans ht
      rw [Finset.empty_union, Nat.zero_add] at htrans
      exact ⟨t, a, e', htrans⟩

/-! ## `writei` -/

/-- a range of `N` blocks -/
theorem writeiLoop_logs (sb : Superblock) (i : Nat) (src : Source) (fuel : Nat)
    (hout : s.outstanding ≠ 0)
    (hmax : off + (n - tot) ≤ maxfile * bsize)
    (hN : ∀ p, off ≤ p → p < off + (n - tot) → p / bsize < off / bsize + N) :
    ∃ t off' tot' data, writeiLoop sb i src n fuel s off tot = some (t, off', tot') ∧
      Logs i s t data N ∧ data.card ≤ N := by
  induction fuel generalizing s off tot N with
  | zero =>
    exact ⟨s, off, tot, ∅, rfl, (Logs.refl i s).mono (Finset.empty_subset _) (Nat.zero_le N),
      Nat.zero_le N⟩
  | succ fuel ih =>
    unfold writeiLoop
    by_cases hlt : tot < n
    · have hpos : 0 < N := by
        have hoff := hN off le_rfl (by omega)
        omega
      have hone : ∀ {t : State} {a : Nat}, Logs i s t {a} 1 → Logs i s t {a} N :=
        fun h => h.mono (Finset.Subset.refl _) hpos
      have hcard : ∀ a : Nat, ({a} : Finset Nat).card ≤ N := fun a => by
        rw [Finset.card_singleton]
        exact hpos
      have hbn : off / bsize < maxfile := by
        rw [Nat.div_lt_iff_lt_mul (by decide)]
        omega
      rw [if_pos hlt]
      obtain ⟨u, a, e, hu⟩ := bmap_logs sb hout i hbn
      rw [e]
      dsimp only
      by_cases ha : a = 0
      · rw [if_pos ha]
        exact ⟨u, off, tot, {a}, rfl, hone hu, hcard a⟩
      · rw [if_neg ha]
        obtain ⟨hmpos, hle⟩ := piece_le (n - tot) off (by omega)
        have hnext : min (n - tot) (bsize - off % bsize) < n - tot →
            (off + min (n - tot) (bsize - off % bsize)) / bsize = off / bsize + 1 := piece_next
        generalize min (n - tot) (bsize - off % bsize) = m at hmpos hle hnext ⊢
        rcases copyin src m (off % bsize) tot (u.cache a) with ⟨blk, b⟩
        cases b with
        | false =>
          -- the block is not logged
          have hset : Logs i u (u.setBlock a blk) ∅ 0 :=
            ⟨⟨[], ∅, rfl, Nat.zero_le _, fun _ h => absurd h List.not_mem_nil⟩, fun _ => rfl, rfl⟩
          have htrans := hu.trans hset
          rw [Finset.union_empty] at htrans
          exact ⟨_, off, tot, {a}, rfl, hone htrans, hcard a⟩
        | true =>
          have houtu : u.outstanding ≠ 0 := by
            rw [hu.outstanding]
            exact hout
          have hwrite := hu.trans (logs_write i a blk)
          rw [Finset.union_self] at hwrite
          dsimp only
          rw [write_eq houtu]
          dsimp only
          -- the rest is in the blocks behind this one
          have hrest : ∀ p, off + m ≤ p → p < off + m + (n - (tot + m)) →
              p / bsize < (off + m) / bsize + (N - 1) := by
            intro p h1 h2
            have hp := hN p (by omega) (by omega)
            have hdiv := hnext (by omega)
            omega
          obtain ⟨t, off', tot', data, e', ht, hdata⟩ :=
            ih (s := u.write a blk) houtu (by omega) hrest
          refine ⟨t, off', tot', {a} ∪ data, e', ?_, ?_⟩
          · have htrans := hwrite.trans ht
            have hsum : 1 + 0 + (N - 1) = N := by omega
            rwa [hsum] at htrans
          · have hunion := Finset.card_union_le {a} data
            rw [Finset.card_singleton] at hunion
            omega
    · rw [if_neg hlt]
      exact ⟨s, off, tot, ∅, rfl, (Logs.refl i s).mono (Finset.empty_subset _) (Nat.zero_le N),
        Nat.zero_le N⟩

theorem State.NoHoles.size_le (h : s.NoHoles i) : (s.inode i).size ≤ maxfile * bsize := by
  by_contra hlt
  exact absurd (lt_maxfile (h maxfile (Nat.not_le.mp hlt))) (lt_irrefl maxfile)

theorem piece_logs (sb : Superblock) (src : Source) (hout : s.outstanding ≠ 0) (hh : s.NoHoles i)
    (hoff : off ≤ (s.inode i).size) (hmax : off + n ≤ maxfile * bsize) (hn : n ≤ writeMax) :
    ∃ t off' tot' data m, writeiLoop sb i src n n s off 0 = some (t, off', tot') ∧
      Logs i s t data m ∧ data.card + m ≤ 7 := by
  have hmod := Nat.div_add_mod' off bsize
  have hb : off % bsize < bsize := Nat.mod_lt _ (by decide)
  have hthree : n ≤ 3 * bsize := hn
  by_cases halign : off % bsize = 0
  · have hN : ∀ p, off ≤ p → p < off + (n - 0) → p / bsize < off / bsize + 3 := by
      intro p h1 h2
      rw [Nat.div_lt_iff_lt_mul (by decide), Nat.add_mul]
      omega
    obtain ⟨t, off', tot', data, e, ht, hdata⟩ := writeiLoop_logs sb i src n hout hmax hN
    exact ⟨t, off', tot', data, 3, e, ht, by omega⟩
  · cases n with
    | zero => exact ⟨s, off, 0, ∅, 0, rfl, Logs.refl i s, Nat.zero_le 7⟩
    | succ n =>
      have href : s.ref i (slotOf (off / bsize)) ≠ 0 := hh (off / bsize) (by omega)
      unfold writeiLoop
      rw [if_pos (Nat.succ_pos n), bmap_mapped href]
      dsimp only
      rw [if_neg href]
      generalize s.ref i (slotOf (off / bsize)) = a
      obtain ⟨hmpos, hle⟩ := piece_le (n + 1 - 0) off (Nat.succ_pos n)
      have hnext : min (n + 1 - 0) (bsize - off % bsize) < n + 1 - 0 →
          (off + min (n + 1 - 0) (bsize - off % bsize)) / bsize = off / bsize + 1 := piece_next
      generalize min (n + 1 - 0) (bsize - off % bsize) = m at hmpos hle hnext ⊢
      rcases copyin src m (off % bsize) 0 (s.cache a) with ⟨blk, b⟩
      cases b with
      | false =>
        exact ⟨_, off, 0, ∅, 0, rfl, ⟨⟨[], ∅, rfl, Nat.zero_le _,
          fun _ h => absurd h List.not_mem_nil⟩, fun _ => rfl, rfl⟩,
          Nat.zero_le 7⟩
      | true =>
        dsimp only
        rw [write_eq hout]
        dsimp only
        have hN : ∀ p, off + m ≤ p → p < off + m + (n + 1 - (0 + m)) →
            p / bsize < (off + m) / bsize + 3 := by
          intro p h1 h2
          rw [hnext (by omega), Nat.div_lt_iff_lt_mul (by decide), Nat.add_mul, Nat.add_mul]
          omega
        obtain ⟨t, off', tot', data, e, ht, hdata⟩ := writeiLoop_logs sb i src n
          (show (s.write a blk).outstanding ≠ 0 from hout) (by omega) hN
        have hunion := Finset.card_union_le {a} data
        rw [Finset.card_singleton] at hunion
        exact ⟨t, off', tot', {a} ∪ data, 0 + 3, e, (logs_write i a blk).trans ht, by omega⟩

theorem writei_logs (sb : Superblock) (src : Source) (off : Nat) (hout : s.outstanding ≠ 0)
    (hh : s.NoHoles i) (hn : n ≤ writeMax) : ∃ t r, writei sb s i src off n = some (t, r) ∧
      ∃ l, t.log = l ++ s.log ∧ l.toFinset.card ≤ maxOpBlocks := by
  have hsize := hh.size_le
  have hlim : maxfile * bsize + writeMax < 2 ^ 32 := by decide
  have hnone : ∃ l : List Nat, s.log = l ++ s.log ∧ l.toFinset.card ≤ maxOpBlocks :=
    ⟨[], rfl, Nat.zero_le _⟩
  unfold writei
  by_cases h1 : (s.inode i).size < off ∨ (off + n) % 2 ^ 32 < off
  · rw [if_pos h1]
    exact ⟨s, -1, rfl, hnone⟩
  · rw [if_neg h1]
    by_cases h2 : maxfile * bsize < (off + n) % 2 ^ 32
    · rw [if_pos h2]
      exact ⟨s, -1, rfl, hnone⟩
    · rw [if_neg h2]
      rw [not_or, Nat.not_lt, Nat.not_lt] at h1
      have hmod : (off + n) % 2 ^ 32 = off + n := Nat.mod_eq_of_lt (by omega)
      obtain ⟨t, off', tot', data, m, e, ht, hcard⟩ := piece_logs sb src hout hh h1.1
        (by omega) hn
      obtain ⟨l, hl, hle⟩ := ht.card
      have houtt : t.outstanding ≠ 0 := by
        rw [ht.outstanding]
        exact hout
      rw [e]
      dsimp only
      unfold State.iupdate
      rw [logWrite_eq (show (t.setInode _ _).outstanding ≠ 0 from houtt)]
      refine ⟨_, tot', rfl, sb.iblock i :: l, congrArg _ hl, ?_⟩
      -- the inode comes on top
      have hinsert := Finset.card_insert_le (sb.iblock i) l.toFinset
      rw [List.toFinset_cons]
      have hten : maxOpBlocks = 10 := rfl
      omega

/-! ## `filewrite` -/

/-- each section is one of `writei` -/
theorem filewriteLoop_section (i : Nat) (src : Source) (n : Nat)
    (between : Nat → State × Nat → State × Nat) (x : State × Nat) (k : Nat) :
    ∀ y ∈ (filewriteLoop sb i src n between fuel x k).1, y.start.outstanding ≠ 0 ∧
      ∃ src' off n1 r, n1 ≤ writeMax ∧ writei sb y.start i src' off n1 = some (y.stop, r) := by
  induction fuel generalizing x k with
  | zero => exact nofun
  | succ fuel ih =>
    intro y hy
    unfold filewriteLoop at hy
    by_cases hlt : k < n
    · rw [if_pos hlt] at hy
      dsimp only at hy
      have hn1 : min (n - k) writeMax ≤ writeMax := Nat.min_le_right _ _
      generalize min (n - k) writeMax = n1 at hn1 hy
      generalize between k x = z at hy
      cases e : writei sb z.1.beginOp i (fun j => src (k + j)) z.2 n1 with
      | none =>
        rw [e] at hy
        exact absurd hy List.not_mem_nil
      | some p =>
        obtain ⟨t, r⟩ := p
        rw [e] at hy
        dsimp only at hy
        have hhead : y = ⟨z.1.beginOp, t⟩ → y.start.outstanding ≠ 0 ∧ ∃ src' off n1 r,
            n1 ≤ writeMax ∧ writei sb y.start i src' off n1 = some (y.stop, r) := by
          rintro rfl
          exact ⟨Nat.succ_ne_zero _, _, z.2, n1, r, hn1, e⟩
        split at hy
        · exact hhead (List.mem_singleton.mp hy)
        · rcases List.mem_cons.mp hy with h1 | h1
          · exact hhead h1
          · exact ih _ _ y h1
    · rw [if_neg hlt] at hy
      exact absurd hy List.not_mem_nil

/-- what other processes do keeps the file system whole, and does not free the inode -/
def KeepsWhole (sb : Superblock) (i : Nat) (between : Nat → State × Nat → State × Nat) : Prop :=
  ∀ k x, Whole sb x.1 → (x.1.inode i).type ≠ 0 →
    Whole sb (between k x).1 ∧ ((between k x).1.inode i).type ≠ 0

theorem endOp_inode (s : State) : s.endOp.inode = s.inode := by
  unfold State.endOp
  dsimp only
  split
  · rfl
  · rfl

theorem endOp_cache (s : State) : s.endOp.cache = s.cache := by
  unfold State.endOp
  dsimp only
  split
  · rfl
  · rfl

theorem filewriteLoop_whole {x : State × Nat} {between : Nat → State × Nat → State × Nat}
    (hb : KeepsWhole sb i between) (hw : Whole sb x.1) (hi : (x.1.inode i).type ≠ 0) (src : Source)
    (n fuel k : Nat) :
    (∀ y ∈ (filewriteLoop sb i src n between fuel x k).1, Whole sb y.start ∧
      (y.start.inode i).type ≠ 0) ∧
    (filewriteLoop sb i src n between fuel x k).2.isSome = true := by
  induction fuel generalizing x k with
  | zero => exact ⟨nofun, rfl⟩
  | succ fuel ih =>
    unfold filewriteLoop
    by_cases hlt : k < n
    · rw [if_pos hlt]
      dsimp only
      have hn1 : min (n - k) writeMax < 2 ^ 32 := lt_of_le_of_lt (Nat.min_le_right _ _) (by decide)
      generalize min (n - k) writeMax = n1 at hn1 ⊢
      obtain ⟨hs, hi'⟩ := hb k x hw hi
      generalize between k x = z at hs hi' ⊢
      have hbegin : Whole sb z.1.beginOp := hs.congr rfl (fun _ _ => rfl)
      obtain ⟨t, r, e, ht, hf⟩ := writei_whole hbegin (Nat.succ_ne_zero _) hi' hn1
        (fun j => src (k + j)) z.2
      rw [e]
      dsimp only
      have hend : Whole sb t.endOp :=
        ht.congr (endOp_inode t) (fun _ _ => congrFun (endOp_cache t) _)
      have htype : (t.endOp.inode i).type ≠ 0 := by
        rw [endOp_inode, hf.type]
        exact hi'
      split
      · refine ⟨fun y hy => ?_, rfl⟩
        obtain rfl := List.mem_singleton.mp hy
        exact ⟨hbegin, hi'⟩
      · obtain ⟨hall, hsome⟩ := ih (x := (t.endOp, if 0 < r then z.2 + r.toNat else z.2)) hend htype
          (k + n1)
        refine ⟨fun y hy => ?_, hsome⟩
        rcases List.mem_cons.mp hy with rfl | h1
        · exact ⟨hbegin, hi'⟩
        · exact hall y h1
    · rw [if_neg hlt]
      exact ⟨nofun, rfl⟩

/-- a section logs `MAXOPBLOCKS` different blocks at most; in a file system that is whole, the file
has no holes in any of them -/
theorem filewrite_logged (sb : Superblock) (i : Nat) (src : Source) (n : Int)
    (between : Nat → State × Nat → State × Nat) (s : State) (off : Nat) :
    (∀ x ∈ (filewrite sb i src n between s off).1, x.start.NoHoles i →
      x.logged.toFinset.card ≤ maxOpBlocks) ∧
    (Whole sb s → (s.inode i).type ≠ 0 → KeepsWhole sb i between →
      (∀ x ∈ (filewrite sb i src n between s off).1, x.start.NoHoles i) ∧
      (filewrite sb i src n between s off).2.isSome = true) := by
  unfold filewrite
  dsimp only
  refine ⟨fun x hx hh => ?_, fun hw hi hb => ?_⟩
  · obtain ⟨hout, src', off', n1, r, hn1, e⟩ :=
      filewriteLoop_section i src n.toNat between (s, off) 0 x hx
    obtain ⟨t, r', e', l, hl, hle⟩ := writei_logs sb src' off' hout hh hn1
    obtain ⟨rfl, -⟩ := Prod.mk.inj (Option.some.inj (e.symm.trans e'))
    unfold Section.logged
    rw [hl, List.length_append, Nat.add_sub_cancel, List.take_left]
    exact hle
  · obtain ⟨hall, hsome⟩ := filewriteLoop_whole (x := (s, off)) hb hw hi src n.toNat n.toNat 0
    refine ⟨fun x hx => (hall x hx).1.noHoles i (hall x hx).2, ?_⟩
    rw [Option.isSome_map]
    exact hsome

end

/-- three blocks and a byte of an empty file, in two sections -/
theorem filewrite_logged_fresh :
    (∀ x ∈ (filewrite smallDisk 2 (fun _ => some 97) 3073 (fun _ x => x) fresh 0).1,
      x.start.NoHoles 2 → x.logged.toFinset.card ≤ maxOpBlocks) ∧
    (∀ x ∈ (filewrite smallDisk 2 (fun _ => some 97) 3073 (fun _ x => x) fresh 0).1,
      x.start.NoHoles 2) ∧
    (filewrite smallDisk 2 (fun _ => some 97) 3073 (fun _ x => x) fresh 0).2.isSome = true := by
  obtain ⟨h1, h2⟩ := filewrite_logged smallDisk 2 (fun _ => some 97) 3073 (fun _ x => x) fresh 0
  exact ⟨h1, h2 whole_fresh (by decide) (fun _ _ hw hi => ⟨hw, hi⟩)⟩

end Blocks
