import Mathlib.Algebra.Order.Interval.Finset.SuccPred
import Mathlib.Data.Finset.Card
import Mathlib.Data.Nat.SuccPred
import Mathlib.Order.Interval.Finset.Nat

/-!
# Writing to a file (`bmap`, `itrunc`, `writei`)

The disk as one file sees it: the size of the file, the blocks it has, and the number of blocks
that are free.  A byte is known by its position in the file, so position `p` is in block
`p / BSIZE`.  The bytes are those of the buffer cache.

A user buffer is `src`, the byte at each offset from its address; `none` is a page that is not
mapped, and `copyin` has copied the bytes before it when it fails.
-/

namespace Fs

def bsize : Nat := 1024

def ndirect : Nat := 12

def nindirect : Nat := 256

def maxfile : Nat := ndirect + nindirect

structure Disk where
  size : Nat
  /-- the file has block `bn` -/
  mapped : Nat → Bool
  /-- the file has its indirect block -/
  indirect : Bool
  data : Nat → UInt8
  free : Nat

abbrev Source := Nat → Option UInt8

/-! ## the model -/

/-- the block behind an address slot; a block from `balloc` holds zeros -/
def mapBlock (d : Disk) (bn : Nat) : Disk × Bool :=
  if d.mapped bn then (d, true)
  else if d.free = 0 then (d, false)
  else
    ({ d with
      free := d.free - 1
      mapped := Function.update d.mapped bn true
      data := fun p => if p / bsize = bn then 0 else d.data p }, true)

/-- `false` is the address 0, `none` a panic -/
def bmap (d : Disk) (bn : Nat) : Option (Disk × Bool) :=
  if bn < ndirect then some (mapBlock d bn)
  else if bn - ndirect < nindirect then
    if d.indirect then some (mapBlock d bn)
    else if d.free = 0 then some (d, false)
    else some (mapBlock { d with free := d.free - 1, indirect := true } bn)
  else none

def itrunc (d : Disk) : Disk :=
  { d with
    size := 0
    mapped := fun _ => false
    indirect := false
    free := d.free + ((Finset.range maxfile).filter (fun bn => d.mapped bn)).card +
      if d.indirect then 1 else 0 }

/-- `m` bytes from `src + tot` to position `pos`; `false` is -1 -/
def copyin (src : Source) : Nat → Nat → Nat → (Nat → UInt8) → (Nat → UInt8) × Bool
  | 0, _, _, data => (data, true)
  | m + 1, pos, tot, data =>
    match src tot with
    | none => (data, false)
    | some b => copyin src m (pos + 1) (tot + 1) (Function.update data pos b)

/-- the loop of `writei`: the disk, `off` and `tot` after it; each round takes a byte at least -/
def writeiLoop (src : Source) (n : Nat) : Nat → Disk → Nat → Nat → Option (Disk × Nat × Nat)
  | 0, d, off, tot => some (d, off, tot)
  | fuel + 1, d, off, tot =>
    if tot < n then
      match bmap d (off / bsize) with
      | none => none
      | some (d, false) => some (d, off, tot)
      | some (d, true) =>
        let m := min (n - tot) (bsize - off % bsize)
        match copyin src m off tot d.data with
        | (data, false) => some ({ d with data := data }, off, tot)
        | (data, true) => writeiLoop src n fuel { d with data := data } (off + m) (tot + m)
    else some (d, off, tot)

/-- the sum of the two `uint` wraps -/
def writei (d : Disk) (src : Source) (off n : Nat) : Option (Disk × Int) :=
  if d.size < off ∨ (off + n) % 2 ^ 32 < off then some (d, -1)
  else if maxfile * bsize < (off + n) % 2 ^ 32 then some (d, -1)
  else
    match writeiLoop src n n d off 0 with
    | none => none
    | some (d, off, tot) =>
      some ({ d with size := if d.size < off then off else d.size }, (tot : Int))

/-! ## one block -/

/-- the blocks that a write to blocks `a` to `b - 1` takes from the disk -/
def missing (d : Disk) (a b : Nat) : Nat :=
  ((Finset.Ico a b).filter (fun bn => d.mapped bn = false)).card +
    if ndirect < b ∧ d.indirect = false then 1 else 0

section
variable {d d' : Disk} {src : Source} {bn m pos tot off n p : Nat} {data : Nat → UInt8}

structure Mapped (d d' : Disk) (bn : Nat) : Prop where
  size : d'.size = d.size
  data : ∀ p, d.mapped (p / bsize) = true → d'.data p = d.data p
  mono : ∀ b, d.mapped b = true → d'.mapped b = true

theorem mapBlock_mapped : Mapped d (mapBlock d bn).1 bn := by
  unfold mapBlock
  split
  · exact ⟨rfl, fun _ _ => rfl, fun _ h => h⟩
  · rename_i hm
    split
    · exact ⟨rfl, fun _ _ => rfl, fun _ h => h⟩
    · refine ⟨rfl, fun p hp => ?_, fun b hb => ?_⟩
      · show (if p / bsize = bn then 0 else d.data p) = d.data p
        rw [if_neg]
        rintro rfl
        exact hm hp
      · show Function.update d.mapped bn true b = true
        by_cases e : b = bn
        · rw [e, Function.update_self]
        · rwa [Function.update_of_ne e]

theorem mapBlock_ok (h : (mapBlock d bn).2 = true) : (mapBlock d bn).1.mapped bn = true := by
  unfold mapBlock at h ⊢
  split
  · assumption
  · rename_i hm
    rw [if_neg hm] at h
    split
    · rename_i hf
      rw [if_pos hf] at h
      exact absurd h (by simp)
    · exact Function.update_self ..

theorem bmap_spec (h : bn < maxfile) : ∃ d' ok, bmap d bn = some (d', ok) ∧ Mapped d d' bn ∧
    (ok = true → d'.mapped bn = true) := by
  unfold bmap
  split
  · exact ⟨_, _, rfl, mapBlock_mapped, mapBlock_ok⟩
  · rw [if_pos (by unfold maxfile at h; omega)]
    split
    · exact ⟨_, _, rfl, mapBlock_mapped, mapBlock_ok⟩
    · split
      · exact ⟨_, _, rfl, ⟨rfl, fun _ _ => rfl, fun _ h => h⟩, nofun⟩
      · have hm : Mapped { d with free := d.free - 1, indirect := true }
            (mapBlock { d with free := d.free - 1, indirect := true } bn).1 bn := mapBlock_mapped
        exact ⟨_, _, rfl, ⟨hm.size, hm.data, hm.mono⟩, mapBlock_ok⟩

theorem missing_succ {a b : Nat} (h : a < b) : missing d a b =
    missing d (a + 1) b + if d.mapped a = false then 1 else 0 := by
  unfold missing
  have hico : Finset.Ico a b = insert a (Finset.Ico (a + 1) b) :=
    (Finset.insert_Ico_add_one_left_eq_Ico h).symm
  have hnot : a ∉ (Finset.Ico (a + 1) b).filter (fun bn => d.mapped bn = false) := by
    intro hm
    have := (Finset.mem_Ico.mp (Finset.mem_filter.mp hm).1).1
    omega
  rw [hico, Finset.filter_insert]
  split
  · rw [Finset.card_insert_of_notMem hnot]
    omega
  · omega

theorem mapBlock_enough {a b : Nat} (h : a < b) (hfree : missing d a b ≤ d.free) :
    (mapBlock d a).2 = true ∧ missing (mapBlock d a).1 (a + 1) b ≤ (mapBlock d a).1.free := by
  rw [missing_succ h] at hfree
  unfold mapBlock
  cases hm : d.mapped a with
  | true =>
    rw [hm] at hfree
    rw [if_pos rfl]
    exact ⟨rfl, by simpa using hfree⟩
  | false =>
    rw [hm, if_pos rfl] at hfree
    rw [if_neg (by simp), if_neg (by omega)]
    refine ⟨rfl, ?_⟩
    have e : (Finset.Ico (a + 1) b).filter (fun bn => Function.update d.mapped a true bn = false)
        = (Finset.Ico (a + 1) b).filter (fun bn => d.mapped bn = false) := by
      refine Finset.filter_congr fun bn hbn => ?_
      have hne : bn ≠ a := by
        have := (Finset.mem_Ico.mp hbn).1
        omega
      rw [Function.update_of_ne hne]
    show ((Finset.Ico (a + 1) b).filter (fun bn => Function.update d.mapped a true bn = false)).card
      + (if ndirect < b ∧ d.indirect = false then 1 else 0) ≤ d.free - 1
    rw [e]
    unfold missing at hfree
    omega

/-- with enough free blocks, `bmap` finds the first block, and enough are left for the others -/
theorem bmap_enough {a b : Nat} (h : a < b) (hb : b ≤ maxfile) (hfree : missing d a b ≤ d.free) :
    ∃ d', bmap d a = some (d', true) ∧ missing d' (a + 1) b ≤ d'.free := by
  unfold bmap
  split
  · obtain ⟨h1, h2⟩ := mapBlock_enough h hfree
    exact ⟨_, congrArg some (Prod.ext rfl h1), h2⟩
  · rename_i ha
    rw [if_pos (by unfold maxfile at hb; omega)]
    cases hi : d.indirect with
    | true =>
      obtain ⟨h1, h2⟩ := mapBlock_enough h hfree
      exact ⟨_, congrArg some (Prod.ext rfl h1), h2⟩
    | false =>
      -- one block is the indirect block
      have hone : missing { d with free := d.free - 1, indirect := true } a b + 1
          = missing d a b := by
        have hlt : ndirect < b := by omega
        unfold missing
        rw [hi, if_neg (by simp : ¬ (ndirect < b ∧ true = false)), if_pos ⟨hlt, rfl⟩]
      rw [if_neg (by simp), if_neg (by omega)]
      obtain ⟨h1, h2⟩ := mapBlock_enough (d := { d with free := d.free - 1, indirect := true }) h
        (show missing { d with free := d.free - 1, indirect := true } a b ≤ d.free - 1 by omega)
      exact ⟨_, congrArg some (Prod.ext rfl h1), h2⟩

/-! ## one call -/

theorem copyin_outside (h : p < pos ∨ pos + m ≤ p) :
    (copyin src m pos tot data).1 p = data p := by
  induction m generalizing pos tot data with
  | zero => rfl
  | succ m ih =>
    unfold copyin
    cases src tot with
    | none => rfl
    | some b =>
      show (copyin src m (pos + 1) (tot + 1) (Function.update data pos b)).1 p = data p
      rw [ih (by omega), Function.update_of_ne (by omega)]

theorem copyin_inside (h : (copyin src m pos tot data).2 = true) {j : Nat} (hj : j < m) :
    src (tot + j) = some ((copyin src m pos tot data).1 (pos + j)) := by
  induction m generalizing pos tot data j with
  | zero => exact absurd hj (Nat.not_lt_zero j)
  | succ m ih =>
    unfold copyin at h ⊢
    cases hs : src tot with
    | none =>
      rw [hs] at h
      exact absurd h (by simp)
    | some b =>
      rw [hs] at h
      cases j with
      | zero =>
        show src tot = some ((copyin src m (pos + 1) (tot + 1) (Function.update data pos b)).1 pos)
        rw [copyin_outside (Or.inl (Nat.lt_succ_self pos)), Function.update_self, hs]
      | succ j =>
        have h1 := ih h (Nat.lt_of_succ_lt_succ hj)
        rwa [Nat.add_right_comm, Nat.add_right_comm pos] at h1

theorem copyin_ok (h : ∀ j < m, (src (tot + j)).isSome = true) :
    (copyin src m pos tot data).2 = true := by
  induction m generalizing pos tot data with
  | zero => rfl
  | succ m ih =>
    obtain ⟨b, hb⟩ := Option.isSome_iff_exists.mp (h 0 (Nat.succ_pos m))
    unfold copyin
    rw [show src tot = some b from hb]
    refine ih fun j hj => ?_
    have h1 := h (j + 1) (Nat.succ_lt_succ hj)
    rwa [show tot + (j + 1) = tot + 1 + j by omega] at h1

/-- what a write of `src` from `off`, of which `r` of `n` bytes are taken, does to the blocks -/
structure Wrote (d d' : Disk) (src : Source) (off tot n r : Nat) : Prop where
  size : d'.size = d.size
  le : r ≤ n
  outside : ∀ p, d.mapped (p / bsize) = true → p < off ∨ off + n ≤ p → d'.data p = d.data p
  inside : ∀ j < r, src (tot + j) = some (d'.data (off + j))
  mono : ∀ b, d.mapped b = true → d'.mapped b = true
  mapped : ∀ j < r, d'.mapped ((off + j) / bsize) = true

theorem Wrote.none (hm : Mapped d d' bn) : Wrote d d' src off tot n 0 where
  size := hm.size
  le := Nat.zero_le n
  outside := fun p hp _ => hm.data p hp
  inside := fun j hj => absurd hj (Nat.not_lt_zero j)
  mono := hm.mono
  mapped := fun j hj => absurd hj (Nat.not_lt_zero j)

theorem piece_le (n off : Nat) (hn : 0 < n) :
    0 < min n (bsize - off % bsize) ∧ min n (bsize - off % bsize) ≤ n := by
  have h : off % bsize < bsize := Nat.mod_lt _ (by decide)
  omega

theorem piece_div {j : Nat} (hj : j < min n (bsize - off % bsize)) :
    (off + j) / bsize = off / bsize := by
  have h := Nat.div_add_mod off bsize
  have hlt : off % bsize + j < bsize := by omega
  rw [show off + j = bsize * (off / bsize) + (off % bsize + j) by omega,
    Nat.mul_add_div (by decide), Nat.div_eq_of_lt hlt, Nat.add_zero]

theorem piece_next (h : min n (bsize - off % bsize) < n) :
    (off + min n (bsize - off % bsize)) / bsize = off / bsize + 1 := by
  have hb : off % bsize < bsize := Nat.mod_lt _ (by decide)
  have h1 := Nat.div_add_mod off bsize
  rw [show off + min n (bsize - off % bsize) = bsize * (off / bsize + 1) by
    rw [Nat.mul_add]
    omega, Nat.mul_div_cancel_left _ (by decide)]

theorem Wrote.piece {d1 d2 : Disk} {r : Nat} (hm : Mapped d d1 (off / bsize))
    (hbn : d1.mapped (off / bsize) = true) (htot : tot < n)
    (hc : copyin src (min (n - tot) (bsize - off % bsize)) off tot d1.data = (data, true))
    (h : Wrote { d1 with data := data } d2 src (off + min (n - tot) (bsize - off % bsize))
      (tot + min (n - tot) (bsize - off % bsize))
      (n - (tot + min (n - tot) (bsize - off % bsize))) r) :
    Wrote d d2 src off tot (n - tot) (min (n - tot) (bsize - off % bsize) + r) := by
  obtain ⟨hpos, hle⟩ := piece_le (n - tot) off (by omega)
  have hdiv : ∀ j < min (n - tot) (bsize - off % bsize), (off + j) / bsize = off / bsize :=
    fun j hj => piece_div hj
  generalize min (n - tot) (bsize - off % bsize) = m at *
  have hout : ∀ p, p < off ∨ off + m ≤ p → data p = d1.data p := by
    intro p hp
    have e : (copyin src m off tot d1.data).1 p = d1.data p := copyin_outside hp
    rwa [hc] at e
  refine ⟨h.size.trans hm.size, ?_, fun p hp hrange => ?_, fun j hj => ?_,
    fun b hb => h.mono b (hm.mono b hb), fun j hj => ?_⟩
  · have := h.le
    omega
  · rw [h.outside p (hm.mono _ hp) (by omega)]
    show data p = d.data p
    rw [hout p (by omega), hm.data p hp]
  · by_cases hjm : j < m
    · have hin : src (tot + j) = some ((copyin src m off tot d1.data).1 (off + j)) :=
        copyin_inside (by rw [hc]) hjm
      rw [hc] at hin
      rw [hin, h.outside (off + j) (by rw [hdiv j hjm]; exact hbn) (Or.inl (by omega))]
    · have hin := h.inside (j - m) (by omega)
      rwa [show tot + m + (j - m) = tot + j by omega, show off + m + (j - m) = off + j by omega]
        at hin
  · by_cases hjm : j < m
    · rw [hdiv j hjm]
      exact h.mono _ hbn
    · have hin := h.mapped (j - m) (by omega)
      rwa [show off + m + (j - m) = off + j by omega] at hin

theorem writeiLoop_spec {fuel : Nat} (hfuel : n - tot ≤ fuel)
    (hmax : off + (n - tot) ≤ maxfile * bsize) :
    ∃ d' r, writeiLoop src n fuel d off tot = some (d', off + r, tot + r) ∧
      Wrote d d' src off tot (n - tot) r ∧
      ((∀ j < n - tot, (src (tot + j)).isSome = true) →
        missing d (off / bsize) ((off + (n - tot) - 1) / bsize + 1) ≤ d.free → r = n - tot) := by
  have hrefl : ∀ d : Disk, Mapped d d (off / bsize) := fun d => ⟨rfl, fun _ _ => rfl, fun _ h => h⟩
  induction fuel generalizing d off tot with
  | zero => exact ⟨d, 0, rfl, .none (hrefl d), fun _ _ => by omega⟩
  | succ fuel ih =>
    by_cases htot : tot < n
    · have hlt : off / bsize < maxfile := Nat.div_lt_of_lt_mul (by rw [Nat.mul_comm]; omega)
      obtain ⟨d1, ok, e, hm, hok⟩ := bmap_spec (d := d) hlt
      -- the last block is one that a file can have
      have hlast : off / bsize < (off + (n - tot) - 1) / bsize + 1 ∧
          (off + (n - tot) - 1) / bsize + 1 ≤ maxfile := by
        refine ⟨Nat.lt_succ_of_le (Nat.div_le_div_right (by omega)), ?_⟩
        exact Nat.div_lt_of_lt_mul (by rw [Nat.mul_comm]; omega)
      unfold writeiLoop
      rw [if_pos htot, e]
      cases ok with
      | false =>
        refine ⟨d1, 0, rfl, .none hm, fun _ hfree => ?_⟩
        obtain ⟨d2, e2, -⟩ := bmap_enough hlast.1 hlast.2 hfree
        exact absurd (e.symm.trans e2) (by simp)
      | true =>
        dsimp only
        cases hc : copyin src (min (n - tot) (bsize - off % bsize)) off tot d1.data with
        | mk data okc =>
          cases okc with
          | false =>
            refine ⟨_, 0, rfl, ⟨hm.size, Nat.zero_le _, fun p hp hrange => ?_,
              fun j hj => absurd hj (Nat.not_lt_zero j), hm.mono,
              fun j hj => absurd hj (Nat.not_lt_zero j)⟩, fun hsrc _ => ?_⟩
            · have hout : (copyin src (min (n - tot) (bsize - off % bsize)) off tot d1.data).1 p
                  = d1.data p := copyin_outside (by omega)
              rw [hc] at hout
              exact hout.trans (hm.data p hp)
            · have hcok : (copyin src (min (n - tot) (bsize - off % bsize)) off tot d1.data).2
                  = true := copyin_ok (fun j hj => hsrc j (by omega))
              rw [hc] at hcok
              exact absurd hcok (by simp)
          | true =>
            obtain ⟨hpos, hle⟩ := piece_le (n - tot) off (by omega)
            obtain ⟨d2, r, e2, hw, hall⟩ := @ih { d1 with data := data }
              (tot + min (n - tot) (bsize - off % bsize)) (off + min (n - tot) (bsize - off % bsize))
              (by omega) (by omega) (fun d => ⟨rfl, fun _ _ => rfl, fun _ h => h⟩)
            refine ⟨d2, min (n - tot) (bsize - off % bsize) + r, ?_,
              .piece hm (hok rfl) htot hc hw, fun hsrc hfree => ?_⟩
            · rw [← Nat.add_assoc, ← Nat.add_assoc]
              exact e2
            · by_cases hrest : min (n - tot) (bsize - off % bsize) < n - tot
              · obtain ⟨d3, e3, hfree3⟩ := bmap_enough hlast.1 hlast.2 hfree
                obtain rfl : d3 = d1 := (Prod.mk.inj (Option.some.inj (e3.symm.trans e))).1
                have hr := hall (fun j hj => by
                  rw [Nat.add_assoc]
                  exact hsrc _ (by omega)) (by
                  rw [piece_next hrest, show off + min (n - tot) (bsize - off % bsize)
                    + (n - (tot + min (n - tot) (bsize - off % bsize))) = off + (n - tot) by omega]
                  exact hfree3)
                omega
              · have := hw.le
                omega
    · refine ⟨d, 0, ?_, .none (hrefl d), fun _ _ => by omega⟩
      unfold writeiLoop
      rw [if_neg htot]
      rfl

def NoHoles (d : Disk) : Prop := ∀ p < d.size, d.mapped (p / bsize) = true

structure Written (d d' : Disk) (src : Source) (off n r : Nat) : Prop where
  le : r ≤ n
  size : d'.size = max d.size (off + r)
  outside : ∀ p < d.size, p < off ∨ off + n ≤ p → d'.data p = d.data p
  inside : ∀ j < r, src j = some (d'.data (off + j))
  noHoles : NoHoles d'

/-- `writei` at most at the end of the file, within the size limit -/
theorem writei_spec (src : Source) (hh : NoHoles d) (hoff : off ≤ d.size)
    (hmax : off + n ≤ maxfile * bsize) :
    ∃ (d' : Disk) (r : Nat), writei d src off n = some (d', (r : Int)) ∧ Written d d' src off n r ∧
      ((∀ j < n, (src j).isSome = true) →
        missing d (off / bsize) ((off + n - 1) / bsize + 1) ≤ d.free → r = n) := by
  obtain ⟨d1, r, e, hw, hall⟩ : ∃ d' r, writeiLoop src n n d off 0 = some (d', off + r, 0 + r) ∧
      Wrote d d' src off 0 (n - 0) r ∧ ((∀ j < n - 0, (src (0 + j)).isSome = true) →
        missing d (off / bsize) ((off + (n - 0) - 1) / bsize + 1) ≤ d.free → r = n - 0) :=
    writeiLoop_spec le_rfl hmax
  rw [Nat.sub_zero] at hw hall
  rw [Nat.zero_add] at e
  have hlim : maxfile * bsize < 2 ^ 32 := by decide
  have hmod : (off + n) % 2 ^ 32 = off + n := Nat.mod_eq_of_lt (by omega)
  refine ⟨{ d1 with size := if d1.size < off + r then off + r else d1.size }, r, ?_, ?_, ?_⟩
  · unfold writei
    rw [hmod, if_neg (by omega), if_neg (by omega), e]
  · have hsize : (if d1.size < off + r then off + r else d1.size) = max d.size (off + r) := by
      rw [hw.size]
      split
      · omega
      · omega
    refine ⟨hw.le, hsize, fun p hp hrange => hw.outside p (hh p hp) hrange, fun j hj => ?_,
      fun p hp => ?_⟩
    · have hin := hw.inside j hj
      rwa [Nat.zero_add] at hin
    · replace hp : p < (if d1.size < off + r then off + r else d1.size) := hp
      rw [hsize] at hp
      show d1.mapped (p / bsize) = true
      by_cases hold : p < d.size
      · exact hw.mono _ (hh p hold)
      · have hin := hw.mapped (p - off) (by omega)
        rwa [show off + (p - off) = p by omega] at hin
  · intro hsrc hfree
    exact hall (fun j hj => by rw [Nat.zero_add]; exact hsrc j hj) hfree

/-- a call that would pass the limit does nothing -/
theorem writei_over (src : Source) (hoff : off ≤ d.size) (hsize : d.size ≤ maxfile * bsize)
    (hn : n < 2 ^ 31) (hmax : maxfile * bsize < off + n) : writei d src off n = some (d, -1) := by
  have hlim : maxfile * bsize < 2 ^ 31 := by decide
  have hmod : (off + n) % 2 ^ 32 = off + n := Nat.mod_eq_of_lt (by omega)
  unfold writei
  rw [hmod, if_neg (by omega), if_pos hmax]

end

end Fs
