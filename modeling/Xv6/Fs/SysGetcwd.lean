import Xv6.Fs.Climb

/-!
# `sys_getcwd`

What `sys_getcwd` copies to the user for every pointer, every `int` size and every directory, with
a page or without.  It looks at the size as an `int`, `getcwd` as a `uint`, `copyout` as a
`uint64`; the result of `getcwd` is not looked at.  The cells that `getcwd` has not written hold
the junk of `kalloc`.
-/

namespace Fs
open Ulib Lib Vm

namespace Cells

/-! ## the model -/

/-- `n` bytes from `src` on; without a page, from address 0 -/
def readCells (buf : Option (Lib.Cells Char)) (src n : Nat) : Except Stop (List (Option Char)) :=
  if n = 0 then .ok []
  else
    match buf with
    | none => .error .outside
    | some page =>
      if src + n ≤ pgsize then .ok ((List.range n).map (fun i => page (src + i)))
      else .error .outside

/-- the loop of `copyout`: whether all bytes are copied, and those that are; each round copies a
byte at least -/
def copyoutLoop (pt : PageTable) (buf : Option (Lib.Cells Char)) :
    Nat → Nat → Nat → Nat → List (Option Char) → Except Stop (Bool × List (Option Char))
  | 0, _, _, _, copied => .ok (true, copied)
  | fuel + 1, dstva, src, len, copied =>
    if len = 0 then .ok (true, copied)
    else
      let va0 := pgrounddown dstva
      match walkaddr pt va0 with
      | none => .ok (false, copied)
      | some _ =>
        let n := min (pgsize - (dstva - va0)) len
        (readCells buf src n).bind (fun cells =>
          copyoutLoop pt buf fuel (va0 + pgsize) (src + n) (len - n) (copied ++ cells))

def copyout (pt : PageTable) (buf : Option (Lib.Cells Char)) (dstva len : Nat) :
    Except Stop (Bool × List (Option Char)) :=
  copyoutLoop pt buf len dstva 0 len []

/-- what the call returns, with the bytes that the user gets -/
structure Ret where
  ret : Int
  copied : List (Option Char)

/-- `got` says whether `kalloc` has a page -/
def sysGetcwd (fs : Image) (fuel cwd : Nat) (pt : PageTable) (got : Bool) (ubuf : Nat)
    (sz : BitVec 32) : Except Stop Ret :=
  if (pgsize : Int) < sz.toInt then .ok ⟨-1, []⟩
  else
    (getcwd fs fuel cwd (if got then some Lib.Cells.blank else none) sz.toNat).bind (fun r =>
      (copyout pt r.1 ubuf (sz.signExtend 64).toNat).bind (fun c =>
        .ok ⟨if c.1 then 0 else -1, c.2⟩))

end Cells

/-- the process may access the `n` bytes at `va` -/
def Accessible (pt : PageTable) (va n : Nat) : Prop :=
  ∀ a, va ≤ a → a < va + n → (walkaddr pt a).isSome = true

namespace Cells

section
variable {D : Dirs} {c p n len src dstva fuel k : Nat} {pt : PageTable} {buf : Option (Lib.Cells Char)}
  {page : Lib.Cells Char} {copied : List (Option Char)}

/-! ## `copyout` -/

theorem walkaddr_page {a b : Nat} (h : a / pgsize = b / pgsize) : walkaddr pt a = walkaddr pt b := by
  have h1 : a / 2 ^ 30 = b / 2 ^ 30 := by
    unfold pgsize at h
    omega
  have h2 : a / 2 ^ 21 = b / 2 ^ 21 := by
    unfold pgsize at h
    omega
  have h3 : maxva ≤ a ↔ maxva ≤ b := by
    unfold pgsize maxva at *
    omega
  unfold walkaddr
  rw [h1, h2, h]
  by_cases hm : maxva ≤ a
  · rw [if_pos hm, if_pos (h3.mp hm)]
  · rw [if_neg hm, if_neg (fun h => hm (h3.mpr h))]

theorem readCells_some (hn : src + n ≤ pgsize) :
    readCells (some page) src n = .ok ((List.range n).map (fun i => page (src + i))) := by
  unfold readCells
  by_cases h : n = 0
  · rw [if_pos h, h]
    rfl
  · rw [if_neg h]
    exact if_pos hn

theorem readCells_outside (hn : n ≠ 0) (h : buf = none ∨ pgsize < src + n) :
    readCells buf src n = .error .outside := by
  unfold readCells
  rw [if_neg hn]
  cases buf with
  | none => rfl
  | some page => exact if_neg (by have := h.resolve_left nofun; omega)

theorem readCells_add (buf : Option (Lib.Cells Char)) (src n k : Nat) :
    readCells buf src (n + k) = (readCells buf src n).bind (fun a =>
      (readCells buf (src + n) k).bind (fun b => .ok (a ++ b))) := by
  by_cases hn : n = 0
  · subst hn
    rw [Nat.zero_add, Nat.add_zero]
    cases readCells buf src k with
    | error e => rfl
    | ok b => rfl
  by_cases h1 : buf = none ∨ pgsize < src + n
  · rw [readCells_outside hn h1, readCells_outside (by omega) (h1.imp_right (by omega))]
    rfl
  rw [not_or, not_lt] at h1
  obtain ⟨page, rfl⟩ := Option.ne_none_iff_exists'.mp h1.1
  rw [readCells_some h1.2]
  show _ = (readCells (some page) (src + n) k).bind _
  by_cases h2 : k ≠ 0 ∧ pgsize < src + n + k
  · rw [readCells_outside h2.1 (Or.inr h2.2), readCells_outside (by omega) (Or.inr (by omega))]
    rfl
  · rw [readCells_some (by omega)]
    by_cases hk : k = 0
    · subst hk
      show _ = Except.ok (_ ++ [])
      rw [List.append_nil, Nat.add_zero]
    · rw [readCells_some (by omega), List.range_add, List.map_append, List.map_map]
      simp only [Function.comp_def, Nat.add_assoc]
      rfl

theorem copyoutLoop_zero (fuel dstva src : Nat) :
    copyoutLoop pt buf fuel dstva src 0 copied = .ok (true, copied) := by
  cases fuel with
  | zero => rfl
  | succ fuel => exact if_pos rfl

/-- bytes are copied up to the first one that the process may not access -/
theorem copyoutLoop_spec (buf : Option (Lib.Cells Char)) (dstva src len : Nat)
    (copied : List (Option Char)) (hfuel : len ≤ fuel) : ∃ k ≤ len, Accessible pt dstva k ∧
      (k = len ∨ walkaddr pt (dstva + k) = none) ∧
        copyoutLoop pt buf fuel dstva src len copied =
          (readCells buf src k).bind (fun cells => .ok (decide (k = len), copied ++ cells)) := by
  induction fuel generalizing dstva src len copied with
  | zero =>
    obtain rfl := Nat.le_zero.mp hfuel
    refine ⟨0, le_rfl, fun a h1 h2 => absurd h1 (by omega), Or.inl rfl, ?_⟩
    show _ = Except.ok (true, copied ++ [])
    rw [List.append_nil]
    rfl
  | succ fuel ih =>
    by_cases hlen : len = 0
    · subst hlen
      refine ⟨0, le_rfl, fun a h1 h2 => absurd h1 (by omega), Or.inl rfl, ?_⟩
      show _ = Except.ok (true, copied ++ [])
      rw [List.append_nil]
      rfl
    have hpage : (pgrounddown dstva) / pgsize = dstva / pgsize := by
      unfold pgrounddown pgsize
      omega
    have hround : copyoutLoop pt buf (fuel + 1) dstva src len copied = if len = 0 then _ else _ := rfl
    rw [if_neg hlen] at hround
    dsimp only at hround
    rw [walkaddr_page hpage] at hround
    cases hw : walkaddr pt dstva with
    | none =>
      rw [hw] at hround
      refine ⟨0, Nat.zero_le _, fun a h1 h2 => absurd h1 (by omega), Or.inr hw, ?_⟩
      rw [hround]
      show _ = Except.ok (decide (0 = len), copied ++ [])
      rw [List.append_nil, decide_eq_false (Ne.symm hlen)]
    | some pa =>
      rw [hw] at hround
      dsimp only at hround
      have hdiv : pgrounddown dstva ≤ dstva ∧ dstva < pgrounddown dstva + pgsize := by
        unfold pgrounddown pgsize
        omega
      generalize hn : min (pgsize - (dstva - pgrounddown dstva)) len = n at hround
      have hacc : Accessible pt dstva n := by
        intro a h1 h2
        rw [show walkaddr pt a = _ from walkaddr_page (b := dstva) ?_, hw]
        · rfl
        · unfold pgrounddown pgsize at *
          omega
      have hnle : n ≤ len := by omega
      by_cases hlast : n = len
      · refine ⟨n, hnle, hacc, Or.inl hlast, ?_⟩
        rw [hround, decide_eq_true hlast]
        cases readCells buf src n with
        | error e => rfl
        | ok cells =>
          show copyoutLoop _ _ _ _ _ (len - n) _ = _
          rw [hlast, Nat.sub_self, copyoutLoop_zero]
          rfl
      · rw [show pgrounddown dstva + pgsize = dstva + n by omega] at hround
        have hsum : ∀ k, Accessible pt (dstva + n) k → Accessible pt dstva (n + k) := by
          intro k hacc' a h1 h2
          by_cases ha : a < dstva + n
          · exact hacc a h1 ha
          · exact hacc' a (by omega) (by omega)
        cases hcells : readCells buf src n with
        | error e =>
          obtain ⟨k, hk, hacc', hend, -⟩ :=
            ih (dstva + n) (src + n) (len - n) copied (by omega)
          refine ⟨n + k, by omega, hsum k hacc', hend.imp (fun h => by omega)
            (fun h => by rw [← Nat.add_assoc]; exact h), ?_⟩
          rw [hround, readCells_add, hcells]
          rfl
        | ok cells =>
          obtain ⟨k, hk, hacc', hend, hrun⟩ :=
            ih (dstva + n) (src + n) (len - n) (copied ++ cells) (by omega)
          refine ⟨n + k, by omega, hsum k hacc', hend.imp (fun h => by omega)
            (fun h => by rw [← Nat.add_assoc]; exact h), ?_⟩
          rw [hround, readCells_add, hcells]
          show copyoutLoop _ _ _ _ _ _ _ = _
          rw [hrun, show decide (n + k = len) = decide (k = len - n) from decide_eq_decide.mpr (by omega)]
          cases readCells buf (src + n) k with
          | error e => rfl
          | ok rest =>
            show Except.ok (_, copied ++ cells ++ rest) = Except.ok (_, copied ++ (cells ++ rest))
            rw [List.append_assoc]

theorem copyout_spec (pt : PageTable) (buf : Option (Lib.Cells Char)) (dstva len : Nat) :
    ∃ k ≤ len, Accessible pt dstva k ∧ (k = len ∨ walkaddr pt (dstva + k) = none) ∧
      copyout pt buf dstva len = (readCells buf 0 k).bind (fun cells => .ok (decide (k = len), cells)) :=
  copyoutLoop_spec buf dstva 0 len [] le_rfl

theorem copied_le_iff {g : Nat} (hk : k ≤ len) (hacc : Accessible pt dstva k)
    (hend : k = len ∨ walkaddr pt (dstva + k) = none) :
    k ≤ g ↔ len ≤ g ∨ ¬ Accessible pt dstva (g + 1) := by
  constructor
  · intro hg
    rcases hend with rfl | hw
    · exact Or.inl hg
    · refine Or.inr (fun h => ?_)
      have hsome := h (dstva + k) (by omega) (by omega)
      rw [hw] at hsome
      exact absurd hsome nofun
  · rintro (h | h)
    · omega
    · by_contra hg
      exact h (fun a h1 h2 => hacc a h1 (by omega))

def reply (pt : PageTable) (buf : Option (Lib.Cells Char)) (ubuf len : Nat) : Except Stop Ret :=
  (copyout pt buf ubuf len).bind (fun c => .ok ⟨if c.1 then 0 else -1, c.2⟩)

/-- no access outside, and the user gets written cells only -/
def Contained (r : Except Stop Ret) : Prop :=
  r ≠ .error .outside ∧ ∀ x, r = .ok x → ∀ cell ∈ x.copied, cell.isSome = true

theorem reply_eq (pt : PageTable) (buf : Option (Lib.Cells Char)) (dstva len : Nat) :
    ∃ k ≤ len, Accessible pt dstva k ∧ (k = len ∨ walkaddr pt (dstva + k) = none) ∧
      reply pt buf dstva len = (readCells buf 0 k).bind (fun cells =>
        .ok ⟨if k = len then 0 else -1, cells⟩) := by
  obtain ⟨k, hk, hacc, hend, hrun⟩ := copyout_spec pt buf dstva len
  refine ⟨k, hk, hacc, hend, ?_⟩
  unfold reply
  rw [hrun]
  cases readCells buf 0 k with
  | error e => rfl
  | ok cells =>
    show Except.ok (Ret.mk (if decide (k = len) = true then 0 else -1) cells) = _
    by_cases h : k = len
    · rw [decide_eq_true h, if_pos rfl]
      show _ = Except.ok (Ret.mk (if k = len then 0 else -1) cells)
      rw [if_pos h]
    · rw [decide_eq_false h, if_neg nofun]
      show _ = Except.ok (Ret.mk (if k = len then 0 else -1) cells)
      rw [if_neg h]

/-- the first `g` cells are written and the next one is not: no more than `g` may be copied -/
theorem reply_contained {g : Nat} (hg : g ≤ pgsize) (hsome : ∀ i < g, (page i).isSome = true)
    (hnone : page g = none) :
    Contained (reply pt (some page) dstva len) ↔ len ≤ g ∨ ¬ Accessible pt dstva (g + 1) := by
  obtain ⟨k, hk, hacc, hend, hrun⟩ := reply_eq pt (some page) dstva len
  rw [← copied_le_iff hk hacc hend, hrun]
  constructor
  · intro h
    by_contra hlt
    by_cases hle : k ≤ pgsize
    · rw [readCells_some (by omega)] at h
      have hmem := h.2 _ rfl (page (0 + g)) (List.mem_map.mpr ⟨g, List.mem_range.mpr (by omega), rfl⟩)
      rw [Nat.zero_add, hnone] at hmem
      exact absurd hmem nofun
    · rw [readCells_outside (by omega) (Or.inr (by omega))] at h
      exact h.1 rfl
  · intro h
    rw [readCells_some (by omega)]
    refine ⟨nofun, fun x hx cell hcell => ?_⟩
    obtain rfl := Except.ok.inj hx
    obtain ⟨i, hi, rfl⟩ := List.mem_map.mp hcell
    rw [Nat.zero_add]
    exact hsome i (by have := List.mem_range.mp hi; omega)

/-- without a page nothing may be copied -/
theorem reply_contained_none :
    Contained (reply pt none dstva len) ↔ len = 0 ∨ ¬ Accessible pt dstva 1 := by
  obtain ⟨k, hk, hacc, hend, hrun⟩ := reply_eq pt none dstva len
  rw [← Nat.le_zero, ← copied_le_iff hk hacc hend, hrun]
  constructor
  · intro h
    by_contra hlt
    rw [readCells_outside (by omega) (Or.inl rfl)] at h
    exact h.1 rfl
  · intro h
    obtain rfl := Nat.le_zero.mp h
    exact ⟨nofun, fun x hx cell hcell => by
      obtain rfl := Except.ok.inj hx
      exact absurd hcell (by simp)⟩

/-! ## every size -/

theorem sysGetcwd_eq {sz : BitVec 32} (h : sz.toInt ≤ pgsize) (fs : Image) (fuel cwd : Nat)
    (pt : PageTable) (got : Bool) (ubuf : Nat) : sysGetcwd fs fuel cwd pt got ubuf sz =
      (getcwd fs fuel cwd (if got then some Lib.Cells.blank else none) sz.toNat).bind (fun r =>
        reply pt r.1 ubuf (sz.signExtend 64).toNat) := by
  unfold sysGetcwd
  rw [if_neg (by omega)]
  rfl

/-- a size that passes the check is small, or was negative -/
theorem size_cases {sz : BitVec 32} (h : sz.toInt ≤ pgsize) :
    (0 ≤ sz.toInt ∧ sz.toNat ≤ pgsize ∧ (sz.signExtend 64).toNat = sz.toNat) ∨
      (sz.toInt < 0 ∧ pgsize < sz.toNat ∧ pgsize < (sz.signExtend 64).toNat) := by
  have hlt := sz.isLt
  have hext : (sz.signExtend 64).toNat = _ := BitVec.toNat_signExtend sz
  rw [BitVec.toNat_setWidth, Nat.mod_eq_of_lt (by omega)] at hext
  rw [BitVec.toInt_eq_msb_cond] at h ⊢
  unfold pgsize at *
  cases hmsb : sz.msb with
  | false =>
    rw [hmsb] at h hext
    rw [if_neg nofun] at h hext
    rw [if_neg nofun]
    omega
  | true =>
    have hbig := BitVec.msb_eq_true_iff_two_mul_ge.mp hmsb
    rw [hmsb] at h hext
    rw [if_pos rfl] at h hext
    rw [if_pos rfl]
    omega

theorem size_zero {sz : BitVec 32} (h : sz.toNat = 0) : sz = 0 := BitVec.eq_of_toNat_eq h

theorem size_one {sz : BitVec 32} (h : sz.toNat = 1) : sz = 1 := BitVec.eq_of_toNat_eq h

theorem size_two {sz : BitVec 32} (h : sz.toNat = 2) : sz = 2 := BitVec.eq_of_toNat_eq h

/-- what has to hold for the call to stay in its page and to hand out nothing but the path -/
def Confined (D : Dirs) (c : Nat) (pt : PageTable) (got : Bool) (ubuf : Nat) (sz : BitVec 32) : Prop :=
  if (pgsize : Int) < sz.toInt ∨ sz = 0 then True
  else if got = false ∨ sz = 1 then ¬ Accessible pt ubuf 1
  else if c = rootIno then sz = 2 ∨ ¬ Accessible pt ubuf 3
  else 0 ≤ sz.toInt ∧ ∀ p ns d c', dotdot D.fs c = some p → D.Climbs (sz.toNat - 2) p c ns d c' →
    ¬ D.Overlong d c' ∧ (D.Ends (sz.toNat - 2 - (upward ns).length) d c' →
      ¬ Accessible pt ubuf ((upward ns).length + 1))

theorem rootPage_cells : (∀ i < 2, (rootPage i).isSome = true) ∧ rootPage 2 = none := by
  refine ⟨fun i hi => ?_, rfl⟩
  match i with
  | 0 => rfl
  | 1 => rfl

theorem contained_flat (hc : (D.fs c).isSome = true) (pt : PageTable) (ubuf : Nat) {sz : BitVec 32}
    (h : sz.toInt ≤ pgsize) (got : Bool) (hflat : got = false ∨ sz.toNat ≤ 1) :
    (∀ fuel, Contained (sysGetcwd D.fs fuel c pt got ubuf sz)) ↔
      (sz.signExtend 64).toNat = 0 ∨ ¬ Accessible pt ubuf 1 := by
  cases got with
  | false =>
    have hrun : ∀ fuel, sysGetcwd D.fs fuel c pt false ubuf sz = reply pt none ubuf _ := fun fuel => by
      rw [sysGetcwd_eq h, if_neg nofun, getcwd_none hc]
      rfl
    refine ⟨fun hall => ?_, fun hacc fuel => ?_⟩
    · have h0 := hall 0
      rw [hrun, reply_contained_none] at h0
      exact h0
    · rw [hrun, reply_contained_none]
      exact hacc
  | true =>
    have hrun : ∀ fuel, sysGetcwd D.fs fuel c pt true ubuf sz =
        reply pt (some Lib.Cells.blank) ubuf _ := fun fuel => by
      rw [sysGetcwd_eq h, if_pos rfl, getcwd_small hc (hflat.resolve_left nofun)]
      rfl
    refine ⟨fun hall => ?_, fun hacc fuel => ?_⟩
    · have h0 := hall 0
      rw [hrun, reply_contained (Nat.zero_le _) (fun i hi => absurd hi (Nat.not_lt_zero i)) rfl,
        Nat.le_zero] at h0
      exact h0
    · rw [hrun, reply_contained (Nat.zero_le _) (fun i hi => absurd hi (Nat.not_lt_zero i)) rfl,
        Nat.le_zero]
      exact hacc

theorem contained_root (hc : (D.fs rootIno).isSome = true) (pt : PageTable) (ubuf : Nat)
    (sz : BitVec 32) (h : sz.toInt ≤ pgsize) (h2 : 2 ≤ sz.toNat) :
    (∀ fuel, Contained (sysGetcwd D.fs fuel rootIno pt true ubuf sz)) ↔
      (sz.signExtend 64).toNat ≤ 2 ∨ ¬ Accessible pt ubuf 3 := by
  have hrun : ∀ fuel, sysGetcwd D.fs fuel rootIno pt true ubuf sz =
      reply pt (some rootPage) ubuf _ := fun fuel => by
    rw [sysGetcwd_eq h, if_pos rfl, getcwd_root hc h2]
    rfl
  refine ⟨fun hall => ?_, fun hacc fuel => ?_⟩
  · have h0 := hall 0
    rw [hrun, reply_contained (by decide) rootPage_cells.1 rootPage_cells.2] at h0
    exact h0
  · rw [hrun, reply_contained (by decide) rootPage_cells.1 rootPage_cells.2]
    exact hacc

/-- the string of a climb is copied with more than the string -/
theorem contained_slid {size : Nat} {text : Str} (h2 : 2 ≤ size) (hsize : size ≤ pgsize)
    (hfits : text.length ≤ size - 2) (pt : PageTable) (ubuf : Nat) :
    Contained (reply pt (some (slid size text)) ubuf size) ↔
      ¬ Accessible pt ubuf (text.length + 1) := by
  obtain ⟨hin, hend, -⟩ := slid_cells h2 hfits
  rw [reply_contained (by omega) (fun i hi => by rw [hin i hi, List.getElem?_eq_getElem hi]; rfl) hend]
  exact or_iff_right (by omega)

theorem contained_below (hc : (D.fs c).isSome = true) (hroot : c ≠ rootIno) (pt : PageTable)
    (ubuf : Nat) {sz : BitVec 32} (hsize : sz.toNat ≤ pgsize) (h2 : 2 ≤ sz.toNat)
    (h : sz.toInt ≤ pgsize) (hlen : (sz.signExtend 64).toNat = sz.toNat) :
    (∀ fuel, Contained (sysGetcwd D.fs fuel c pt true ubuf sz)) ↔
      ∀ p ns d c', dotdot D.fs c = some p → D.Climbs (sz.toNat - 2) p c ns d c' →
        ¬ D.Overlong d c' ∧ (D.Ends (sz.toNat - 2 - (upward ns).length) d c' →
          ¬ Accessible pt ubuf ((upward ns).length + 1)) := by
  have hrun : ∀ fuel, sysGetcwd D.fs fuel c pt true ubuf sz =
      (getcwd D.fs fuel c (some Lib.Cells.blank) sz.toNat).bind (fun r =>
        reply pt r.1 ubuf sz.toNat) := fun fuel => by
    rw [sysGetcwd_eq h, if_pos rfl, hlen]
  constructor
  · intro hall p ns d c' hp hclimb
    refine ⟨fun hover => ?_, fun hend => ?_⟩
    · have h0 := hall (0 + 1 + ns.length + 1)
      rw [hrun, getcwd_overlong hc hroot hp h2 hsize hclimb hover] at h0
      exact h0.1 rfl
    · have h0 := hall (0 + 1 + ns.length + 1)
      rw [hrun, getcwd_ends hc hroot hp h2 hsize hclimb hend] at h0
      exact (contained_slid h2 hsize hclimb.fits pt ubuf).mp h0
  · intro hall fuel
    obtain ⟨p, hp⟩ := exists_dotdot hc
    rw [hrun]
    rcases getcwd_cases hc hroot hp h2 hsize fuel rfl with he | he | ⟨ns, d, c', hclimb, ho⟩
    · rw [he]
      exact ⟨nofun, nofun⟩
    · rw [he]
      exact ⟨nofun, nofun⟩
    · obtain ⟨hshort, hacc⟩ := hall p ns d c' hp hclimb
      rcases ho with ⟨hover, -⟩ | ⟨hend, he⟩
      · exact absurd hover hshort
      · rw [he]
        exact (contained_slid h2 hsize hclimb.fits pt ubuf).mpr (hacc hend)

theorem contained_iff_confined (hc : (D.fs c).isSome = true) (pt : PageTable) (got : Bool) (ubuf : Nat)
    (sz : BitVec 32) :
    (∀ fuel, Contained (sysGetcwd D.fs fuel c pt got ubuf sz)) ↔ Confined D c pt got ubuf sz := by
  unfold Confined
  by_cases hbig : (pgsize : Int) < sz.toInt
  · rw [if_pos (Or.inl hbig)]
    refine iff_of_true (fun fuel => ?_) trivial
    unfold sysGetcwd
    rw [if_pos hbig]
    exact ⟨nofun, fun x hx cell hcell => by
      obtain rfl := Except.ok.inj hx
      exact absurd hcell (by simp)⟩
  have h : sz.toInt ≤ pgsize := by omega
  have hcases := size_cases h
  by_cases h0 : sz = 0
  · rw [if_pos (Or.inr h0), contained_flat hc pt ubuf h got (Or.inr (by rw [h0]; decide)), h0]
    exact iff_of_true (Or.inl (by decide)) trivial
  rw [if_neg (by rw [not_or]; exact ⟨hbig, h0⟩)]
  have hn0 : sz.toNat ≠ 0 := fun e => h0 (size_zero e)
  by_cases h1 : got = false ∨ sz = 1
  · rw [if_pos h1, contained_flat hc pt ubuf h got (h1.imp_right (fun e => by rw [e]; decide))]
    exact or_iff_right (by unfold pgsize at hcases; omega)
  rw [if_neg h1]
  rw [not_or, Bool.not_eq_false] at h1
  obtain ⟨rfl, h1⟩ := h1
  have hn1 : sz.toNat ≠ 1 := fun e => h1 (size_one e)
  by_cases hroot : c = rootIno
  · subst hroot
    rw [if_pos rfl, contained_root hc pt ubuf sz h (by omega)]
    refine or_congr_left ⟨fun hle => size_two ?_, fun e => by rw [e]; decide⟩
    unfold pgsize at hcases
    omega
  rw [if_neg hroot]
  rcases hcases with ⟨hpos, hsize, hlen⟩ | ⟨hneg, hsize, -⟩
  · rw [contained_below hc hroot pt ubuf hsize (by omega) h hlen]
    exact (and_iff_right hpos).symm
  · refine iff_of_false (fun hall => ?_) (fun hall => absurd hall.1 (by omega))
    have hfault := (hall 0).1
    rw [sysGetcwd_eq h, if_pos rfl, getcwd_large hc hroot hsize] at hfault
    exact hfault rfl

/-- which calls stay in the page and hand out nothing but the path -/
theorem sys_getcwd_contained (hc : (D.fs c).isSome = true) (pt : PageTable) (got : Bool) (ubuf : Nat)
    (sz : BitVec 32) :
    (∀ fuel, Contained (sysGetcwd D.fs fuel c pt got ubuf sz)) ↔ Confined D c pt got ubuf sz :=
  contained_iff_confined hc pt got ubuf sz

end

def everyPage : PageTable where
  root := 0
  mid _ := some 0
  low _ := some 0
  pte _ := some ⟨0, ⟨true, true, false, true⟩⟩

theorem accessible_everyPage {va n : Nat} (h : va + n ≤ maxva) : Accessible everyPage va n := by
  intro a h1 h2
  unfold walkaddr everyPage
  rw [if_neg (by omega)]
  rfl

theorem sys_getcwd_contained_two : oneDirTree.dirs.fs rootIno ≠ none ∧
    ∀ fuel, Contained (sysGetcwd oneDirTree.dirs.fs fuel rootIno everyPage true 0 2) := by
  refine ⟨nofun, (sys_getcwd_contained (D := oneDirTree.dirs) rfl everyPage true 0 2).mpr ?_⟩
  unfold Confined
  rw [if_neg (by decide), if_neg (by decide), if_pos rfl]
  exact Or.inl rfl

/-- `pwd` in the root gets 126 bytes that were not written -/
theorem pwd_not_contained : ¬ ∀ (D : Dirs) (c : Nat), (D.fs c).isSome = true →
    ∀ (pt : PageTable) (got : Bool) (ubuf : Nat) (sz : BitVec 32) (fuel : Nat),
      Contained (sysGetcwd D.fs fuel c pt got ubuf sz) := by
  intro h
  have hroot := (contained_root (D := oneDirTree.dirs) rfl everyPage 0 128 (by decide)
    (by decide)).mp (h oneDirTree.dirs rootIno rfl everyPage true 0 128)
  exact hroot.elim (by decide) (fun hacc => hacc (accessible_everyPage (by decide)))

end Cells

end Fs
