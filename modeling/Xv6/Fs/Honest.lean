import Xv6.Fs.SysGetcwd

/-!
# When `sys_getcwd` may report success

The loop of `getcwd` ends in the same way at the root, where the room is used up and where an entry
is missing, and `sys_getcwd` does not look at its result.  Only a copy to the user that fails makes
it return -1.
-/

namespace Fs
open Ulib Lib Vm

def Dirs.PathOf (D : Dirs) (c : Nat) (names : List Str) : Prop :=
  ∃ p d, dotdot D.fs c = some p ∧ D.Up p c names.reverse d rootIno

namespace Cells

def junk : Char := '\x05'

/-- the call fails, or the user has the absolute path with its terminator -/
def Tells (D : Dirs) (c : Nat) (x : Ret) : Prop :=
  x.ret = -1 ∨ (x.ret = 0 ∧ ∃ names rest, D.PathOf c names ∧
    x.copied.map (fun cell => cell.getD junk) = pathOf names ++ '\x00' :: rest)

/-- the call returns, and reports success only with the right path; so where the path does not fit,
or there is none, it returns -1 -/
def Truthful (D : Dirs) (c : Nat) (pt : PageTable) (got : Bool) (ubuf : Nat) (sz : BitVec 32) : Prop :=
  ∃ fuel x, sysGetcwd D.fs fuel c pt got ubuf sz = .ok x ∧ Tells D c x

/-- what has to hold for that -/
def Honest (D : Dirs) (c : Nat) (pt : PageTable) (got : Bool) (ubuf : Nat) (sz : BitVec 32) : Prop :=
  if (pgsize : Int) < sz.toInt then True
  else if sz = 0 then False
  else if got = false ∨ sz = 1 then ¬ Accessible pt ubuf 1
  else if c = rootIno then 0 ≤ sz.toInt ∨ ¬ Accessible pt ubuf (pgsize + 1)
  else 0 ≤ sz.toInt ∧ ¬ Accessible pt ubuf sz.toNat ∧ ∃ p ns d c', dotdot D.fs c = some p ∧
    D.Climbs (sz.toNat - 2) p c ns d c' ∧ D.Ends (sz.toNat - 2 - (upward ns).length) d c'

section
variable {D : Dirs} {c p n len dstva fuel k size : Nat} {pt : PageTable}
  {names : List Str} {text : Str} {x : Ret}

theorem pathOf_ne_nil (names : List Str) : pathOf names ≠ [] := by
  cases names with
  | nil => exact nofun
  | cons n ns => exact nofun

theorem not_tells_of_length (h0 : x.ret = 0) (hlen : x.copied.length ≤ 1) : ¬ Tells D c x := by
  rintro (h | ⟨-, names, rest, -, h⟩)
  · rw [h0] at h
    exact absurd h (by decide)
  · have hl := congrArg List.length h
    have hpos := List.length_pos_iff.mpr (pathOf_ne_nil names)
    rw [List.length_map, List.length_append, List.length_cons] at hl
    omega

theorem truthful_of_reply {buf : Option (Lib.Cells Char)} {sz : BitVec 32} {got : Bool}
    (hrun : ∀ fuel, sysGetcwd D.fs fuel c pt got dstva sz = reply pt buf dstva len) :
    Truthful D c pt got dstva sz ↔ ∃ x, reply pt buf dstva len = .ok x ∧ Tells D c x :=
  ⟨fun ⟨fuel, x, hx, ht⟩ => ⟨x, (hrun fuel).symm.trans hx, ht⟩,
    fun ⟨x, hx, ht⟩ => ⟨0, x, (hrun 0).trans hx, ht⟩⟩

theorem tells_none (hlen : len ≠ 0) :
    (∃ x, reply pt none dstva len = .ok x ∧ Tells D c x) ↔ ¬ Accessible pt dstva 1 := by
  obtain ⟨k, hk, hacc, hend, hrun⟩ := reply_eq pt none dstva len
  have hgoal : k ≤ 0 ↔ ¬ Accessible pt dstva 1 :=
    (copied_le_iff hk hacc hend).trans (or_iff_right (by omega))
  rw [hrun, ← hgoal]
  constructor
  · rintro ⟨x, hx, -⟩
    by_contra hpos
    rw [readCells_outside (by omega) (Or.inl rfl)] at hx
    exact absurd hx nofun
  · intro h
    obtain rfl := Nat.le_zero.mp h
    refine ⟨_, rfl, Or.inl ?_⟩
    exact if_neg hlen.symm

theorem tells_blank :
    (∃ x, reply pt (some Lib.Cells.blank) dstva 1 = .ok x ∧ Tells D c x) ↔ ¬ Accessible pt dstva 1 := by
  obtain ⟨k, hk, hacc, hend, hrun⟩ := reply_eq pt (some Lib.Cells.blank) dstva 1
  have hgoal : k ≤ 0 ↔ ¬ Accessible pt dstva 1 :=
    (copied_le_iff hk hacc hend).trans (or_iff_right (by omega))
  rw [hrun, ← hgoal, readCells_some (by unfold pgsize; omega)]
  constructor
  · rintro ⟨x, hx, ht⟩
    obtain rfl := Except.ok.inj hx
    by_contra hpos
    exact not_tells_of_length (if_pos (by omega)) (by simpa using hk) ht
  · intro h
    exact ⟨_, rfl, Or.inl (if_neg (by omega))⟩

theorem rootPage_copied (h2 : 2 ≤ len) : ∃ rest,
    ((List.range len).map (fun i => rootPage (0 + i))).map (fun cell => cell.getD junk) =
      pathOf [] ++ '\x00' :: rest := by
  obtain ⟨k, rfl⟩ := Nat.exists_eq_add_of_le h2
  rw [List.range_add, List.map_append, List.map_append]
  exact ⟨_, rfl⟩

theorem tells_root (hc : (D.fs rootIno).isSome = true) (h2 : 2 ≤ len) :
    (∃ x, reply pt (some rootPage) dstva len = .ok x ∧ Tells D rootIno x) ↔
      len ≤ pgsize ∨ ¬ Accessible pt dstva (pgsize + 1) := by
  obtain ⟨k, hk, hacc, hend, hrun⟩ := reply_eq pt (some rootPage) dstva len
  rw [hrun, ← copied_le_iff hk hacc hend]
  constructor
  · rintro ⟨x, hx, -⟩
    by_contra hlt
    rw [readCells_outside (by omega) (Or.inr (by omega))] at hx
    exact absurd hx nofun
  · intro h
    rw [readCells_some (by omega)]
    refine ⟨_, rfl, ?_⟩
    by_cases hall : k = len
    · obtain ⟨p, hp⟩ := exists_dotdot hc
      obtain ⟨rest, hrest⟩ := rootPage_copied h2
      rw [hall]
      exact Or.inr ⟨if_pos rfl, [], rest, ⟨p, p, hp, .refl p rootIno⟩, hrest⟩
    · exact Or.inl (if_neg hall)

/-! ## below the root -/

/-- behind the components that fitted there is the cell that was left out -/
theorem slid_copied (h2 : 2 ≤ size) (hfits : text.length ≤ size - 2) : ∃ rest,
    ((List.range size).map (fun i => slid size text (0 + i))).map (fun cell => cell.getD junk) =
      text ++ junk :: '\x00' :: rest := by
  obtain ⟨hin, hout, hnul⟩ := slid_cells h2 hfits
  have htext : ((List.range text.length).map (fun i => slid size text (0 + i))).map
      (fun cell => cell.getD junk) = text := by
    rw [List.map_map]
    refine List.ext_getElem (by simp) (fun i h1 h3 => ?_)
    rw [List.getElem_map, List.getElem_range, Function.comp_apply, Nat.zero_add, hin i h3,
      List.getElem?_eq_getElem h3]
    rfl
  obtain ⟨m, rfl⟩ : ∃ m, size = text.length + (2 + m) := ⟨size - 2 - text.length, by omega⟩
  have htwo : (((List.range 2).map (text.length + ·)).map
      (fun i => slid (text.length + (2 + m)) text (0 + i))).map (fun cell => cell.getD junk) =
        [junk, '\x00'] := by
    show [(slid _ text (0 + (text.length + 0))).getD junk,
      (slid _ text (0 + (text.length + 1))).getD junk] = _
    rw [Nat.zero_add, Nat.zero_add, Nat.add_zero, hout, hnul]
    rfl
  rw [List.range_add, List.map_append, List.map_append, htext, List.range_add, List.map_append,
    List.map_append, List.map_append, htwo]
  exact ⟨_, rfl⟩

theorem nul_notMem_upward {ns : List Str} (h : ∀ n ∈ ns, IsName n) : '\x00' ∉ upward ns :=
  nul_notMem_pathStr (fun n hn => h n (List.mem_reverse.mp hn))

theorem upward_append (ns ms : List Str) : upward (ns ++ ms) = upward ms ++ upward ns := by
  unfold upward
  rw [List.reverse_append, pathStr_append]

/-- the components that fitted, with the cell behind them, are no absolute path -/
theorem not_path_of_climb {ns : List Str} {d c' : Nat} {rest rest' : Str} (hroot : c ≠ rootIno)
    (hp : dotdot D.fs c = some p) (hup : D.Up p c ns d c') (hpath : D.PathOf c names) :
    upward ns ++ junk :: '\x00' :: rest ≠ pathOf names ++ '\x00' :: rest' := by
  intro h
  obtain ⟨p', d', hp', hup'⟩ := hpath
  obtain rfl := Option.some.inj (hp.symm.trans hp')
  have hne : names ≠ [] := by
    rintro rfl
    cases hup' with
    | refl => exact hroot rfl
  have hnames : ∀ n ∈ names, IsName n := fun n hn => hup'.isName n (List.mem_reverse.mpr hn)
  obtain ⟨more, hmore⟩ := hup.prefix hup'
  have hfull : pathOf names = upward more ++ upward ns := by
    rw [pathOf_of_ne hne, ← upward_append, ← hmore]
    unfold upward
    rw [List.reverse_reverse]
  have hleft : cstr (upward ns ++ junk :: '\x00' :: rest) = upward ns ++ [junk] := by
    rw [show upward ns ++ junk :: '\x00' :: rest = upward ns ++ [junk] ++ '\x00' :: rest by simp]
    refine cstr_append_nul ?_
    rw [List.mem_append, not_or]
    exact ⟨nul_notMem_upward hup.isName, by decide⟩
  have hright : cstr (pathOf names ++ '\x00' :: rest') = pathOf names := by
    rw [pathOf_of_ne hne]
    exact cstr_append_nul (nul_notMem_pathStr hnames)
  have hlen := congrArg List.length (hleft.symm.trans ((congrArg cstr h).trans hright))
  rw [hfull, List.length_append, List.length_append, List.length_singleton] at hlen
  cases more with
  | nil =>
    have h0 : (upward []).length = 0 := rfl
    omega
  | cons n more =>
    have hpos := (hnames n (by
      rw [← List.mem_reverse, hmore]
      simp)).pos
    rw [upward_cons_length] at hlen
    omega

/-- a climb that ends is reported as a success whenever the copy succeeds -/
theorem tells_slid {ns : List Str} {d c' : Nat} (hroot : c ≠ rootIno)
    (hp : dotdot D.fs c = some p) (h2 : 2 ≤ size) (hsize : size ≤ pgsize)
    (hclimb : D.Climbs (size - 2) p c ns d c') :
    (∃ x, reply pt (some (slid size (upward ns))) dstva size = .ok x ∧ Tells D c x) ↔
      ¬ Accessible pt dstva size := by
  obtain ⟨k, hk, hacc, hend, hrun⟩ := reply_eq pt (some (slid size (upward ns))) dstva size
  rw [hrun, readCells_some (by omega)]
  by_cases hall : k = size
  · subst hall
    refine iff_of_false ?_ (fun h => h hacc)
    rintro ⟨x, hx, ht⟩
    obtain rfl := Except.ok.inj hx
    rcases ht with h | ⟨-, names, rest, hpath, h⟩
    · rw [if_pos rfl] at h
      exact absurd (show (0 : Int) = -1 from h) (by decide)
    · obtain ⟨rest', hcopied⟩ := slid_copied h2 hclimb.fits
      exact not_path_of_climb hroot hp hclimb.up hpath (hcopied.symm.trans h)
  · refine iff_of_true ⟨_, rfl, Or.inl (if_neg hall)⟩ (fun h => ?_)
    have hsome := h (dstva + k) (by omega) (by omega)
    rw [hend.resolve_left hall] at hsome
    exact absurd hsome nofun

theorem truthful_below (hc : (D.fs c).isSome = true) (hroot : c ≠ rootIno) (pt : PageTable)
    (ubuf : Nat) {sz : BitVec 32} (hsize : sz.toNat ≤ pgsize) (h2 : 2 ≤ sz.toNat)
    (h : sz.toInt ≤ pgsize) (hlen : (sz.signExtend 64).toNat = sz.toNat) :
    Truthful D c pt true ubuf sz ↔ ¬ Accessible pt ubuf sz.toNat ∧
      ∃ p ns d c', dotdot D.fs c = some p ∧ D.Climbs (sz.toNat - 2) p c ns d c' ∧
        D.Ends (sz.toNat - 2 - (upward ns).length) d c' := by
  have hrun : ∀ fuel, sysGetcwd D.fs fuel c pt true ubuf sz =
      (getcwd D.fs fuel c (some Lib.Cells.blank) sz.toNat).bind (fun r =>
        reply pt r.1 ubuf sz.toNat) := fun fuel => by
    rw [sysGetcwd_eq h, if_pos rfl, hlen]
  constructor
  · rintro ⟨fuel, x, hx, ht⟩
    obtain ⟨p, hp⟩ := exists_dotdot hc
    rw [hrun] at hx
    rcases getcwd_cases hc hroot hp h2 hsize fuel rfl with he | he | ⟨ns, d, c', hclimb, ho⟩
    · rw [he] at hx
      exact absurd hx nofun
    · rw [he] at hx
      exact absurd hx nofun
    · rcases ho with ⟨-, he⟩ | ⟨hend, he⟩
      · rw [he] at hx
        exact absurd hx nofun
      · rw [he] at hx
        exact ⟨(tells_slid hroot hp h2 hsize hclimb).mp ⟨x, hx, ht⟩, p, ns, d, c', hp, hclimb, hend⟩
  · rintro ⟨hacc, p, ns, d, c', hp, hclimb, hend⟩
    obtain ⟨x, hx, ht⟩ := (tells_slid hroot hp h2 hsize hclimb).mpr hacc
    refine ⟨0 + 1 + ns.length + 1, x, ?_, ht⟩
    rw [hrun, getcwd_ends hc hroot hp h2 hsize hclimb hend]
    exact hx

/-! ## every size -/

theorem truthful_iff_honest (hc : (D.fs c).isSome = true) (pt : PageTable) (got : Bool) (ubuf : Nat)
    (sz : BitVec 32) : Truthful D c pt got ubuf sz ↔ Honest D c pt got ubuf sz := by
  unfold Honest
  by_cases hbig : (pgsize : Int) < sz.toInt
  · rw [if_pos hbig]
    refine iff_of_true ⟨0, ⟨-1, []⟩, ?_, Or.inl rfl⟩ trivial
    unfold sysGetcwd
    rw [if_pos hbig]
  have h : sz.toInt ≤ pgsize := by omega
  have hcases := size_cases h
  rw [if_neg hbig]
  by_cases h0 : sz = 0
  · subst h0
    rw [if_pos rfl]
    refine iff_of_false ?_ not_false
    rintro ⟨fuel, x, hx, ht⟩
    have hret : x = ⟨0, []⟩ := by
      rw [sysGetcwd_eq h] at hx
      cases got with
      | true =>
        rw [if_pos rfl, getcwd_small hc (by decide)] at hx
        exact (Except.ok.inj hx).symm
      | false =>
        rw [if_neg nofun, getcwd_none hc] at hx
        exact (Except.ok.inj hx).symm
    rw [hret] at ht
    exact not_tells_of_length rfl (Nat.zero_le _) ht
  have hn0 : sz.toNat ≠ 0 := fun e => h0 (size_zero e)
  have hlen0 : (sz.signExtend 64).toNat ≠ 0 := by
    unfold pgsize at hcases
    omega
  rw [if_neg h0]
  by_cases h1 : got = false ∨ sz = 1
  · rw [if_pos h1]
    cases got with
    | false =>
      rw [truthful_of_reply (fun fuel => by rw [sysGetcwd_eq h, if_neg nofun, getcwd_none hc]; rfl),
        tells_none hlen0]
    | true =>
      obtain rfl := h1.resolve_left nofun
      rw [truthful_of_reply (fun fuel => by
        rw [sysGetcwd_eq h, if_pos rfl, getcwd_small hc (by decide)]; rfl)]
      exact tells_blank
  rw [if_neg h1]
  rw [not_or, Bool.not_eq_false] at h1
  obtain ⟨rfl, h1⟩ := h1
  have hn1 : sz.toNat ≠ 1 := fun e => h1 (size_one e)
  by_cases hroot : c = rootIno
  · subst hroot
    rw [if_pos rfl, truthful_of_reply (fun fuel => by
      rw [sysGetcwd_eq h, if_pos rfl, getcwd_root hc (by omega)]; rfl), tells_root hc
        (by unfold pgsize at hcases; omega)]
    exact or_congr_left (by omega)
  rw [if_neg hroot]
  rcases hcases with ⟨hpos, hsize, hlen⟩ | ⟨hneg, hsize, -⟩
  · rw [truthful_below hc hroot pt ubuf hsize (by omega) h hlen]
    exact (and_iff_right hpos).symm
  · refine iff_of_false ?_ (fun hall => absurd hall.1 (by omega))
    rintro ⟨fuel, x, hx, -⟩
    rw [sysGetcwd_eq h, if_pos rfl, getcwd_large hc hroot hsize] at hx
    exact absurd hx nofun

/-- which calls report success only with the absolute path -/
theorem sys_getcwd_truthful (hc : (D.fs c).isSome = true) (pt : PageTable) (got : Bool) (ubuf : Nat)
    (sz : BitVec 32) : Truthful D c pt got ubuf sz ↔ Honest D c pt got ubuf sz :=
  truthful_iff_honest hc pt got ubuf sz

end

theorem sys_getcwd_truthful_root : Truthful oneDirTree.dirs rootIno everyPage true 0 128 := by
  refine (sys_getcwd_truthful (D := oneDirTree.dirs) rfl everyPage true 0 128).mpr ?_
  unfold Honest
  rw [if_neg (by decide), if_neg (by decide), if_neg (by decide), if_pos rfl]
  exact Or.inl (by decide)

/-- `"/a"` does not fit into two bytes, and the call returns 0 -/
theorem getcwd_not_truthful : ¬ ∀ (D : Dirs) (c : Nat), (D.fs c).isSome = true →
    ∀ (pt : PageTable) (got : Bool) (ubuf : Nat) (sz : BitVec 32), Truthful D c pt got ubuf sz := by
  intro h
  have hbelow := (truthful_below (D := oneDirTree.dirs) (c := 2) rfl (by decide) everyPage 0
    (by decide) (by decide) (by decide) (by decide)).mp (h oneDirTree.dirs 2 rfl everyPage true 0 2)
  exact hbelow.1 (accessible_everyPage (by decide))

end Cells

end Fs
