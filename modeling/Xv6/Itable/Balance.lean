import Xv6.Itable.Reach

/-!
# The references that `getcwd` takes

Each round of the loop of `getcwd` drops a reference in `diriname`, and takes one at its end.  The one
that is taken last is dropped where the loop ends in `diriname`, or behind it for want of space, but not
where the root is reached: `balanced_iff` says which calls leave all counts as they were.
-/

namespace Itable
open Fs Ulib Lib

/-- the name of the first entry for inode `i` in directory `d` -/
def nameIn (D : Disk) (d i : Nat) : Option Str :=
  ((D d).entries.find? (fun e => e.inum ≠ 0 && e.inum = i)).map Dirent.name

/-- from `c` up to the root: each directory has a name in the one above it, `c` the first -/
inductive Way (D : Disk) : Nat → List Str → Prop
  | root : Way D rootIno []
  | up {c p : Nat} {n : Str} {names : List Str} (hc : c ≠ rootIno) (hp : parent D c = some p)
      (hn : nameIn D p c = some n) (h : Way D p names) : Way D c (n :: names)

/-- the length of the path, with a `'/'` before each name; the first one is read in the round that
leaves `rounds - 1` -/
def pathLen (beyond : Nat → Nat) : Nat → List Str → Nat
  | _, [] => 0
  | rounds, n :: names => nameLen n (beyond (rounds - 1)) + 1 + pathLen beyond (rounds - 1) names

/-- the call of `getcwd` gets to the root: the directory has a name in itself and in all directories
above, and there is space for the path -/
def Arrives (D : Disk) (cwd size rounds : Nat) (beyond : Nat → Nat) : Prop :=
  nameIn D cwd cwd ≠ none ∧
    ∃ names, Way D cwd names ∧ pathLen beyond (rounds - 1) names + 2 ≤ size

/-- an inode is as it was, or has been freed -/
def Kept (D D' : Disk) : Prop := ∀ i, (D' i).type ≠ .free → D' i = D i

def oneMore (ref : Nat → Nat) (i : Nat) : Nat → Nat := Function.update ref i (ref i + 1)

section
variable {ninodes i c p bufp rounds size cwd : Nat} {D : Disk} {w w' : World} {ref : Nat → Nat}
  {beyond : Nat → Nat} {names names' : List Str} {page : Bool} {n : Str}

/-! ## the way up -/

theorem Way.loop (h : Way D c names) (hp : parent D c = some c) : c = rootIno := by
  induction h with
  | root => rfl
  | up hc hp' _ _ ih =>
    obtain rfl := Option.some.inj (hp.symm.trans hp')
    exact ih hp

theorem Way.up_inv (h : Way D c names) (hc : c ≠ rootIno) (hp : parent D c = some p) :
    ∃ n names', names = n :: names' ∧ nameIn D p c = some n ∧ Way D p names' := by
  cases h with
  | root => exact absurd rfl hc
  | up _ hp' hn h =>
    obtain rfl := Option.some.inj (hp.symm.trans hp')
    exact ⟨_, _, rfl, hn, h⟩

theorem oneMore_ne (ref : Nat → Nat) (i : Nat) : oneMore ref i ≠ ref := by
  intro h
  have hi := congrFun h i
  unfold oneMore at hi
  rw [Function.update_self] at hi
  exact absurd hi (Nat.succ_ne_self _)

theorem oneMore_drop (ref : Nat → Nat) (i : Nat) :
    Function.update (oneMore ref i) i (oneMore ref i i - 1) = ref := by
  unfold oneMore
  rw [Function.update_self, Nat.add_sub_cancel, Function.update_idem, Function.update_eq_self]

/-! ## one call of each function -/

theorem Kept.put (h : Kept D w.disk) (i : Nat) : Kept D (w.put i).disk := by
  intro j hj
  rcases put_disk_or w i with hd | hd
  · rw [hd] at hj ⊢
    exact h j hj
  · have hji : j ≠ i := by
      rintro rfl
      rw [hd, Function.update_self] at hj
      exact hj rfl
    rw [put_disk_of_ne hji] at hj ⊢
    exact h j hj

theorem iget_counts (w : World) (i : Nat) : Ensures (fun _ => True) (iget ninodes i w)
    (fun _ w' => w'.ref = oneMore w.ref i ∧ w'.disk = w.disk) := by
  unfold iget
  by_cases hpos : 0 < w.ref i
  · rw [if_pos hpos]
    exact ⟨rfl, rfl⟩
  · rw [if_neg hpos]
    split
    · exact trivial
    · refine ⟨?_, rfl⟩
      unfold oneMore
      rw [Nat.eq_zero_of_not_pos hpos]

theorem ilock_counts (w : World) (i : Nat) : Ensures (fun _ => True) (ilock i w)
    (fun _ w' => w'.ref = w.ref ∧ w'.disk = w.disk) := by
  unfold ilock
  split
  · exact trivial
  · split
    · exact ⟨rfl, rfl⟩
    · split
      · exact trivial
      · exact ⟨rfl, rfl⟩

/-- `diriname` drops the reference, and reads what the directory was -/
theorem diriname_counts (hk : Kept D w.disk) (href : w.ref = oneMore ref i) (inum : Nat) :
    Ensures (fun _ => True) (diriname i inum w) (fun r w' =>
      w'.ref = ref ∧ Kept D w'.disk ∧ parent D i = some r.1 ∧ nameIn D i inum = r.2) := by
  unfold diriname
  apply Ensures.bind (ilock_counts w i)
  rintro _ w1 ⟨href1, hd1⟩
  apply Ensures.get
  by_cases hdir : (w1.disk i).type = .dir
  · have hsame : w1.disk i = D i := by
      rw [hd1] at hdir ⊢
      exact hk i (by rw [hdir]; exact nofun)
    rw [if_neg (not_not.mpr hdir), hsame]
    cases hp : (D i).entries[1]? with
    | none => exact Ensures.throw trivial
    | some dotdot =>
      apply Ensures.bind_eq (iput_eq i w1)
      refine Ensures.pure ⟨?_, Kept.put (by rw [hd1]; exact hk) i, ?_, rfl⟩
      · show Function.update w1.ref i (w1.ref i - 1) = ref
        rw [href1, href, oneMore_drop]
      · unfold parent
        rw [hp]
        rfl
  · rw [if_pos hdir]
    exact Ensures.throw trivial

/-! ## the loop -/

/-- the loop behind `c`: the reference that is left is one to what is above the root -/
theorem getcwdLoop_counts (hk : Kept D w.disk) (href : w.ref = oneMore ref i)
    (hp : parent D c = some i) : Ensures (fun _ => True)
      (getcwdLoop ninodes beyond rounds bufp i i c w) (fun _ w' =>
        ((∃ names, Way D c names ∧ pathLen beyond rounds names ≤ bufp) ∧ ∃ k, w'.ref = oneMore ref k) ∨
        (¬ ∃ names, Way D c names ∧ pathLen beyond rounds names ≤ bufp) ∧ w'.ref = ref) := by
  induction rounds generalizing w i c bufp with
  | zero => exact Ensures.throw trivial
  | succ rounds ih =>
    unfold getcwdLoop
    by_cases hroot : c = rootIno
    · rw [if_pos hroot, hroot]
      exact Ensures.pure (Or.inl ⟨⟨[], .root, Nat.zero_le _⟩, i, href⟩)
    rw [if_neg hroot]
    apply Ensures.bind (diriname_counts hk href c)
    rintro ⟨iparent, o⟩ w1 ⟨href1, hk1, hpar, hname⟩
    cases o with
    | none =>
      refine Ensures.pure (Or.inr ⟨?_, href1⟩)
      rintro ⟨names, hway, -⟩
      obtain ⟨n, names', -, hn, -⟩ := hway.up_inv hroot hp
      cases hname.symm.trans hn
    | some name =>
      dsimp only at hpar hname ⊢
      have hway : ∀ names, Way D c names →
          ∃ names', names = name :: names' ∧ Way D i names' := by
        intro names h
        obtain ⟨n, names', hnames, hn, h'⟩ := h.up_inv hroot hp
        obtain rfl := Option.some.inj (hname.symm.trans hn)
        exact ⟨names', hnames, h'⟩
      split
      next hfull =>
        -- no space for the name
        refine Ensures.pure (Or.inr ⟨?_, href1⟩)
        rintro ⟨names, h, hlen⟩
        obtain ⟨names', rfl, -⟩ := hway names h
        rw [pathLen, Nat.add_sub_cancel] at hlen
        omega
      next hfree =>
        apply Ensures.bind (iget_counts w1 iparent)
        rintro _ w2 ⟨href2, hd2⟩
        rw [href1] at href2
        rw [← hd2] at hk1
        by_cases hci : c = i
        · -- its own parent: the loop does not get out of it
          subst hci
          rw [if_neg (not_not.mpr rfl)]
          refine (ih hk1 href2 hpar).mono fun _ w3 h => Or.inr ?_
          have hno : ∀ {k m : Nat}, ¬ ∃ names, Way D c names ∧ pathLen beyond k names ≤ m := by
            rintro k m ⟨names, h, -⟩
            exact hroot (h.loop hp)
          rcases h with ⟨h, -⟩ | ⟨-, h⟩
          · exact absurd h hno
          · exact ⟨hno, h⟩
        · rw [if_pos hci]
          refine (ih hk1 href2 hpar).mono fun _ w3 h => ?_
          have hiff : (∃ names, Way D c names ∧ pathLen beyond (rounds + 1) names ≤ bufp) ↔
              ∃ names, Way D i names ∧
                pathLen beyond rounds names ≤ bufp - nameLen name (beyond rounds) - 1 := by
            constructor
            · rintro ⟨names, h, hlen⟩
              obtain ⟨names', rfl, h'⟩ := hway names h
              rw [pathLen, Nat.add_sub_cancel] at hlen
              exact ⟨names', h', by omega⟩
            · rintro ⟨names, h, hlen⟩
              refine ⟨name :: names, .up hroot hp hname h, ?_⟩
              rw [pathLen, Nat.add_sub_cancel]
              have hroom : nameLen name (beyond rounds) < bufp := by
                by_contra hge
                exact hfree ⟨hci, Nat.le_of_not_lt hge⟩
              omega
          rw [hiff]
          exact h

/-! ## the whole call -/

theorem getcwd_counts (w : World) : Ensures (fun _ => True)
    (getcwd ninodes cwd page size rounds beyond w) (fun _ w' => w'.ref = w.ref ↔
      page = false ∨ size ≤ 1 ∨ cwd = rootIno ∨ ¬ Arrives w.disk cwd size rounds beyond) := by
  unfold getcwd
  apply Ensures.bind (ilock_counts w cwd)
  rintro _ w1 ⟨href1, hd1⟩
  apply Ensures.get
  split
  · exact Ensures.throw trivial
  split
  next hbuf =>
    refine Ensures.pure (iff_of_true href1 ?_)
    exact hbuf.imp_right Or.inl
  next hbuf =>
    obtain ⟨hpage, hsize⟩ := not_or.mp hbuf
    split
    next hroot => exact Ensures.pure (iff_of_true href1 (Or.inr (Or.inr (Or.inl hroot))))
    next hroot =>
      apply Ensures.bind (iget_counts w1 cwd)
      rintro _ w2 ⟨href2, hd2⟩
      rw [or_iff_right hpage, or_iff_right hsize, or_iff_right hroot]
      have hk2 : Kept w.disk w2.disk := by
        intro j _
        rw [hd2, hd1]
      rw [href1] at href2
      -- the first round looks for the directory in itself
      cases rounds with
      | zero => exact Ensures.throw trivial
      | succ rounds =>
        unfold getcwdLoop
        rw [if_neg hroot]
        apply Ensures.bind (diriname_counts hk2 href2 cwd)
        rintro ⟨iparent, o⟩ w3 ⟨href3, hk3, hpar, hname⟩
        cases o with
        | none => exact Ensures.pure (iff_of_true href3 fun h => h.1 hname)
        | some name =>
          dsimp only at hpar hname ⊢
          rw [if_neg (fun h => h.1 rfl), if_neg (not_not.mpr rfl)]
          apply Ensures.bind (iget_counts w3 iparent)
          rintro _ w4 ⟨href4, hd4⟩
          rw [href3] at href4
          rw [← hd4] at hk3
          refine (getcwdLoop_counts hk3 href4 hpar).mono fun _ w5 h => ?_
          have hself : nameIn w.disk cwd cwd ≠ none := by
            rw [hname]
            exact Option.some_ne_none name
          have hiff : Arrives w.disk cwd size (rounds + 1) beyond ↔
              ∃ names, Way w.disk cwd names ∧ pathLen beyond rounds names ≤ size - 2 := by
            constructor
            · rintro ⟨-, names, hway, hlen⟩
              exact ⟨names, hway, Nat.le_sub_of_add_le hlen⟩
            · rintro ⟨names, hway, hlen⟩
              exact ⟨hself, names, hway, Nat.add_le_of_le_sub (Nat.lt_of_not_le hsize) hlen⟩
          rw [hiff]
          rcases h with ⟨h, k, hk⟩ | ⟨h, hk⟩
          · rw [hk]
            exact iff_of_false (oneMore_ne _ _) (not_not.mpr h)
          · exact iff_of_true hk h

/-- the counts are as they were, unless the call gets to the root -/
theorem balanced_iff (ninodes cwd : Nat) (page : Bool) (size rounds : Nat) (beyond : Nat → Nat)
    (w w' : World) (h : getcwd ninodes cwd page size rounds beyond w = .ok ((), w')) :
    w'.ref = w.ref ↔
      page = false ∨ size ≤ 1 ∨ cwd = rootIno ∨ ¬ Arrives w.disk cwd size rounds beyond :=
  (getcwd_counts w).elim h

end

/-- the call from the directory `a`, with a buffer of 16 bytes -/
theorem getcwd_inside : ∃ w', getcwd 200 2 true 16 3 (fun _ => 0) inside = .ok ((), w') ∧
    w'.ref rootIno = inside.ref rootIno + 1 := by
  have h : (getcwd 200 2 true 16 3 (fun _ => 0) inside).toOption.any
      (fun r => decide (r.2.ref rootIno = inside.ref rootIno + 1)) = true := by decide +kernel
  cases hc : getcwd 200 2 true 16 3 (fun _ => 0) inside with
  | ok r =>
    rw [hc] at h
    exact ⟨r.2, rfl, of_decide_eq_true h⟩
  | error e =>
    rw [hc] at h
    cases h

/-- with a buffer of one byte the call stops before the root -/
theorem balanced_inside : ∃ w', getcwd 200 2 true 1 3 (fun _ => 0) inside = .ok ((), w') ∧
    w'.ref = inside.ref := by
  have h : (getcwd 200 2 true 1 3 (fun _ => 0) inside).toOption.isSome = true := by decide +kernel
  cases hc : getcwd 200 2 true 1 3 (fun _ => 0) inside with
  | ok r =>
    have hiff := balanced_iff 200 2 true 1 3 (fun _ => 0) inside r.2 hc
    exact ⟨r.2, rfl, hiff.mpr (Or.inr (Or.inl (Nat.le_refl 1)))⟩
  | error e =>
    rw [hc] at h
    cases h

/-- the root keeps a reference -/
theorem getcwd_leaks : ¬ ∀ (ninodes cwd : Nat) (page : Bool) (size rounds : Nat)
    (beyond : Nat → Nat) (w w' : World),
    getcwd ninodes cwd page size rounds beyond w = .ok ((), w') → w'.ref = w.ref := by
  intro hall
  obtain ⟨w', hrun, hroot⟩ := getcwd_inside
  rw [hall 200 2 true 16 3 (fun _ => 0) inside w' hrun] at hroot
  generalize inside.ref rootIno = k at hroot
  omega

end Itable
