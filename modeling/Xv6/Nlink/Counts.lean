import Xv6.Nlink.Exact

/-!
# Link counts over runs

`nlink_exact` is about every run of the calls from a disk in order.  The count is a `short`: of a
file with 32767 entries, in three directories, one more `link` makes it negative (`link_wraps`).
-/

namespace Nlink
open Fs Ulib Lib
open Itable (InodeType lookup nameField isdirempty)

section
variable {n cwd : Nat} {w : World} {path : Str}

theorem create_safe {type : InodeType} {room : Nat → Bool} :
    create n w cwd path type room ≠ .error .unlinkNlink := by
  unfold create
  split
  · nofun
  · split
    · dsimp only
      split
      · nofun
      · split
        · nofun
        · nofun
    · split
      · nofun
      · split
        · nofun
        · nofun

theorem sysLink_safe {old new : Str} {room : Bool} :
    sysLink w cwd old new room ≠ .error .unlinkNlink := by
  unfold sysLink
  split
  · nofun
  · split
    · nofun
    · split
      · nofun
      · dsimp only
        split
        · nofun
        · split
          · nofun
          · nofun

theorem sysOpen_safe : sysOpen w cwd path ≠ .error .unlinkNlink := by
  unfold sysOpen
  split
  · nofun
  · split
    · nofun
    · nofun

theorem map_safe {α β : Type} {x : Except Stop α} {f : α → β} {e : Stop} (h : x ≠ .error e) :
    x.map f ≠ .error e := by
  cases x with
  | error a => exact fun he => h (congrArg Except.error (Except.error.inj he))
  | ok a => nofun

/-- `panic("unlink: nlink < 1")` is not reached -/
theorem Inv.safe (h : Inv n w) (c : Call) : call n w c ≠ .error .unlinkNlink := by
  unfold call
  cases c with
  | create cwd path type room keep =>
    dsimp only
    split
    · nofun
    · exact map_safe create_safe
  | link cwd old new room => exact map_safe sysLink_safe
  | unlink cwd path => exact map_safe (sysUnlink_safe h)
  | openFile cwd path keep => exact map_safe sysOpen_safe
  | close i =>
    dsimp only
    split
    · nofun
    · nofun

end

/-- over every run that takes no directory away and adds no link to an inode at the maximum: a
file has as many links as there are entries for it, `unlink` does not panic, and what has an entry
is not freed -/
theorem nlink_exact {n : Nat} {w₀ w : World} {l : List Call} (h₀ : Inv n w₀)
    (hrun : Run (guarded (fun w c => Tidy w c ∧ Counts n w c) (Step n)) w₀ l w) :
    (∀ i, (w.disk i).type = .file ∨ (w.disk i).type = .device →
      (w.disk i).nlink.toInt = links n w.disk i) ∧
    (∀ c, call n w c ≠ .error .unlinkNlink) ∧
    ∀ d, ∀ e ∈ (w.disk d).entries, e.inum ≠ 0 → (w.disk e.inum).type ≠ .free := by
  have h : Inv n w := hrun.invariant (fun _ _ _ hs ha => hs.step ha.1.1 ha.1.2 ha.2) h₀
  refine ⟨fun i ht => ?_, h.safe, fun d e he h0 => h.named he h0⟩
  have hfree : (w.disk i).type ≠ .free := by
    rintro hf
    rw [hf] at ht
    exact absurd ht (by decide)
  have hdir : (w.disk i).type ≠ .dir := by
    rintro hf
    rw [hf] at ht
    exact absurd ht (by decide)
  exact ((h i).fine ((h i).bound hfree).1.ne').count hfree hdir

/-! ## a new disk -/

def blank : Disk := fun _ => ⟨.free, 0, []⟩

/-- the first entries of directory `ip` -/
def dots (ip dp : Nat) : List Dirent := [⟨ip, nameField ['.']⟩, ⟨dp, nameField ['.', '.']⟩]

def fresh : World := ⟨Function.update blank 1 ⟨.dir, 1, dots 1 1⟩, fun _ => 0⟩

theorem links_blank (n i : Nat) : links n blank i = 0 := by
  unfold links tally
  exact Finset.sum_eq_zero (fun _ _ => rfl)

theorem links_add {n d : Nat} {D : Disk} (x : Inode) (hd : d < n) (he : (D d).entries = [])
    (i : Nat) : links n (Function.update D d x) i = links n D i + names x.entries i := by
  have hl := @links_update n d D x hd i
  rw [he, names_nil] at hl
  exact hl

theorem names_cons (e : Dirent) (es : List Dirent) (i : Nat) :
    names (e :: es) i = names es i + if e.inum = i then 1 else 0 := by
  unfold names
  rw [List.countP_cons]
  simp only [decide_eq_true_eq]

theorem names_append (es es' : List Dirent) (i : Nat) :
    names (es ++ es') i = names es i + names es' i :=
  List.countP_append

theorem names_dots {ip dp i : Nat} (h : ip ≠ i) (h' : dp ≠ i) : names (dots ip dp) i = 0 := by
  unfold dots
  rw [names_cons, names_cons, names_nil, if_neg h, if_neg h']

theorem inOrder_free {n : Nat} {w : World} {i : Nat} (hi : w.disk i = ⟨.free, 0, []⟩)
    (hl : links n w.disk i = 0) (ho : w.opened i = 0) : InOrder n w i := by
  refine ⟨fun h => ?_, fun _ => ?_, fun _ => ?_⟩
  · rw [hi] at h
    exact absurd rfl h
  · rw [hi]
  · rw [hi]
    exact ⟨hl, ho⟩

theorem fresh_inv : Inv 200 fresh := by
  intro i
  by_cases hi : i = 1
  · subst hi
    exact ⟨fun _ => by decide, fun h => absurd rfl h, fun _ => Fine.of_dir rfl (by decide)⟩
  · refine inOrder_free (Function.update_of_ne hi ..) ?_ rfl
    show links 200 (Function.update blank 1 _) i = 0
    rw [links_add _ (by decide) rfl, links_blank, names_dots (Ne.symm hi) (Ne.symm hi)]

theorem nlink_exact_two : ∃ w, Run (guarded (fun w c => Tidy w c ∧ Counts 200 w c) (Step 200)) fresh
    [.create 1 "a".toList .file (fun _ => true) false, .link 1 "a".toList "b".toList true,
      .create 1 "d".toList .dir (fun _ => true) false, .link 1 "b".toList "d/c".toList true,
      .unlink 1 "a".toList] w ∧
    (w.disk 2).nlink.toInt = links 200 w.disk 2 ∧ (w.disk 2).nlink = 2 := by
  have hrun : ∃ w, Run (guarded (fun w c => Tidy w c ∧ Counts 200 w c) (Step 200)) fresh
      [.create 1 "a".toList .file (fun _ => true) false, .link 1 "a".toList "b".toList true,
      .create 1 "d".toList .dir (fun _ => true) false, .link 1 "b".toList "d/c".toList true,
      .unlink 1 "a".toList] w ∧ (w.disk 2).type = .file ∧ (w.disk 2).nlink = 2 := by
    refine ⟨_, .cons ⟨by decide, rfl⟩ (.cons ⟨by decide, rfl⟩ (.cons ⟨by decide, rfl⟩
      (.cons ⟨by decide, rfl⟩ (.cons ⟨by decide, rfl⟩ (.nil _))))), by decide, by decide⟩
  obtain ⟨w, hrun, htype, hlink⟩ := hrun
  exact ⟨w, hrun, (nlink_exact fresh_inv hrun).1 2 (Or.inl htype), hlink⟩

/-! ## a file at the maximum -/

/-- `/f`, a file with `k` links, and the directories `/a` and `/b` with these entries -/
def shared (k : Int16) (A B : List Dirent) : World where
  disk := Function.update (Function.update (Function.update (Function.update blank
    1 ⟨.dir, 3, dots 1 1 ++ [⟨2, nameField ['f']⟩, ⟨3, nameField ['a']⟩, ⟨4, nameField ['b']⟩]⟩)
    2 ⟨.file, k, []⟩) 3 ⟨.dir, 1, A⟩) 4 ⟨.dir, 1, B⟩
  opened := fun _ => 0

section
variable {k : Int16} {A B es : List Dirent} {i : Nat}

theorem shared_setNlink (a : Int16) : (shared k A B).setNlink 2 a = shared a A B := by
  show World.mk (Function.update (Function.update _ 4 _) 2 ⟨.file, a, []⟩) _ = _
  unfold shared
  rw [Function.update_comm (by decide : 4 ≠ 2), Function.update_comm (by decide : 3 ≠ 2),
    Function.update_idem]

theorem shared_setEntries (es : List Dirent) : (shared k A B).setEntries 4 es = shared k A es := by
  show World.mk (Function.update (Function.update _ 4 _) 4 ⟨.dir, 1, es⟩) _ = _
  rw [Function.update_idem]
  rfl

theorem links_shared (i : Nat) : links 200 (shared k A B).disk i =
    names (dots 1 1 ++ [⟨2, nameField ['f']⟩, ⟨3, nameField ['a']⟩, ⟨4, nameField ['b']⟩]) i +
      names A i + names B i := by
  unfold shared
  dsimp only
  rw [links_add _ (by decide) rfl, links_add _ (by decide) rfl, links_add _ (by decide) rfl,
    links_add _ (by decide) rfl, links_blank, names_nil, Nat.zero_add, Nat.add_zero]

theorem links_shared_file : links 200 (shared k A B).disk 2 = 1 + names A 2 + names B 2 := by
  rw [links_shared]
  rfl

theorem shared_inv (hk : k.toInt = 1 + names A 2 + names B 2)
    (hA : ∀ i, i ≠ 1 → i ≠ 2 → i ≠ 3 → names A i = 0)
    (hB : ∀ i, i ≠ 1 → i ≠ 2 → i ≠ 4 → names B i = 0) : Inv 200 (shared k A B) := by
  intro i
  by_cases h4 : i = 4
  · subst h4
    have hlink : (1 : Int) ≤ (1 : Int16).toInt := by decide
    exact ⟨fun _ => by decide, fun h => absurd rfl h, fun _ => Fine.of_dir rfl hlink⟩
  by_cases h3 : i = 3
  · subst h3
    have hlink : (1 : Int) ≤ (1 : Int16).toInt := by decide
    exact ⟨fun _ => by decide, fun h => absurd rfl h, fun _ => Fine.of_dir rfl hlink⟩
  by_cases h2 : i = 2
  · subst h2
    refine ⟨fun _ => by decide, fun _ => rfl, fun _ => Fine.of_count nofun nofun ?_⟩
    rw [links_shared_file]
    exact hk
  by_cases h1 : i = 1
  · subst h1
    have hlink : (1 : Int) ≤ (3 : Int16).toInt := by decide
    exact ⟨fun _ => by decide, fun h => absurd rfl h, fun _ => Fine.of_dir rfl hlink⟩
  refine inOrder_free ?_ ?_ rfl
  · unfold shared
    dsimp only
    rw [Function.update_of_ne h4, Function.update_of_ne h3, Function.update_of_ne h2,
      Function.update_of_ne h1]
    rfl
  · rw [links_shared, hA i h1 h2 h3, hB i h1 h2 h4, names_append,
      names_dots (Ne.symm h1) (Ne.symm h1), names_cons, names_cons, names_cons, names_nil,
      if_neg (Ne.symm h2), if_neg (Ne.symm h3), if_neg (Ne.symm h4)]

theorem dirlink_append {w : World} {dp inum : Nat} {name : Str}
    (hl : lookup (w.disk dp).entries name = none)
    (hf : ∀ e ∈ (w.disk dp).entries, e.inum ≠ 0) (hlt : (w.disk dp).entries.length < maxEntries) :
    dirlink w dp name inum true =
      (w.setEntries dp ((w.disk dp).entries ++ [⟨inum, nameField name⟩]), true) := by
  have hfind : (w.disk dp).entries.findIdx? (fun e => e.inum = 0) = none :=
    List.findIdx?_eq_none_iff.mpr (fun e he => decide_eq_false (hf e he))
  unfold dirlink
  dsimp only
  rw [hl, hfind]
  dsimp only
  rw [if_pos ⟨rfl, hlt⟩]

theorem shared_link (hl : lookup B "new".toList = none) (hf : ∀ e ∈ B, e.inum ≠ 0)
    (hlt : B.length < maxEntries) :
    call 200 (shared 32767 A B) (.link 1 "f".toList "b/new".toList true) =
      .ok (shared (-32768) A (B ++ [⟨2, nameField "new".toList⟩])) := by
  have hold : Fs.namex (image (shared 32767 A B).disk) 1 "f".toList false =
      some (2, "f".toList) := rfl
  have hcount : (shared 32767 A B).setNlink 2 (((shared 32767 A B).disk 2).nlink + 1) =
      shared (-32768) A B := shared_setNlink (32767 + 1)
  have hnew : Fs.namex (image (shared (-32768) A B).disk) 1 "b/new".toList true =
      some (4, "new".toList) := rfl
  have hlink := @dirlink_append (shared (-32768) A B) 4 2 "new".toList hl hf hlt
  rw [shared_setEntries] at hlink
  have hput : ∀ es, (shared (-32768) A es).iput 4 = shared (-32768) A es :=
    fun es => iput_of_link (by decide : (1 : Int) ≤ (1 : Int16).toInt)
  unfold call sysLink
  dsimp only
  rw [hold]
  dsimp only
  rw [if_neg nofun, if_neg nofun, hcount, hnew]
  dsimp only
  rw [hlink]
  dsimp only
  rw [hput]
  rfl

end

def many (m : Nat) : List Dirent :=
  (List.range m).map (fun k => ⟨2, nameField ('e' :: Nat.toDigits 10 k)⟩)

theorem names_many (m i : Nat) : names (many m) i = if 2 = i then m else 0 := by
  unfold names many
  rw [List.countP_map]
  split
  · rename_i h
    rw [List.countP_eq_length.mpr, List.length_range]
    exact fun k _ => decide_eq_true h
  · rename_i h
    rw [List.countP_eq_zero]
    exact fun k _ hk => h (of_decide_eq_true hk)

def filled (ip m : Nat) : List Dirent := dots ip 1 ++ many m

theorem names_filled {ip m i : Nat} (h : ip ≠ i) (h1 : 1 ≠ i) :
    names (filled ip m) i = if 2 = i then m else 0 := by
  unfold filled
  rw [names_append, names_dots h h1, names_many, Nat.zero_add]

theorem filled_entry {ip m : Nat} {e : Dirent} (h0 : ip ≠ 0) (he : e ∈ filled ip m) :
    e.inum ≠ 0 ∧ namecmpEq "new".toList e.name = false := by
  rcases List.mem_append.mp he with he | he
  · rcases List.mem_cons.mp he with rfl | he
    · exact ⟨h0, rfl⟩
    · rw [List.mem_singleton.mp he]
      exact ⟨by decide, by decide⟩
  · obtain ⟨k, -, rfl⟩ := List.mem_map.mp he
    exact ⟨Nat.succ_ne_zero 1, rfl⟩

theorem filled_lookup {ip m : Nat} (h0 : ip ≠ 0) : lookup (filled ip m) "new".toList = none := by
  unfold lookup
  rw [Option.map_eq_none_iff, List.find?_eq_none]
  intro p hp
  rw [(filled_entry h0 (List.fst_mem_of_mem_zipIdx hp)).2, Bool.and_false]
  exact nofun

theorem filled_length (ip m : Nat) : (filled ip m).length = 2 + m := by
  unfold filled many
  rw [List.length_append, List.length_map, List.length_range]
  rfl

theorem filled_inv : Inv 200 (shared 32767 (filled 3 17150) (filled 4 15616)) := by
  refine shared_inv ?_ (fun i h1 h2 h3 => ?_) (fun i h1 h2 h4 => ?_)
  · rw [names_filled (by decide) (by decide), names_filled (by decide) (by decide)]
    decide
  · rw [names_filled (Ne.symm h3) (Ne.symm h1), if_neg (Ne.symm h2)]
  · rw [names_filled (Ne.symm h4) (Ne.symm h1), if_neg (Ne.symm h2)]

/-- the link number 32768 is made, its count is negative, and `unlink` panics -/
theorem link_wraps :
    Inv 200 (shared 32767 (filled 3 17150) (filled 4 15616)) ∧
    ∃ w, Run (guarded Tidy (Step 200)) (shared 32767 (filled 3 17150) (filled 4 15616))
      [.link 1 "f".toList "b/new".toList true] w ∧
    (w.disk 2).type = .file ∧ links 200 w.disk 2 = 32768 ∧ (w.disk 2).nlink.toInt = -32768 ∧
    call 200 w (.unlink 1 "f".toList) = .error .unlinkNlink := by
  have hlt : (filled 4 15616).length < maxEntries := by
    rw [filled_length]
    decide
  have hstep := @shared_link (filled 3 17150) (filled 4 15616) (filled_lookup (by decide))
    (fun e he => (filled_entry (by decide) he).1) hlt
  refine ⟨filled_inv, _, .single ⟨trivial, hstep⟩, rfl, ?_, by decide, rfl⟩
  rw [links_shared_file, names_append, names_filled (by decide) (by decide),
    names_filled (by decide) (by decide)]
  rfl

end Nlink
