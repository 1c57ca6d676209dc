import Mathlib.Data.List.DropRight
import Xv6.Ulib.Str

/-!
# Directories and paths (`dirlookup`, `skipelem`, `namex`)

A directory is the list of its entries; an inode that is not a directory has none.  A name in an
entry has `DIRSIZ` bytes: it is filled up with NULs, and has none when it is `DIRSIZ` long.
-/

namespace Fs
open Ulib

def dirsiz : Nat := 14

def rootIno : Nat := 1

structure Dirent where
  inum : Nat
  name : Str
  deriving DecidableEq

/-- the entries of each directory -/
abbrev Image := Nat → Option (List Dirent)

/-! ## the model -/

/-- `strncmp(p, q, n) == 0` -/
def strncmpEq : Nat → Str → Str → Bool
  | 0, _, _ => true
  | n + 1, p, q =>
    if p.headD '\x00' ≠ '\x00' ∧ p.headD '\x00' = q.headD '\x00' then strncmpEq n p.tail q.tail
    else p.headD '\x00' = q.headD '\x00'

/-- `namecmp(s, t) == 0` -/
def namecmpEq (s t : Str) : Bool := strncmpEq dirsiz s t

def dirlookup (es : List Dirent) (name : Str) : Option Nat :=
  (es.find? (fun e => e.inum ≠ 0 && namecmpEq name e.name)).map Dirent.inum

/-- what follows the next element of the path, and the part of `name` that is read -/
def skipelem (path : Str) : Option (Str × Str) :=
  let s := path.dropWhile (· = '/')
  if s = [] then none
  else some ((s.dropWhile (· ≠ '/')).dropWhile (· = '/'), (s.takeWhile (· ≠ '/')).take dirsiz)

/-- the loop of `namex`; each round takes a character of the path at least -/
def namexLoop (fs : Image) (nameiparent : Bool) : Nat → Nat → Str → Str → Option (Nat × Str)
  | 0, _, _, _ => none
  | fuel + 1, ip, path, name =>
    match skipelem path with
    | none => if nameiparent then none else some (ip, name)
    | some (path, name) =>
      match fs ip with
      | none => none
      | some es =>
        if nameiparent ∧ path = [] then some (ip, name)
        else
          match dirlookup es name with
          | none => none
          | some next => namexLoop fs nameiparent fuel next path name

def namex (fs : Image) (cwd : Nat) (path : Str) (nameiparent : Bool) : Option (Nat × Str) :=
  namexLoop fs nameiparent (path.length + 1) (if path.head? = some '/' then rootIno else cwd) path []

def namei (fs : Image) (cwd : Nat) (path : Str) : Option Nat :=
  (namex fs cwd path false).map Prod.fst

/-! ## names and paths -/

/-- a name of an entry: 1 to `DIRSIZ` characters, no `'/'` and no NUL -/
structure IsName (n : Str) : Prop where
  pos : 0 < n.length
  le : n.length ≤ dirsiz
  slash : '/' ∉ n
  nul : '\x00' ∉ n

/-- a name as an entry has it -/
def padded (n : Str) : Str := n ++ List.replicate (dirsiz - n.length) '\x00'

/-- `"/n1/.../nk"` -/
def pathStr (names : List Str) : Str := names.flatMap (fun n => '/' :: n)

/-- the path of the directory with these components -/
def pathOf (names : List Str) : Str := if names = [] then ['/'] else pathStr names

section
variable {n m : Str} {ns : List Str} {fs : Image}

theorem strncmpEq_padded {k j : Nat} (hn : '\x00' ∉ n) (hm : '\x00' ∉ m) (hnk : n.length ≤ k)
    (hmk : m.length ≤ k) :
    strncmpEq k n (m ++ List.replicate j '\x00') = true ↔ n = m := by
  induction k generalizing n m with
  | zero =>
    rw [List.eq_nil_of_length_eq_zero (Nat.le_zero.mp hnk),
      List.eq_nil_of_length_eq_zero (Nat.le_zero.mp hmk)]
    exact ⟨fun _ => rfl, fun _ => rfl⟩
  | succ k ih =>
    have hrep : (List.replicate j '\x00').headD '\x00' = '\x00' := by
      cases j with
      | zero => rfl
      | succ j => rfl
    unfold strncmpEq
    cases n with
    | nil =>
      rw [if_neg (fun h => h.1 rfl)]
      cases m with
      | nil =>
        rw [List.nil_append, hrep]
        exact ⟨fun _ => rfl, fun _ => rfl⟩
      | cons c m =>
        have hc : c ≠ '\x00' := fun e => hm (e ▸ List.mem_cons_self)
        exact ⟨fun h => absurd (of_decide_eq_true h) hc.symm, fun h => absurd h (by simp)⟩
    | cons a n =>
      have ha : a ≠ '\x00' := fun e => hn (e ▸ List.mem_cons_self)
      cases m with
      | nil =>
        rw [List.nil_append, hrep, if_neg (fun h => ha h.2)]
        exact ⟨fun h => absurd (of_decide_eq_true h) ha, fun h => absurd h (by simp)⟩
      | cons c m =>
        show (if a ≠ '\x00' ∧ a = c then strncmpEq k n (m ++ List.replicate j '\x00')
          else decide (a = c)) = true ↔ a :: n = c :: m
        by_cases hac : a = c
        · subst hac
          rw [if_pos ⟨ha, rfl⟩, ih (fun h => hn (List.mem_cons_of_mem _ h))
            (fun h => hm (List.mem_cons_of_mem _ h)) (Nat.le_of_succ_le_succ hnk)
            (Nat.le_of_succ_le_succ hmk), List.cons_inj_right]
        · rw [if_neg (fun h => hac h.2)]
          exact ⟨fun h => absurd (of_decide_eq_true h) hac, fun h => absurd (List.cons.inj h).1 hac⟩

theorem strncmpEq_append (k j : Nat) (n m : Str) :
    strncmpEq k n (m ++ List.replicate j '\x00') = strncmpEq k n m := by
  induction k generalizing n m with
  | zero => rfl
  | succ k ih =>
    cases m with
    | nil =>
      have hrep : (List.replicate j '\x00').headD '\x00' = '\x00' := by
        cases j with
        | zero => rfl
        | succ j => rfl
      have hnot : ¬ (n.headD '\x00' ≠ '\x00' ∧ n.headD '\x00' = '\x00') := fun h => h.1 h.2
      unfold strncmpEq
      rw [List.nil_append, hrep, if_neg hnot]
      exact (if_neg hnot).symm
    | cons c m =>
      unfold strncmpEq
      rw [List.cons_append, List.headD_cons, List.tail_cons, ih]
      rfl

theorem namecmpEq_padded (hn : IsName n) (hm : IsName m) : namecmpEq n (padded m) = true ↔ n = m :=
  strncmpEq_padded hn.nul hm.nul hn.le hm.le

theorem pathStr_cons (n : Str) (ns : List Str) : pathStr (n :: ns) = '/' :: n ++ pathStr ns := rfl

theorem pathStr_append (ns ms : List Str) : pathStr (ns ++ ms) = pathStr ns ++ pathStr ms :=
  List.flatMap_append

theorem pathStr_head (ns : List Str) : ∀ c ∈ (pathStr ns).head?, c = '/' := by
  intro c hc
  cases ns with
  | nil => exact absurd hc (by simp [pathStr])
  | cons n ns => exact (Option.mem_some_iff.mp hc).symm

theorem nul_notMem_pathStr (h : ∀ n ∈ ns, IsName n) : '\x00' ∉ pathStr ns := by
  intro hm
  obtain ⟨n, hn, hc⟩ := List.mem_flatMap.mp hm
  rcases List.mem_cons.mp hc with e | hc
  · exact absurd e (by decide)
  · exact (h n hn).nul hc

theorem dropWhile_slash_of_isName (hn : IsName n) (s : Str) :
    (n ++ s).dropWhile (· = '/') = n ++ s := by
  cases n with
  | nil => exact absurd hn.pos (by simp)
  | cons c n =>
    have hc : c ≠ '/' := fun e => hn.slash (e ▸ List.mem_cons_self)
    rw [List.cons_append, List.dropWhile_cons_of_neg (by simpa using hc)]

theorem skipelem_slash (path : Str) : skipelem (path.dropWhile (· = '/')) = skipelem path := by
  unfold skipelem
  rw [List.dropWhile_idempotent]

theorem skipelem_pathStr (hn : IsName n) (ns : List Str) :
    skipelem (pathStr (n :: ns)) = some ((pathStr ns).dropWhile (· = '/'), n) := by
  have hhead := pathStr_head ns
  have htake : (n ++ pathStr ns).takeWhile (· ≠ '/') = n := by
    rw [List.takeWhile_append_of_pos (fun c hc => by simpa using fun e : c = '/' => hn.slash (e ▸ hc))]
    cases hs : pathStr ns with
    | nil => simp
    | cons c s =>
      rw [hs] at hhead
      rw [hhead c rfl, List.takeWhile_cons_of_neg (by simp), List.append_nil]
  have hdrop : (n ++ pathStr ns).dropWhile (· ≠ '/') = pathStr ns := by
    rw [List.dropWhile_append_of_pos (fun c hc => by simpa using fun e : c = '/' => hn.slash (e ▸ hc))]
    cases hs : pathStr ns with
    | nil => rfl
    | cons c s =>
      rw [hs] at hhead
      rw [hhead c rfl, List.dropWhile_cons_of_neg (by simp)]
  have hstart : (pathStr (n :: ns)).dropWhile (· = '/') = n ++ pathStr ns := by
    rw [pathStr_cons, List.cons_append, List.dropWhile_cons_of_pos (by simp),
      dropWhile_slash_of_isName hn]
  have hne : n ++ pathStr ns ≠ [] := by
    have := hn.pos
    intro e
    rw [(List.append_eq_nil_iff.mp e).1] at this
    exact absurd this (by simp)
  unfold skipelem
  dsimp only
  rw [hstart, if_neg hne, htake, hdrop, List.take_of_length_le hn.le]

/-! ## walking a path -/

/-- the inode at the end of the components, from directory `d` -/
def resolve (fs : Image) : List Str → Nat → Option Nat
  | [], d => some d
  | n :: ns, d => ((fs d).bind (fun es => dirlookup es n)).bind (resolve fs ns)

theorem resolve_append (ns ms : List Str) (d : Nat) :
    resolve fs (ns ++ ms) d = (resolve fs ns d).bind (resolve fs ms) := by
  induction ns generalizing d with
  | nil => rfl
  | cons n ns ih =>
    show ((fs d).bind (fun es => dirlookup es n)).bind (resolve fs (ns ++ ms))
      = (((fs d).bind (fun es => dirlookup es n)).bind (resolve fs ns)).bind (resolve fs ms)
    rw [Option.bind_assoc ((fs d).bind _), funext ih]

theorem namexLoop_slash {b : Bool} (fuel d : Nat) (path name : Str) :
    namexLoop fs b fuel d (path.dropWhile (· = '/')) name = namexLoop fs b fuel d path name := by
  cases fuel with
  | zero => rfl
  | succ fuel =>
    unfold namexLoop
    rw [skipelem_slash]

/-- `namex` walks the components of the path -/
theorem namexLoop_pathStr {fuel : Nat} (h : ∀ n ∈ ns, IsName n) (hfuel : ns.length < fuel) (d : Nat)
    (name : Str) :
    (namexLoop fs false fuel d (pathStr ns) name).map Prod.fst = resolve fs ns d := by
  induction ns generalizing fuel d name with
  | nil =>
    cases fuel with
    | zero => exact absurd hfuel (Nat.not_lt_zero _)
    | succ fuel => rfl
  | cons n ns ih =>
    cases fuel with
    | zero => exact absurd hfuel (Nat.not_lt_zero _)
    | succ fuel =>
      have hn := h n List.mem_cons_self
      unfold namexLoop resolve
      rw [skipelem_pathStr hn]
      dsimp only
      cases hd : fs d with
      | none => rfl
      | some es =>
        dsimp only
        rw [if_neg (by simp), Option.bind_some]
        cases hl : dirlookup es n with
        | none => rfl
        | some e =>
          dsimp only
          rw [namexLoop_slash, ih (fun m hm => h m (List.mem_cons_of_mem _ hm))
            (Nat.lt_of_succ_lt_succ hfuel), Option.bind_some]

theorem length_le_pathStr (ns : List Str) : ns.length ≤ (pathStr ns).length := by
  induction ns with
  | nil => exact Nat.zero_le _
  | cons n ns ih =>
    rw [pathStr_cons, List.length_append, List.length_cons, List.length_cons]
    omega

theorem namei_pathOf (h : ∀ n ∈ ns, IsName n) (cwd : Nat) :
    namei fs cwd (pathOf ns) = resolve fs ns rootIno := by
  unfold namei namex pathOf
  cases ns with
  | nil => rfl
  | cons n ns =>
    rw [if_neg (by simp), if_pos (by rfl)]
    exact namexLoop_pathStr h (Nat.lt_succ_of_le (length_le_pathStr _)) rootIno []

end

end Fs
