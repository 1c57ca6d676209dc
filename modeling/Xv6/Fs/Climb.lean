import Xv6.Fs.Getcwd
import Xv6.Lib.Cells
import Xv6.Vm.Model

/-!
# Where `getcwd` reads and writes

The page of the path, cell by cell: a cell that `getcwd` has not written is `none`.  Every access
is checked against the page, and `strlen` of a name without NUL against the array that holds it.
`uint` indices are given as they come out of the arithmetic modulo `2^32`.
-/

namespace Fs
open Ulib Lib Vm

/-- why a call does not return -/
inductive Stop where
  /-- it reads or writes outside of its memory -/
  | outside
  | panic
  /-- out of fuel -/
  | running
  deriving DecidableEq

/-- directories as the kernel makes them, with `"."` and `".."` first; a directory need not have an
entry in its parent any more -/
structure Dirs where
  fs : Image
  inum : ∀ d, (fs d).isSome = true → 0 < d ∧ d < 2 ^ 16
  dots : ∀ d es, fs d = some es → ∃ p rest, es = ⟨d, padded ['.']⟩ :: ⟨p, padded ['.', '.']⟩ :: rest
  names : ∀ d es e, fs d = some es → e ∈ es → e.inum ≠ 0 → ∃ n, IsName n ∧ e.name = padded n

def Tree.dirs (T : Tree) : Dirs where
  fs := T.fs
  inum := T.inum
  dots := by
    intro d es hes
    obtain ⟨p, rest, h, -⟩ := T.dots d es hes
    exact ⟨p, rest, h⟩
  names := T.names

namespace Cells

/-! ## the model -/

/-- `memmove(buf + pos, s, strlen(s))` -/
def moveName (page : Cells Char) (pos : Nat) (s : Str) : Except Stop (Cells Char) :=
  if pos + s.length ≤ pgsize then .ok (page.write pos s) else .error .outside

def setChar (page : Cells Char) (i : Nat) (c : Char) : Except Stop (Cells Char) :=
  if i < pgsize then .ok (page.write i [c]) else .error .outside

def moveDown (page : Cells Char) (src n : Nat) : Except Stop (Cells Char) :=
  if src + n ≤ pgsize then .ok (page.slide src n) else .error .outside

/-- `diriname` into a `name` of `DIRSIZ` bytes -/
def diriname (fs : Image) (dp inum : Nat) : Except Stop (Nat × Option Str) :=
  match fs dp with
  | none => .error .panic
  | some es =>
    match es[1]? with
    | none => .error .outside
    | some parent =>
      match es.find? (fun e => e.inum ≠ 0 && e.inum = inum) with
      | none => .ok (parent.inum, none)
      | some e =>
        if '\x00' ∈ e.name then .ok (parent.inum, some (cstr e.name)) else .error .outside

/-- the loop of `getcwd`: the page and `bufp` after it -/
def getcwdLoop (fs : Image) : Nat → Cells Char → Nat → Nat → Nat → Nat →
    Except Stop (Cells Char × Nat)
  | 0, _, _, _, _, _ => .error .running
  | fuel + 1, page, bufp, i, lastParent, icurrent =>
    if icurrent = 1 then .ok (page, bufp)
    else
      match diriname fs i icurrent with
      | .error e => .error e
      | .ok (_, none) => .ok (page, bufp)
      | .ok (iparent, some name) =>
        if icurrent ≠ lastParent then
          if name.length < bufp then
            (moveName page (bufp - name.length) name).bind (fun page =>
              (setChar page (bufp - name.length - 1) '/').bind (fun page =>
                getcwdLoop fs fuel page (bufp - name.length - 1) iparent iparent lastParent))
          else .ok (page, bufp)
        else getcwdLoop fs fuel page bufp iparent iparent lastParent

/-- `buf` is `none` where `kalloc` had no page -/
def getcwd (fs : Image) (fuel cwd : Nat) (buf : Option (Cells Char)) (size : Nat) :
    Except Stop (Option (Cells Char) × Int) :=
  match fs cwd with
  | none => .error .panic
  | some _ =>
    match buf with
    | none => .ok (none, -1)
    | some page =>
      if size ≤ 1 then .ok (some page, -1)
      else if cwd = 1 then
        (setChar page 0 '/').bind (fun page =>
          (setChar page 1 '\x00').bind (fun page => .ok (some page, 0)))
      else
        (setChar page (size - 1) '\x00').bind (fun page =>
          (getcwdLoop fs fuel page (size - 2) cwd (cwd % 2 ^ 16) (cwd % 2 ^ 16)).bind (fun r =>
            (moveDown r.1 r.2 (size - r.2)).bind (fun page => .ok (some page, 0))))

/-- the page with `'\0'` at its end and `text` before the cell that is left out -/
def built (size : Nat) (text : Str) : Cells Char :=
  (Lib.Cells.ending (size - 2) text).write (size - 1) ['\x00']

end Cells

/-! ## going up -/

/-- the first entry of `dir` for `cur` has this name -/
def Dirs.Named (D : Dirs) (dir cur : Nat) (n : Str) : Prop :=
  ∃ es e, D.fs dir = some es ∧ es.find? (fun e => e.inum ≠ 0 && e.inum = cur) = some e ∧
    cstr e.name = n

/-- from `cur` in `dir` up to `c` in `d`, through components with these names -/
inductive Dirs.Up (D : Dirs) : Nat → Nat → List Str → Nat → Nat → Prop
  | refl (dir cur : Nat) : Up D dir cur [] dir cur
  | step {dir cur p d c : Nat} {n : Str} {ns : List Str} (hroot : cur ≠ rootIno) (hne : cur ≠ dir)
      (hn : D.Named dir cur n) (hp : dotdot D.fs dir = some p) (h : Up D p dir ns d c) :
      Up D dir cur (n :: ns) d c

/-- `d` is a directory without an entry for `c` -/
def Dirs.Lost (D : Dirs) (d c : Nat) : Prop :=
  ∃ es, D.fs d = some es ∧ es.find? (fun e => e.inum ≠ 0 && e.inum = c) = none

def Dirs.Overlong (D : Dirs) (d c : Nat) : Prop :=
  c ≠ rootIno ∧ ∃ n, D.Named d c n ∧ dirsiz ≤ n.length

def Dirs.Ends (D : Dirs) (k d c : Nat) : Prop :=
  c = rootIno ∨ D.Lost d c ∨ ∃ n, D.Named d c n ∧ c ≠ d ∧ n.length < dirsiz ∧ k ≤ n.length

/-- the part of a path with these components, last one first -/
def upward (ns : List Str) : Str := pathStr ns.reverse

/-- the climb gets from `cur` in `dir` to `c` in `d` with `k` bytes of room -/
structure Dirs.Climbs (D : Dirs) (k dir cur : Nat) (ns : List Str) (d c : Nat) : Prop where
  up : D.Up dir cur ns d c
  short : ∀ n ∈ ns, n.length < dirsiz
  fits : (upward ns).length ≤ k

section
variable {D : Dirs} {dir cur p d c k fuel size : Nat} {n text : Str} {ns : List Str}

theorem Dirs.Named.isSome (h : D.Named dir cur n) : (D.fs dir).isSome = true := by
  obtain ⟨es, e, hes, -⟩ := h
  rw [hes]
  rfl

theorem Dirs.Lost.isSome (h : D.Lost d c) : (D.fs d).isSome = true := by
  obtain ⟨es, hes, -⟩ := h
  rw [hes]
  rfl

theorem upward_cons (n : Str) (ns : List Str) (text : Str) :
    upward (n :: ns) ++ text = upward ns ++ ('/' :: n ++ text) := by
  unfold upward
  rw [List.reverse_cons, pathStr_append, List.append_assoc]
  show _ ++ ('/' :: n ++ [] ++ text) = _
  rw [List.append_nil]

theorem upward_cons_length (n : Str) (ns : List Str) :
    (upward (n :: ns)).length = (upward ns).length + n.length + 1 := by
  have h := congrArg List.length (upward_cons n ns [])
  rw [List.append_nil, List.append_nil, List.length_append, List.length_cons] at h
  omega

theorem exists_dotdot (h : (D.fs dir).isSome = true) : ∃ p, dotdot D.fs dir = some p := by
  obtain ⟨es, hes⟩ := Option.isSome_iff_exists.mp h
  obtain ⟨p, rest, rfl⟩ := D.dots dir es hes
  refine ⟨p, ?_⟩
  unfold dotdot
  rw [hes]
  rfl

theorem Dirs.named_self (h : (D.fs dir).isSome = true) : D.Named dir dir ['.'] := by
  obtain ⟨es, hes⟩ := Option.isSome_iff_exists.mp h
  obtain ⟨p, rest, rfl⟩ := D.dots dir es hes
  refine ⟨_, ⟨dir, padded ['.']⟩, hes, ?_, rfl⟩
  rw [List.find?_cons_of_pos (by simpa using (D.inum dir h).1.ne')]

theorem Dirs.Named.unique {m : Str} (hn : D.Named dir cur n) (hm : D.Named dir cur m) : n = m := by
  obtain ⟨es, e, hes, hf, rfl⟩ := hn
  obtain ⟨es', e', hes', hf', rfl⟩ := hm
  obtain rfl := Option.some.inj (hes.symm.trans hes')
  rw [Option.some.inj (hf.symm.trans hf')]

theorem Dirs.named_or_lost (h : (D.fs dir).isSome = true) (cur : Nat) :
    (∃ n, D.Named dir cur n) ∨ D.Lost dir cur := by
  obtain ⟨es, hes⟩ := Option.isSome_iff_exists.mp h
  cases hf : es.find? (fun e => e.inum ≠ 0 && e.inum = cur) with
  | none => exact Or.inr ⟨es, hes, hf⟩
  | some e => exact Or.inl ⟨_, es, e, hes, hf, rfl⟩

theorem cstr_padded {n : Str} (hn : IsName n) : cstr (padded n) = n := by
  by_cases h : n.length < dirsiz
  · exact (padded_short hn).2 h
  · unfold padded
    rw [show dirsiz - n.length = 0 by omega, List.replicate_zero, List.append_nil]
    exact cstr_eq_self hn.nul

theorem Dirs.Named.entry (h : D.Named dir cur n) : ∃ es e, D.fs dir = some es ∧
    es.find? (fun e => e.inum ≠ 0 && e.inum = cur) = some e ∧ e.name = padded n ∧ IsName n := by
  obtain ⟨es, e, hes, hf, rfl⟩ := h
  have h0 := List.find?_some hf
  rw [Bool.and_eq_true] at h0
  obtain ⟨n, hn, hname⟩ := D.names dir es e hes (List.mem_of_find?_eq_some hf)
    (of_decide_eq_true h0.1)
  refine ⟨es, e, hes, hf, ?_⟩
  rw [hname, cstr_padded hn]
  exact ⟨rfl, hn⟩

theorem Dirs.Up.prefix {d' : Nat} {ms : List Str} (h : D.Up dir cur ns d c)
    (h' : D.Up dir cur ms d' rootIno) : ∃ rest, ms = ns ++ rest := by
  induction h generalizing ms with
  | refl => exact ⟨ms, rfl⟩
  | step hroot hne hn hp h ih =>
    cases h' with
    | refl => exact absurd rfl hroot
    | step hroot' hne' hn' hp' h' =>
      obtain rfl := hn.unique hn'
      obtain rfl := Option.some.inj (hp.symm.trans hp')
      obtain ⟨rest, rfl⟩ := ih h'
      exact ⟨rest, rfl⟩

theorem Dirs.Up.isName (h : D.Up dir cur ns d c) : ∀ n ∈ ns, IsName n := by
  induction h with
  | refl => exact fun n hn => absurd hn (by simp)
  | step hroot hne hn hp h ih =>
    obtain ⟨-, -, -, -, -, hname⟩ := hn.entry
    intro m hm
    rcases List.mem_cons.mp hm with rfl | hm
    · exact hname
    · exact ih m hm

namespace Cells

/-! ## `diriname` -/

theorem second_entry {es : List Dirent} (hes : D.fs dir = some es) (hp : dotdot D.fs dir = some p) :
    ∃ e, es[1]? = some e ∧ e.inum = p := by
  unfold dotdot at hp
  rw [hes] at hp
  exact Option.map_eq_some_iff.mp hp

theorem diriname_named (hn : D.Named dir cur n) (hp : dotdot D.fs dir = some p) :
    diriname D.fs dir cur =
      if n.length < dirsiz then .ok (p, some n) else .error .outside := by
  obtain ⟨es, e, hes, hf, hname, hn⟩ := hn.entry
  obtain ⟨parent, hsecond, rfl⟩ := second_entry hes hp
  unfold diriname
  rw [hes]
  dsimp only
  rw [hsecond, hf]
  dsimp only
  rw [hname, cstr_padded hn]
  by_cases hlt : n.length < dirsiz
  · rw [if_pos hlt, if_pos ((padded_short hn).1.mpr hlt)]
  · rw [if_neg hlt, if_neg (fun h => hlt ((padded_short hn).1.mp h))]

theorem diriname_lost (h : D.Lost dir cur) (hp : dotdot D.fs dir = some p) :
    diriname D.fs dir cur = .ok (p, none) := by
  obtain ⟨es, hes, hf⟩ := h
  obtain ⟨parent, hsecond, rfl⟩ := second_entry hes hp
  unfold diriname
  rw [hes]
  dsimp only
  rw [hsecond, hf]

/-! ## the loop -/

theorem built_write (s text : Str) (h : s.length + text.length ≤ size - 2) :
    (built size text).write (size - 2 - text.length - s.length) s = built size (s ++ text) := by
  unfold built
  rw [Lib.Cells.write_comm (by omega), Lib.Cells.write_ending _ _ h]

theorem built_nil (size : Nat) : built size [] = Lib.Cells.blank.write (size - 1) ['\x00'] := by
  unfold built
  rw [Lib.Cells.ending_nil]

theorem built_cons (hsize : size ≤ pgsize) (hfit : text.length + n.length + 1 ≤ size - 2) :
    (moveName (built size text) (size - 2 - text.length - n.length) n).bind (fun page =>
      setChar page (size - 2 - text.length - n.length - 1) '/') =
        .ok (built size ('/' :: n ++ text)) := by
  have hslash : (built size (n ++ text)).write _ ['/'] = _ := built_write ['/'] (n ++ text)
    (by rw [List.length_append, List.length_singleton]; omega)
  rw [List.length_append, List.length_singleton, Nat.add_comm n.length, ← Nat.sub_sub] at hslash
  unfold moveName
  rw [if_pos (by omega), built_write _ _ (by omega)]
  show (if _ then _ else _) = _
  rw [if_pos (by omega), hslash]
  rfl

theorem getcwdLoop_step (hsize : size ≤ pgsize) (hroot : cur ≠ rootIno) (hne : cur ≠ dir)
    (hn : D.Named dir cur n) (hshort : n.length < dirsiz) (hp : dotdot D.fs dir = some p)
    (hfit : text.length + n.length + 1 ≤ size - 2) (fuel : Nat) :
    getcwdLoop D.fs (fuel + 1) (built size text) (size - 2 - text.length) dir dir cur =
      getcwdLoop D.fs fuel (built size ('/' :: n ++ text)) (size - 2 - ('/' :: n ++ text).length)
        p p dir := by
  have hpos : size - 2 - ('/' :: n ++ text).length = size - 2 - text.length - n.length - 1 := by
    rw [List.length_append, List.length_cons]
    omega
  have h := built_cons hsize hfit
  rw [hpos]
  show (if cur = rootIno then _ else _) = _
  rw [if_neg hroot, diriname_named hn hp, if_pos hshort]
  dsimp only
  rw [if_pos hne, if_pos (by omega)]
  cases hm : moveName (built size text) (size - 2 - text.length - n.length) n with
  | error e =>
    rw [hm] at h
    exact absurd h nofun
  | ok page =>
    rw [hm] at h
    show (setChar page _ _).bind _ = _
    rw [show setChar page _ _ = _ from h]
    rfl

theorem getcwdLoop_ends (page : Lib.Cells Char) (h : D.Ends k d c) (fuel : Nat) :
    getcwdLoop D.fs (fuel + 1) page k d d c = .ok (page, k) := by
  show (if c = rootIno then _ else _) = _
  by_cases hroot : c = rootIno
  · rw [if_pos hroot]
  rw [if_neg hroot]
  rcases h with h | h | ⟨n, hn, hne, hshort, hk⟩
  · exact absurd h hroot
  · obtain ⟨p, hp⟩ := exists_dotdot h.isSome
    rw [diriname_lost h hp]
  · obtain ⟨p, hp⟩ := exists_dotdot hn.isSome
    rw [diriname_named hn hp, if_pos hshort]
    dsimp only
    rw [if_pos hne, if_neg (by omega)]

theorem getcwdLoop_overlong (page : Lib.Cells Char) (h : D.Overlong d c) (fuel : Nat) :
    getcwdLoop D.fs (fuel + 1) page k d d c = .error .outside := by
  obtain ⟨hroot, n, hn, hlen⟩ := h
  obtain ⟨p, hp⟩ := exists_dotdot hn.isSome
  show (if c = rootIno then _ else _) = _
  rw [if_neg hroot, diriname_named hn hp, if_neg (by omega)]

/-- all components that the climb passes are in the page -/
theorem getcwdLoop_up (text : Str) (hsize : size ≤ pgsize) (h : D.Up dir cur ns d c)
    (hshort : ∀ n ∈ ns, n.length < dirsiz) (hfits : (upward ns).length + text.length ≤ size - 2)
    (fuel : Nat) :
    getcwdLoop D.fs (fuel + ns.length) (built size text) (size - 2 - text.length) dir dir cur =
      getcwdLoop D.fs fuel (built size (upward ns ++ text)) (size - 2 - (upward ns ++ text).length)
        d d c := by
  induction h generalizing text with
  | refl => rfl
  | @step dir cur p d c n ns hroot hne hn hp h ih =>
    have hlen := upward_cons_length n ns
    have hnext : (upward ns).length + ('/' :: n ++ text).length ≤ size - 2 := by
      rw [List.length_append, List.length_cons]
      omega
    rw [List.length_cons, ← Nat.add_assoc, getcwdLoop_step hsize hroot hne hn
      (hshort n List.mem_cons_self) hp (by omega), ih _
      (fun m hm => hshort m (List.mem_cons_of_mem _ hm)) hnext, upward_cons]

theorem getcwdLoop_cases (text : Str) (hsize : size ≤ pgsize) (fuel : Nat) (hd : dotdot D.fs cur = some dir)
    (hfits : text.length ≤ size - 2) {r : Except Stop (Lib.Cells Char × Nat)}
    (hrun : getcwdLoop D.fs fuel (built size text) (size - 2 - text.length) dir dir cur = r) :
    r = .error .running ∨ r = .error .panic ∨ ∃ ns d c,
      D.Climbs (size - 2 - text.length) dir cur ns d c ∧
        ((D.Overlong d c ∧ r = .error .outside) ∨
          (D.Ends (size - 2 - (upward ns ++ text).length) d c ∧
            r = .ok (built size (upward ns ++ text), size - 2 - (upward ns ++ text).length))) := by
  induction fuel generalizing dir cur text with
  | zero => exact Or.inl hrun.symm
  | succ fuel ih =>
    have hstay : D.Climbs (size - 2 - text.length) dir cur [] dir cur :=
      ⟨.refl dir cur, nofun, Nat.zero_le _⟩
    have hend : D.Ends (size - 2 - text.length) dir cur → r = .ok (built size text, size - 2 - text.length) :=
      fun h => by rw [← hrun, getcwdLoop_ends _ h]
    by_cases hroot : cur = rootIno
    · exact Or.inr (Or.inr ⟨[], dir, cur, hstay, Or.inr ⟨Or.inl hroot, hend (Or.inl hroot)⟩⟩)
    cases hdir : D.fs dir with
    | none =>
      refine Or.inr (Or.inl ?_)
      rw [← hrun]
      show (if cur = rootIno then _ else _) = _
      rw [if_neg hroot]
      unfold diriname
      rw [hdir]
    | some es =>
      have hsome : (D.fs dir).isSome = true := by rw [hdir]; rfl
      obtain ⟨p, hp⟩ := exists_dotdot hsome
      rcases D.named_or_lost hsome cur with ⟨n, hn⟩ | hlost
      · by_cases hshort : n.length < dirsiz
        · by_cases hne : cur ≠ dir
          · by_cases hroom : text.length + n.length + 1 ≤ size - 2
            · rw [getcwdLoop_step hsize hroot hne hn hshort hp hroom] at hrun
              have hlen : ('/' :: n ++ text).length = text.length + n.length + 1 := by
                rw [List.length_append, List.length_cons]
                omega
              rcases ih _ hp (by omega) hrun with h | h | ⟨ns, d, c, hc, h⟩
              · exact Or.inl h
              · exact Or.inr (Or.inl h)
              · refine Or.inr (Or.inr ⟨n :: ns, d, c, ⟨.step hroot hne hn hp hc.up, ?_, ?_⟩, ?_⟩)
                · intro m hm
                  rcases List.mem_cons.mp hm with rfl | hm
                  · exact hshort
                  · exact hc.short m hm
                · have hfit := hc.fits
                  rw [upward_cons_length]
                  omega
                · rw [upward_cons]
                  exact h
            · have hstop : D.Ends (size - 2 - text.length) dir cur :=
                Or.inr (Or.inr ⟨n, hn, hne, hshort, by omega⟩)
              exact Or.inr (Or.inr ⟨[], dir, cur, hstay, Or.inr ⟨hstop, hend hstop⟩⟩)
          · -- `".."` of the directory is the directory itself
            rw [ne_eq, not_not] at hne
            subst hne
            obtain rfl := Option.some.inj (hd.symm.trans hp)
            have hround : getcwdLoop D.fs (fuel + 1) (built size text) (size - 2 - text.length) cur cur cur
                = getcwdLoop D.fs fuel (built size text) (size - 2 - text.length) cur cur cur := by
              show (if cur = rootIno then _ else _) = _
              rw [if_neg hroot, diriname_named hn hp, if_pos hshort]
              exact if_neg (fun h => h rfl)
            exact ih _ hd hfits (hround.symm.trans hrun)
        · have hover : D.Overlong dir cur := ⟨hroot, n, hn, by omega⟩
          refine Or.inr (Or.inr ⟨[], dir, cur, hstay, Or.inl ⟨hover, ?_⟩⟩)
          rw [← hrun, getcwdLoop_overlong _ hover]
      · have hstop : D.Ends (size - 2 - text.length) dir cur := Or.inr (Or.inl hlost)
        exact Or.inr (Or.inr ⟨[], dir, cur, hstay, Or.inr ⟨hstop, hend hstop⟩⟩)

/-! ## the call -/

def slid (size : Nat) (text : Str) : Lib.Cells Char :=
  (built size text).slide (size - 2 - text.length) (size - (size - 2 - text.length))

theorem slid_cells (hlen : 2 ≤ size) (hfits : text.length ≤ size - 2) :
    (∀ i < text.length, slid size text i = text[i]?) ∧ slid size text text.length = none ∧
      slid size text (text.length + 1) = some '\x00' := by
  unfold slid built
  refine ⟨fun i hi => ?_, ?_, ?_⟩
  · rw [Lib.Cells.slide_of_lt (by omega), Lib.Cells.write_of_outside (by omega)]
    exact Lib.Cells.ending_of_lt hfits hi
  · rw [Lib.Cells.slide_of_lt (by omega), Lib.Cells.write_of_outside (by omega),
      show size - 2 - text.length + text.length = size - 2 by omega]
    exact Lib.Cells.ending_end hfits
  · rw [Lib.Cells.slide_of_lt (by omega), Lib.Cells.write_of_inside (by omega)
      (by rw [List.length_singleton]; omega),
      show size - 2 - text.length + (text.length + 1) - (size - 1) = 0 by omega]
    rfl

def rootPage : Lib.Cells Char := (Lib.Cells.blank.write 0 ['/']).write 1 ['\x00']

theorem getcwd_root (h : (D.fs rootIno).isSome = true) (hsize : 2 ≤ size) (fuel : Nat) :
    getcwd D.fs fuel rootIno (some Lib.Cells.blank) size = .ok (some rootPage, 0) := by
  obtain ⟨es, hes⟩ := Option.isSome_iff_exists.mp h
  unfold getcwd
  rw [hes]
  dsimp only
  rw [if_neg (by omega), if_pos (show rootIno = 1 from rfl)]
  rfl

theorem getcwd_none (h : (D.fs c).isSome = true) (fuel size : Nat) :
    getcwd D.fs fuel c none size = .ok (none, -1) := by
  obtain ⟨es, hes⟩ := Option.isSome_iff_exists.mp h
  unfold getcwd
  rw [hes]

theorem getcwd_small (h : (D.fs c).isSome = true) (hsize : size ≤ 1) (fuel : Nat)
    (page : Lib.Cells Char) : getcwd D.fs fuel c (some page) size = .ok (some page, -1) := by
  obtain ⟨es, hes⟩ := Option.isSome_iff_exists.mp h
  unfold getcwd
  rw [hes]
  dsimp only
  rw [if_pos hsize]

theorem getcwd_large (h : (D.fs c).isSome = true) (hc : c ≠ rootIno) (hsize : pgsize < size)
    (fuel : Nat) (page : Lib.Cells Char) :
    getcwd D.fs fuel c (some page) size = .error .outside := by
  obtain ⟨es, hes⟩ := Option.isSome_iff_exists.mp h
  have h2 : 2 ≤ size := Nat.le_trans (by decide) hsize
  unfold getcwd
  rw [hes]
  dsimp only
  rw [if_neg (by omega), if_neg (show ¬ c = 1 from hc)]
  unfold setChar
  rw [if_neg (by omega)]
  rfl

theorem getcwd_below (h : (D.fs c).isSome = true) (hc : c ≠ rootIno) (hp : dotdot D.fs c = some p)
    (h2 : 2 ≤ size) (hsize : size ≤ pgsize) (fuel : Nat) :
    getcwd D.fs (fuel + 1) c (some Lib.Cells.blank) size =
      (getcwdLoop D.fs fuel (built size []) (size - 2) p p c).bind (fun r =>
        (moveDown r.1 r.2 (size - r.2)).bind (fun page => .ok (some page, 0))) := by
  obtain ⟨es, hes⟩ := Option.isSome_iff_exists.mp h
  have hmod : c % 2 ^ 16 = c := Nat.mod_eq_of_lt (D.inum c h).2
  have hfirst : getcwdLoop D.fs (fuel + 1) (built size []) (size - 2) c c c =
      getcwdLoop D.fs fuel (built size []) (size - 2) p p c := by
    show (if c = rootIno then _ else _) = _
    rw [if_neg hc, diriname_named (D.named_self h) hp, if_pos (by decide)]
    exact if_neg (fun h => h rfl)
  unfold getcwd
  rw [hes]
  dsimp only
  rw [if_neg (by omega), if_neg (show ¬ c = 1 from hc), hmod]
  unfold setChar
  rw [if_pos (by omega)]
  show (getcwdLoop D.fs (fuel + 1) _ _ c c c).bind _ = _
  rw [← hfirst, built_nil]

theorem moveDown_built (hsize : size ≤ pgsize) (text : Str) :
    moveDown (built size text) (size - 2 - text.length) (size - (size - 2 - text.length)) =
      .ok (slid size text) := if_pos (by omega)

/-- how the climb from `c` comes out -/
theorem getcwd_cases (h : (D.fs c).isSome = true) (hc : c ≠ rootIno) (hp : dotdot D.fs c = some p)
    (h2 : 2 ≤ size) (hsize : size ≤ pgsize) (fuel : Nat)
    {r : Except Stop (Option (Lib.Cells Char) × Int)}
    (hrun : getcwd D.fs fuel c (some Lib.Cells.blank) size = r) :
    r = .error .running ∨ r = .error .panic ∨ ∃ ns d c', D.Climbs (size - 2) p c ns d c' ∧
      ((D.Overlong d c' ∧ r = .error .outside) ∨
        (D.Ends (size - 2 - (upward ns).length) d c' ∧ r = .ok (some (slid size (upward ns)), 0))) := by
  cases fuel with
  | zero =>
    refine Or.inl ?_
    obtain ⟨es, hes⟩ := Option.isSome_iff_exists.mp h
    unfold getcwd at hrun
    rw [hes] at hrun
    dsimp only at hrun
    rw [if_neg (by omega), if_neg (show ¬ c = 1 from hc)] at hrun
    unfold setChar at hrun
    rw [if_pos (by omega)] at hrun
    exact hrun.symm
  | succ fuel =>
    rw [getcwd_below h hc hp h2 hsize] at hrun
    rcases getcwdLoop_cases [] hsize fuel hp (Nat.zero_le _) rfl with he | he | ⟨ns, d, c', hclimb, ho⟩
    · refine Or.inl ?_
      rw [← hrun, show getcwdLoop D.fs fuel (built size []) (size - 2) p p c = _ from he]
      rfl
    · refine Or.inr (Or.inl ?_)
      rw [← hrun, show getcwdLoop D.fs fuel (built size []) (size - 2) p p c = _ from he]
      rfl
    · refine Or.inr (Or.inr ⟨ns, d, c', hclimb, ?_⟩)
      rw [List.append_nil] at ho
      rcases ho with ⟨hover, he⟩ | ⟨hend, he⟩
      · refine Or.inl ⟨hover, ?_⟩
        rw [← hrun, show getcwdLoop D.fs fuel (built size []) (size - 2) p p c = _ from he]
        rfl
      · refine Or.inr ⟨hend, ?_⟩
        rw [← hrun, show getcwdLoop D.fs fuel (built size []) (size - 2) p p c = _ from he]
        show (moveDown _ _ _).bind _ = _
        rw [moveDown_built hsize]
        rfl

theorem getcwd_ends (h : (D.fs c).isSome = true) (hc : c ≠ rootIno) (hp : dotdot D.fs c = some p)
    (h2 : 2 ≤ size) (hsize : size ≤ pgsize) {c' : Nat} (hclimb : D.Climbs (size - 2) p c ns d c')
    (hend : D.Ends (size - 2 - (upward ns).length) d c') (fuel : Nat) :
    getcwd D.fs (fuel + 1 + ns.length + 1) c (some Lib.Cells.blank) size =
      .ok (some (slid size (upward ns)), 0) := by
  have hup := getcwdLoop_up [] hsize hclimb.up hclimb.short hclimb.fits (fuel + 1)
  rw [List.append_nil] at hup
  rw [getcwd_below h hc hp h2 hsize, show size - 2 = size - 2 - ([] : Str).length from rfl, hup,
    getcwdLoop_ends _ hend]
  show (moveDown _ _ _).bind _ = _
  rw [moveDown_built hsize]
  rfl

theorem getcwd_overlong (h : (D.fs c).isSome = true) (hc : c ≠ rootIno)
    (hp : dotdot D.fs c = some p) (h2 : 2 ≤ size) (hsize : size ≤ pgsize) {c' : Nat}
    (hclimb : D.Climbs (size - 2) p c ns d c') (hover : D.Overlong d c') (fuel : Nat) :
    getcwd D.fs (fuel + 1 + ns.length + 1) c (some Lib.Cells.blank) size = .error .outside := by
  have hup := getcwdLoop_up [] hsize hclimb.up hclimb.short hclimb.fits (fuel + 1)
  rw [List.append_nil] at hup
  rw [getcwd_below h hc hp h2 hsize, show size - 2 = size - 2 - ([] : Str).length from rfl, hup,
    getcwdLoop_overlong _ hover]
  rfl

/-! ## the string that it leaves -/

def Agrees (buf : Str) (page : Lib.Cells Char) : Prop :=
  ∀ i a, page i = some a → buf[i]? = some a

theorem agrees_memmove {buf : Str} {page : Lib.Cells Char} (h : Agrees buf page) (pos : Nat) (s : Str)
    (hpos : pos + s.length ≤ buf.length) : Agrees (memmove buf pos s) (page.write pos s) := by
  intro i a hi
  have htake : (buf.take pos).length = pos := by
    rw [List.length_take]
    omega
  unfold memmove
  by_cases h1 : i < pos
  · rw [Lib.Cells.write_of_outside (Or.inl h1)] at hi
    rw [List.append_assoc, List.getElem?_append_left (by omega), List.getElem?_take_of_lt h1]
    exact h i a hi
  by_cases h2 : i < pos + s.length
  · rw [Lib.Cells.write_of_inside (by omega) h2] at hi
    rw [List.append_assoc, List.getElem?_append_right (by omega), htake,
      List.getElem?_append_left (by omega)]
    exact hi
  · rw [Lib.Cells.write_of_outside (Or.inr (by omega))] at hi
    rw [List.getElem?_append_right (by rw [List.length_append, htake]; omega), List.length_append,
      htake, List.getElem?_drop, show pos + s.length + (i - (pos + s.length)) = i by omega]
    exact h i a hi

theorem agrees_slide {buf : Str} {page : Lib.Cells Char} (h : Agrees buf page) (bufp : Nat) :
    Agrees (memmove buf 0 (buf.drop bufp)) (page.slide bufp (buf.length - bufp)) := by
  intro i a hi
  unfold memmove
  by_cases hlt : i < buf.length - bufp
  · rw [Lib.Cells.slide_of_lt hlt] at hi
    rw [List.take_zero, List.nil_append, List.getElem?_append_left (by rw [List.length_drop]; exact hlt),
      List.getElem?_drop]
    exact h _ a hi
  · rw [show page.slide bufp (buf.length - bufp) i = page i from if_neg hlt] at hi
    rw [List.take_zero, List.nil_append, List.getElem?_append_right (by rw [List.length_drop]; omega),
      List.getElem?_drop, List.length_drop,
      show 0 + (buf.length - bufp) + (i - (buf.length - bufp)) = i by omega]
    exact h i a hi

theorem diriname_agrees {fs : Image} {r : Nat × Option Str} (h : diriname fs dir cur = .ok r) :
    Fs.diriname fs dir cur = some r := by
  unfold diriname at h
  unfold Fs.diriname
  cases hes : fs dir with
  | none =>
    rw [hes] at h
    exact absurd h nofun
  | some es =>
    rw [hes] at h
    dsimp only at h ⊢
    cases hp : es[1]? with
    | none =>
      rw [hp] at h
      exact absurd h nofun
    | some parent =>
      rw [hp] at h
      dsimp only at h ⊢
      cases hf : es.find? (fun e => e.inum ≠ 0 && e.inum = cur) with
      | none =>
        rw [hf] at h
        rw [← Except.ok.inj h]
      | some e =>
        rw [hf] at h
        dsimp only at h ⊢
        by_cases hnul : '\x00' ∈ e.name
        · rw [if_pos hnul] at h
          rw [if_pos hnul, ← Except.ok.inj h]
        · rw [if_neg hnul] at h
          exact absurd h nofun

/-- the loop on a buffer does to its string what the loop on cells does to the cells -/
theorem getcwdLoop_agrees {fs : Image} {buf : Str} {page page' : Lib.Cells Char} {bufp bufp' i last : Nat}
    (h : Agrees buf page) (hb : bufp ≤ buf.length)
    (hrun : getcwdLoop fs fuel page bufp i last cur = .ok (page', bufp')) :
    ∃ buf', Fs.getcwdLoop fs fuel buf bufp i last cur = some (buf', bufp') ∧ Agrees buf' page' ∧
      buf'.length = buf.length := by
  induction fuel generalizing buf page bufp i last cur with
  | zero => cases hrun
  | succ fuel ih =>
    have hstay : .ok (page, bufp) = (.ok (page', bufp') : Except Stop (Lib.Cells Char × Nat)) →
        ∃ buf', some (buf, bufp) = some (buf', bufp') ∧ Agrees buf' page' ∧ buf'.length = buf.length := by
      intro e
      obtain ⟨rfl, rfl⟩ := Prod.mk.inj (Except.ok.inj e)
      exact ⟨buf, rfl, h, rfl⟩
    unfold getcwdLoop at hrun
    unfold Fs.getcwdLoop
    by_cases hroot : cur = 1
    · rw [if_pos hroot] at hrun ⊢
      exact hstay hrun
    rw [if_neg hroot] at hrun ⊢
    cases hd : diriname fs i cur with
    | error e =>
      rw [hd] at hrun
      cases hrun
    | ok r =>
      obtain ⟨parent, name⟩ := r
      rw [hd] at hrun
      rw [diriname_agrees hd]
      cases name with
      | none => exact hstay hrun
      | some name =>
        dsimp only at hrun ⊢
        by_cases hne : cur ≠ last
        · rw [if_pos hne] at hrun ⊢
          by_cases hlt : name.length < bufp
          · rw [if_pos hlt] at hrun ⊢
            unfold moveName at hrun
            by_cases h1 : bufp - name.length + name.length ≤ pgsize
            · rw [if_pos h1] at hrun
              change (setChar _ _ _).bind _ = _ at hrun
              unfold setChar at hrun
              by_cases h2 : bufp - name.length - 1 < pgsize
              · rw [if_pos h2] at hrun
                have hmove := agrees_memmove h (bufp - name.length) name (by omega)
                have hlen : (memmove buf (bufp - name.length) name).length = buf.length :=
                  length_memmove (by omega)
                obtain ⟨buf', hrun', hagree, hlen'⟩ := ih (agrees_memmove hmove _ ['/']
                  (by rw [hlen, List.length_singleton]; omega))
                  (by rw [length_memmove (by rw [hlen, List.length_singleton]; omega), hlen]; omega) hrun
                exact ⟨buf', hrun', hagree, hlen'.trans ((length_memmove (by
                  rw [hlen, List.length_singleton]; omega)).trans hlen)⟩
              · rw [if_neg h2] at hrun
                cases hrun
            · rw [if_neg h1] at hrun
              cases hrun
          · rw [if_neg hlt] at hrun ⊢
            exact hstay hrun
        · rw [if_neg hne] at hrun ⊢
          exact ih h hb hrun

/-- a call that keeps to the page leaves a string that the cells agree with -/
theorem getcwd_agrees {fs : Image} {buf : Str} {page page' : Lib.Cells Char} {ret : Int}
    (h : Agrees buf page) (hrun : getcwd fs fuel c (some page) buf.length = .ok (some page', ret)) :
    ∃ out, Fs.getcwd fs fuel c buf = some (out, ret) ∧ Agrees out page' := by
  unfold getcwd at hrun
  unfold Fs.getcwd
  cases hes : fs c with
  | none =>
    rw [hes] at hrun
    exact absurd hrun nofun
  | some es =>
    rw [hes] at hrun
    dsimp only at hrun ⊢
    by_cases hsmall : buf.length ≤ 1
    · rw [if_pos hsmall] at hrun ⊢
      obtain ⟨h1, rfl⟩ := Prod.mk.inj (Except.ok.inj hrun)
      obtain rfl := Option.some.inj h1
      exact ⟨buf, rfl, h⟩
    rw [if_neg hsmall] at hrun ⊢
    by_cases hroot : c = 1
    · rw [if_pos hroot] at hrun ⊢
      obtain ⟨h1, rfl⟩ := Prod.mk.inj (Except.ok.inj hrun)
      obtain rfl := Option.some.inj h1
      refine ⟨_, rfl, ?_⟩
      have hmove := agrees_memmove h 0 ['/', '\x00']
        (by rw [List.length_cons, List.length_singleton]; omega)
      rw [show ['/', '\x00'] = ['/'] ++ ['\x00'] from rfl, ← Lib.Cells.write_write,
        Lib.Cells.write_comm (by rw [List.length_singleton])] at hmove
      exact hmove
    · rw [if_neg hroot] at hrun ⊢
      unfold setChar at hrun
      by_cases hin : buf.length - 1 < pgsize
      · rw [if_pos hin] at hrun
        change (getcwdLoop _ _ _ _ _ _ _).bind _ = _ at hrun
        have hset : Agrees (buf.set (buf.length - 1) '\x00') (page.write (buf.length - 1) ['\x00']) := by
          intro i a hi
          by_cases he : i = buf.length - 1
          · subst he
            rw [Lib.Cells.write_of_inside le_rfl (by rw [List.length_singleton]; omega), Nat.sub_self] at hi
            rw [List.getElem?_set_self (by omega)]
            exact hi
          · rw [Lib.Cells.write_of_outside (by rw [List.length_singleton]; omega)] at hi
            rw [List.getElem?_set_ne (Ne.symm he)]
            exact h i a hi
        cases hloop : getcwdLoop fs fuel (page.write (buf.length - 1) ['\x00']) (buf.length - 2) c
            (c % 2 ^ 16) (c % 2 ^ 16) with
        | error e =>
          rw [hloop] at hrun
          exact absurd hrun nofun
        | ok r =>
          obtain ⟨page1, bufp⟩ := r
          rw [hloop] at hrun
          change (moveDown page1 bufp (buf.length - bufp)).bind _ = _ at hrun
          obtain ⟨buf', hrun', hagree, hlen⟩ := getcwdLoop_agrees hset
            (by rw [List.length_set]; omega) hloop
          rw [List.length_set] at hlen
          rw [hrun']
          unfold moveDown at hrun
          by_cases hdown : bufp + (buf.length - bufp) ≤ pgsize
          · rw [if_pos hdown] at hrun
            obtain ⟨h1, rfl⟩ := Prod.mk.inj (Except.ok.inj hrun)
            obtain rfl := Option.some.inj h1
            have hslide := agrees_slide hagree bufp
            rw [hlen] at hslide
            exact ⟨_, rfl, hslide⟩
          · rw [if_neg hdown] at hrun
            exact absurd hrun nofun
      · rw [if_neg hin] at hrun
        exact absurd hrun nofun

end Cells

end

end Fs
