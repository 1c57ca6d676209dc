import Xv6.Fs.Dir

/-!
# The path of the current directory (`diriname`, `getcwd`)

`getcwd` goes up from the current directory and writes the components from the end of the buffer
to its front; the string is moved to the start of the buffer last.  The position that it starts
from is `size - 2`, and the byte there is never written.

`name` has no room for the NUL of a name of `DIRSIZ` characters: `strlen` runs past it, and the
result is `none`.
-/

namespace Fs
open Ulib

/-! ## the model -/

/-- the characters `s` at position `pos` -/
def memmove (buf : Str) (pos : Nat) (s : Str) : Str :=
  buf.take pos ++ s ++ buf.drop (pos + s.length)

/-- the `".."` of `dp`, and the name of the entry for `inum`, where there is one -/
def diriname (fs : Image) (dp inum : Nat) : Option (Nat × Option Str) :=
  match fs dp with
  | none => none
  | some es =>
    match es[1]? with
    | none => none
    | some parent =>
      match es.find? (fun e => e.inum ≠ 0 && e.inum = inum) with
      | none => some (parent.inum, none)
      | some e => if '\x00' ∈ e.name then some (parent.inum, some (cstr e.name)) else none

/-- the loop of `getcwd`: the buffer and `bufp` after it -/
def getcwdLoop (fs : Image) : Nat → Str → Nat → Nat → Nat → Nat → Option (Str × Nat)
  | 0, _, _, _, _, _ => none
  | fuel + 1, buf, bufp, i, lastParent, icurrent =>
    if icurrent = 1 then some (buf, bufp)
    else
      match diriname fs i icurrent with
      | none => none
      | some (_, none) => some (buf, bufp)
      | some (iparent, some name) =>
        if icurrent ≠ lastParent then
          if name.length < bufp then
            let bufp := bufp - name.length
            let buf := memmove buf bufp name
            getcwdLoop fs fuel (memmove buf (bufp - 1) ['/']) (bufp - 1) iparent iparent lastParent
          else some (buf, bufp)
        else getcwdLoop fs fuel buf bufp iparent iparent lastParent

def getcwd (fs : Image) (fuel cwd : Nat) (buf : Str) : Option (Str × Int) :=
  match fs cwd with
  | none => none
  | some _ =>
    if buf.length ≤ 1 then some (buf, -1)
    else if cwd = 1 then some (memmove buf 0 ['/', '\x00'], 0)
    else
      match getcwdLoop fs fuel (buf.set (buf.length - 1) '\x00') (buf.length - 2) cwd
        (cwd % 2 ^ 16) (cwd % 2 ^ 16) with
      | none => none
      | some (buf, bufp) => some (memmove buf 0 (buf.drop bufp), 0)

/-! ## directory trees -/

/-- the parent, as `".."` has it -/
def dotdot (fs : Image) (d : Nat) : Option Nat :=
  (fs d).bind (fun es => (es[1]?).map Dirent.inum)

/-- a file system whose directories form a tree -/
structure Tree where
  fs : Image
  depth : Nat → Nat
  root : depth rootIno = 0
  inum : ∀ d, (fs d).isSome = true → 0 < d ∧ d < 2 ^ 16
  dots : ∀ d es, fs d = some es → ∃ p rest,
    es = ⟨d, padded ['.']⟩ :: ⟨p, padded ['.', '.']⟩ :: rest ∧
      (d = rootIno → p = rootIno) ∧ (d ≠ rootIno → depth d = depth p + 1)
  names : ∀ d es e, fs d = some es → e ∈ es → e.inum ≠ 0 → ∃ n, IsName n ∧ e.name = padded n
  distinct : ∀ d es e e', fs d = some es → e ∈ es → e' ∈ es → e.inum ≠ 0 → e'.inum ≠ 0 →
    e.name = e'.name → e = e'
  child : ∀ d es e, fs d = some es → e ∈ es.drop 2 → (fs e.inum).isSome = true →
    depth e.inum = depth d + 1 ∧ dotdot fs e.inum = some d ∧
      ∀ e' ∈ es.drop 2, e'.inum = e.inum → e' = e

/-- directory `c` is linked, under these components from the root -/
inductive Tree.Linked (T : Tree) : List Str → Nat → Prop
  | root (h : (T.fs rootIno).isSome = true) : Linked T [] rootIno
  | child {names : List Str} {d : Nat} {es : List Dirent} {e : Dirent} {n : Str}
      (hd : Linked T names d) (hes : T.fs d = some es) (he : e ∈ es.drop 2) (hn : IsName n)
      (hname : e.name = padded n) (hdir : (T.fs e.inum).isSome = true) :
      Linked T (names ++ [n]) e.inum

section
variable {T : Tree} {names : List Str} {c d p : Nat} {es : List Dirent} {e : Dirent} {n : Str}

theorem Tree.Linked.isDir (h : T.Linked names c) : (T.fs c).isSome = true := by
  cases h with
  | root h => exact h
  | child _ _ _ _ _ hdir => exact hdir

theorem Tree.Linked.isName (h : T.Linked names c) : ∀ n ∈ names, IsName n := by
  induction h with
  | root => exact fun n hn => absurd hn (by simp)
  | child _ _ _ hn _ _ ih =>
    intro m hm
    rcases List.mem_append.mp hm with h | h
    · exact ih m h
    · rw [List.mem_singleton.mp h]
      exact hn

theorem Tree.Linked.eq_root_iff (h : T.Linked names c) : c = rootIno ↔ names = [] := by
  cases h with
  | root => exact ⟨fun _ => rfl, fun _ => rfl⟩
  | child hd hes he hn hname hdir =>
    refine ⟨fun e1 => ?_, fun e1 => absurd e1 (by simp)⟩
    have h1 := (T.child _ _ _ hes he hdir).1
    rw [e1, T.root] at h1
    exact absurd h1 (by omega)

theorem Tree.entries (hes : T.fs d = some es) : ∃ p, dotdot T.fs d = some p ∧
    es = ⟨d, padded ['.']⟩ :: ⟨p, padded ['.', '.']⟩ :: es.drop 2 ∧
      (d = rootIno → p = rootIno) ∧ (d ≠ rootIno → T.depth d = T.depth p + 1) := by
  obtain ⟨p, rest, rfl, h1, h2⟩ := T.dots d es hes
  refine ⟨p, ?_, rfl, h1, h2⟩
  unfold dotdot
  rw [hes]
  rfl

theorem Tree.dirlookup_eq (hes : T.fs d = some es) (he : e ∈ es) (h0 : e.inum ≠ 0) (hn : IsName n)
    (hname : e.name = padded n) : dirlookup es n = some e.inum := by
  have hmatch : (e.inum ≠ 0 && namecmpEq n e.name) = true := by
    rw [hname, (namecmpEq_padded hn hn).mpr rfl]
    simpa using h0
  unfold dirlookup
  cases hf : es.find? (fun e => e.inum ≠ 0 && namecmpEq n e.name) with
  | none => exact absurd hmatch (by simpa using List.find?_eq_none.mp hf e he)
  | some e' =>
    have he' := List.mem_of_find?_eq_some hf
    have hp := List.find?_some hf
    rw [Bool.and_eq_true] at hp
    have h0' : e'.inum ≠ 0 := by simpa using hp.1
    obtain ⟨m, hm, hname'⟩ := T.names d es e' hes he' h0'
    rw [hname', namecmpEq_padded hn hm] at hp
    obtain rfl := T.distinct d es e e' hes he he' h0 h0' (by rw [hname, hname', hp.2])
    rfl

theorem Tree.Linked.resolve_eq (h : T.Linked names c) : resolve T.fs names rootIno = some c := by
  induction h with
  | root => rfl
  | child hd hes he hn hname hdir ih =>
    rw [resolve_append, ih, Option.bind_some]
    unfold resolve
    have h0 : _ ≠ 0 := (T.inum _ hdir).1.ne'
    rw [hes, Option.bind_some, T.dirlookup_eq hes (List.mem_of_mem_drop he) h0 hn hname]
    rfl

/-! ## one directory up -/

theorem cstr_append_nul {s t : Str} (h : '\x00' ∉ s) : cstr (s ++ '\x00' :: t) = s := by
  rw [cstr_append, cstr_eq_self h]

theorem length_cstr_le (s t : Str) : (cstr (s ++ '\x00' :: t)).length ≤ s.length := by
  rw [cstr_append]
  exact (List.takeWhile_prefix _).length_le

theorem padded_short (hn : IsName n) :
    ('\x00' ∈ padded n ↔ n.length < dirsiz) ∧ (n.length < dirsiz → cstr (padded n) = n) := by
  unfold padded
  constructor
  · rw [List.mem_append, List.mem_replicate]
    exact ⟨fun h => h.elim (fun h1 => absurd h1 hn.nul) (fun h1 => by omega),
      fun h => Or.inr ⟨by omega, rfl⟩⟩
  · intro h
    obtain ⟨k, hk⟩ : ∃ k, dirsiz - n.length = k + 1 := ⟨dirsiz - n.length - 1, by omega⟩
    rw [hk, List.replicate_succ, cstr_append_nul hn.nul]

theorem Tree.find_child (hes : T.fs d = some es) (he : e ∈ es.drop 2)
    (hdir : (T.fs e.inum).isSome = true) :
    es.find? (fun x => x.inum ≠ 0 && x.inum = e.inum) = some e := by
  obtain ⟨hdepth, -, huniq⟩ := T.child d es e hes he hdir
  have h0 := (T.inum _ hdir).1
  obtain ⟨p, -, heq, hroot, hup⟩ := T.entries hes
  have hd : d ≠ e.inum := by
    intro h
    rw [← h] at hdepth
    omega
  -- `".."` is not the child either
  have hp : p ≠ e.inum := by
    intro h
    by_cases hr : d = rootIno
    · exact hd (hr.trans ((hroot hr).symm.trans h))
    · have := hup hr
      rw [h] at this
      omega
  have hfind : (es.drop 2).find? (fun x => x.inum ≠ 0 && x.inum = e.inum) = some e := by
    cases hf : (es.drop 2).find? (fun x => x.inum ≠ 0 && x.inum = e.inum) with
    | none =>
      have := List.find?_eq_none.mp hf e he
      simp at this
      omega
    | some e' =>
      have hx := List.find?_some hf
      rw [Bool.and_eq_true] at hx
      rw [huniq e' (List.mem_of_find?_eq_some hf) (of_decide_eq_true hx.2)]
  rw [heq, List.find?_cons_of_neg (by simpa using fun _ => hd),
    List.find?_cons_of_neg (by simpa using fun _ => hp)]
  exact hfind

theorem Tree.diriname_child (hes : T.fs d = some es) (he : e ∈ es.drop 2) (hn : IsName n)
    (hname : e.name = padded n) (hdir : (T.fs e.inum).isSome = true) (hp : dotdot T.fs d = some p) :
    diriname T.fs d e.inum = if n.length < dirsiz then some (p, some n) else none := by
  obtain ⟨q, hq, heq, -, -⟩ := T.entries hes
  obtain rfl := Option.some.inj (hq.symm.trans hp)
  obtain ⟨h1, h2⟩ := padded_short hn
  have hsecond : es[1]? = some ⟨q, padded ['.', '.']⟩ := by
    rw [heq]
    rfl
  unfold diriname
  rw [hes]
  dsimp only
  rw [hsecond, T.find_child hes he hdir]
  dsimp only
  rw [hname]
  by_cases hlt : n.length < dirsiz
  · rw [if_pos (h1.mpr hlt), if_pos hlt, h2 hlt]
  · rw [if_neg (fun h => hlt (h1.mp h)), if_neg hlt]

theorem Tree.diriname_self (hes : T.fs c = some es) (hp : dotdot T.fs c = some p) :
    diriname T.fs c c = some (p, some ['.']) := by
  obtain ⟨q, hq, heq, -, -⟩ := T.entries hes
  obtain rfl := Option.some.inj (hq.symm.trans hp)
  have h0 := (T.inum c (by rw [hes]; rfl)).1
  have hsecond : es[1]? = some ⟨q, padded ['.', '.']⟩ := by
    rw [heq]
    rfl
  have hfirst : es.find? (fun x => x.inum ≠ 0 && x.inum = c) = some ⟨c, padded ['.']⟩ := by
    rw [heq, List.find?_cons_of_pos (by simpa using h0.ne')]
  unfold diriname
  rw [hes]
  dsimp only
  rw [hsecond, hfirst]
  rfl

/-! ## the loop -/

theorem drop_memmove {buf s : Str} {pos : Nat} (h : pos ≤ buf.length) :
    (memmove buf pos s).drop pos = s ++ buf.drop (pos + s.length) := by
  unfold memmove
  rw [List.append_assoc, List.drop_left' (by rw [List.length_take]; omega)]

theorem length_memmove {buf s : Str} {pos : Nat} (h : pos + s.length ≤ buf.length) :
    (memmove buf pos s).length = buf.length := by
  unfold memmove
  rw [List.length_append, List.length_append, List.length_take, List.length_drop]
  omega

theorem drop_component {buf : Str} {bufp : Nat} (hb : bufp ≤ buf.length) (hlt : n.length < bufp) :
    (memmove (memmove buf (bufp - n.length) n) (bufp - n.length - 1) ['/']).length = buf.length ∧
    (memmove (memmove buf (bufp - n.length) n) (bufp - n.length - 1) ['/']).drop
      (bufp - n.length - 1) = '/' :: n ++ buf.drop bufp := by
  have hlen : (memmove buf (bufp - n.length) n).length = buf.length := length_memmove (by omega)
  constructor
  · rw [length_memmove (by rw [hlen, List.length_singleton]; omega), hlen]
  · rw [drop_memmove (by rw [hlen]; omega), List.length_singleton,
      show bufp - n.length - 1 + 1 = bufp - n.length by omega, drop_memmove (by omega),
      show bufp - n.length + n.length = bufp by omega]
    rfl

theorem getcwdLoop_child {names : List Str} {fuel bufp : Nat} {buf : Str}
    (hes : T.fs d = some es) (he : e ∈ es.drop 2) (hn : IsName n) (hname : e.name = padded n)
    (hdir : (T.fs e.inum).isSome = true) (hp : dotdot T.fs d = some p)
    (hl : T.Linked (names ++ [n]) e.inum) :
    getcwdLoop T.fs (fuel + 1) buf bufp d d e.inum =
      if n.length < dirsiz then
        if n.length < bufp then
          getcwdLoop T.fs fuel
            (memmove (memmove buf (bufp - n.length) n) (bufp - n.length - 1) ['/'])
            (bufp - n.length - 1) p p d
        else some (buf, bufp)
      else none := by
  have hne1 : e.inum ≠ 1 := fun h => absurd (hl.eq_root_iff.mp h) (by simp)
  have hned : e.inum ≠ d := by
    intro h
    have := (T.child d es e hes he hdir).1
    rw [h] at this
    omega
  show (if e.inum = 1 then _ else _) = _
  rw [if_neg hne1, T.diriname_child hes he hn hname hdir hp]
  by_cases hlt : n.length < dirsiz
  · rw [if_pos hlt, if_pos hlt]
    dsimp only
    rw [if_pos hned]
  · rw [if_neg hlt, if_neg hlt]

theorem pathStr_snoc_length (names : List Str) (n : Str) :
    (pathStr (names ++ [n])).length = (pathStr names).length + n.length + 1 := by
  rw [pathStr_append, List.length_append]
  show (pathStr names).length + ('/' :: n ++ []).length = _
  rw [List.append_nil, List.length_cons]
  omega

/-- names and room that suffice: the loop writes the path in front of what is in the buffer -/
theorem getcwdLoop_fits (hl : T.Linked names c) (hp : dotdot T.fs c = some p)
    (hnames : ∀ n ∈ names, n.length < dirsiz) {fuel bufp : Nat} {buf : Str}
    (hb : bufp ≤ buf.length) (hroom : (pathStr names).length ≤ bufp) (hfuel : names.length < fuel) :
    ∃ buf', getcwdLoop T.fs fuel buf bufp p p c = some (buf', bufp - (pathStr names).length) ∧
      buf'.drop (bufp - (pathStr names).length) = pathStr names ++ buf.drop bufp := by
  induction hl generalizing p fuel bufp buf with
  | root =>
    cases fuel with
    | zero => exact absurd hfuel (Nat.not_lt_zero _)
    | succ fuel => exact ⟨buf, rfl, rfl⟩
  | @child names d es e n hd hes he hn hname hdir ih =>
    have hl : T.Linked (names ++ [n]) e.inum := .child hd hes he hn hname hdir
    obtain rfl : d = p := Option.some.inj ((T.child d es e hes he hdir).2.1.symm.trans hp)
    obtain ⟨q, hq, -⟩ := T.entries hes
    have hlen := pathStr_snoc_length names n
    have hnlt := hnames n (by simp)
    cases fuel with
    | zero => exact absurd hfuel (Nat.not_lt_zero _)
    | succ fuel =>
      obtain ⟨hlen', hdrop⟩ := drop_component (n := n) hb (by omega)
      have hfuel' : names.length < fuel := by
        rw [List.length_append, List.length_singleton] at hfuel
        omega
      have hb' : bufp - n.length - 1 ≤ (memmove (memmove buf (bufp - n.length) n)
          (bufp - n.length - 1) ['/']).length := by omega
      obtain ⟨buf', hrun, hbuf⟩ := ih hq (fun m hm => hnames m (by simp [hm])) hb' (by omega) hfuel'
      rw [getcwdLoop_child hes he hn hname hdir hq hl, if_pos hnlt, if_pos (by omega), hrun, hlen,
        show bufp - ((pathStr names).length + n.length + 1)
          = bufp - n.length - 1 - (pathStr names).length by omega]
      refine ⟨buf', rfl, ?_⟩
      rw [hbuf, hdrop, pathStr_append, List.append_assoc]
      simp [pathStr]

/-- without them, the loop leaves a component out -/
theorem getcwdLoop_short (hl : T.Linked names c) (hp : dotdot T.fs c = some p) {fuel bufp bufp' : Nat}
    {buf buf' : Str} (hb : bufp ≤ buf.length)
    (hrun : getcwdLoop T.fs fuel buf bufp p p c = some (buf', bufp')) :
    ((∀ n ∈ names, n.length < dirsiz) ∧ (pathStr names).length ≤ bufp ∧
      buf'.drop bufp' = pathStr names ++ buf.drop bufp) ∨
      ∃ t, buf'.drop bufp' = t ++ buf.drop bufp ∧ t.length + 2 ≤ (pathStr names).length := by
  induction hl generalizing p fuel bufp buf with
  | root =>
    refine Or.inl ⟨fun n hn => absurd hn (by simp), Nat.zero_le _, ?_⟩
    cases fuel with
    | zero => exact absurd hrun (by simp [getcwdLoop])
    | succ fuel =>
      obtain ⟨rfl, rfl⟩ := Prod.mk.inj (Option.some.inj hrun)
      rfl
  | @child names d es e n hd hes he hn hname hdir ih =>
    have hl : T.Linked (names ++ [n]) e.inum := .child hd hes he hn hname hdir
    obtain rfl : d = p := Option.some.inj ((T.child d es e hes he hdir).2.1.symm.trans hp)
    obtain ⟨q, hq, -⟩ := T.entries hes
    have hlen := pathStr_snoc_length names n
    have hpos := hn.pos
    cases fuel with
    | zero => exact absurd hrun (by simp [getcwdLoop])
    | succ fuel =>
      rw [getcwdLoop_child hes he hn hname hdir hq hl] at hrun
      by_cases hnlt : n.length < dirsiz
      · rw [if_pos hnlt] at hrun
        by_cases hlt : n.length < bufp
        · rw [if_pos hlt] at hrun
          obtain ⟨hlen', hdrop⟩ := drop_component (n := n) hb hlt
          rcases ih hq (by omega) hrun with ⟨h1, h2, h3⟩ | ⟨t, h1, h2⟩
          · refine Or.inl ⟨fun m hm => ?_, by omega, ?_⟩
            · rcases List.mem_append.mp hm with h | h
              · exact h1 m h
              · rw [List.mem_singleton.mp h]
                exact hnlt
            · rw [h3, hdrop, pathStr_append, List.append_assoc]
              simp [pathStr]
          · refine Or.inr ⟨t ++ '/' :: n, ?_, ?_⟩
            · rw [h1, hdrop, List.append_assoc]
            · rw [hlen, List.length_append, List.length_cons]
              omega
        · rw [if_neg hlt] at hrun
          obtain ⟨rfl, rfl⟩ := Prod.mk.inj (Option.some.inj hrun)
          exact Or.inr ⟨[], rfl, by rw [hlen]; simp; omega⟩
      · rw [if_neg hnlt] at hrun
        exact absurd hrun (by simp)

/-! ## the whole call -/

theorem getcwd_eq (hl : T.Linked names c) (hne : names ≠ []) (hp : dotdot T.fs c = some p)
    {buf : Str} (hlen : 2 ≤ buf.length) (fuel : Nat) :
    getcwd T.fs (fuel + 1) c buf =
      match getcwdLoop T.fs fuel (buf.set (buf.length - 1) '\x00') (buf.length - 2) p p c with
      | none => none
      | some (buf, bufp) => some (memmove buf 0 (buf.drop bufp), 0) := by
  obtain ⟨es, hes⟩ := Option.isSome_iff_exists.mp hl.isDir
  have hne1 : c ≠ 1 := fun h => hne (hl.eq_root_iff.mp h)
  have hmod : c % 2 ^ 16 = c := Nat.mod_eq_of_lt (T.inum c hl.isDir).2
  have hstep : ∀ buf bufp, getcwdLoop T.fs (fuel + 1) buf bufp c c c
      = getcwdLoop T.fs fuel buf bufp p p c := by
    intro buf bufp
    show (if c = 1 then _ else _) = _
    rw [if_neg hne1, T.diriname_self hes hp]
    dsimp only
    rw [if_neg (fun h => h rfl)]
  unfold getcwd
  rw [hes]
  dsimp only
  rw [if_neg (by omega), if_neg hne1, hmod, hstep]

theorem memmove_zero_drop (buf : Str) (k : Nat) : ∃ r, memmove buf 0 (buf.drop k) = buf.drop k ++ r :=
  ⟨_, rfl⟩

theorem drop_set_last {buf : Str} {g : Char} (hlen : 2 ≤ buf.length)
    (hg : buf[buf.length - 2]? = some g) :
    (buf.set (buf.length - 1) '\x00').drop (buf.length - 2) = [g, '\x00'] := by
  obtain ⟨h1, hg⟩ := List.getElem?_eq_some_iff.mp hg
  rw [List.drop_eq_getElem_cons (by rw [List.length_set]; omega),
    List.drop_eq_getElem_cons (by rw [List.length_set]; omega),
    List.drop_eq_nil_of_le (by rw [List.length_set]; omega)]
  rw [List.getElem_set_ne (by omega), hg]
  congr 1
  simp only [show buf.length - 2 + 1 = buf.length - 1 by omega, List.getElem_set_self]

theorem pathOf_of_ne (hne : names ≠ []) : pathOf names = pathStr names := if_neg hne

/-- the string that `getcwd` leaves is the path of the current directory, and leads back to it -/
def Roundtrip (T : Tree) (c : Nat) (names : List Str) (buf : Str) : Prop :=
  ∃ fuel out, getcwd T.fs fuel c buf = some (out, 0) ∧ '\x00' ∈ out ∧ cstr out = pathOf names ∧
    namei T.fs c (cstr out) = some c

theorem roundtrip_of_string (hl : T.Linked names c) {buf out r : Str} {fuel : Nat}
    (hrun : getcwd T.fs fuel c buf = some (out, 0)) (hout : out = pathOf names ++ '\x00' :: r) :
    Roundtrip T c names buf := by
  have hnul : '\x00' ∉ pathOf names := by
    unfold pathOf
    split
    · decide
    · exact nul_notMem_pathStr hl.isName
  have hcstr : cstr out = pathOf names := by
    rw [hout, cstr_append_nul hnul]
  refine ⟨fuel, out, hrun, by rw [hout]; simp, hcstr, ?_⟩
  rw [hcstr, namei_pathOf hl.isName, hl.resolve_eq]

/-- the round trip of `getcwd` -/
theorem getcwd_iff (hl : T.Linked names c) {buf : Str} (hsize : (pathOf names).length < buf.length) :
    Roundtrip T c names buf ↔ names = [] ∨
      ((pathOf names).length + 2 ≤ buf.length ∧ buf[buf.length - 2]? = some '\x00' ∧
        ∀ n ∈ names, n.length ≤ 13) := by
  by_cases hne : names = []
  · subst hne
    obtain rfl := hl.eq_root_iff.mpr rfl
    obtain ⟨es, hes⟩ := Option.isSome_iff_exists.mp hl.isDir
    have hlen : 1 < buf.length := hsize
    refine ⟨fun _ => Or.inl rfl, fun _ => ?_⟩
    have hrun : getcwd T.fs 0 rootIno buf = some (memmove buf 0 ['/', '\x00'], 0) := by
      unfold getcwd
      rw [hes]
      dsimp only
      rw [if_neg (by omega), if_pos (show rootIno = 1 from rfl)]
    exact roundtrip_of_string hl hrun rfl
  · rw [pathOf_of_ne hne] at hsize
    have hfirst : 2 ≤ (pathStr names).length := by
      obtain ⟨n, ns, rfl⟩ := List.exists_cons_of_ne_nil hne
      have := (hl.isName n List.mem_cons_self).pos
      rw [pathStr_cons, List.length_append, List.length_cons]
      omega
    obtain ⟨es, hes⟩ := Option.isSome_iff_exists.mp hl.isDir
    obtain ⟨p, hp, -⟩ := T.entries hes
    have hset : (buf.set (buf.length - 1) '\x00').length = buf.length := List.length_set
    obtain ⟨g, hg⟩ : ∃ g, buf[buf.length - 2]? = some g := ⟨_, List.getElem?_eq_getElem (by omega)⟩
    have hlast := drop_set_last (by omega) hg
    have hroom : buf.length - 2 ≤ (buf.set (buf.length - 1) '\x00').length := by omega
    constructor
    · rintro ⟨fuel, out, hrun, -, hstr, -⟩
      refine Or.inr ?_
      rw [pathOf_of_ne hne] at hstr ⊢
      cases fuel with
      | zero =>
        have hne1 : c ≠ 1 := fun h => hne (hl.eq_root_iff.mp h)
        unfold getcwd getcwdLoop at hrun
        rw [hes] at hrun
        dsimp only at hrun
        rw [if_neg (by omega), if_neg hne1] at hrun
        exact absurd hrun (by simp)
      | succ fuel =>
        rw [getcwd_eq hl hne hp (by omega)] at hrun
        cases hloop : getcwdLoop T.fs fuel (buf.set (buf.length - 1) '\x00') (buf.length - 2) p p c with
        | none =>
          rw [hloop] at hrun
          exact absurd hrun (by simp)
        | some q =>
          obtain ⟨buf', bufp'⟩ := q
          rw [hloop] at hrun
          obtain ⟨rfl, -⟩ := Prod.mk.inj (Option.some.inj hrun)
          obtain ⟨r, hr⟩ := memmove_zero_drop buf' bufp'
          rw [hr] at hstr
          rcases getcwdLoop_short hl hp hroom hloop with ⟨h1, h2, h3⟩ | ⟨t, h1, h2⟩
          · -- all components are there, so the byte behind them is what counts
            have hnul := nul_notMem_pathStr hl.isName
            refine ⟨by omega, ?_, fun n hn => Nat.le_of_lt_succ (h1 n hn)⟩
            rw [h3, hlast, List.append_assoc] at hstr
            by_contra hg0
            have hgne : g ≠ '\x00' := by
              rintro rfl
              exact hg0 hg
            have hlen := congrArg List.length hstr
            rw [show pathStr names ++ ([g, '\x00'] ++ r) = pathStr names ++ [g] ++ '\x00' :: r by simp,
              cstr_append_nul (by simpa using ⟨hnul, hgne.symm⟩), List.length_append,
              List.length_singleton] at hlen
            omega
          · have hle := length_cstr_le (t ++ [g]) r
            rw [h1, hlast] at hstr
            rw [show t ++ [g] ++ '\x00' :: r = t ++ [g, '\x00'] ++ r by simp, hstr,
              List.length_append, List.length_singleton] at hle
            omega
    · rintro (h | ⟨h1, h2, h3⟩)
      · exact absurd h hne
      · obtain rfl := Option.some.inj (hg.symm.trans h2)
        rw [pathOf_of_ne hne] at h1
        obtain ⟨buf', hrun, hbuf⟩ := getcwdLoop_fits hl hp (fun n hn => Nat.lt_succ_of_le (h3 n hn))
          hroom (by omega) (Nat.lt_succ_self _)
        obtain ⟨r, hr⟩ := memmove_zero_drop buf' (buf.length - 2 - (pathStr names).length)
        have hcall : getcwd T.fs (names.length + 2) c buf
            = some (memmove buf' 0 (buf'.drop (buf.length - 2 - (pathStr names).length)), 0) := by
          rw [getcwd_eq hl hne hp (by omega), hrun]
        refine roundtrip_of_string hl hcall (r := '\x00' :: r) ?_
        rw [hr, hbuf, hlast, pathOf_of_ne hne, List.append_assoc]
        rfl

end

/-! ## a directory in the root -/

def oneDir : Image := fun d =>
  if d = 1 then some [⟨1, padded ['.']⟩, ⟨1, padded ['.', '.']⟩, ⟨2, padded ['a']⟩]
  else if d = 2 then some [⟨2, padded ['.']⟩, ⟨1, padded ['.', '.']⟩]
  else none

theorem oneDir_cases {d : Nat} {es : List Dirent} (h : oneDir d = some es) :
    (d = 1 ∧ es = [⟨1, padded ['.']⟩, ⟨1, padded ['.', '.']⟩, ⟨2, padded ['a']⟩]) ∨
    (d = 2 ∧ es = [⟨2, padded ['.']⟩, ⟨1, padded ['.', '.']⟩]) := by
  unfold oneDir at h
  by_cases h1 : d = 1
  · rw [if_pos h1] at h
    exact Or.inl ⟨h1, (Option.some.inj h).symm⟩
  · rw [if_neg h1] at h
    by_cases h2 : d = 2
    · rw [if_pos h2] at h
      exact Or.inr ⟨h2, (Option.some.inj h).symm⟩
    · rw [if_neg h2] at h
      exact absurd h nofun

theorem isName_dot : IsName ['.'] :=
  ⟨by decide, by decide, by decide, by decide⟩

theorem isName_dotdot : IsName ['.', '.'] :=
  ⟨by decide, by decide, by decide, by decide⟩

theorem isName_a : IsName ['a'] :=
  ⟨by decide, by decide, by decide, by decide⟩

def oneDirTree : Tree where
  fs := oneDir
  depth d := if d = 2 then 1 else 0
  root := rfl
  inum := by
    intro d h
    obtain ⟨es, hes⟩ := Option.isSome_iff_exists.mp h
    rcases oneDir_cases hes with ⟨rfl, -⟩ | ⟨rfl, -⟩
    · decide
    · decide
  dots := by
    intro d es hes
    rcases oneDir_cases hes with ⟨rfl, rfl⟩ | ⟨rfl, rfl⟩
    · exact ⟨1, _, rfl, by decide, by decide⟩
    · exact ⟨1, _, rfl, by decide, by decide⟩
  names := by
    intro d es e hes he _
    rcases oneDir_cases hes with ⟨rfl, rfl⟩ | ⟨rfl, rfl⟩
    · simp only [List.mem_cons, List.not_mem_nil, or_false] at he
      rcases he with rfl | rfl | rfl
      · exact ⟨_, isName_dot, rfl⟩
      · exact ⟨_, isName_dotdot, rfl⟩
      · exact ⟨_, isName_a, rfl⟩
    · simp only [List.mem_cons, List.not_mem_nil, or_false] at he
      rcases he with rfl | rfl
      · exact ⟨_, isName_dot, rfl⟩
      · exact ⟨_, isName_dotdot, rfl⟩
  distinct := by
    intro d es e e' hes he he' _ _ heq
    rcases oneDir_cases hes with ⟨rfl, rfl⟩ | ⟨rfl, rfl⟩
    · simp only [List.mem_cons, List.not_mem_nil, or_false] at he he'
      rcases he with rfl | rfl | rfl <;> rcases he' with rfl | rfl | rfl <;>
        first | rfl | exact absurd heq (by decide)
    · simp only [List.mem_cons, List.not_mem_nil, or_false] at he he'
      rcases he with rfl | rfl <;> rcases he' with rfl | rfl <;>
        first | rfl | exact absurd heq (by decide)
  child := by
    intro d es e hes he _
    rcases oneDir_cases hes with ⟨rfl, rfl⟩ | ⟨rfl, rfl⟩
    · obtain rfl := List.mem_singleton.mp he
      exact ⟨rfl, rfl, fun e' he' _ => List.mem_singleton.mp he'⟩
    · exact absurd he (by simp)

theorem oneDirTree_linked : oneDirTree.Linked [['a']] 2 := by
  have hroot : oneDirTree.Linked [] rootIno := .root rfl
  have hmem : (⟨2, padded ['a']⟩ : Dirent) ∈
      [⟨1, padded ['.']⟩, ⟨1, padded ['.', '.']⟩, (⟨2, padded ['a']⟩ : Dirent)].drop 2 := by decide
  exact .child hroot rfl hmem isName_a rfl rfl

theorem getcwd_iff_oneDir :
    Roundtrip oneDirTree 2 [['a']] (List.replicate 16 '\x00') :=
  (getcwd_iff oneDirTree_linked (by decide)).mpr (Or.inr (by decide))

/-- a page of `kalloc` is not zeroed: the byte behind the path stays in the string -/
theorem not_roundtrip_oneDir : ¬ Roundtrip oneDirTree 2 [['a']] (List.replicate 16 '\x05') := by
  rintro ⟨fuel, out, hrun, -, hstr, -⟩
  match fuel with
  | 0 => exact absurd hrun nofun
  | 1 => exact absurd hrun nofun
  | 2 => exact absurd hrun nofun
  | fuel + 3 =>
    have hloop : getcwd oneDirTree.fs (fuel + 3) 2 (List.replicate 16 '\x05')
        = some (['/', 'a', '\x05', '\x00'] ++ List.replicate 8 '\x05' ++ ['/', 'a', '\x05', '\x00'],
          0) := by
      rfl
    obtain ⟨rfl, -⟩ := Prod.mk.inj (Option.some.inj (hloop.symm.trans hrun))
    exact absurd hstr (by decide)

end Fs
