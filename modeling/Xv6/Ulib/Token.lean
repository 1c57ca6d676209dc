import Xv6.Ulib.Str

/-!
# Tokens cut out of a buffer (`strspn`, `strcspn`, `next_token`)

`next_token` returns a pointer into the string that it cuts up, and puts a NUL behind the token.
Here the string is in a buffer and a pointer is a position in it, or `none` for NULL; an access
behind the end of the buffer has no result.  `Cursor` ties a pointer to the string that is left, and
`Kept` says which bytes a cut leaves alone.
-/

namespace Ulib

/-! ## the model -/

def strspn : Str → Str → Option Nat
  | [], _ => none
  | c :: str, chars =>
    if c = '\x00' then some 0
    else if c ∈ chars then (strspn str chars).map (· + 1)
    else some 0

def strcspn : Str → Str → Option Nat
  | [], _ => none
  | c :: str, chars =>
    if c = '\x00' ∨ c ∈ chars then some 0 else (strcspn str chars).map (· + 1)

/-- `next_token(&p, delim)`: the buffer, the new value of the pointer, and the token -/
def nextTokenAt (buf : Str) (p : Option Nat) (delim : Str) :
    Option (Str × Option Nat × Option Nat) :=
  match p with
  | none => some (buf, none, none)
  | some p =>
    match strspn (buf.drop p) delim with
    | none => none
    | some tokStart =>
      match strcspn (buf.drop (p + tokStart)) delim with
      | none => none
      | some tokEnd =>
        if tokEnd = 0 then some (buf, none, none)
        else if buf[p + tokStart + tokEnd]? = some '\x00' then
          some (buf, none, some (p + tokStart))
        else
          some (buf.set (p + tokStart + tokEnd) '\x00', some (p + tokStart + tokEnd + 1),
            some (p + tokStart))

/-! ## strings in a buffer -/

def StrAt (buf : Str) (p : Nat) (s : Str) : Prop :=
  '\x00' ∉ s ∧ (s ++ ['\x00']) <+: buf.drop p

section
variable {buf buf' s t w delim : Str} {p q k hi : Nat} {c c' : Option Nat} {r r' : Option Str}

theorem StrAt.drop (h : StrAt buf p s) (hk : k ≤ s.length) : StrAt buf (p + k) (s.drop k) := by
  obtain ⟨h0, rest, e⟩ := h
  refine ⟨fun hm => h0 (List.mem_of_mem_drop hm), rest, ?_⟩
  rw [← List.drop_drop, ← e, List.append_assoc, List.append_assoc,
    List.drop_append_of_le_length hk]

theorem StrAt.getElem? (h : StrAt buf p s) {i : Nat} (hi : i ≤ s.length) :
    buf[p + i]? = (s ++ ['\x00'])[i]? := by
  obtain ⟨-, rest, e⟩ := h
  rw [← List.getElem?_drop, ← e, List.getElem?_append_left]
  rw [List.length_append]
  exact Nat.lt_succ_of_le hi

theorem StrAt.nul (h : StrAt buf p s) : buf[p + s.length]? = some '\x00' := by
  rw [h.getElem? (Nat.le_refl _)]
  exact List.getElem?_concat_length

theorem StrAt.lt_length (h : StrAt buf p s) : p + s.length < buf.length := by
  obtain ⟨hlt, -⟩ := List.getElem?_eq_some_iff.mp h.nul
  exact hlt

/-- a string is determined by its bytes -/
theorem StrAt.of_bytes (h0 : '\x00' ∉ s) (hb : ∀ i ≤ s.length, buf[p + i]? = (s ++ ['\x00'])[i]?) :
    StrAt buf p s := by
  refine ⟨h0, List.prefix_iff_getElem?.mpr fun i hi => ?_⟩
  rw [List.getElem?_drop, hb i (by rw [List.length_append] at hi; exact Nat.le_of_lt_succ hi),
    List.getElem?_eq_getElem hi]

theorem StrAt.congr (h : StrAt buf p s)
    (hb : ∀ i, p ≤ i → i ≤ p + s.length → buf'[i]? = buf[i]?) : StrAt buf' p s := by
  refine .of_bytes h.1 fun i hi => ?_
  rw [hb (p + i) (Nat.le_add_right p i) (Nat.add_le_add_left hi p), h.getElem? hi]

theorem StrAt.cstr_drop (h : StrAt buf p s) : cstr (buf.drop p) = s := by
  obtain ⟨h0, rest, e⟩ := h
  unfold cstr
  rw [← e, List.append_assoc]
  have hs : ∀ x ∈ s, decide (x ≠ '\x00') = true := fun x hx =>
    decide_eq_true fun e => h0 (e ▸ hx)
  rw [List.takeWhile_append_of_pos hs]
  exact List.append_nil s

theorem strspn_eq (h0 : '\x00' ∉ s) (rest : Str) :
    strspn (s ++ '\x00' :: rest) delim = some (s.takeWhile (· ∈ delim)).length := by
  induction s with
  | nil => exact if_pos rfl
  | cons x s ih =>
    obtain ⟨hx, hs⟩ := not_or.mp (fun h => h0 (List.mem_cons.mpr h))
    show (if x = '\x00' then some 0 else if x ∈ delim then
      (strspn (s ++ '\x00' :: rest) delim).map (· + 1) else some 0) = _
    rw [if_neg (Ne.symm hx)]
    by_cases hd : x ∈ delim
    · rw [if_pos hd, ih hs, List.takeWhile_cons_of_pos (by simpa using hd)]
      rfl
    · rw [if_neg hd, List.takeWhile_cons_of_neg (by simpa using hd)]
      rfl

theorem strcspn_eq (h0 : '\x00' ∉ s) (rest : Str) :
    strcspn (s ++ '\x00' :: rest) delim = some (s.takeWhile (· ∉ delim)).length := by
  induction s with
  | nil => exact if_pos (Or.inl rfl)
  | cons x s ih =>
    obtain ⟨hx, hs⟩ := not_or.mp (fun h => h0 (List.mem_cons.mpr h))
    show (if x = '\x00' ∨ x ∈ delim then some 0 else
      (strcspn (s ++ '\x00' :: rest) delim).map (· + 1)) = _
    by_cases hd : x ∈ delim
    · rw [if_pos (Or.inr hd), List.takeWhile_cons_of_neg (by simpa using hd)]
      rfl
    · rw [if_neg (fun h => h.elim (Ne.symm hx) hd), ih hs,
        List.takeWhile_cons_of_pos (by simpa using hd)]
      rfl

theorem StrAt.strspn (delim : Str) (h : StrAt buf p s) :
    Ulib.strspn (buf.drop p) delim = some (s.takeWhile (· ∈ delim)).length := by
  obtain ⟨h0, rest, e⟩ := h
  rw [← e, List.append_assoc]
  exact strspn_eq h0 rest

theorem StrAt.strcspn (delim : Str) (h : StrAt buf p s) :
    Ulib.strcspn (buf.drop p) delim = some (s.takeWhile (· ∉ delim)).length := by
  obtain ⟨h0, rest, e⟩ := h
  rw [← e, List.append_assoc]
  exact strcspn_eq h0 rest

theorem takeWhile_run {P : Char → Bool} (ht : ∀ x ∈ t, P x = true)
    (hw : ∀ x, w.head? = some x → P x = false) : (t ++ w).takeWhile P = t := by
  rw [List.takeWhile_append_of_pos ht]
  cases w with
  | nil => exact List.append_nil t
  | cons x w =>
    rw [List.takeWhile_cons_of_neg (by rw [hw x rfl]; exact nofun)]
    exact List.append_nil t

theorem nextTokenAt_nothing (hs : StrAt buf p s) (hd : ∀ x ∈ s, x ∈ delim) :
    nextTokenAt buf (some p) delim = some (buf, none, none) := by
  have hspn := hs.strspn delim
  rw [List.takeWhile_eq_self_iff.mpr fun x hx => decide_eq_true (hd x hx)] at hspn
  have hend : StrAt buf (p + s.length) [] := by
    have h := hs.drop (Nat.le_refl s.length)
    rwa [List.drop_length] at h
  unfold nextTokenAt
  dsimp only
  rw [hspn]
  dsimp only
  rw [hend.strcspn delim]
  exact if_pos rfl

theorem nextTokenAt_token {a : Str} (hs : StrAt buf p (a ++ (t ++ w))) (ha : ∀ x ∈ a, x ∈ delim)
    (hne : t ≠ []) (ht : ∀ x ∈ t, x ∉ delim) (hw : ∀ x, w.head? = some x → x ∈ delim) :
    nextTokenAt buf (some p) delim =
      if w = [] then some (buf, none, some (p + a.length))
      else some (buf.set (p + a.length + t.length) '\x00', some (p + a.length + t.length + 1),
        some (p + a.length)) := by
  have hhead : ∀ x, (t ++ w).head? = some x → decide (x ∈ delim) = false := by
    intro x hx
    obtain ⟨y, t, rfl⟩ := List.exists_cons_of_ne_nil hne
    rw [← Option.some.inj hx]
    exact decide_eq_false (ht y List.mem_cons_self)
  have hspn := hs.strspn delim
  rw [takeWhile_run (fun x hx => decide_eq_true (ha x hx)) hhead] at hspn
  have hstart : StrAt buf (p + a.length) (t ++ w) := by
    have h := hs.drop (k := a.length) (by rw [List.length_append]; omega)
    rwa [List.drop_left] at h
  have hcspn := hstart.strcspn delim
  rw [takeWhile_run (fun x hx => decide_eq_true (ht x hx))
    (fun x hx => decide_eq_false (not_not.mpr (hw x hx)))] at hcspn
  have hend : buf[p + a.length + t.length]? = (w ++ ['\x00'])[0]? := by
    rw [hstart.getElem? (by rw [List.length_append]; omega), List.append_assoc,
      List.getElem?_append_right (Nat.le_refl _), Nat.sub_self]
  unfold nextTokenAt
  dsimp only
  rw [hspn]
  dsimp only
  rw [hcspn]
  dsimp only
  rw [if_neg fun h => hne (List.eq_nil_of_length_eq_zero h), hend]
  cases w with
  | nil => rfl
  | cons x w =>
    have hx : x ≠ '\x00' := by
      rintro rfl
      exact hs.1 (List.mem_append_right a (List.mem_append_right t List.mem_cons_self))
    rw [show (x :: w ++ ['\x00'])[0]? = some x from rfl, if_neg fun h => hx (Option.some.inj h),
      if_neg (List.cons_ne_nil x w)]

/-- a cursor that stands before the rest of a string that ends at position `hi`; NULL is the cursor
of a string that is used up -/
def Cursor (buf : Str) (hi : Nat) : Option Nat → Option Str → Prop
  | none, none => True
  | some p, some w => StrAt buf p w ∧ p + w.length = hi
  | _, _ => False

/-- only bytes between the cursor and `hi` have changed -/
def Kept (c : Option Nat) (hi : Nat) (buf buf' : Str) : Prop :=
  buf'.length = buf.length ∧ ∀ i, (∀ p ∈ c, i < p ∨ hi ≤ i) → buf'[i]? = buf[i]?

def Behind (c : Option Nat) (q : Nat) (t : Str) : Prop := ∀ p ∈ c, q + t.length < p

theorem Kept.refl (c : Option Nat) (hi : Nat) (buf : Str) : Kept c hi buf buf :=
  ⟨rfl, fun _ _ => rfl⟩

theorem Kept.trans {buf'' : Str} (h : Kept c hi buf buf') (h' : Kept c' hi buf' buf'')
    (hc : ∀ p' ∈ c', ∃ p ∈ c, p ≤ p') : Kept c hi buf buf'' := by
  refine ⟨h'.1.trans h.1, fun i hi => (h'.2 i fun p' hp' => ?_).trans (h.2 i hi)⟩
  obtain ⟨p, hp, hle⟩ := hc p' hp'
  exact (hi p hp).imp (fun h => h.trans_le hle) id

theorem Kept.strAt (h : Kept c hi buf buf') (hs : StrAt buf q t) (hb : Behind c q t) :
    StrAt buf' q t :=
  hs.congr fun i _ hi' => h.2 i fun p hp => Or.inl (hi'.trans_lt (hb p hp))

theorem Kept.strAt_after (h : Kept c hi buf buf') (hs : StrAt buf q t) (hb : hi ≤ q) :
    StrAt buf' q t :=
  hs.congr fun i hi' _ => h.2 i fun _ _ => Or.inr (hb.trans hi')

structure Token (buf buf' : Str) (hi : Nat) (c c' : Option Nat) (q : Nat) (t : Str) : Prop where
  at_ : StrAt buf' q t
  ne_nil : t ≠ []
  kept : Kept c hi buf buf'
  from_ : ∀ p ∈ c, p ≤ q
  le : q + t.length ≤ hi
  behind : Behind c' q t

theorem Token.mono (h : Token buf buf' hi c c' q t) (hc : c ≠ none) :
    ∀ p' ∈ c', ∃ p ∈ c, p ≤ p' := by
  intro p' hp'
  obtain ⟨p, rfl⟩ := Option.ne_none_iff_exists'.mp hc
  have h1 := h.from_ p rfl
  have h2 := h.behind p' hp'
  exact ⟨p, rfl, by omega⟩

/-- a NUL in the middle of a string makes two of it -/
theorem StrAt.cut {x : Char} (h : StrAt buf q (t ++ x :: w)) :
    StrAt (buf.set (q + t.length) '\x00') q t ∧
      StrAt (buf.set (q + t.length) '\x00') (q + t.length + 1) w := by
  have hlen := h.lt_length
  rw [List.length_append, List.length_cons] at hlen
  have h0 : '\x00' ∉ t := fun hm => h.1 (List.mem_append_left _ hm)
  have hrest : StrAt buf (q + t.length + 1) w := by
    have hd := h.drop (k := t.length + 1) (by rw [List.length_append, List.length_cons]; omega)
    rwa [List.drop_append, Nat.add_sub_cancel_left, List.drop_of_length_le (Nat.le_succ _)] at hd
  constructor
  · refine .of_bytes h0 fun i hi => ?_
    by_cases e : i = t.length
    · rw [e, List.getElem?_set_self (by omega)]
      exact List.getElem?_concat_length.symm
    · rw [List.getElem?_set_ne (by omega), h.getElem? (by rw [List.length_append]; omega),
        List.getElem?_append_left (by rw [List.length_append]; omega),
        List.getElem?_append_left (by omega), List.getElem?_append_left (by omega)]
  · exact hrest.congr fun i hi _ => List.getElem?_set_ne (by omega)

/-- what `next_token` does to the string is what it does in the buffer -/
theorem nextTokenAt_spec (delim : Str) (hc : Cursor buf hi c r) :
    (nextToken r delim = (none, none) ∧ nextTokenAt buf c delim = some (buf, none, none)) ∨
    ∃ t r' q buf' c', nextToken r delim = (some t, r') ∧
      nextTokenAt buf c delim = some (buf', c', some q) ∧ Cursor buf' hi c' r' ∧
      Token buf buf' hi c c' q t := by
  cases c with
  | none =>
    cases r with
    | none => exact Or.inl ⟨rfl, rfl⟩
    | some w => exact absurd hc id
  | some p =>
    cases r with
    | none => exact absurd hc id
    | some w =>
      obtain ⟨hs, hhi⟩ := hc
      generalize h : nextToken (some w) delim = res
      obtain ⟨o, r'⟩ := res
      cases o with
      | none =>
        have hd := nextToken_none (congrArg Prod.fst h)
        left
        refine ⟨?_, nextTokenAt_nothing hs hd⟩
        have hdrop : w.dropWhile (· ∈ delim) = [] :=
          List.dropWhile_eq_nil_iff.mpr fun x hx => decide_eq_true (hd x hx)
        rw [← h]
        unfold nextToken
        dsimp only
        rw [hdrop]
        rfl
      | some t =>
        right
        obtain ⟨hne, ht, a, ha, ⟨rfl, e⟩ | ⟨x, v, hx, rfl, e⟩⟩ := nextToken_some h
        · -- the token ends where the string does
          rw [← List.append_nil t] at e
          subst e
          have hnext := nextTokenAt_token hs ha hne ht nofun
          rw [List.append_nil] at hs hhi
          rw [List.length_append] at hhi
          have hd := hs.drop (k := a.length) (by rw [List.length_append]; omega)
          rw [List.drop_left] at hd
          exact ⟨t, none, _, _, _, rfl, hnext, trivial, hd, hne, .refl _ _ _,
            fun p' hp' => by rw [← Option.some.inj hp']; exact Nat.le_add_right _ _, by omega,
            fun p' hp' => absurd hp' nofun⟩
        · subst e
          have hnext := nextTokenAt_token (w := x :: v) hs ha hne ht
            (fun y hy => Option.some.inj hy ▸ hx)
          rw [List.length_append, List.length_append, List.length_cons] at hhi
          have hd := hs.drop (k := a.length) (by rw [List.length_append]; omega)
          rw [List.drop_left] at hd
          obtain ⟨h1, h2⟩ := hd.cut
          refine ⟨t, some v, _, _, _, rfl, hnext, ⟨h2, by omega⟩, h1, hne, ⟨List.length_set, ?_⟩, ?_,
            by omega, ?_⟩
          · intro i hi'
            refine List.getElem?_set_ne fun e => ?_
            have := hi' p rfl
            omega
          · intro p' hp'
            rw [← Option.some.inj hp']
            exact Nat.le_add_right _ _
          · intro p' hp'
            rw [← Option.some.inj hp']
            exact Nat.lt_succ_self _

end

end Ulib
