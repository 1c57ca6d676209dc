import Xv6.Ulib.Stream

/-!
# The line that `main` reads from a script

`getline` reads the line into a block that grows, `main` stores a NUL for its last character, and
`strcpy` copies it to `buf`, which has `BUFFER_SIZE` bytes.  `LineBuf` is what the calls of `getline`
keep, and a line that `Fits` makes all these stores inside.
-/

namespace Boogsh
open Ulib

def bufferSize : Nat := 128

inductive Fault where
  | getline (e : Ulib.Stop)
  /-- `line[line_len - 1]` -/
  | line
  /-- `strcpy` to a buffer that is too small -/
  | buf
  /-- an edit of the text in a slot that was never filled -/
  | slot
  deriving DecidableEq

/-- `line` and `max` of `main`, and the answers of `malloc` -/
structure LineBuf where
  heap : Heap
  line : Option Str
  max : Nat

def LineBuf.start (heap : Heap) : LineBuf := ⟨heap, none, 0⟩

/-- the null pointer, or a block of 128 bytes whose size was only ever doubled -/
structure LineBuf.Ok (b : LineBuf) : Prop where
  supplied : Supplied b.line b.max
  grown : ∃ j, firstCapacity b.max = bufferSize * 2 ^ j

def lastIndex (len : Nat) : Nat := if len = 0 then 2 ^ 32 - 1 else len - 1

/-- `getline`, and the NUL for the last character; nothing is read at the end of the file -/
def readLine (b : LineBuf) (input : Str) : Except Fault (Option Got) :=
  match getlineAt b.heap b.line b.max input with
  | .error e => .error (.getline e)
  | .ok g =>
    if asInt g.count ≤ 0 then .ok none
    else
      match store g.buf (lastIndex (cstr g.buf).length) '\x00' with
      | .error _ => .error .line
      | .ok line => .ok (some { g with buf := line })

def LineBuf.after (b : LineBuf) (g : Got) : LineBuf := ⟨b.heap, some g.buf, g.n⟩

def copyLine (line : Str) : Except Fault Str :=
  if (cstr line).length < bufferSize then .ok (cstr line) else .error .buf

/-! ## the lines that fit -/

/-- what `getline` is about to read, and the capacity that it needs for it -/
def LineBuf.piece (b : LineBuf) (input : Str) : Str × Fill :=
  (Fill.start (firstCapacity b.max)).scan input

/-- `getline` gets its memory, and its capacity stays a `uint` -/
structure LineBuf.Room (b : LineBuf) (input : Str) : Prop where
  first : b.line = none → b.heap.malloc 128 ≠ none
  more : ¬ b.heap.Refuses (firstCapacity b.max) (b.piece input).2.n
  small : (b.piece input).2.n < 2 ^ 32

/-- the line does not start with a NUL, and has at most `BUFFER_SIZE` characters before its first
NUL, its newline counted -/
structure LineBuf.Fits (b : LineBuf) (input : Str) : Prop where
  room : b.Room input
  nul : (b.piece input).1.head? ≠ some '\x00'
  size : (cstr (b.piece input).1).length ≤ bufferSize

section
variable {b : LineBuf} {heap : Heap} {input buf s L rest : Str} {f : Fill} {n d : Nat} {g : Got}

/-! ## the call of `getline` -/

theorem LineBuf.Ok.start (heap : Heap) : (LineBuf.start heap).Ok := ⟨Or.inl ⟨rfl, rfl⟩, 0, rfl⟩

theorem LineBuf.Ok.two_le (hb : b.Ok) : 2 ≤ firstCapacity b.max := by
  obtain ⟨j, hj⟩ := hb.grown
  have := Nat.mul_le_mul_left bufferSize (Nat.one_le_two_pow (n := j))
  unfold bufferSize at this hj
  omega

theorem getlineAt_ok (hb : b.Ok) (hr : b.Room input) :
    ∃ g, getlineAt b.heap b.line b.max input = .ok g ∧ Returned input (b.piece input) g := by
  rcases getlineAt_first hb.supplied input with ⟨hline, hbuf, -⟩ | ⟨line, -, hcall, hlen, h2, h32⟩
  · exact absurd hbuf (hr.first hline)
  · rw [hcall]
    exact getlineAt_room b.heap input hlen h2 h32 hr.more hr.small

theorem getlineAt_error (hb : b.Ok) (hr : ¬ b.Room input) :
    ∃ e, getlineAt b.heap b.line b.max input = .error e := by
  rcases getlineAt_first hb.supplied input with ⟨-, -, he⟩ | ⟨line, hfirst, hcall, hlen, h2, h32⟩
  · exact ⟨_, he⟩
  · rw [hcall]
    rcases getlineAt_cases b.heap input hlen h2 h32 with ⟨g, -, hret, href⟩ | ⟨he, -⟩ | ⟨he, -⟩
    · exact absurd ⟨hfirst, href, hret.n ▸ hret.lt⟩ hr
    · exact ⟨_, he⟩
    · exact ⟨_, he⟩

theorem asInt_count (hb : b.Ok) (hret : Returned input (b.piece input) g) :
    asInt g.count = g.count := by
  obtain ⟨i, hi⟩ := hb.grown
  obtain ⟨j, hj⟩ := (Fill.start (firstCapacity b.max)).scan_n input
  have hn : g.n = 2 ^ (7 + i + j) := by
    rw [hret.n, Nat.pow_add, Nat.pow_add]
    show (b.piece input).2.n = bufferSize * 2 ^ i * 2 ^ j
    rw [← hi]
    exact hj
  have hlt : 2 ^ (7 + i + j) < 2 ^ 32 := hn ▸ hret.lt
  have hle : 2 ^ (7 + i + j) ≤ 2 ^ 31 :=
    Nat.pow_le_pow_right (by decide)
      (Nat.le_of_lt_succ ((Nat.pow_lt_pow_iff_right (by decide)).mp hlt))
  obtain ⟨hcount, -⟩ := List.getElem?_eq_some_iff.mp hret.placed.nul
  rw [hret.placed.block, hn] at hcount
  exact if_pos (hcount.trans_le hle)

/-! ## the NUL for the last character -/

theorem cstr_of_placed (hp : g.Placed) : cstr g.buf = cstr g.text := by
  obtain ⟨hlt, hget⟩ := List.getElem?_eq_some_iff.mp hp.nul
  have hdrop : g.buf.drop g.count = '\x00' :: g.buf.drop (g.count + 1) := by
    rw [List.drop_eq_getElem_cons hlt, hget]
  have hcat : g.text ++ g.buf.drop g.count = g.buf := List.take_append_drop _ _
  rw [← hcat, hdrop, cstr_append]

theorem store_last (hne : cstr buf ≠ []) :
    ∃ line, Ulib.store buf (lastIndex (cstr buf).length) '\x00' = .ok line ∧
      line.length = buf.length ∧ cstr line = (cstr buf).dropLast := by
  have hnul : '\x00' ∉ cstr buf := by
    intro h
    exact absurd (List.mem_takeWhile_imp h) (by decide)
  obtain ⟨t, ht⟩ : cstr buf <+: buf := List.takeWhile_prefix _
  obtain ⟨d, x, hd⟩ := (List.eq_nil_or_concat (cstr buf)).resolve_left hne
  rw [List.concat_eq_append] at hd
  rw [hd] at hnul ht ⊢
  have hlen := congrArg List.length ht
  rw [List.length_append, List.length_append, List.length_singleton] at hlen
  have hidx : lastIndex (d ++ [x]).length = d.length := by
    rw [lastIndex, List.length_append, List.length_singleton, if_neg (Nat.succ_ne_zero _)]
    exact Nat.add_sub_cancel _ _
  have hset : buf.set d.length '\x00' = d ++ '\x00' :: t := by
    rw [← ht, List.append_assoc, List.set_append_right _ _ (Nat.le_refl _), Nat.sub_self]
    rfl
  have hlt' : d.length < buf.length := by omega
  refine ⟨buf.set d.length '\x00', ?_, List.length_set, ?_⟩
  · unfold Ulib.store
    rw [hidx, if_pos hlt']
  · rw [hset, List.dropLast_concat, cstr_append]
    exact cstr_eq_self fun h => hnul (List.mem_append_left _ h)

/-- an empty string has no last character: `line_len - 1` is `UINT_MAX` -/
theorem store_outside (hnil : cstr buf = []) (hlt : buf.length < 2 ^ 32) :
    Ulib.store buf (lastIndex (cstr buf).length) '\x00' = .error .outside := by
  have hidx : ¬ lastIndex ([] : Str).length < buf.length := by
    rw [lastIndex, List.length_nil, if_pos rfl]
    omega
  unfold Ulib.store
  rw [hnil, if_neg hidx]

theorem cstr_ne_nil (hne : s ≠ []) (hnul : s.head? ≠ some '\x00') : cstr s ≠ [] := by
  obtain ⟨c, s, rfl⟩ := List.exists_cons_of_ne_nil hne
  have hc : c ≠ '\x00' := fun h => hnul (congrArg some h)
  unfold cstr
  rw [List.takeWhile_cons, if_pos (decide_eq_true hc)]
  exact List.cons_ne_nil _ _

/-! ## one line -/

structure LineBuf.Took (b : LineBuf) (input : Str) (g : Got) : Prop where
  text : cstr g.buf = (cstr (b.piece input).1).dropLast
  n : g.n = (b.piece input).2.n
  rest : g.rest = input.drop (b.piece input).1.length
  ok : (b.after g).Ok

theorem LineBuf.Ok.after (hb : b.Ok) (hret : Returned input (b.piece input) g)
    (hlen : buf.length = g.n) : (b.after { g with buf := buf }).Ok := by
  have hle : firstCapacity b.max ≤ g.n := by
    rw [hret.n]
    exact (Fill.start (firstCapacity b.max)).le_scan_n input
  have h2 := hb.two_le.trans hle
  refine ⟨Or.inr ⟨buf, rfl, hlen, h2, hret.lt⟩, ?_⟩
  obtain ⟨i, hi⟩ := hb.grown
  obtain ⟨j, hj⟩ := (Fill.start (firstCapacity b.max)).scan_n input
  refine ⟨i + j, ?_⟩
  show firstCapacity g.n = _
  rw [firstCapacity, if_neg (by omega), hret.n, Nat.pow_add, ← Nat.mul_assoc, ← hi]
  exact hj

theorem readLine_end (hb : b.Ok) (hr : b.Room input) (hnil : (b.piece input).1 = []) :
    readLine b input = .ok none := by
  obtain ⟨g, hg, hret⟩ := getlineAt_ok hb hr
  unfold readLine
  rw [hg]
  dsimp only
  rw [if_pos]
  rw [hret.count, hnil]
  decide

theorem readLine_got (hb : b.Ok) (hg : getlineAt b.heap b.line b.max input = .ok g)
    (hret : Returned input (b.piece input) g) (hne : (b.piece input).1 ≠ []) :
    readLine b input = match store g.buf (lastIndex (cstr g.buf).length) '\x00' with
      | .error _ => .error .line
      | .ok line => .ok (some { g with buf := line }) := by
  have hpos := List.length_pos_iff.mpr hne
  have hcount : ¬ asInt g.count ≤ 0 := by
    rw [asInt_count hb hret, hret.count]
    omega
  unfold readLine
  rw [hg]
  exact if_neg hcount

theorem readLine_took (hb : b.Ok) (hr : b.Room input) (hne : (b.piece input).1 ≠ [])
    (hnul : (b.piece input).1.head? ≠ some '\x00') :
    ∃ g, readLine b input = .ok (some g) ∧ b.Took input g := by
  obtain ⟨g, hg, hret⟩ := getlineAt_ok hb hr
  have htext : cstr g.buf = cstr (b.piece input).1 := by
    rw [cstr_of_placed hret.placed, hret.text]
  have hbuf : cstr g.buf ≠ [] := by
    rw [htext]
    exact cstr_ne_nil hne hnul
  obtain ⟨line, hstore, hlen, hline⟩ := store_last hbuf
  refine ⟨{ g with buf := line }, ?_, ?_⟩
  · rw [readLine_got hb hg hret hne, hstore]
  · exact ⟨hline.trans (congrArg List.dropLast htext), hret.n, hret.rest,
      hb.after hret (hlen.trans hret.placed.block)⟩

theorem readLine_nul (hb : b.Ok) (hr : b.Room input)
    (hnul : (b.piece input).1.head? = some '\x00') : readLine b input = .error .line := by
  obtain ⟨g, hg, hret⟩ := getlineAt_ok hb hr
  obtain ⟨s, hs⟩ := List.head?_eq_some_iff.mp hnul
  have htext : cstr g.buf = [] := by
    rw [cstr_of_placed hret.placed, hret.text, hs]
    rfl
  have hlt : g.buf.length < 2 ^ 32 := by
    rw [hret.placed.block]
    exact hret.lt
  rw [readLine_got hb hg hret (by rw [hs]; exact List.cons_ne_nil _ _), store_outside htext hlt]

theorem readLine_no_room (hb : b.Ok) (hr : ¬ b.Room input) : ∃ f, readLine b input = .error f := by
  obtain ⟨e, he⟩ := getlineAt_error hb hr
  refine ⟨.getline e, ?_⟩
  unfold readLine
  rw [he]

/-! ## the capacity -/

/-- how often `getline` doubles a block of size `n` for a piece: once for each `'\r'`, once for
the end of the file, and once for a line that fills the block up to its newline -/
def doublings (n : Nat) (raw : Str) : Nat :=
  if n < raw.length + 1 ∧ '\r' ∉ raw then 1
  else raw.count '\r' +
    if raw.getLast? = some '\n' ∨ raw.getLast? = some '\r' then 0 else 1

/-- `fgets` takes the size `n` of the block as an `int`, and `malloc` serves `d` doublings of it, which
stay below `2 ^ 32` -/
structure HeapRoom (heap : Heap) (n d : Nat) : Prop where
  int : n < 2 ^ 31
  uint : n * 2 ^ d < 2 ^ 32
  more : ¬ heap.Refuses n (n * 2 ^ d)

theorem put_of_cr (f : Fill) : f.put '\r' = ⟨f.n * 2, f.used + 1, true⟩ := by
  unfold Fill.put
  rw [if_neg (by decide), if_pos (Or.inl rfl)]

theorem put_of_room {c : Char} (hn : c ≠ '\n') (hr : c ≠ '\r') (hroom : f.used + 2 ≠ f.n) :
    f.put c = ⟨f.n, f.used + 1, false⟩ := by
  unfold Fill.put
  rw [if_neg hn, if_neg (not_or.mpr ⟨hr, hroom⟩)]

theorem foldl_fit (hn : '\n' ∉ L) (hroom : f.used + L.length + 2 ≤ f.n) :
    (L.foldl Fill.put f).n = f.n * 2 ^ L.count '\r' := by
  induction L generalizing f with
  | nil => exact (Nat.mul_one _).symm
  | cons c L ih =>
    rw [List.mem_cons, not_or] at hn
    rw [List.length_cons] at hroom
    rw [List.foldl_cons]
    by_cases hr : c = '\r'
    · subst hr
      rw [put_of_cr, ih hn.2 (by dsimp only; omega), List.count_cons_self, Nat.pow_succ',
        Nat.mul_assoc]
    · rw [put_of_room (Ne.symm hn.1) hr (by omega), ih hn.2 (by dsimp only; omega),
        List.count_cons_of_ne hr]

/-- a text of 127 characters: its last one is doubled for if no `'\r'` came before -/
theorem foldl_full (hn : '\n' ∉ L) (hlen : L.length + 1 = n) (hpos : 2 ≤ n) :
    (L.foldl Fill.put (.start n)).n = n * 2 ^ if '\r' ∈ L then L.count '\r' else 1 := by
  by_cases hr : '\r' ∈ L
  · obtain ⟨l, r, rfl, hl⟩ := List.eq_append_cons_of_mem hr
    rw [List.length_append, List.length_cons] at hlen
    simp only [List.mem_append, List.mem_cons, not_or] at hn
    have hfront : (l.foldl Fill.put (.start n)).n = n := by
      rw [foldl_fit hn.1 (show 0 + l.length + 2 ≤ n by omega), List.count_eq_zero.mpr hl]
      exact Nat.mul_one n
    have hused : (l.foldl Fill.put (.start n)).used = l.length :=
      (Fill.foldl_used hn.1).trans (Nat.zero_add _)
    rw [if_pos hr, List.foldl_append, List.foldl_cons, put_of_cr,
      foldl_fit hn.2.2 (by dsimp only; omega), List.count_append, List.count_cons_self,
      List.count_eq_zero.mpr hl, Nat.zero_add, Nat.pow_succ', ← Nat.mul_assoc, hfront]
  · obtain ⟨l, c, rfl⟩ := (List.eq_nil_or_concat L).resolve_left (by
      rintro rfl
      rw [List.length_nil] at hlen
      omega)
    rw [List.concat_eq_append] at hn hr hlen ⊢
    rw [List.length_append, List.length_singleton] at hlen
    simp only [List.mem_append, List.mem_singleton, not_or] at hn hr
    have hfront : (l.foldl Fill.put (.start n)).n = n := by
      rw [foldl_fit hn.1 (show 0 + l.length + 2 ≤ n by omega), List.count_eq_zero.mpr hr.1]
      exact Nat.mul_one n
    have hused : (l.foldl Fill.put (.start n)).used = l.length :=
      (Fill.foldl_used hn.1).trans (Nat.zero_add _)
    have hfull : (l.foldl Fill.put (.start n)).used + 2 = (l.foldl Fill.put (.start n)).n := by
      rw [hused, hfront]
      omega
    rw [if_neg (by simp [hr]), List.foldl_append, List.foldl_cons, List.foldl_nil, Fill.put,
      if_neg (Ne.symm hn.2), if_pos (Or.inr hfull), hfront]
    rfl

theorem doublings_line (hlen : L.length + 1 ≤ n) : doublings n (L ++ ['\n']) =
    if L.length + 1 = n ∧ '\r' ∉ L then 1 else L.count '\r' := by
  have hmem : '\r' ∈ L ++ ['\n'] ↔ '\r' ∈ L := by simp
  have hcount : (L ++ ['\n']).count '\r' = L.count '\r' := by
    rw [List.count_append]
    rfl
  have hlt : n < (L ++ ['\n']).length + 1 ↔ L.length + 1 = n := by
    rw [List.length_append, List.length_singleton]
    omega
  unfold doublings
  rw [if_pos (Or.inl List.getLast?_concat), hcount, Nat.add_zero]
  exact if_congr (and_congr hlt (not_congr hmem)) rfl rfl

theorem foldl_line (hn : '\n' ∉ L) (hlen : L.length + 1 ≤ n) (hpos : 2 ≤ n) :
    (L.foldl Fill.put (.start n)).n = n * 2 ^ doublings n (L ++ ['\n']) := by
  rw [doublings_line hlen]
  by_cases hfull : L.length + 1 = n
  · rw [foldl_full hn hfull hpos]
    by_cases hr : '\r' ∈ L
    · rw [if_pos hr, if_neg fun h => h.2 hr]
    · rw [if_neg hr, if_pos ⟨hfull, hr⟩]
  · rw [if_neg fun h => hfull h.1]
    exact foldl_fit hn (show 0 + L.length + 2 ≤ n by omega)

theorem foldl_n_le (h : s <+: L) : (s.foldl Fill.put f).n ≤ (L.foldl Fill.put f).n := by
  obtain ⟨t, rfl⟩ := h
  obtain ⟨d, hd⟩ := Fill.foldl_n (s.foldl Fill.put f) t
  rw [List.foldl_append, hd]
  exact Nat.le_mul_of_pos_right _ (Nat.two_pow_pos d)

theorem initial_of_line {c : Char} {t : Str} (hn : '\n' ∉ s) (h : L ++ '\n' :: rest = s ++ c :: t) :
    s <+: L := by
  rcases List.append_eq_append_iff.mp h with ⟨k, hk, hcons⟩ | ⟨k, hk, -⟩
  · cases k with
    | nil => exact ⟨[], by rw [hk, List.append_nil, List.append_nil]⟩
    | cons x k =>
      obtain ⟨rfl, -⟩ := List.cons.inj hcons
      exact absurd (hk ▸ List.mem_append_right L List.mem_cons_self) hn
  · exact ⟨k, hk.symm⟩

/-- `getline` stops inside of a line only with a capacity that is no `uint` -/
theorem stuck_n (hgrown : ∃ j, n = bufferSize * 2 ^ j) (hn : '\n' ∉ L)
    (hs : (L.foldl Fill.put (.start n)).Stuck) :
    L = [] ∧ 2 ^ 31 ≤ n ∨ 2 ^ 32 ≤ (L.foldl Fill.put (.start n)).n := by
  have hle := hs.2
  rw [Fill.foldl_used hn] at hle
  by_cases h0 : L = []
  · subst h0
    exact Or.inl ⟨rfl, hle⟩
  · obtain ⟨j, hj⟩ := hgrown
    obtain ⟨d, hd⟩ := Fill.foldl_n (.start n) L
    have hpos := List.length_pos_iff.mpr h0
    rw [hd] at hle ⊢
    have hpow : (Fill.start n).n * 2 ^ d = 2 ^ (7 + j + d) := by
      rw [Nat.pow_add, Nat.pow_add]
      show n * 2 ^ d = bufferSize * 2 ^ j * 2 ^ d
      rw [hj]
    rw [hpow] at hle ⊢
    refine Or.inr (Nat.pow_le_pow_right (by decide) ?_)
    by_contra hlt
    have := Nat.pow_le_pow_right (show 0 < 2 by decide) (show 7 + j + d ≤ 31 by omega)
    omega

/-- behind the last line of a file the capacity is doubled, unless it was at its last character -/
theorem eof_last (hn : '\n' ∉ L) (hne : L ≠ []) (hlen : L.length + 1 ≤ n) :
    (L.foldl Fill.put (.start n)).eof.n = n * 2 ^ doublings n L := by
  have hlast : L.getLast? ≠ some '\n' := fun h => hn (List.mem_of_getLast? h)
  have hd : doublings n L = L.count '\r' + if L.getLast? = some '\r' then 0 else 1 := by
    unfold doublings
    rw [if_neg fun h => absurd h.1 (by omega)]
    exact congrArg _ (if_congr (or_iff_right hlast) rfl rfl)
  rw [hd]
  obtain ⟨l, c, rfl⟩ := (List.eq_nil_or_concat L).resolve_left hne
  rw [List.concat_eq_append] at hn hlen ⊢
  rw [List.length_append, List.length_singleton] at hlen
  simp only [List.mem_append, List.mem_singleton, not_or] at hn
  have hfront := foldl_fit (f := .start n) hn.1 (show 0 + l.length + 2 ≤ n by omega)
  rw [List.foldl_append, List.foldl_cons, List.foldl_nil, List.getLast?_concat, List.count_append]
  generalize l.foldl Fill.put (.start n) = f at hfront
  by_cases hr : c = '\r'
  · subst hr
    rw [put_of_cr, if_pos rfl]
    show f.n * 2 = n * 2 ^ (l.count '\r' + 1)
    rw [hfront, Nat.mul_assoc, ← Nat.pow_succ]
    rfl
  · have hcount : [c].count '\r' = 0 := List.count_eq_zero.mpr (by simpa using Ne.symm hr)
    have hdouble : (f.put c).eof.n = f.n * 2 := by
      by_cases hfull : f.used + 2 = f.n
      · rw [Fill.put, if_neg (Ne.symm hn.2), if_pos (Or.inr hfull)]
        rfl
      · rw [put_of_room (Ne.symm hn.2) hr hfull]
        rfl
    rw [hdouble, hcount, if_neg fun h => hr (Option.some.inj h), hfront, Nat.mul_assoc,
      ← Nat.pow_succ]
    rfl

/-! ## the first line of a file -/

/-- `raw` is the first line of a file, with its newline, and `rest` the others; it is shorter than
`buf`, its newline not counted -/
inductive FirstLine : Str → Str → Prop
  | line {L : Str} (rest : Str) (hn : '\n' ∉ L) (hlen : L.length < bufferSize) :
      FirstLine (L ++ ['\n']) rest
  | last {L : Str} (hn : '\n' ∉ L) (hne : L ≠ []) (hlen : L.length < bufferSize) : FirstLine L []

/-- `getline` can read the line -/
structure LineBuf.Serves (b : LineBuf) (raw : Str) : Prop where
  first : b.line = none → b.heap.malloc 128 ≠ none
  room : HeapRoom b.heap (firstCapacity b.max) (doublings (firstCapacity b.max) raw)

/-- the line is read whole, or the capacity is no `int` at its start, or no `uint` -/
theorem FirstLine.scan {raw : Str} (h : FirstLine raw rest) (hgrown : ∃ j, n = bufferSize * 2 ^ j) :
    (((Fill.start n).scan (raw ++ rest)).1 = raw ∧
        ((Fill.start n).scan (raw ++ rest)).2.n = n * 2 ^ doublings n raw ∧ n < 2 ^ 31) ∨
      (((Fill.start n).scan (raw ++ rest)).1 = [] ∧ 2 ^ 31 ≤ n) ∨
      (2 ^ 32 ≤ ((Fill.start n).scan (raw ++ rest)).2.n ∧ 2 ^ 32 ≤ n * 2 ^ doublings n raw) := by
  have hn2 : bufferSize ≤ n := by
    obtain ⟨j, rfl⟩ := hgrown
    exact Nat.le_mul_of_pos_right _ (Nat.two_pow_pos j)
  have htwo : 2 ≤ n := (show 2 ≤ bufferSize by decide).trans hn2
  have hok : (Fill.start n).Ok := .start htwo
  have hint : ∀ {s : Str}, s ≠ [] → (Fill.start n).Passes s → n < 2 ^ 31 := by
    intro s hne hp
    obtain ⟨c, s, rfl⟩ := List.exists_cons_of_ne_nil hne
    exact hp [] c s rfl
  cases h with
  | @line L _ hn hlen =>
    have hcat : L ++ ['\n'] ++ rest = L ++ '\n' :: rest := List.append_assoc _ _ _
    rw [hcat]
    generalize hr : (Fill.start n).scan (L ++ '\n' :: rest) = r
    cases hr ▸ Fill.scan_cases hok (L ++ '\n' :: rest) with
    | line M t hin hnM hp hr' =>
      obtain ⟨rfl, rfl⟩ := line_inj hn hnM hin
      refine Or.inl ⟨by rw [hr'], ?_, hint (by simp) hp⟩
      rw [hr']
      exact foldl_line hn (by omega) htwo
    | last hnl => exact absurd (List.mem_append_right L List.mem_cons_self) hnl
    | stuck M c t hin hnM hs hr' =>
      rw [hr']
      refine Or.inr ((stuck_n hgrown hnM hs).imp_right fun hle => ⟨hle, ?_⟩)
      rw [← foldl_line hn (by omega) htwo]
      exact hle.trans (foldl_n_le (initial_of_line hnM hin))
  | last hn hne hlen =>
    rw [List.append_nil]
    generalize hr : (Fill.start n).scan raw = r
    cases hr ▸ Fill.scan_cases hok raw with
    | line M t hin =>
      rw [hin] at hn
      exact absurd (List.mem_append_right M List.mem_cons_self) hn
    | last _ hp hr' =>
      refine Or.inl ⟨by rw [hr'], ?_, hint hne hp⟩
      rw [hr']
      exact eof_last hn hne (by omega)
    | stuck M c t hin hnM hs hr' =>
      rw [hr']
      refine Or.inr ((stuck_n hgrown hnM hs).imp_right fun hle => ⟨hle, ?_⟩)
      rw [← eof_last hn hne (by omega), hin, List.foldl_append]
      exact hle.trans (Fill.le_final _ (c :: t))

theorem FirstLine.ne_nil {raw : Str} (h : FirstLine raw rest) : raw ≠ [] := by
  cases h with
  | line => exact List.append_ne_nil_of_right_ne_nil _ (List.cons_ne_nil _ _)
  | last _ hne _ => exact hne

theorem FirstLine.length_le {raw : Str} (h : FirstLine raw rest) : raw.length ≤ bufferSize := by
  cases h with
  | line _ _ hlen =>
    rw [List.length_append, List.length_singleton]
    exact hlen
  | last _ _ hlen => exact Nat.le_of_lt hlen

/-- with its memory, `getline` reads the line or nothing -/
theorem FirstLine.piece {raw : Str} (h : FirstLine raw rest) (hb : b.Ok)
    (hroom : b.Room (raw ++ rest)) (hne : (b.piece (raw ++ rest)).1 ≠ []) :
    (b.piece (raw ++ rest)).1 = raw ∧ (b.piece (raw ++ rest)).2.n =
      firstCapacity b.max * 2 ^ doublings (firstCapacity b.max) raw := by
  have hscan : _ ∨ _ := h.scan hb.grown
  rcases hscan with ⟨hpiece, hn, -⟩ | ⟨hnil, -⟩ | ⟨hlarge, -⟩
  · exact ⟨hpiece, hn⟩
  · exact absurd hnil hne
  · exact absurd hroom.small (Nat.not_lt.mpr hlarge)

/-- `getline` reads the line, and has its memory, just when it is served -/
theorem FirstLine.room_iff {raw : Str} (h : FirstLine raw rest) (hb : b.Ok) :
    b.Room (raw ++ rest) ∧ (b.piece (raw ++ rest)).1 = raw ↔ b.Serves raw := by
  have hscan : _ ∨ _ := h.scan hb.grown
  constructor
  · rintro ⟨⟨hfirst, hmore, hsmall⟩, hpiece⟩
    rcases hscan with ⟨-, hn, hint⟩ | ⟨hnil, -⟩ | ⟨hlarge, -⟩
    · refine ⟨hfirst, hint, ?_, ?_⟩
      · rw [← hn]
        exact hsmall
      · rw [← hn]
        exact hmore
    · exact absurd (hpiece.symm.trans hnil) h.ne_nil
    · exact absurd hsmall (Nat.not_lt.mpr hlarge)
  · rintro ⟨hfirst, hint, huint, hmore⟩
    rcases hscan with ⟨hpiece, hn, -⟩ | ⟨-, hle⟩ | ⟨-, hlarge⟩
    · rw [← hn] at huint hmore
      exact ⟨⟨hfirst, hmore, huint⟩, hpiece⟩
    · exact absurd hint (Nat.not_lt.mpr hle)
    · exact absurd huint (Nat.not_lt.mpr hlarge)

/-- `main` reads a line that is served, and no other one -/
theorem readLine_first {raw : Str} (h : FirstLine raw rest) (hb : b.Ok) (h0 : '\x00' ∉ raw) :
    (b.Serves raw ∧ ∃ g, readLine b (raw ++ rest) = .ok (some g) ∧ cstr g.buf = raw.dropLast ∧
        g.n = firstCapacity b.max * 2 ^ doublings (firstCapacity b.max) raw ∧ g.rest = rest ∧
        (b.after g).Ok) ∨
      (¬ b.Serves raw ∧ ∀ g, readLine b (raw ++ rest) ≠ .ok (some g)) := by
  by_cases hs : b.Serves raw
  · obtain ⟨hroom, hpiece⟩ := (h.room_iff hb).mpr hs
    have hnul : raw.head? ≠ some '\x00' := fun he => h0 (List.mem_of_head? he)
    obtain ⟨g, hg, htook⟩ := readLine_took hb hroom (by rw [hpiece]; exact h.ne_nil)
      (by rw [hpiece]; exact hnul)
    refine Or.inl ⟨hs, g, hg, ?_, ?_, ?_, htook.ok⟩
    · rw [htook.text, hpiece, cstr_eq_self h0]
    · rw [htook.n]
      exact (h.piece hb hroom (by rw [hpiece]; exact h.ne_nil)).2
    · rw [htook.rest, hpiece, List.drop_left]
  · refine Or.inr ⟨hs, fun g hg => ?_⟩
    by_cases hroom : b.Room (raw ++ rest)
    · by_cases hnil : (b.piece (raw ++ rest)).1 = []
      · exact absurd ((readLine_end hb hroom hnil).symm.trans hg) nofun
      · exact hs ((h.room_iff hb).mp ⟨hroom, (h.piece hb hroom hnil).1⟩)
    · obtain ⟨f, hf⟩ := readLine_no_room hb hroom
      exact absurd (hf.symm.trans hg) nofun

end

end Boogsh
