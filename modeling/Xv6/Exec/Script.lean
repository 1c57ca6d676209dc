import Xv6.Exec.Model

/-!
# The first line of a script

What `exec` takes from a file that starts with `"#!"`: the loop over `buf` in closed form, and the
files for which the nested call gets the path that the first line names.
-/

namespace Exec

/-- the bytes behind `"#!"`, up to the first newline or the end of the file -/
def line (content : Bytes) : Bytes := (content.drop 2).takeWhile (· ≠ byte '\n')

/-- without the spaces -/
def squeeze (s : Bytes) : Bytes := s.filter (· ≠ byte ' ')

def named (content : Bytes) : Bytes := cpath (squeeze (line content))

section
variable {content buf stack s t w : Bytes} {c : UInt8}

/-! ## the loop -/

theorem squeeze_append (s t : Bytes) : squeeze (s ++ t) = squeeze s ++ squeeze t := List.filter_append ..

theorem length_squeeze_le (s : Bytes) : (squeeze s).length ≤ s.length := List.length_filter_le _ _

theorem squeeze_eq_self (h : byte ' ' ∉ s) : squeeze s = s := by
  unfold squeeze
  rw [List.filter_eq_self]
  intro c hc
  have hne : c ≠ byte ' ' := fun e => h (by rwa [← e])
  simpa using hne

theorem length_squeeze_lt (h : byte ' ' ∈ s) : (squeeze s).length < s.length := by
  obtain ⟨a, b, rfl⟩ := List.append_of_mem h
  have ha := length_squeeze_le a
  have hb := length_squeeze_le b
  have hspace : squeeze (byte ' ' :: b) = squeeze b := List.filter_cons_of_neg (by simp)
  rw [squeeze_append, hspace, List.length_append, List.length_append, List.length_cons]
  omega

theorem takeWhile_append_of_mem (h : c ∈ s) (t : Bytes) :
    (s ++ t).takeWhile (· ≠ c) = s.takeWhile (· ≠ c) := by
  induction s with
  | nil => exact absurd h (by simp)
  | cons a s ih =>
    by_cases ha : a = c
    · rw [List.cons_append, List.takeWhile_cons_of_neg (by simpa using ha),
        List.takeWhile_cons_of_neg (by simpa using ha)]
    · have hs : c ∈ s := (List.mem_cons.mp h).resolve_left (Ne.symm ha)
      rw [List.cons_append, List.takeWhile_cons_of_pos (by simpa using ha),
        List.takeWhile_cons_of_pos (by simpa using ha), ih hs]

theorem takeWhile_append_of_notMem (h : c ∉ s) (t : Bytes) :
    (s ++ t).takeWhile (· ≠ c) = s ++ t.takeWhile (· ≠ c) := by
  induction s with
  | nil => rfl
  | cons a s ih =>
    rw [List.mem_cons, not_or] at h
    rw [List.cons_append, List.takeWhile_cons_of_pos (by simpa using Ne.symm h.1), ih h.2]
    rfl

theorem takeWhile_of_notMem (h : c ∉ s) : s.takeWhile (· ≠ c) = s := by
  have := takeWhile_append_of_notMem h []
  rw [List.append_nil] at this
  exact this.trans (List.append_nil s)

theorem length_takeWhile_lt (h : c ∈ s) : (s.takeWhile (· ≠ c)).length < s.length := by
  have hpre : s.takeWhile (· ≠ c) <+: s := List.takeWhile_prefix _
  refine lt_of_le_of_ne hpre.length_le (fun e => ?_)
  rw [← hpre.eq_of_length e] at h
  have hne := List.mem_takeWhile_imp h
  simp at hne

theorem cpath_append_of_mem (h : 0 ∈ s) (t : Bytes) : cpath (s ++ t) = cpath s :=
  takeWhile_append_of_mem h t

theorem cpath_append_of_notMem (h : 0 ∉ s) (t : Bytes) : cpath (s ++ t) = s ++ cpath t :=
  takeWhile_append_of_notMem h t

theorem cpath_append_zero (s t : Bytes) : cpath (s ++ 0 :: t) = cpath s := by
  by_cases h : 0 ∈ s
  · exact cpath_append_of_mem h _
  · rw [cpath_append_of_notMem h]
    exact (List.append_nil s).trans (takeWhile_of_notMem h).symm

theorem length_cpath_le (s : Bytes) : (cpath s).length ≤ s.length := (List.takeWhile_prefix _).length_le

theorem mem_squeeze (hc : c ≠ byte ' ') : c ∈ squeeze s ↔ c ∈ s := by
  unfold squeeze
  rw [List.mem_filter]
  exact and_iff_left (by simpa using hc)

/-- what the loop has done when it has taken `w` over -/
def taken (w : Bytes) : Copy :=
  ⟨w ++ List.replicate (maxpath - w.length) 0, w.length, List.range w.length⟩

theorem taken_set (h : w.length < maxpath) (c : UInt8) :
    { (taken w).set c with j := (taken w).j + 1 } = taken (w ++ [c]) := by
  obtain ⟨k, hk⟩ : ∃ k, maxpath - w.length = k + 1 := ⟨maxpath - w.length - 1, by omega⟩
  have hnext : maxpath - (w ++ [c]).length = k := by
    rw [List.length_append, List.length_singleton]
    omega
  have hset : (w ++ List.replicate (k + 1) 0).set w.length c = w ++ [c] ++ List.replicate k 0 := by
    rw [List.set_append_right _ _ le_rfl, Nat.sub_self, List.append_assoc]
    rfl
  unfold taken Copy.set
  rw [hnext, hk, List.length_append, List.length_singleton, List.range_succ]
  dsimp only
  rw [hset]

theorem copyLoop_taken (buf w : Bytes) (h : w.length + buf.length ≤ maxpath) :
    copyLoop buf (taken w) = taken (w ++ squeeze (buf.takeWhile (· ≠ byte '\n'))) := by
  induction buf generalizing w with
  | nil =>
    show taken w = taken (w ++ [])
    rw [List.append_nil]
  | cons c buf ih =>
    rw [List.length_cons] at h
    unfold copyLoop
    by_cases hnl : c = byte '\n'
    · rw [if_pos hnl, List.takeWhile_cons_of_neg (by simpa using hnl)]
      show taken w = taken (w ++ [])
      rw [List.append_nil]
    rw [if_neg hnl, List.takeWhile_cons_of_pos (by simpa using hnl)]
    by_cases hsp : c = byte ' '
    · rw [if_neg (fun h => h hsp), ih w (by omega)]
      unfold squeeze
      rw [List.filter_cons_of_neg (by simpa using hsp)]
    · rw [if_pos hsp, taken_set (by omega), ih _ (by rw [List.length_append, List.length_singleton]; omega)]
      unfold squeeze
      rw [List.filter_cons_of_pos (by simpa using hsp), List.append_assoc]
      rfl

/-- what is in `interpreter` at the end, and where was stored to -/
theorem copyInterpreter_eq (h : buf.length ≤ maxpath) :
    cpath (copyInterpreter buf).interpreter = cpath (squeeze (buf.takeWhile (· ≠ byte '\n'))) ∧
      (copyInterpreter buf).stores =
        List.range ((squeeze (buf.takeWhile (· ≠ byte '\n'))).length + 1) := by
  have hstart : Copy.start = taken [] := rfl
  have hle : (squeeze (buf.takeWhile (· ≠ byte '\n'))).length ≤ maxpath :=
    (length_squeeze_le _).trans ((List.takeWhile_prefix _).length_le.trans h)
  unfold copyInterpreter
  rw [hstart, copyLoop_taken buf [] (by rw [List.length_nil]; omega), List.nil_append]
  generalize squeeze (buf.takeWhile (· ≠ byte '\n')) = w at hle
  unfold taken Copy.set
  refine ⟨?_, List.range_succ.symm⟩
  dsimp only
  cases hk : maxpath - w.length with
  | zero =>
    rw [List.replicate_zero, List.append_nil, List.set_eq_of_length_le le_rfl]
  | succ k =>
    rw [List.set_append_right _ _ le_rfl, Nat.sub_self]
    exact cpath_append_zero w _

/-! ## the first line -/

/-- the part of the file that `buf` has room for -/
def window (content : Bytes) : Bytes := (content.drop 2).take maxpath

def leftover (content stack : Bytes) : Bytes :=
  (byte '#' :: byte '!' :: stack.drop 2).drop (window content).length

theorem readScript_eq (h : content.take 2 = [byte '#', byte '!']) (stack : Bytes) :
    readScript content stack = some (window content ++ leftover content stack) := by
  have h2 : readi content 0 2 = [byte '#', byte '!'] := by
    unfold readi
    rw [if_neg (by omega), List.drop_zero, h]
  have hlen : 2 ≤ content.length := by
    have := congrArg List.length h
    rw [List.length_take] at this
    simp at this
    omega
  have hwindow : readi content 2 maxpath = window content := by
    unfold readi window maxpath
    rw [if_neg (by omega)]
  unfold readScript
  rw [h2]
  show (if 2 = 2 then _ else _) = _
  rw [if_pos rfl, hwindow]
  rfl

theorem window_append_length (content : Bytes) (hstack : stack.length = maxpath) :
    (window content ++ leftover content stack).length = maxpath := by
  have hle : (window content).length ≤ maxpath := List.length_take_le _ _
  unfold leftover
  rw [List.length_append, List.length_drop, List.length_cons, List.length_cons, List.length_drop,
    hstack]
  unfold maxpath at *
  omega

/-- every store is inside of `interpreter`, and the nested call gets the path of the first line; there
is none when that path is too long -/
structure Obeys (content stack : Bytes) : Prop where
  stores : ∀ buf, readScript content stack = some buf →
    ∀ i ∈ (copyInterpreter buf).stores, i < maxpath
  path : script content stack =
    if maxpath ≤ (named content).length then none else some (named content)

def Sound (content : Bytes) : Prop :=
  byte '\n' ∈ window content ∨ (byte ' ' ∈ window content ∧ (0 ∈ window content ∨
    (maxpath ≤ (content.drop 2).length ∧ cpath (squeeze ((line content).drop maxpath)) = [])))

theorem obeys_iff (h : content.take 2 = [byte '#', byte '!']) (hstack : stack.length = maxpath) :
    Obeys content stack ↔
      (squeeze ((window content ++ leftover content stack).takeWhile (· ≠ byte '\n'))).length < maxpath ∧
        cpath (squeeze ((window content ++ leftover content stack).takeWhile (· ≠ byte '\n'))) =
          named content := by
  have hread := readScript_eq h stack
  obtain ⟨hpath, hstores⟩ := copyInterpreter_eq
    (le_of_eq (window_append_length content hstack))
  have hscript : script content stack = some (cpath (squeeze
      ((window content ++ leftover content stack).takeWhile (· ≠ byte '\n')))) := by
    unfold script
    rw [hread, Option.map_some, hpath]
  constructor
  · intro ho
    have hlast := ho.stores _ hread
    rw [hstores] at hlast
    have hlt := hlast _ (List.mem_range.mpr (Nat.lt_succ_self _))
    refine ⟨hlt, ?_⟩
    have hp := ho.path
    rw [hscript] at hp
    by_cases hlong : maxpath ≤ (named content).length
    · rw [if_pos hlong] at hp
      exact absurd hp nofun
    · rw [if_neg hlong] at hp
      exact Option.some.inj hp
  · rintro ⟨hlt, hp⟩
    refine ⟨fun buf hbuf i hi => ?_, ?_⟩
    · obtain rfl := Option.some.inj (hread.symm.trans hbuf)
      rw [hstores, List.mem_range] at hi
      omega
    · have hle := length_cpath_le
        (squeeze ((window content ++ leftover content stack).takeWhile (· ≠ byte '\n')))
      rw [hscript, hp]
      rw [hp] at hle
      rw [if_neg (by omega)]

theorem line_eq (h : byte '\n' ∉ window content) :
    line content = window content ++ ((content.drop 2).drop maxpath).takeWhile (· ≠ byte '\n') := by
  unfold line
  conv_lhs => rw [← List.take_append_drop maxpath (content.drop 2)]
  exact takeWhile_append_of_notMem h _

theorem line_drop (h : byte '\n' ∉ window content) (hlen : (window content).length = maxpath) :
    (line content).drop maxpath = ((content.drop 2).drop maxpath).takeWhile (· ≠ byte '\n') := by
  rw [line_eq h, ← hlen]
  exact List.drop_left

theorem obeys_of_sound (h : content.take 2 = [byte '#', byte '!']) (hs : Sound content)
    (hstack : stack.length = maxpath) : Obeys content stack := by
  have hbuf := window_append_length content hstack
  have hlen : (window content).length ≤ maxpath := List.length_take_le _ _
  rw [obeys_iff h hstack]
  by_cases hnl : byte '\n' ∈ window content
  · have hline : line content = (window content).takeWhile (· ≠ byte '\n') := by
      unfold line
      conv_lhs => rw [← List.take_append_drop maxpath (content.drop 2)]
      exact takeWhile_append_of_mem hnl _
    rw [takeWhile_append_of_mem hnl, ← hline]
    refine ⟨?_, rfl⟩
    have hlt := length_takeWhile_lt hnl
    rw [← hline] at hlt
    exact (length_squeeze_le _).trans_lt (hlt.trans_le hlen)
  obtain ⟨hsp, hrest⟩ := hs.resolve_left hnl
  have hsqueeze := length_squeeze_lt hsp
  rw [takeWhile_append_of_notMem hnl, squeeze_append]
  constructor
  · have htail : (squeeze ((leftover content stack).takeWhile (· ≠ byte '\n'))).length ≤
        (leftover content stack).length :=
      (length_squeeze_le _).trans (List.takeWhile_prefix _).length_le
    rw [List.length_append] at hbuf ⊢
    omega
  · unfold named
    rcases hrest with hzero | ⟨hfull, htail⟩
    · have hmem : 0 ∈ squeeze (window content) := (mem_squeeze (by decide)).mpr hzero
      rw [line_eq hnl, squeeze_append]
      rw [cpath_append_of_mem hmem, cpath_append_of_mem hmem]
    · have hw : (window content).length = maxpath := by
        unfold window
        rw [List.length_take]
        omega
      have hnone : leftover content stack = [] := by
        rw [List.length_append] at hbuf
        exact List.eq_nil_of_length_eq_zero (by omega)
      rw [line_drop hnl hw] at htail
      rw [hnone, line_eq hnl, squeeze_append]
      by_cases hzero : 0 ∈ squeeze (window content)
      · rw [cpath_append_of_mem hzero, cpath_append_of_mem hzero]
      · rw [cpath_append_of_notMem hzero, cpath_append_of_notMem hzero, htail]
        rfl

def letters : Bytes := List.replicate maxpath (byte 'a')

theorem mem_leftover_letters (hc : c ∈ leftover content letters) :
    c = byte '#' ∨ c = byte '!' ∨ c = byte 'a' := by
  have hmem := List.mem_of_mem_drop hc
  rw [List.mem_cons, List.mem_cons] at hmem
  refine hmem.imp_right (Or.imp_right (fun h => ?_))
  exact List.eq_of_mem_replicate (List.mem_of_mem_drop h)

theorem sound_of_obeys (h : content.take 2 = [byte '#', byte '!'])
    (ho : Obeys content letters) : Sound content := by
  have hstack : letters.length = maxpath := List.length_replicate ..
  have hbuf := window_append_length content hstack
  have hnot : ∀ b : UInt8, b ≠ byte '#' → b ≠ byte '!' → b ≠ byte 'a' →
      b ∉ leftover content letters := by
    intro b h1 h2 h3 hb
    rcases mem_leftover_letters hb with e | e | e
    · exact h1 e
    · exact h2 e
    · exact h3 e
  obtain ⟨hlt, hpath⟩ := (obeys_iff h hstack).mp ho
  by_cases hnl : byte '\n' ∈ window content
  · exact Or.inl hnl
  rw [takeWhile_append_of_notMem hnl, squeeze_append,
    takeWhile_of_notMem (hnot _ (by decide) (by decide) (by decide)),
    squeeze_eq_self (hnot _ (by decide) (by decide) (by decide))] at hlt hpath
  have hsp : byte ' ' ∈ window content := by
    by_contra hno
    rw [squeeze_eq_self hno] at hlt
    omega
  refine Or.inr ⟨hsp, ?_⟩
  by_cases hzero : 0 ∈ window content
  · exact Or.inl hzero
  have hz : 0 ∉ squeeze (window content) := fun hm => hzero ((mem_squeeze (by decide)).mp hm)
  -- what is left over of the stack is what the line has behind the window
  have htail : leftover content letters =
      cpath (squeeze (((content.drop 2).drop maxpath).takeWhile (· ≠ byte '\n'))) := by
    have hnul : cpath (leftover content letters) = leftover content letters :=
      takeWhile_of_notMem (hnot 0 (by decide) (by decide) (by decide))
    unfold named at hpath
    rw [cpath_append_of_notMem hz, hnul, line_eq hnl, squeeze_append,
      cpath_append_of_notMem hz] at hpath
    exact List.append_cancel_left hpath
  have hfull : maxpath ≤ (content.drop 2).length := by
    by_contra hshort
    have hend : (content.drop 2).drop maxpath = [] := List.drop_eq_nil_of_le (by omega)
    have hw : (window content).length = (content.drop 2).length := by
      unfold window
      rw [List.length_take]
      omega
    rw [hend] at htail
    rw [htail, List.length_append] at hbuf
    have h0 : (cpath (squeeze (([] : Bytes).takeWhile (· ≠ byte '\n')))).length = 0 := rfl
    omega
  have hw : (window content).length = maxpath := by
    unfold window
    rw [List.length_take]
    omega
  rw [List.length_append] at hbuf
  refine Or.inr ⟨hfull, ?_⟩
  rw [line_drop hnl hw, ← htail]
  exact List.eq_nil_of_length_eq_zero (by omega)

/-- for which files the nested call gets the path of the first line, whatever is on the stack -/
theorem interpreter_iff (h : content.take 2 = [byte '#', byte '!']) :
    (∀ stack : Bytes, stack.length = maxpath → Obeys content stack) ↔ Sound content :=
  ⟨fun hall => sound_of_obeys h (hall letters (List.length_replicate ..)),
    fun hs _ hstack => obeys_of_sound h hs hstack⟩

end

def unended : Bytes := [byte '#', byte '!', byte 'a']

def ended : Bytes := unended ++ [byte '\n']

theorem interpreter_ended : (∀ stack : Bytes, stack.length = maxpath → Obeys ended stack) ∧
    ¬ ∀ stack : Bytes, stack.length = maxpath → Obeys unended stack := by
  rw [@interpreter_iff ended rfl, @interpreter_iff unended rfl]
  unfold Sound
  decide

/-- the path goes on with what is on the stack -/
theorem interpreter_not_read : ¬ ∀ content stack : Bytes, content.take 2 = [byte '#', byte '!'] →
    stack.length = maxpath → Obeys content stack := by
  intro hall
  have hs := sound_of_obeys rfl (hall unended letters rfl (List.length_replicate ..))
  revert hs
  unfold Sound
  decide

end Exec
