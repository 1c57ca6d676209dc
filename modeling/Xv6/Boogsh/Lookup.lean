import Xv6.Boogsh.Journal
import Xv6.Boogsh.Window

/-!
# What `!!` and `!n` look up

`repeat_history` takes the slot of the command number: one behind the last command, as long as the
numbers fit an `int`.  `search_by_num` looks for the number that `atoi` makes of the digits and of
what was on the stack behind them.
-/

namespace Boogsh
open Ulib Lib

/-! ## `!!` -/

/-- a command that `!!` hands to `choose_cmd`: its slot, its text and what is in the buffer then -/
structure Repeated where
  slot : Int
  command : Option Str
  buf : Option Str

/-- `repeat_history`, `edit` being what `choose_cmd` makes of a text; `none` is the message that there
is no command -/
def Table.repeatHistory (edit : Str → Str) (t : Table) : Option Repeated :=
  if t.totalCount = 0 then none
  else
    let slot := (t.totalCount - 1).toInt
    let command := if 0 ≤ slot then t.text (t.pairs slot.toNat).command else none
    some ⟨slot, command, command.map edit⟩

/-- the last command is repeated, and the slot is its slot; without a command there is a message -/
def RepeatsLast (edit : Str → Str) (cs : List (Str × Int)) (t : Table) : Prop :=
  match cs.getLast?, t.repeatHistory edit with
  | none, r => r = none
  | some _, none => False
  | some c, some r => r.slot = t.count - 1 ∧ r.command = some c.1 ∧ r.buf = some (edit c.1)

/-- `!!` works when `total_count` has come round to 100, and else never -/
theorem repeat_iff (pairs : Nat → Pair) (m : Nat) (text : Nat → Option Str) (edit : Str → Str)
    (cs : List (Str × Int)) (hcs : ∀ c ∈ cs, validCmd c.1 = true) :
    RepeatsLast edit cs ((Table.initHistory pairs m text).addAll cs) ↔
      100 ≤ cs.length ∧ cs.length % 2 ^ 32 = 99 := by
  have h : Loaded m cs ((Table.initHistory pairs m text).addAll cs) :=
    (Loaded.init pairs m text).addAll hcs
  generalize (Table.initHistory pairs m text).addAll cs = t at h
  have hc := h.count
  have hsub : t.totalCount - 1 = BitVec.ofNat 32 cs.length := by
    rw [h.total, BitVec.ofNat_add]
    exact BitVec.add_sub_cancel _ _
  have hnat : (BitVec.ofNat 32 cs.length).toNat = cs.length % 2 ^ 32 := BitVec.toNat_ofNat ..
  have hzero : t.totalCount = 0 ↔ (cs.length + 1) % 2 ^ 32 = 0 := by
    rw [h.total, ← BitVec.toNat_inj, BitVec.toNat_ofNat]
    rfl
  unfold RepeatsLast Table.repeatHistory
  cases hlast : cs.getLast? with
  | none =>
    rw [List.getLast?_eq_none_iff] at hlast
    subst hlast
    rw [if_neg (fun h0 => absurd (hzero.mp h0) (by decide))]
    exact iff_of_false nofun (by decide)
  | some c =>
    have hpos : 0 < cs.length := List.length_pos_iff.mpr (by
      rintro rfl
      exact absurd hlast nofun)
    by_cases h0 : t.totalCount = 0
    · rw [if_pos h0]
      have h1 := hzero.mp h0
      exact iff_of_false nofun (by omega)
    · rw [if_neg h0, hsub]
      dsimp only
      have hint := BitVec.toInt_eq_toNat_cond (BitVec.ofNat 32 cs.length)
      rw [hnat] at hint
      constructor
      · rintro ⟨hslot, -⟩
        rw [hslot] at hint
        split at hint
        · omega
        · omega
      · rintro ⟨hge, hmod⟩
        rw [hmod, if_pos (by decide)] at hint
        have hcount : t.count = 100 := by omega
        have hget : cs[cs.length - t.count + 99]? = some c := by
          rw [List.getLast?_eq_getElem?] at hlast
          rw [hcount, show cs.length - 100 + 99 = cs.length - 1 by omega]
          exact hlast
        have hlive : t.text (t.pairs 99).command = some c.1 := by
          rw [h.pair 99 c (by omega) hget]
          exact h.live _ c (by omega) hget
        have hcommand : (if 0 ≤ (BitVec.ofNat 32 cs.length).toInt then
            t.text (t.pairs (BitVec.ofNat 32 cs.length).toInt.toNat).command else none) =
              some c.1 := by
          rw [hint, if_pos (by decide)]
          exact hlive
        rw [hcommand, hint, hcount]
        exact ⟨rfl, rfl, rfl⟩

/-- after `2 ^ 32 + 99` commands `!!` works, and after the first one slot 1 is read, which was never
filled -/
theorem repeat_after_ls : RepeatsLast id (List.replicate 4294967395 ("ls".toList, 0))
    ((Table.initHistory (fun _ => ⟨0, 0, 0⟩) 7 (fun _ => none)).addAll
      (List.replicate 4294967395 ("ls".toList, 0))) ∧
    ¬ RepeatsLast id [("ls".toList, 0)]
      ((Table.initHistory (fun _ => ⟨0, 0, 0⟩) 7 (fun _ => none)).addAll [("ls".toList, 0)]) := by
  have hvalid : ∀ c ∈ List.replicate 4294967395 (("ls".toList : Str), (0 : Int)),
      validCmd c.1 = true := by
    intro c hc
    rw [List.eq_of_mem_replicate hc]
    decide
  rw [repeat_iff (fun _ => ⟨0, 0, 0⟩) 7 (fun _ => none) id _ hvalid, List.length_replicate,
    repeat_iff (fun _ => ⟨0, 0, 0⟩) 7 (fun _ => none) id [("ls".toList, 0)] (by decide)]
  decide

/-- before the first command `!!` gives no message -/
theorem repeat_of_nothing : ¬ ∀ (pairs : Nat → Pair) (m : Nat) (text : Nat → Option Str)
    (edit : Str → Str) (cs : List (Str × Int)), (∀ c ∈ cs, validCmd c.1 = true) →
    RepeatsLast edit cs ((Table.initHistory pairs m text).addAll cs) := by
  intro hall
  have h := hall (fun _ => ⟨0, 0, 0⟩) 0 (fun _ => none) id [] nofun
  exact absurd (show some _ = none from h) nofun

/-! ## `!n` -/

/-- `!` with the digits `d` looks for the number that `d` denotes: it replays the entry with this
number, and where there is none, it fails and changes nothing -/
structure LooksUp (s : Shell) (env : Env) (status : Int) (d : Str) : Prop where
  number : atoi (d ++ env.stack) = numeral d
  found : ∀ i e, s.hist.pairs[i]? = some e → e.val % 2 ^ 32 = numeral d →
    chooseCmd s.scripting env (s.hist.pairs.length + 1) s.hist status ('!' :: d) =
      (chooseCmd s.scripting env s.hist.pairs.length s.hist status e.command).map (fun r =>
        { r with hist := setCommand r.hist i r.text, returned := true })
  missing : (∀ e ∈ s.hist.pairs, e.val % 2 ^ 32 ≠ numeral d) →
    chooseCmd s.scripting env (s.hist.pairs.length + 1) s.hist status ('!' :: d) =
      some ⟨'!' :: d, s.hist, .nothing, 1, true⟩

/-- the digits on the stack behind `d`, if there are any, do not change the number in an `int` -/
def SameNumber (d stack : Str) : Prop :=
  let r := stack.takeWhile isDigit
  (numeral d * (10 ^ r.length - 1) + numeral r) % 2 ^ 32 = 0

/-- the entries have the last numbers -/
def Numbered (h : History) : Prop :=
  ∃ n, h.totalCount = n + 1 ∧ h.pairs.map Entry.val = (List.range' 1 n).rtake 100

section
variable {s t : Shell} {l : List Line} {d stack : Str} {h : History} {i j : Nat} {e e' : Entry}

theorem numeral_append (d r : Str) : numeral (d ++ r) = numeral d * 10 ^ r.length + numeral r := by
  unfold numeral
  rw [List.foldl_append]
  induction r using List.reverseRecOn with
  | nil => simp
  | append_singleton r c ih =>
    rw [List.foldl_append, List.foldl_append, List.foldl_cons, List.foldl_cons, List.foldl_nil,
      List.foldl_nil, ih, List.length_append, List.length_singleton, Nat.pow_succ,
      Nat.add_mul, Nat.mul_assoc, Nat.add_assoc]

theorem atoi_eq_iff (hd : ∀ c ∈ d, isDigit c = true) (hfit : numeral d < 2 ^ 31) :
    atoi (d ++ stack) = numeral d ↔ SameNumber d stack := by
  have hpow : 0 < 10 ^ (stack.takeWhile isDigit).length := Nat.pow_pos (by decide)
  have hsplit : numeral d * 10 ^ (stack.takeWhile isDigit).length =
      numeral d + numeral d * (10 ^ (stack.takeWhile isDigit).length - 1) := by
    rw [Nat.mul_sub, Nat.mul_one, Nat.add_sub_cancel' (Nat.le_mul_of_pos_right _ hpow)]
  unfold SameNumber
  rw [atoi_eq, List.takeWhile_append_of_pos hd, numeral_append, hsplit, Nat.add_assoc]
  dsimp only
  omega

/-! ## numbers in the history -/

theorem Numbered.step (hn : NoSearch s.hist) (h : Numbered s.hist) {x : Line} (hx : Step s x t) :
    Numbered t.hist := by
  obtain ⟨n, hn1, hn2⟩ := h
  obtain ⟨buf, r, -, hr, hcase⟩ := step_cases hx
  have hch := chosen_line _ hn hr
  have hvals : r.hist.pairs.map Entry.val = (List.range' 1 n).rtake 100 := by
    rw [← hn2]
    have h1 := congrArg (List.map Prod.snd) hch.marks
    rw [List.map_map, List.map_map] at h1
    exact h1
  rcases hcase with ⟨-, -, ht⟩ | ⟨-, ht⟩
  · refine ⟨n + 1, ?_, ?_⟩
    · rw [ht, hch.total, hn1]
    · rw [ht, map_slide, hvals, slide_rtake (by decide), hch.total, hn1, List.range'_1_concat,
        Nat.add_comm 1]
  · refine ⟨n, ?_, ?_⟩
    · rw [ht, hch.total, hn1]
    · rw [ht]
      exact hvals

theorem numbered_of_run {scripting : Bool} (hrun : Run Step (.start scripting) l s) :
    Numbered s.hist := by
  have hinv : NoSearch s.hist ∧ Numbered s.hist := by
    refine hrun.invariant (I := fun s => NoSearch s.hist ∧ Numbered s.hist)
      (fun s x t h hx => ⟨h.1.step hx, h.2.step h.1 hx⟩) ⟨nofun, 0, rfl, rfl⟩
  exact hinv.2

/-- in the window a number, as an `int`, is there once -/
theorem Numbered.unique (hn : Numbered h) (hi : h.pairs[i]? = some e) (hj : h.pairs[j]? = some e')
    (he : e.val % 2 ^ 32 = e'.val % 2 ^ 32) : i = j := by
  obtain ⟨n, -, hv⟩ := hn
  have hval : ∀ {k x}, h.pairs[k]? = some x → k < min 100 n ∧ x.val = 1 + (n - 100 + k) := by
    intro k x hk
    have h1 : ((List.range' 1 n).rtake 100)[k]? = some x.val := by
      rw [← hv, List.getElem?_map, hk]
      rfl
    have hlt : k < ((List.range' 1 n).rtake 100).length := (List.getElem?_eq_some_iff.mp h1).1
    rw [rtake_getElem?, List.length_range'] at h1
    obtain ⟨hr, hx⟩ := List.getElem?_eq_some_iff.mp h1
    rw [List.getElem_range'] at hx
    rw [rtake_length, List.length_range'] at hlt
    exact ⟨hlt, by omega⟩
  obtain ⟨hi1, hi2⟩ := hval hi
  obtain ⟨hj1, hj2⟩ := hval hj
  omega

/-! ## the search -/

theorem findLast_unique {p : Entry → Bool} {l : List Entry} (hi : l[i]? = some e) (hp : p e = true)
    (hu : ∀ j x, l[j]? = some x → p x = true → j = i) : findLast p l 0 none = some i := by
  induction l using List.reverseRecOn with
  | nil => exact absurd hi (by simp)
  | append_singleton l x ih =>
    rw [findLast_concat]
    by_cases hx : p x = true
    · rw [if_pos hx, hu l.length x List.getElem?_concat_length hx, Nat.zero_add]
    · have hlt : i < l.length := by
        by_contra hge
        have hle := (List.getElem?_eq_some_iff.mp hi).1
        rw [List.length_append, List.length_singleton] at hle
        obtain rfl : i = l.length := by omega
        rw [List.getElem?_concat_length] at hi
        exact hx (Option.some.inj hi ▸ hp)
      rw [if_neg hx]
      rw [List.getElem?_append_left hlt] at hi
      refine ih hi (fun j y hj => hu j y ?_)
      rw [List.getElem?_append_left (List.getElem?_eq_some_iff.mp hj).1]
      exact hj

theorem findLast_none {p : Entry → Bool} {l : List Entry} (h : ∀ x ∈ l, p x = false) :
    findLast p l 0 none = none := by
  induction l using List.reverseRecOn with
  | nil => rfl
  | append_singleton l x ih =>
    rw [findLast_concat, h x (List.mem_append_right _ List.mem_cons_self), if_neg nofun]
    exact ih (fun y hy => h y (List.mem_append_left _ hy))

theorem chooseHead_number (hd : ∀ c ∈ d, isDigit c = true) (hne : d ≠ []) :
    chooseHead ('!' :: d) = some ('!' :: d, some .searchByNum, false) := by
  -- the last character is a digit, so nothing is cut off
  have hlast : ∀ a, isDigit a = false → ('!' :: d).getLast? ≠ some a := by
    intro a ha hl
    rw [List.getLast?_cons_of_ne_nil hne] at hl
    exact absurd (hd a (List.mem_of_getLast? hl)) (by rw [ha]; exact Bool.false_ne_true)
  have hchop : chopNewline ('!' :: d) = '!' :: d := if_neg (hlast '\n' rfl)
  have hkind : builtIn ('!' :: d) = some .searchByNum := by
    cases d with
    | nil => exact absurd rfl hne
    | cons c r =>
      have hc := hd c List.mem_cons_self
      have hx : c ≠ '!' := by
        rintro rfl
        exact absurd hc (by decide)
      have e : builtIn ('!' :: c :: r) = searchKind (some c) := by simp [builtIn, hx]
      rw [e]
      exact if_pos hc
  rw [chooseHead_of_not_cd (by rfl), hchop, if_neg (List.length_pos_of_mem List.mem_cons_self).ne',
    if_neg (hlast '&' rfl), hkind]

/-- `!` with digits looks up their number, and no other, just when the stack does not change it -/
theorem number_iff {scripting : Bool} (hrun : Run Step (.start scripting) l s) (env : Env)
    (status : Int) (hd : ∀ c ∈ d, isDigit c = true) (hne : d ≠ []) (hfit : numeral d < 2 ^ 31) :
    LooksUp s env status d ↔ SameNumber d env.stack := by
  have hnum := numbered_of_run hrun
  have hhead := chooseHead_number hd hne
  refine ⟨fun h => (atoi_eq_iff hd hfit).mp h.number, fun h => ?_⟩
  have hatoi := (atoi_eq_iff hd hfit).mpr h
  have hsearch : ∀ r, searchByNum s.hist env.stack ('!' :: d) = r →
      selects s.hist env ('!' :: d) = r := by
    intro r hr
    unfold selects
    rw [hhead]
    exact hr
  have hfind : searchByNum s.hist env.stack ('!' :: d) =
      findLast (fun e => e.val % 2 ^ 32 == numeral d) s.hist.pairs 0 none := by
    unfold searchByNum
    rw [List.drop_one, List.tail_cons, List.takeWhile_eq_self_iff.mpr hd, hatoi]
  refine ⟨hatoi, fun i e hi he => ?_, fun hno => ?_⟩
  · have hsel := hsearch _ (hfind.trans (findLast_unique hi (beq_iff_eq.mpr he) (fun j x hj hx =>
      hnum.unique hj hi ((beq_iff_eq.mp hx).trans he.symm))))
    exact chooseCmd_of_selects _ status hsel hi
  · have hsel := hsearch _ (hfind.trans (findLast_none (fun x hx =>
      beq_eq_false_iff_ne.mpr (hno x hx))))
    exact chooseCmd_of_no_entry _ status hsel hhead (Or.inl rfl)

end

/-- `ls` at the prompt, then `!1` with a blank behind the digit -/
theorem number_after_ls : ∃ s, Run Step (.start false) [.good "ls\n".toList] s ∧
    LooksUp s { Env.good with stack := " 7".toList } 0 ['1'] := by
  have hls : Step (.start false) (.good "ls\n".toList)
      ⟨false, ⟨[⟨"ls".toList, 1, 0, .program "ls".toList false⟩], 2⟩⟩ := by decide +kernel
  exact ⟨_, .single hls, (number_iff (.single hls) { Env.good with stack := " 7".toList } 0
    (fun c hc => List.mem_singleton.mp hc ▸ rfl) nofun (by decide)).mpr rfl⟩

/-- with a digit on the stack, `!1` does not find the first command -/
theorem number_of_stack : ¬ ∀ (scripting : Bool) (l : List Line) (s : Shell),
    Run Step (.start scripting) l s → ∀ (env : Env) (status : Int) (d : Str),
    (∀ c ∈ d, isDigit c = true) → d ≠ [] → numeral d < 2 ^ 31 → LooksUp s env status d := by
  intro hall
  have hls : Step (.start false) (.good "ls\n".toList)
      ⟨false, ⟨[⟨"ls".toList, 1, 0, .program "ls".toList false⟩], 2⟩⟩ := by decide +kernel
  have h := hall false _ _ (.single hls) { Env.good with stack := "0".toList } 0 ['1']
    (fun c hc => List.mem_singleton.mp hc ▸ rfl) nofun (by decide)
  have hfound := h.found 0 _ rfl rfl
  exact absurd hfound (by decide +kernel)

end Boogsh
