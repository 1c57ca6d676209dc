import Xv6.Boogsh.Lookup
import Xv6.Ulib.Token

/-!
# What `!` with a prefix looks up

`search_by_cmd` copies each entry, ends the copy behind its first word, and counts the places where the
copy and the prefix agree.  It compares as many bytes as the prefix has, also behind the end of a shorter
copy: what is there makes no difference, but it has to be there.
-/

namespace Boogsh
open Ulib Lib

/-! ## the model -/

def strchr (s : Str) (c : Char) : Option Nat := s.findIdx? (· = c)

/-- `arg_cmd`, in its `BUFFER_SIZE` bytes -/
def argCmd (buf : Str) : Str := ((buf.drop 1).take bufferSize).takeWhile isLower

/-- the bytes from `match` on: the entry, cut behind its first word, its NUL and what is behind them up
to the end of the heap -/
def matchBytes (command behind : Str) : Str :=
  let m := command ++ '\x00' :: behind
  match strchr command ' ' with
  | some pos => m.set pos '\x00'
  | none =>
    match strchr command '\n' with
    | some pos => m.set pos '\x00'
    | none => m

/-- the loop over `ci`; `none` is a read behind the end of the heap -/
def matchLoop (n : Nat) : Str → Str → Nat → Option Bool
  | [], _, _ => some false
  | _ :: _, [], _ => none
  | a :: arg, b :: m, matchingChars =>
    let matchingChars := if a = b then matchingChars + 1 else matchingChars
    if matchingChars = n then some true else matchLoop n arg m matchingChars

/-- the loop over the entries, from entry `i` on -/
def entryLoop (arg : Str) (behind : Nat → Str) : List Entry → Nat → Option Nat → Option (Option Nat)
  | [], _, found => some found
  | e :: l, i, found =>
    match matchLoop arg.length arg (matchBytes e.command (behind i)) 0 with
    | none => none
    | some hit => entryLoop arg behind l (i + 1) (if hit then some i else found)

def foundCmd (behind : Nat → Str) (h : History) (buf : Str) : Option (Option Nat) :=
  entryLoop (argCmd buf) behind h.pairs 0 none

/-- `search_by_cmd`: the found text is run, and copied to the buffer -/
def replayCmd (scripting : Bool) (env : Env) (behind : Nat → Str) (fuel : Nat) (h : History)
    (status : Int) (buf : Str) : Option Result :=
  match foundCmd behind h buf with
  | none => none
  | some none => some ⟨buf, h, .nothing, 1, true⟩
  | some (some i) =>
    match h.pairs[i]? with
    | none => none
    | some e =>
      (chooseCmd scripting env fuel h status e.command).map (fun r =>
        { r with hist := setCommand r.hist i r.text, returned := true })

/-! ## what it has to do -/

/-- `e` is the last entry whose text starts with `p` -/
structure Latest (l : List Entry) (p : Str) (i : Nat) (e : Entry) : Prop where
  here : l[i]? = some e
  starts : p <+: e.command
  last : ∀ j e', i < j → l[j]? = some e' → ¬ p <+: e'.command

/-- `!` with the prefix `p` replays the last entry that starts with `p`; where there is none, it fails
and changes nothing -/
structure SearchesPrefix (scripting : Bool) (env : Env) (behind : Nat → Str) (fuel : Nat) (h : History)
    (status : Int) (p buf : Str) : Prop where
  found : ∀ i e, Latest h.pairs p i e → foundCmd behind h buf = some (some i) ∧
    replayCmd scripting env behind fuel h status buf =
      (chooseCmd scripting env fuel h status e.command).map (fun r =>
        { r with hist := setCommand r.hist i r.text, returned := true })
  missing : (∀ e ∈ h.pairs, ¬ p <+: e.command) → foundCmd behind h buf = some none ∧
    replayCmd scripting env behind fuel h status buf = some ⟨buf, h, .nothing, 1, true⟩

/-- the heap goes on behind the copy of each entry for as many bytes as the prefix has -/
def CopiesReach (behind : Nat → Str) (h : History) (p : Str) : Prop :=
  ∀ i e, h.pairs[i]? = some e → p.length ≤ e.command.length + 1 + (behind i).length

section
variable {arg m command rest p r buf : Str} {n k i : Nat} {behind : Nat → Str} {l : List Entry}
  {e : Entry} {found : Option Nat} {h : History}

/-! ## one entry -/

theorem matchBytes_length (command behind : Str) :
    (matchBytes command behind).length = command.length + 1 + behind.length := by
  have hm : (command ++ '\x00' :: behind).length = command.length + 1 + behind.length := by
    rw [List.length_append, List.length_cons]
    omega
  unfold matchBytes
  dsimp only
  split
  · rw [List.length_set, hm]
  · split
    · rw [List.length_set, hm]
    · exact hm

theorem prefix_set (hp : ∀ c ∈ p, isLower c = true) {x : Char} (hx : isLower x = false)
    (hi : ∃ y, m[i]? = some y ∧ isLower y = false) : p <+: m.set i x ↔ p <+: m := by
  obtain ⟨y, hy, hl⟩ := hi
  have hlt := (List.getElem?_eq_some_iff.mp hy).1
  have hshort : ∀ {m' : Str} {z : Char}, m'[i]? = some z → isLower z = false → p <+: m' →
      p.length ≤ i := by
    intro m' z hz hlz hpm
    by_contra hge
    have hget := List.prefix_iff_getElem?.mp hpm i (Nat.lt_of_not_le hge)
    rw [hz] at hget
    have hlow := hp _ (List.getElem_mem (Nat.lt_of_not_le hge))
    rw [← Option.some.inj hget, hlz] at hlow
    exact absurd hlow nofun
  have hsame : p.length ≤ i → (p <+: m.set i x ↔ p <+: m) := by
    intro hle
    rw [List.prefix_iff_eq_take, List.prefix_iff_eq_take, List.take_set_of_le hle]
  constructor
  · intro hset
    exact (hsame (hshort (List.getElem?_set_self hlt) hx hset)).mp hset
  · intro hm
    exact (hsame (hshort hy hl hm)).mpr hm

/-- the prefix is one of the copy when it is one of the entry -/
theorem prefix_matchBytes (hp : ∀ c ∈ p, isLower c = true) (command behind : Str) :
    p <+: matchBytes command behind ↔ p <+: command := by
  have hcat : p <+: command ++ '\x00' :: behind ↔ p <+: command := by
    constructor
    · intro h
      rcases List.prefix_or_prefix_of_prefix h (List.prefix_append command _) with h1 | ⟨t, rfl⟩
      · exact h1
      · cases t with
        | nil =>
          exact ⟨[], (List.append_nil _).trans (List.append_nil _)⟩
        | cons c t =>
          have hc := (List.cons_prefix_cons.mp ((List.prefix_append_right_inj command).mp h)).1
          have hlow := hp c (List.mem_append_right command List.mem_cons_self)
          rw [hc] at hlow
          exact absurd hlow (by decide)
    · exact fun h => h.trans (List.prefix_append command _)
  have hset : ∀ c pos, isLower c = false → strchr command c = some pos →
      (p <+: (command ++ '\x00' :: behind).set pos '\x00' ↔ p <+: command) := by
    intro c pos hc hpos
    obtain ⟨hlt, hget, -⟩ := List.findIdx?_eq_some_iff_getElem.mp hpos
    rw [prefix_set hp rfl, hcat]
    refine ⟨command[pos], ?_, ?_⟩
    · rw [List.getElem?_append_left hlt, List.getElem?_eq_getElem hlt]
    · rw [of_decide_eq_true hget]
      exact hc
  unfold matchBytes
  dsimp only
  split
  next pos hpos => exact hset ' ' pos rfl hpos
  next =>
    split
    next pos hpos => exact hset '\n' pos rfl hpos
    next => exact hcat

/-- with `k` places that agree: they all do and the rest too, or the loop does not find the entry -/
theorem matchLoop_eq (hne : arg ≠ []) (hk : k + arg.length ≤ n) : matchLoop n arg m k =
    if m.length < arg.length then none
    else some (decide (k + arg.length = n ∧ arg <+: m)) := by
  induction arg generalizing m k with
  | nil => exact absurd rfl hne
  | cons a arg ih =>
    cases m with
    | nil => exact (if_pos (Nat.succ_pos _)).symm
    | cons b m =>
      have hcons : (a :: arg <+: b :: m) ↔ a = b ∧ arg <+: m := List.cons_prefix_cons
      rw [List.length_cons] at hk
      rw [matchLoop, List.length_cons, List.length_cons]
      cases arg with
      | nil =>
        -- the last byte
        rw [List.length_nil] at hk ⊢
        rw [if_neg (Nat.not_lt.mpr (Nat.succ_le_succ (Nat.zero_le _)))]
        unfold matchLoop
        by_cases hab : a = b
        · rw [if_pos hab]
          by_cases hn : k + 1 = n
          · rw [if_pos hn, decide_eq_true ⟨hn, hcons.mpr ⟨hab, List.nil_prefix⟩⟩]
          · rw [if_neg hn, decide_eq_false fun h => hn h.1]
        · rw [if_neg hab, if_neg (by omega), decide_eq_false fun h => hab (hcons.mp h.2).1]
      | cons c arg =>
        have hpos : 0 < (c :: arg).length := Nat.succ_pos _
        generalize c :: arg = arg at ih hk hcons hpos ⊢
        have hne' : arg ≠ [] := List.ne_nil_of_length_pos hpos
        by_cases hab : a = b
        · have hsame : decide (k + (arg.length + 1) = n ∧ a :: arg <+: b :: m) =
              decide (k + 1 + arg.length = n ∧ arg <+: m) := by
            rw [decide_eq_decide, hcons, Nat.add_assoc, Nat.add_comm 1]
            exact and_congr_right fun _ => and_iff_right hab
          rw [if_pos hab, if_neg (by omega), ih hne' (by omega), hsame]
          simp only [Nat.succ_lt_succ_iff]
        · have hno : ¬ (k + (arg.length + 1) = n ∧ a :: arg <+: b :: m) :=
            fun h => hab (hcons.mp h.2).1
          have hno' : ¬ (k + arg.length = n ∧ arg <+: m) := by omega
          rw [if_neg hab, if_neg (by omega), ih hne' (by omega), decide_eq_false hno,
            decide_eq_false hno']
          simp only [Nat.succ_lt_succ_iff]

/-- an entry is found when it starts with the prefix, if the bytes are there -/
theorem matchLoop_entry (hp : ∀ c ∈ p, isLower c = true) (hne : p ≠ []) (command behind : Str) :
    matchLoop p.length p (matchBytes command behind) 0 =
      if command.length + 1 + behind.length < p.length then none
      else some (decide (p <+: command)) := by
  rw [matchLoop_eq hne (Nat.le_of_eq (Nat.zero_add _)), matchBytes_length]
  simp only [Nat.zero_add, true_and, prefix_matchBytes hp]

/-! ## all entries -/

theorem entryLoop_eq (hp : ∀ c ∈ p, isLower c = true) (hne : p ≠ [])
    (hread : ∀ j e, l[j]? = some e → p.length ≤ e.command.length + 1 + (behind (i + j)).length) :
    entryLoop p behind l i found = some (findLast (fun e => decide (p <+: e.command)) l i found) := by
  induction l generalizing i found with
  | nil => rfl
  | cons e l ih =>
    unfold entryLoop findLast
    have hhere : p.length ≤ e.command.length + 1 + (behind i).length := hread 0 e rfl
    rw [matchLoop_entry hp hne, if_neg (Nat.not_lt.mpr hhere)]
    dsimp only
    refine ih fun j e' he' => ?_
    have h1 := hread (j + 1) e' he'
    rwa [Nat.add_assoc i, Nat.add_comm 1]

theorem entryLoop_none (hp : ∀ c ∈ p, isLower c = true) (hne : p ≠ [])
    (hread : ∃ j e, l[j]? = some e ∧ e.command.length + 1 + (behind (i + j)).length < p.length) :
    entryLoop p behind l i found = none := by
  induction l generalizing i found with
  | nil =>
    obtain ⟨j, e, he, -⟩ := hread
    exact absurd he nofun
  | cons x l ih =>
    unfold entryLoop
    rw [matchLoop_entry hp hne]
    by_cases hx : x.command.length + 1 + (behind i).length < p.length
    · rw [if_pos hx]
    · rw [if_neg hx]
      dsimp only
      apply ih
      obtain ⟨j, e, he, hlt⟩ := hread
      cases j with
      | zero =>
        obtain rfl : x = e := Option.some.inj he
        exact absurd hlt hx
      | succ j => exact ⟨j, e, he, by rwa [Nat.add_assoc i, Nat.add_comm 1]⟩

theorem findLast_latest {P : Entry → Bool} (hi : l[i]? = some e) (hP : P e = true)
    (hlast : ∀ j e', i < j → l[j]? = some e' → P e' = false) : findLast P l 0 none = some i := by
  induction l using List.reverseRecOn with
  | nil => exact absurd hi nofun
  | append_singleton l x ih =>
    rw [findLast_concat]
    by_cases hil : i < l.length
    · rw [hlast l.length x hil List.getElem?_concat_length, if_neg nofun]
      rw [List.getElem?_append_left hil] at hi
      refine ih hi fun j e' hij he' => hlast j e' hij ?_
      rw [List.getElem?_append_left (List.getElem?_eq_some_iff.mp he').1]
      exact he'
    · have hle := (List.getElem?_eq_some_iff.mp hi).1
      rw [List.length_append, List.length_singleton] at hle
      obtain rfl : i = l.length := by omega
      rw [List.getElem?_concat_length] at hi
      obtain rfl := Option.some.inj hi
      rw [if_pos hP, Nat.zero_add]

theorem argCmd_eq (hp : ∀ c ∈ p, isLower c = true) (hr : ∀ c, r.head? = some c → isLower c = false)
    (hlen : ('!' :: (p ++ r)).length < bufferSize) : argCmd ('!' :: (p ++ r)) = p := by
  unfold argCmd
  rw [List.drop_one, List.tail_cons, List.take_of_length_le]
  · exact takeWhile_run hp hr
  · rw [List.length_cons] at hlen
    omega

theorem latest_or (l : List Entry) (p : Str) :
    (∃ i e, Latest l p i e) ∨ ∀ e ∈ l, ¬ p <+: e.command := by
  induction l using List.reverseRecOn with
  | nil => exact Or.inr fun e he => absurd he List.not_mem_nil
  | append_singleton l x ih =>
    by_cases hx : p <+: x.command
    · refine Or.inl ⟨l.length, x, List.getElem?_concat_length, hx, fun j e' hij he' => ?_⟩
      have hlt := (List.getElem?_eq_some_iff.mp he').1
      rw [List.length_append, List.length_singleton] at hlt
      omega
    rcases ih with ⟨i, e, hl⟩ | hno
    · have hlt := (List.getElem?_eq_some_iff.mp hl.here).1
      refine Or.inl ⟨i, e, ?_, hl.starts, fun j e' hij he' => ?_⟩
      · rw [List.getElem?_append_left hlt]
        exact hl.here
      · by_cases hj : j < l.length
        · rw [List.getElem?_append_left hj] at he'
          exact hl.last j e' hij he'
        · have hle := (List.getElem?_eq_some_iff.mp he').1
          rw [List.length_append, List.length_singleton] at hle
          obtain rfl : j = l.length := by omega
          rw [List.getElem?_concat_length] at he'
          rwa [← Option.some.inj he']
    · refine Or.inr fun e he => ?_
      rcases List.mem_append.mp he with he | he
      · exact hno e he
      · rwa [List.mem_singleton.mp he]

/-- a prefix finds the last entry that starts with it, just when the bytes that are compared are there -/
theorem prefix_iff (scripting : Bool) (env : Env) (behind : Nat → Str) (fuel : Nat) (h : History)
    (status : Int) (p r : Str) (hp : ∀ c ∈ p, isLower c = true) (hne : p ≠ [])
    (hr : ∀ c, r.head? = some c → isLower c = false)
    (hlen : ('!' :: (p ++ r)).length < bufferSize) :
    SearchesPrefix scripting env behind fuel h status p ('!' :: (p ++ r)) ↔ CopiesReach behind h p := by
  have harg := argCmd_eq hp hr hlen
  generalize '!' :: (p ++ r) = buf at harg ⊢
  constructor
  · intro hs i e he
    by_contra hlt
    have hnone : foundCmd behind h buf = none := by
      unfold foundCmd
      rw [harg]
      refine entryLoop_none hp hne ⟨i, e, he, ?_⟩
      rw [Nat.zero_add]
      exact Nat.lt_of_not_le hlt
    rcases latest_or h.pairs p with ⟨j, x, hl⟩ | hno
    · exact absurd (hnone.symm.trans (hs.found j x hl).1) nofun
    · exact absurd (hnone.symm.trans (hs.missing hno).1) nofun
  · intro hread
    have hfound : foundCmd behind h buf =
        some (findLast (fun e => decide (p <+: e.command)) h.pairs 0 none) := by
      unfold foundCmd
      rw [harg]
      refine entryLoop_eq hp hne fun j e he => ?_
      rw [Nat.zero_add]
      exact hread j e he
    refine ⟨fun i e hl => ?_, fun hno => ?_⟩
    · rw [findLast_latest hl.here (decide_eq_true hl.starts) fun j e' hij he' =>
        decide_eq_false (hl.last j e' hij he')] at hfound
      refine ⟨hfound, ?_⟩
      unfold replayCmd
      rw [hfound]
      dsimp only
      rw [hl.here]
    · rw [findLast_none fun e he => decide_eq_false (hno e he)] at hfound
      refine ⟨hfound, ?_⟩
      unfold replayCmd
      rw [hfound]

end

/-- the history after `ls`, and a prefix that fits in the block of the copy -/
theorem prefix_of_ls : SearchesPrefix false .good (fun _ => List.replicate 60 '\x00') 1
    ⟨[⟨"ls".toList, 1, 0, .program "ls".toList false⟩], 2⟩ 0 ['l'] ('!' :: (['l'] ++ [' '])) :=
  (prefix_iff false .good (fun _ => List.replicate 60 '\x00') 1
    ⟨[⟨"ls".toList, 1, 0, .program "ls".toList false⟩], 2⟩ 0 ['l'] [' ']
    (fun c hc => List.mem_singleton.mp hc ▸ rfl) nofun
    (fun c hc => Option.some.inj hc ▸ rfl) (by decide)).mpr fun _ _ _ =>
      Nat.le_add_right_of_le (Nat.le_add_left 1 _)

/-- the copy of the first entry is 63 bytes before the end of the heap: a longer prefix is compared with
bytes that are not there -/
theorem prefix_faults : ¬ ∀ (scripting : Bool) (env : Env) (behind : Nat → Str) (fuel : Nat)
    (h : History) (status : Int) (p r : Str), (∀ c ∈ p, isLower c = true) → p ≠ [] →
    (∀ c, r.head? = some c → isLower c = false) → ('!' :: (p ++ r)).length < bufferSize →
    SearchesPrefix scripting env behind fuel h status p ('!' :: (p ++ r)) := by
  intro hall
  have h := hall false .good (fun _ => List.replicate 60 '\x00') 1
    ⟨[⟨"ls".toList, 1, 0, .program "ls".toList false⟩], 2⟩ 0 (List.replicate 70 'a') []
    (fun c hc => List.eq_of_mem_replicate hc ▸ rfl) nofun nofun (by decide)
  have hmissing := (h.missing (by decide)).1
  exact absurd hmissing (by decide +kernel)

end Boogsh
