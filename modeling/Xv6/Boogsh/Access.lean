import Xv6.Boogsh.Vectors

/-!
# Which commands are accessed

After its loops, `parse_and_run_cmd` writes to the last command of the array, and
`execute_pipeline` reads the first word of each stage that it starts.  Neither asks whether there is
one: `guarded_iff` says for which lines there is.
-/

namespace Boogsh
open Ulib Lib

/-! ## the model -/

/-- an access to `cmds[i]`, or to `cmds[k].tokens[0]` -/
inductive Access where
  | cmd (i : Int)
  | token0 (k : Nat)
  deriving DecidableEq, Repr

/-- which calls of the stages succeed: those that open the files, `fork`, and the calls of `close`
and `dup` in the child and in the parent -/
structure Calls where
  files : Nat → Bool
  fork : Nat → Bool
  child : Nat → Bool
  parent : Nat → Bool

/-- the accesses of `execute_pipeline(cmds + k)`; the array ends before the fuel does -/
def walk (calls : Calls) (cmds : List RawCommand) : Nat → Nat → List Access
  | 0, _ => []
  | fuel + 1, k =>
    .cmd k :: match cmds[k]? with
    | none => []
    | some cmd =>
      if cmd.stdoutPipe then
        if calls.fork k then
          (if calls.child k then [.token0 k] else []) ++
            (if calls.parent k then walk calls cmds fuel (k + 1) else [])
        else []
      else if calls.files k then [.token0 k] else []

def accesses (calls : Calls) (m : Cmds) : List Access :=
  (List.range m.sz).map (fun i : Nat => .cmd i) ++
    .cmd ((m.sz : Int) - 1) :: walk calls m.cmds (m.cmds.length + 1) 0

/-- a command of the line, and for a first word one that has words -/
def Inside (m : Cmds) : Access → Prop
  | .cmd i => 0 ≤ i ∧ i < m.sz
  | .token0 k => ∃ cmd, m.cmds[k]? = some cmd ∧ 0 < cmd.tokenCount

/-- the line is rejected, or all accesses are to its commands -/
def Guarded : Except Stop (Str × Cmds) → Prop
  | .error .panic => True
  | .error .fault => False
  | .ok (_, m) => ∀ calls, ∀ a ∈ accesses calls m, Inside m a

/-! ## the stages that are started -/

section
variable {prior : Prior} {text buf : Str} {m : Cmds} {cmds : List RawCommand} {k j : Nat}

theorem Reached.succ (h : Reached cmds k) {e : RawCommand} (he : cmds[k]? = some e)
    (hflag : e.stdoutPipe = true) : Reached cmds (k + 1) := by
  intro j hj
  rcases Nat.lt_succ_iff_lt_or_eq.mp hj with hlt | rfl
  · exact h j hlt
  · exact ⟨e, he, hflag⟩

/-- only stages that the flags lead to are accessed -/
theorem mem_walk {calls : Calls} {fuel : Nat} {a : Access} (h : Reached cmds k)
    (ha : a ∈ walk calls cmds fuel k) :
    ∃ j, Reached cmds j ∧ (a = .cmd j ∨ a = .token0 j) := by
  induction fuel generalizing k with
  | zero => exact absurd ha List.not_mem_nil
  | succ fuel ih =>
    rcases List.mem_cons.mp ha with rfl | ha
    · exact ⟨k, h, Or.inl rfl⟩
    · split at ha
      · exact absurd ha List.not_mem_nil
      · rename_i cmd hcmd
        split at ha
        · rename_i hflag
          split at ha
          · rcases List.mem_append.mp ha with ha | ha
            · split at ha
              · exact ⟨k, h, Or.inr (List.mem_singleton.mp ha)⟩
              · exact absurd ha List.not_mem_nil
            · split at ha
              · exact ih (h.succ hcmd hflag) ha
              · exact absurd ha List.not_mem_nil
          · exact absurd ha List.not_mem_nil
        · split at ha
          · exact ⟨k, h, Or.inr (List.mem_singleton.mp ha)⟩
          · exact absurd ha List.not_mem_nil

def allSucceed : Calls := ⟨fun _ => true, fun _ => true, fun _ => true, fun _ => true⟩

theorem token0_mem_walk {fuel : Nat} (h : Reached cmds j) (hj : j < cmds.length) (hk : k ≤ j)
    (hfuel : j < k + fuel) : .token0 j ∈ walk allSucceed cmds fuel k := by
  induction fuel generalizing k with
  | zero => omega
  | succ fuel ih =>
    refine List.mem_cons_of_mem _ ?_
    rcases Nat.eq_or_lt_of_le hk with rfl | hlt
    · rw [List.getElem?_eq_getElem hj]
      dsimp only
      split
      · exact List.mem_append_left _ List.mem_cons_self
      · exact List.mem_cons_self
    · obtain ⟨cmd, hcmd, hflag⟩ := h k hlt
      rw [hcmd]
      dsimp only
      rw [if_pos hflag]
      exact List.mem_append_right _ (ih hlt (by omega))

/-- the flag of the last command is clear -/
theorem Built.reached_lt (hb : Built prior buf text m) (hpos : 0 < m.sz)
    (h : Reached m.cmds k) : k < m.sz := by
  by_contra hge
  have hlt : m.sz - 1 < (runs '|' text).length := by rw [← hb.sz]; omega
  obtain ⟨e, he, hentry⟩ := hb.entry _ _ (List.getElem?_eq_getElem hlt)
  obtain ⟨e', he', hflag⟩ := h (m.sz - 1) (by omega)
  obtain rfl := Option.some.inj (he.symm.trans he')
  rw [hentry.stdoutPipe, decide_eq_true (by omega)] at hflag
  exact absurd hflag Bool.false_ne_true

def Commanded (text : Str) : Prop :=
  ∀ (k : Nat) piece, (runs '|' text)[k]? = some piece → Linked text k →
    commandWords (runs ' ' piece) ≠ []

theorem CmdEntry.pos_iff {piece : Str} {last : Bool} {e : RawCommand}
    (h : CmdEntry prior buf k piece last e) :
    0 < e.tokenCount ↔ commandWords (runs ' ' piece) ≠ [] := by
  rw [h.count]
  exact List.length_pos_iff

theorem Built.inside_iff (hb : Built prior buf text m) :
    (∀ calls, ∀ a ∈ accesses calls m, Inside m a) ↔ runs '|' text ≠ [] ∧ Commanded text := by
  have hle := hb.le
  constructor
  · intro h
    have hlast := h allSucceed (.cmd ((m.sz : Int) - 1))
      (List.mem_append_right _ List.mem_cons_self)
    have hpos : 0 < m.sz := by
      have := hlast.1
      omega
    refine ⟨List.length_pos_iff.mp (hb.sz ▸ hpos), fun k piece hk hl => ?_⟩
    obtain ⟨hlt, -⟩ := List.getElem?_eq_some_iff.mp hk
    rw [← hb.sz] at hlt
    obtain ⟨e, he, hentry⟩ := hb.entry k piece hk
    obtain ⟨e', he', hcount⟩ := h allSucceed (.token0 k) (List.mem_append_right _
      (List.mem_cons_of_mem _ (token0_mem_walk ((hb.reached_iff hlt).mpr hl) (by omega)
        (Nat.zero_le k) (by omega))))
    obtain rfl := Option.some.inj (he.symm.trans he')
    exact hentry.pos_iff.mp hcount
  · rintro ⟨hne, hcmd⟩ calls a ha
    have hpos : 0 < m.sz := hb.sz ▸ List.length_pos_iff.mpr hne
    rcases List.mem_append.mp ha with ha | ha
    · obtain ⟨i, hi, rfl⟩ := List.mem_map.mp ha
      have := List.mem_range.mp hi
      exact ⟨by omega, by omega⟩
    · rcases List.mem_cons.mp ha with rfl | ha
      · exact ⟨by omega, by omega⟩
      · obtain ⟨k, hr, hk⟩ := mem_walk (fun j hj => absurd hj (Nat.not_lt_zero j)) ha
        have hlt := hb.reached_lt hpos hr
        rcases hk with rfl | rfl
        · exact ⟨by omega, by omega⟩
        · have hp := List.getElem?_eq_getElem (hb.sz ▸ hlt : k < (runs '|' text).length)
          obtain ⟨e, he, hentry⟩ := hb.entry k _ hp
          exact ⟨e, he, hentry.pos_iff.mpr (hcmd k _ hp ((hb.reached_iff hlt).mp hr))⟩

/-- a line with a stage, and a command in each stage that is reached, or with an operator that has
no file -/
theorem guarded_iff (prior : Prior) (h0 : '\x00' ∉ text) (behind : Str) :
    Guarded (loadCmds prior (text ++ '\x00' :: behind)) ↔
    (∃ piece ∈ runs '|' text, withFiles (runs ' ' piece) = false) ∨
      runs '|' text ≠ [] ∧ Commanded text := by
  rcases loadCmds_spec prior h0 behind with ⟨hbad, e1⟩ | ⟨hgood, buf, m, e1, hb⟩
  · rw [e1]
    exact iff_of_true trivial (Or.inl hbad)
  · rw [e1]
    show (∀ calls, ∀ a ∈ accesses calls m, Inside m a) ↔ _
    rw [hb.inside_iff]
    refine ⟨Or.inr, fun h => h.resolve_left ?_⟩
    rintro ⟨piece, hp, hf⟩
    exact absurd (hf.symm.trans (hgood piece hp)) Bool.false_ne_true

theorem guarded_ls : Guarded (loadCmds zeroed ("ls".toList ++ '\x00' :: [])) := by
  have hruns : runs '|' "ls".toList = ["ls".toList] := by decide +kernel
  have hcmd : Commanded "ls".toList := by
    intro k piece hk _
    rw [hruns] at hk
    rw [List.mem_singleton.mp (List.mem_of_getElem? hk)]
    decide +kernel
  exact (guarded_iff zeroed (by decide) []).mpr (Or.inr ⟨by rw [hruns]; decide, hcmd⟩)

/-- a line of `|` alone: the flag is cleared in front of the array -/
theorem unguarded_bar : ¬ ∀ (prior : Prior) (text behind : Str), '\x00' ∉ text → text ≠ [] →
    Guarded (loadCmds prior (text ++ '\x00' :: behind)) := by
  intro h
  have h0 : '\x00' ∉ "|".toList := by decide
  have hbar := h zeroed "|".toList [] h0 (by decide)
  have hruns : runs '|' "|".toList = [] := by decide +kernel
  rcases loadCmds_spec zeroed h0 [] with ⟨⟨piece, hp, -⟩, -⟩ | ⟨-, buf, m, e1, hb⟩
  · rw [hruns] at hp
    exact absurd hp List.not_mem_nil
  · rw [e1] at hbar
    exact (hb.inside_iff.mp hbar).1 hruns

end

end Boogsh
