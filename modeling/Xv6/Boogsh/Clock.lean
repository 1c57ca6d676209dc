import Xv6.Boogsh.Journal

/-!
# The time that a command takes

`unixtime` is a 64-bit number of nanoseconds.  `choose_cmd` keeps both readings in an `int`, so that its
result comes round every `2 ^ 32` of them, and one of its results is the -1 of an empty line.
-/

namespace Boogsh
open Ulib Lib

/-- the result of `choose_cmd`, from its two readings of the clock -/
def timeTaken (start stop : BitVec 64) : BitVec 32 :=
  let tStart := start.setWidth 32
  let tEnd := stop.setWidth 32
  (tEnd - tStart).sdiv 1000000#32

/-- the result of `choose_cmd`; -1 is that for an empty line -/
def Result.value (r : Result) (start stop : BitVec 64) : Int :=
  if r.returned then (timeTaken start stop).toInt else -1

def Line.clocked (x : Line) (start stop : BitVec 64) : Line :=
  { x with env := { x.env with time := (timeTaken start stop).toInt } }

def millis (start stop : BitVec 64) : Nat := (stop.toNat - start.toNat) / 10 ^ 6

/-- the result is the time in milliseconds, -1 only for an empty line, and `main` stores the command
with its time if it worked -/
structure OnTime (s : Shell) (x : Line) (start stop : BitVec 64) (r : Result) : Prop where
  floor : r.value start stop = millis start stop
  empty : r.value start stop = -1 → r.returned = false
  stored : runLine s (x.clocked start stop) = .ok (some { s with
    hist := if r.exitStatus = 0 then addHistory r.hist r.text (millis start stop) r.action
      else r.hist })

section
variable {scripting : Bool} {env : Env} {fuel : Nat} {h : History} {status : Int} {buf : Str}
  {r : Result} {start stop : BitVec 64}

/-- the result is taken from the difference in an `int` -/
theorem timeTaken_toInt (hle : start ≤ stop) : (timeTaken start stop).toInt =
    (((stop.toNat - start.toNat : Nat) : Int).bmod (2 ^ 32)).tdiv (10 ^ 6) := by
  have hle' : start.toNat ≤ stop.toNat := hle
  have hdiff : (stop.setWidth 32 - start.setWidth 32).toInt =
      ((stop.toNat - start.toNat : Nat) : Int).bmod (2 ^ 32) := by
    rw [BitVec.toInt_sub, BitVec.toInt_setWidth, BitVec.toInt_setWidth, Int.bmod_sub_bmod,
      Int.sub_bmod_bmod, Int.ofNat_sub hle']
  unfold timeTaken
  dsimp only
  rw [BitVec.toInt_sdiv_of_ne_or_ne _ _ (Or.inr (by decide)), hdiff]
  rfl

theorem timeTaken_eq_iff (hle : start ≤ stop) : (timeTaken start stop).toInt = millis start stop ↔
    stop.toNat - start.toNat < 2 ^ 31 := by
  rw [timeTaken_toInt hle]
  unfold millis
  generalize stop.toNat - start.toNat = d
  have hb : (d : Int).bmod (2 ^ 32) = if (d : Int) % 4294967296 < 2147483648 then
      (d : Int) % 4294967296 else (d : Int) % 4294967296 - 4294967296 := Int.bmod_def ..
  constructor
  · intro h
    by_contra hge
    by_cases hneg : (d : Int).bmod (2 ^ 32) < 0
    · generalize (d : Int).bmod (2 ^ 32) = a at h hneg
      have hle := Int.tdiv_nonneg (show 0 ≤ -a by omega) (show (0 : Int) ≤ 10 ^ 6 by decide)
      rw [Int.neg_tdiv] at hle
      omega
    · -- the result is at most that of `2 ^ 31 - 1`
      have hlt : (d : Int).bmod (2 ^ 32) < 2 ^ 31 := Int.bmod_lt (by decide)
      rw [Int.tdiv_eq_ediv_of_nonneg (Int.not_lt.mp hneg)] at h
      rw [hb] at h hneg hlt
      split at h
      · omega
      · omega
  · intro h
    rw [hb, if_pos (by omega), Int.emod_eq_of_lt (Int.natCast_nonneg d) (by omega)]
    rfl

/-- the time is right, and is stored, just when it is less than `2 ^ 31` nanoseconds -/
theorem onTime_iff (s : Shell) (x : Line) (buf : Str) (r : Result) (start stop : BitVec 64)
    (htext : x.text s.scripting = .ok (some buf)) (hne : chooseHead buf ≠ none)
    (hr : chooseCmd s.scripting (x.clocked start stop).env (s.hist.pairs.length + 1) s.hist 0 buf =
      some r) (hexit : r.action ≠ .exit) (hle : start ≤ stop)
    (hfit : millis start stop < 2 ^ 31) :
    OnTime s x start stop r ↔ stop.toNat - start.toNat < 2 ^ 31 := by
  have hret := returned_of_head hne hr
  have hvalue : r.value start stop = (timeTaken start stop).toInt := if_pos hret
  rw [← timeTaken_eq_iff hle]
  constructor
  · intro h
    rw [← hvalue]
    exact h.floor
  · intro h
    have hnonneg : (timeTaken start stop).toInt ≠ -1 := by
      rw [h]
      omega
    refine ⟨hvalue.trans h, fun h1 => absurd (hvalue.symm.trans h1) hnonneg, ?_⟩
    unfold runLine
    rw [show (x.clocked start stop).text s.scripting = .ok (some buf) from htext]
    dsimp only
    rw [hr]
    dsimp only
    have htime : (x.clocked start stop).env.time = millis start stop := h
    rw [if_neg hexit, hret, htime]
    by_cases hst : r.exitStatus = 0
    · rw [if_pos hst, if_neg]
      rintro (h1 | h1 | h1)
      · exact absurd h1 nofun
      · omega
      · exact h1 hst
    · rw [if_neg hst, if_pos (Or.inr (Or.inr hst))]

end

/-- `ls` that takes 5 ms -/
theorem onTime_ls : OnTime (.start false) (.good "ls\n".toList) 0 5000000
    ⟨"ls".toList, ⟨[], 1⟩, .program "ls".toList false, 0, true⟩ :=
  (onTime_iff (.start false) (.good "ls\n".toList) "ls\n".toList
    ⟨"ls".toList, ⟨[], 1⟩, .program "ls".toList false, 0, true⟩ 0 5000000 (by decide +kernel)
    (by decide) (by decide +kernel) nofun (by decide) (by decide)).mpr (by decide)

/-- `ls` that takes 4293.5 ms has the result of an empty line -/
theorem time_comes_round : ¬ ∀ (s : Shell) (x : Line) (buf : Str) (r : Result)
    (start stop : BitVec 64), x.text s.scripting = .ok (some buf) → chooseHead buf ≠ none →
    chooseCmd s.scripting (x.clocked start stop).env (s.hist.pairs.length + 1) s.hist 0 buf =
      some r → r.action ≠ .exit → start ≤ stop → millis start stop < 2 ^ 31 →
    OnTime s x start stop r := by
  intro hall
  have h := (hall (.start false) (.good "ls\n".toList) "ls\n".toList
    ⟨"ls".toList, ⟨[], 1⟩, .program "ls".toList false, 0, true⟩ 0 4293467296 (by decide +kernel)
    (by decide)
    (by decide +kernel) nofun (by decide) (by decide)).empty (by decide)
  exact absurd h nofun

end Boogsh
