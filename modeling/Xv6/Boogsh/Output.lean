import Xv6.Fs.Append
import Xv6.Boogsh.Pipeline

/-!
# What a redirected command leaves in its file

The child that runs the last command has the file of `>` as its descriptor 1, opened with the flags
of `execute_pipeline`.  Whatever it forks shares the entry, so that all writes of the command go
through one offset, from the one that `sys_open` has set.  Nothing else writes to the file.
-/

namespace Boogsh
open Fs Lib

def handed : Act → List (Option UInt8)
  | .write _ src n => (List.range n.toNat).map src
  | _ => []

def printed (acts : List Act) : List (Option UInt8) := acts.flatMap handed

def content (d : Disk) : List UInt8 := (List.range d.size).map d.data

/-- a step after which no `write` has returned -1; the command opens its file no second time -/
def Succeeds (s : Fs.State) (a : Act) (s' : Fs.State) : Prop :=
  Fs.Step s a s' ∧ (∀ omode, a ≠ .sysOpen omode) ∧ ∀ f ∈ s'.files, f.ret ≠ some (-1)

/-- the command has run on the file opened with `omode`, and every `write` has returned -/
structure Completes (omode : Nat) (d : Disk) (acts : List Act) (s : Fs.State) : Prop where
  run : Run Succeeds (sysOpen ⟨d, []⟩ omode) acts s
  returned : ∀ f ∈ s.files, f.call = none

/-- the bytes that the call under way has still to write -/
def pending : Option Call → List (Option UInt8)
  | none => []
  | some c => (List.range (c.n - c.i)).map (fun j => c.src (c.i + j))

/-- the file had the disk `d` when the command started, and its output so far is `out` -/
structure Printing (d : Disk) (out : List (Option UInt8)) (s : Fs.State) (f : Fs.File) : Prop where
  files : s.files = [f]
  inv : Inv s
  off : f.off = f.put
  size : s.disk.size = max d.size f.put
  out : out = (List.range f.put).map (fun p => some (s.disk.data p)) ++ pending f.call
  old : ∀ p, f.put ≤ p → p < d.size → s.disk.data p = d.data p

section
variable {d : Disk} {s s' : Fs.State} {f : Fs.File} {out : List (Option UInt8)}

theorem map_range_split {β : Type*} {n m : Nat} (g : Nat → β) (h : m ≤ n) :
    (List.range n).map g = (List.range m).map g ++ (List.range (n - m)).map (fun j => g (m + j)) := by
  conv_lhs => rw [show n = m + (n - m) by omega, List.range_add, List.map_append, List.map_map]
  rfl

theorem map_range_drop {β : Type*} (g : Nat → β) (n m : Nat) :
    ((List.range n).map g).drop m = (List.range (n - m)).map (fun j => g (m + j)) := by
  rcases le_total m n with h | h
  · rw [map_range_split g h]
    exact List.drop_left' (by rw [List.length_map, List.length_range])
  · rw [Nat.sub_eq_zero_of_le h, List.drop_of_length_le (by rwa [List.length_map, List.length_range])]
    rfl

theorem pending_split {c : Call} {n1 : Nat} (h : c.i + n1 ≤ c.n) :
    pending (some c) = (List.range n1).map (fun j => c.src (c.i + j)) ++
      pending (some { c with i := c.i + n1 }) := by
  show (List.range (c.n - c.i)).map (fun j => c.src (c.i + j)) = _ ++
    (List.range (c.n - (c.i + n1))).map (fun j => c.src (c.i + n1 + j))
  rw [map_range_split _ (show n1 ≤ c.n - c.i by omega), Nat.sub_sub]
  simp only [Nat.add_assoc]

theorem pending_end {c : Call} (h : c.n ≤ c.i) : pending (some c) = [] := by
  show (List.range (c.n - c.i)).map (fun j => c.src (c.i + j)) = []
  rw [Nat.sub_eq_zero_of_le h]
  rfl

theorem Printing.entry {k : Nat} {g : Fs.File} (hp : Printing d out s f)
    (hg : s.files[k]? = some g) : k = 0 ∧ g = f := by
  rw [hp.files] at hg
  obtain ⟨hk, e⟩ := List.getElem?_eq_some_iff.mp hg
  obtain rfl : k = 0 := Nat.lt_one_iff.mp hk
  exact ⟨rfl, e.symm⟩

/-- a piece that is written whole moves bytes from the call under way to the file -/
theorem Printing.piece {c : Call} {n1 : Nat} (hp : Printing d out s f) (hc : f.call = some c)
    (hn : c.i + n1 ≤ c.n) (hi : Inv s') (hw : Piece s s' 0 f c n1 n1) :
    Printing d out s' (f.after c n1 n1) := by
  have hoff := hp.off
  have hsize := hp.size
  have hwsize := hw.disk.size
  refine ⟨?_, hi, ?_, ?_, ?_, fun q hq hqd => ?_⟩
  · rw [hw.files, hp.files]
    rfl
  · show f.off + n1 = f.put + n1
    rw [hoff]
  · show s'.disk.size = max d.size (f.put + n1)
    omega
  · have hcall : pending (f.after c n1 n1).call = pending (some { c with i := c.i + n1 }) := by
      show pending (if n1 = n1 ∧ c.i + n1 < c.n then some { c with i := c.i + n1 } else none) = _
      by_cases hlt : c.i + n1 < c.n
      · rw [if_pos ⟨rfl, hlt⟩]
      · rw [if_neg (fun h => hlt h.2), pending_end (show c.n ≤ c.i + n1 by omega)]
        rfl
    have hbefore : (List.range f.put).map (fun p => some (s'.disk.data p))
        = (List.range f.put).map (fun p => some (s.disk.data p)) := by
      refine List.map_congr_left fun p hm => ?_
      have hlt := List.mem_range.mp hm
      rw [hw.disk.outside p (by omega) (Or.inl (by omega))]
    have hpiece : (List.range n1).map (fun j => some (s'.disk.data (f.put + j)))
        = (List.range n1).map (fun j => c.src (c.i + j)) := by
      refine List.map_congr_left fun j hm => ?_
      rw [hw.disk.inside j (List.mem_range.mp hm), hoff]
    show out = (List.range (f.put + n1)).map (fun p => some (s'.disk.data p)) ++ _
    rw [hcall, map_range_split _ (Nat.le_add_right f.put n1), Nat.add_sub_cancel_left, hbefore,
      hpiece, List.append_assoc, ← pending_split hn, ← hc]
    exact hp.out
  · have hq' : f.put + n1 ≤ q := hq
    rw [hw.disk.outside q (by omega) (Or.inr (by omega))]
    exact hp.old q (by omega) hqd

theorem Succeeds.printing {a : Act} (hp : Printing d out s f) (hs : Succeeds s a s') :
    ∃ f', Printing d (out ++ handed a) s' f' := by
  obtain ⟨hstep, hopen, hret⟩ := hs
  cases a with
  | sysOpen omode => exact absurd rfl (hopen omode)
  | write k src n =>
    have hinv : Inv s' := Fs.Step.inv hp.inv (show Appends s (.write k src n) from trivial) hstep
    unfold Fs.Step step startWrite at hstep
    dsimp only at hstep
    cases hk : s.files[k]? with
    | none =>
      rw [hk] at hstep
      exact absurd hstep (by simp)
    | some g =>
      obtain ⟨rfl, rfl⟩ := hp.entry hk
      rw [hk] at hstep
      dsimp only at hstep
      split at hstep
      · exact absurd hstep (by simp)
      · rename_i hcall
        have hnone : g.call = none := by simpa using hcall
        have hout := hp.out
        rw [hnone] at hout
        have hset : ∀ f' : Fs.File, s.files.set 0 f' = [f'] := by
          intro f'
          rw [hp.files]
          rfl
        simp only [hset] at hstep
        split at hstep
        · rw [← Option.some.inj hstep] at hret
          exact absurd rfl (hret _ (List.mem_singleton_self _))
        · split at hstep
          · rename_i hn
            obtain rfl := (Option.some.inj hstep).symm
            by_cases h0 : n = 0
            · refine ⟨_, rfl, hinv, hp.off, hp.size, ?_, hp.old⟩
              rw [h0]
              show out ++ [] = _ ++ pending g.call
              rw [hnone, List.append_nil]
              exact hout
            · refine absurd ?_ (hret _ (List.mem_singleton_self _))
              show some (if n = 0 then (0 : Int) else -1) = some (-1)
              rw [if_neg h0]
          · obtain rfl := (Option.some.inj hstep).symm
            refine ⟨_, rfl, hinv, hp.off, hp.size, ?_, hp.old⟩
            rw [hout]
            show (_ ++ []) ++ (List.range n.toNat).map src
              = _ ++ (List.range n.toNat).map (fun j => src (0 + j))
            simp only [List.append_nil, Nat.zero_add]
  | chunk k =>
    have hinv : Inv s' := Fs.Step.inv hp.inv (show Appends s (.chunk k) from trivial) hstep
    obtain ⟨g, c, hg, hc⟩ := chunk_call hstep
    obtain ⟨rfl, rfl⟩ := hp.entry hg
    obtain ⟨s1, r, h1, hw, -, -⟩ := chunk_spec hp.inv hg hc
    obtain rfl := Option.some.inj (h1.symm.trans hstep)
    have hlt := hp.inv.call g (List.mem_of_getElem? hg) c hc
    have hfiles : s1.files = [g.after c (min (c.n - c.i) writeMax) r] := by
      rw [hw.files, hp.files]
      rfl
    -- a short write returns -1
    have hr : r = min (c.n - c.i) writeMax := by
      by_contra hr
      refine hret (g.after c (min (c.n - c.i) writeMax) r)
        (by rw [hfiles]; exact List.mem_singleton_self _) ?_
      show (if r ≠ min (c.n - c.i) writeMax then some (-1) else _) = some (-1)
      rw [if_pos hr]
    rw [hr] at hw
    refine ⟨g.after c (min (c.n - c.i) writeMax) (min (c.n - c.i) writeMax), ?_⟩
    show Printing d (out ++ []) s1 _
    rw [List.append_nil]
    exact hp.piece hc (by omega) hinv hw
  | other free =>
    obtain rfl := Option.some.inj hstep
    refine ⟨f, hp.files, ⟨hp.inv.noHoles, hp.inv.size, hp.inv.off, hp.inv.call⟩, hp.off, hp.size,
      ?_, hp.old⟩
    show out ++ [] = _
    rw [List.append_nil]
    exact hp.out

theorem run_printing {acts : List Act} (hp : Printing d out s f) (hr : Run Succeeds s acts s') :
    ∃ f', Printing d (out ++ printed acts) s' f' := by
  induction hr generalizing out f with
  | nil s =>
    refine ⟨f, ?_⟩
    show Printing d (out ++ []) s f
    rwa [List.append_nil]
  | cons hs _ ih =>
    obtain ⟨f1, h1⟩ := hs.printing hp
    obtain ⟨f2, h2⟩ := ih h1
    refine ⟨f2, ?_⟩
    rw [List.append_assoc] at h2
    exact h2

theorem printing_sysOpen {omode : Nat} (happ : omode &&& oAppend = 0) (hh : NoHoles d)
    (hd : d.size ≤ maxfile * bsize) :
    ∃ f, Printing (sysOpen ⟨d, []⟩ omode).disk [] (sysOpen ⟨d, []⟩ omode) f := by
  have hi : Inv ⟨d, []⟩ :=
    ⟨hh, hd, fun f hf => absurd hf List.not_mem_nil, fun f hf => absurd hf List.not_mem_nil⟩
  have hoff : (if omode &&& oAppend ≠ 0 then d.size else 0) = 0 := by
    rw [if_neg (not_not.mpr happ)]
  refine ⟨_, rfl, ⟨sysOpen_noHoles hi, ?_, fun f hf => ?_, fun f hf c hc => ?_⟩, hoff,
    (Nat.max_zero _).symm, rfl, fun _ _ _ => rfl⟩
  · show (if omode &&& oTrunc ≠ 0 then itrunc d else d).size ≤ maxfile * bsize
    split
    · exact Nat.zero_le _
    · exact hd
  · rw [List.mem_singleton.mp hf]
    show (if omode &&& oAppend ≠ 0 then d.size else 0) ≤ _
    rw [hoff]
    exact Nat.zero_le _
  · rw [List.mem_singleton.mp hf] at hc
    exact absurd hc (by simp)

/-- the output comes over the start of what `sys_open` has left in the file -/
theorem content_completes {omode : Nat} {acts : List Act} (happ : omode &&& oAppend = 0)
    (hh : NoHoles d) (hd : d.size ≤ maxfile * bsize) (hc : Completes omode d acts s) :
    (content s.disk).map some = printed acts ++
      ((content (sysOpen ⟨d, []⟩ omode).disk).drop (printed acts).length).map some := by
  obtain ⟨f0, h0⟩ := printing_sysOpen happ hh hd
  obtain ⟨f, hp⟩ := run_printing h0 hc.run
  rw [List.nil_append] at hp
  have hmem : f ∈ s.files := by
    rw [hp.files]
    exact List.mem_singleton_self f
  have hout := hp.out
  rw [hc.returned f hmem] at hout
  replace hout : printed acts = (List.range f.put).map (fun p => some (s.disk.data p)) :=
    hout.trans (List.append_nil _)
  have hlen : (printed acts).length = f.put := by
    rw [hout, List.length_map, List.length_range]
  have hle : f.put ≤ s.disk.size := by
    rw [hp.size]
    exact le_max_right _ _
  have hdiff : s.disk.size - f.put = (sysOpen ⟨d, []⟩ omode).disk.size - f.put := by
    rw [hp.size]
    omega
  rw [hlen, hout]
  unfold content
  rw [List.map_map, map_range_split _ hle]
  congr 1
  rw [hdiff, map_range_drop, List.map_map]
  refine List.map_congr_left fun j hm => ?_
  have hlt := List.mem_range.mp hm
  exact congrArg some (hp.old (f.put + j) (Nat.le_add_right _ _) (by omega))

/-- `cmd > f` leaves the output of `cmd` alone in the file exactly when it is at least as long as
what was there -/
theorem replaces_iff {acts : List Act} (hh : NoHoles d) (hd : d.size ≤ maxfile * bsize)
    (hc : Completes (outFlags false) d acts s) :
    (content s.disk).map some = printed acts ↔ d.size ≤ (printed acts).length := by
  have hlen : (content d).length = d.size := by
    unfold content
    rw [List.length_map, List.length_range]
  have hcont := content_completes (by decide) hh hd hc
  have hdisk : (sysOpen ⟨d, []⟩ (outFlags false)).disk = d := rfl
  rw [hdisk] at hcont
  rw [hcont, List.append_right_eq_self, List.map_eq_nil_iff, List.drop_eq_nil_iff, hlen]

/-- with `O_TRUNC`, as `sh.c` opens the file, the output is always alone -/
theorem truncated_replaces {acts : List Act} (hh : NoHoles d) (hd : d.size ≤ maxfile * bsize)
    (hc : Completes 0x601 d acts s) : (content s.disk).map some = printed acts := by
  have hcont := content_completes (by decide) hh hd hc
  have hempty : content (sysOpen ⟨d, []⟩ 0x601).disk = [] := rfl
  rw [hcont, hempty, List.drop_nil]
  exact List.append_nil _

end

def echoA : List Act :=
  [.write 0 (fun _ => some 97) 1, .chunk 0, .write 0 (fun _ => some 10) 1, .chunk 0]

/-- `echo a > f` without a file `f` -/
theorem replaces_absent : ∃ s, Completes (outFlags false) emptyFile.disk echoA s ∧
    (content s.disk).map some = printed echoA := by
  have hc : ∃ s, Completes (outFlags false) emptyFile.disk echoA s :=
    ⟨_, .cons ⟨rfl, nofun, by decide +kernel⟩ (.cons ⟨rfl, nofun, by decide +kernel⟩
      (.cons ⟨rfl, nofun, by decide +kernel⟩ (.cons ⟨rfl, nofun, by decide +kernel⟩ (.nil _)))),
      by decide +kernel⟩
  obtain ⟨s, hs⟩ := hc
  exact ⟨s, hs, (replaces_iff (fun p hp => absurd hp (Nat.not_lt_zero p)) (Nat.zero_le _) hs).mpr
    (Nat.zero_le _)⟩

def helloDisk : Disk where
  size := 5
  mapped := fun bn => bn = 0
  indirect := false
  data := fun p => [104, 101, 108, 108, 111].getD p 0
  free := 10

/-- `echo a > f` leaves `llo` of the content `hello` behind its own two bytes -/
theorem hello_remains : NoHoles helloDisk ∧ ∃ s, Completes (outFlags false) helloDisk echoA s ∧
    content s.disk = [97, 10, 108, 108, 111] ∧ (content s.disk).map some ≠ printed echoA := by
  refine ⟨fun p hp => decide_eq_true (Nat.div_eq_of_lt (hp.trans (by decide))), _,
    ⟨.cons ⟨rfl, nofun, by decide +kernel⟩ (.cons ⟨rfl, nofun, by decide +kernel⟩
      (.cons ⟨rfl, nofun, by decide +kernel⟩ (.cons ⟨rfl, nofun, by decide +kernel⟩ (.nil _)))),
      by decide +kernel⟩, by decide +kernel, by decide +kernel⟩

end Boogsh
