import Xv6.Fs.Inode
import Xv6.Lib.Run

/-!
# Descriptors that append (`sys_open`, `filewrite`)

`sys_open` puts the offset of a descriptor with `O_APPEND` at the size the file has then, and from
there it moves by what is written through the descriptor itself.  `filewrite` writes in pieces,
one transaction with the inode locked for each; between two pieces any other call can come.

The file is a regular one and each descriptor is opened on its own, so that it has one writer.
-/

namespace Fs
open Lib

/-- `O_WRONLY`, `O_RDWR`, `O_APPEND`, `O_TRUNC` -/
def oWronly : Nat := 0x001
def oRdwr : Nat := 0x002
def oAppend : Nat := 0x008
def oTrunc : Nat := 0x400

/-- a `filewrite` under way: `i` of `n` bytes are written -/
structure Call where
  src : Source
  n : Nat
  i : Nat

structure File where
  off : Nat
  writable : Bool
  call : Option Call
  /-- what the last `filewrite` returned -/
  ret : Option Int
  /-- ghost: the bytes written through this descriptor -/
  put : Nat

structure State where
  disk : Disk
  files : List File

inductive Act where
  | sysOpen (omode : Nat)
  | write (d : Nat) (src : Source) (n : Int)
  | chunk (d : Nat)
  | other (free : Nat)

/-- the end of `sys_open`: the offset comes before the truncation -/
def sysOpen (s : State) (omode : Nat) : State where
  files := s.files ++ [{
    off := if omode &&& oAppend ≠ 0 then s.disk.size else 0
    writable := omode &&& oWronly ≠ 0 || omode &&& oRdwr ≠ 0
    call := none
    ret := none
    put := 0 }]
  disk := if omode &&& oTrunc ≠ 0 then itrunc s.disk else s.disk

/-- `filewrite` up to its loop; an `n` that is not positive does not enter it -/
def startWrite (s : State) (d : Nat) (src : Source) (n : Int) : Option State :=
  match s.files[d]? with
  | none => none
  | some f =>
    if f.call.isSome then none
    else if !f.writable then some { s with files := s.files.set d { f with ret := some (-1) } }
    else if n ≤ 0 then
      some { s with files := s.files.set d { f with ret := some (if n = 0 then 0 else -1) } }
    else some { s with files := s.files.set d { f with call := some ⟨src, n.toNat, 0⟩ } }

/-- `((MAXOPBLOCKS-1-1-2) / 2) * BSIZE` -/
def writeMax : Nat := 3 * bsize

/-- `f->off += r` after a `writei` that has written something -/
def File.move (f : File) (r : Int) : File :=
  if 0 < r then { f with off := f.off + r.toNat, put := f.put + r.toNat } else f

/-- the end of a round: a `break` after a short write, else the test of the loop -/
def File.round (f : File) (c : Call) (n1 : Nat) (r : Int) : File :=
  if r ≠ n1 then { f with call := none, ret := some (-1) }
  else if c.i + n1 < c.n then { f with call := some { c with i := c.i + n1 } }
  else { f with call := none, ret := some (c.n : Int) }

/-- a round of the loop of `filewrite` -/
def chunk (s : State) (d : Nat) : Option State :=
  match s.files[d]? with
  | none => none
  | some f =>
    match f.call with
    | none => none
    | some c =>
      let n1 := min (c.n - c.i) writeMax
      match writei s.disk (fun j => c.src (c.i + j)) f.off n1 with
      | none => none
      | some (disk, r) => some ⟨disk, s.files.set d ((f.move r).round c n1 r)⟩

def step (s : State) : Act → Option State
  | .sysOpen omode => some (sysOpen s omode)
  | .write d src n => startWrite s d src n
  | .chunk d => chunk s d
  -- other files take blocks or give them back
  | .other free => some { s with disk := { s.disk with free := free } }

def Step (s : State) (a : Act) (s' : State) : Prop := step s a = some s'

/-- every descriptor appends, and none is opened with `O_TRUNC` unless the file is empty -/
def Appends (s : State) : Act → Prop
  | .sysOpen omode => omode &&& oAppend ≠ 0 ∧ (omode &&& oTrunc ≠ 0 → s.disk.size = 0)
  | _ => True

/-! ## a piece of a write -/

structure Inv (s : State) : Prop where
  noHoles : NoHoles s.disk
  size : s.disk.size ≤ maxfile * bsize
  off : ∀ f ∈ s.files, f.off ≤ s.disk.size
  call : ∀ f ∈ s.files, ∀ c, f.call = some c → c.i < c.n

/-- the descriptor after a piece of `n1` bytes of which `r` are written -/
def File.after (f : File) (c : Call) (n1 r : Nat) : File where
  off := f.off + r
  writable := f.writable
  call := if r = n1 ∧ c.i + n1 < c.n then some { c with i := c.i + n1 } else none
  ret := if r ≠ n1 then some (-1) else if c.i + n1 < c.n then f.ret else some (c.n : Int)
  put := f.put + r

structure Piece (s s' : State) (d : Nat) (f : File) (c : Call) (n1 r : Nat) : Prop where
  disk : Written s.disk s'.disk (fun j => c.src (c.i + j)) f.off n1 r
  files : s'.files = s.files.set d (f.after c n1 r)

section
variable {s s' : State} {d : Nat} {f : File} {c : Call}

theorem File.move_nat (f : File) (r : Nat) :
    f.move (r : Int) = { f with off := f.off + r, put := f.put + r } := by
  unfold File.move
  rw [Int.toNat_natCast]
  split
  · rfl
  · rename_i h
    obtain rfl : r = 0 := by omega
    rfl

theorem File.round_move (f : File) (c : Call) (n1 r : Nat) :
    (f.move r).round c n1 r = f.after c n1 r := by
  rw [File.move_nat]
  unfold File.round File.after
  by_cases hr : r = n1
  · subst hr
    rw [if_neg (by simp)]
    by_cases hlt : c.i + r < c.n
    · rw [if_pos hlt, if_pos ⟨rfl, hlt⟩, if_neg (by simp), if_pos hlt]
    · rw [if_neg hlt, if_neg (fun h => hlt h.2), if_neg (by simp), if_neg hlt]
  · rw [if_pos (by omega), if_neg (fun h => hr h.1), if_pos hr]

theorem File.round_refused (f : File) (c : Call) {n1 : Nat} (hpos : 0 < n1) :
    (f.move (-1)).round c n1 (-1) = f.after c n1 0 := by
  have hmove : f.move (-1) = f := if_neg (by decide)
  rw [hmove]
  unfold File.round File.after
  rw [if_pos (show (-1 : Int) ≠ n1 by omega), if_neg (fun h => absurd h.1 (by omega)),
    if_pos (show 0 ≠ n1 by omega)]
  rfl

theorem chunk_eq (hf : s.files[d]? = some f) (hc : f.call = some c) {disk : Disk} {r : Int}
    (hw : writei s.disk (fun j => c.src (c.i + j)) f.off (min (c.n - c.i) writeMax)
      = some (disk, r)) :
    chunk s d = some ⟨disk, s.files.set d
      ((f.move r).round c (min (c.n - c.i) writeMax) r)⟩ := by
  unfold chunk
  rw [hf]
  dsimp only
  rw [hc]
  dsimp only
  rw [hw]

theorem Inv.pos (hi : Inv s) (hf : s.files[d]? = some f) (hc : f.call = some c) :
    0 < min (c.n - c.i) writeMax := by
  have h := hi.call f (List.mem_of_getElem? hf) c hc
  have hmax : 0 < writeMax := by decide
  omega

theorem chunk_spec (hi : Inv s) (hf : s.files[d]? = some f) (hc : f.call = some c) :
    ∃ s' r, chunk s d = some s' ∧ Piece s s' d f c (min (c.n - c.i) writeMax) r ∧
      (r = 0 ∨ f.off + min (c.n - c.i) writeMax ≤ maxfile * bsize) ∧
      ((∀ j < min (c.n - c.i) writeMax, (c.src (c.i + j)).isSome = true) →
        f.off + min (c.n - c.i) writeMax ≤ maxfile * bsize →
        missing s.disk (f.off / bsize) ((f.off + min (c.n - c.i) writeMax - 1) / bsize + 1)
          ≤ s.disk.free → r = min (c.n - c.i) writeMax) := by
  have hoff := hi.off f (List.mem_of_getElem? hf)
  have hpos := hi.pos hf hc
  by_cases hmax : f.off + min (c.n - c.i) writeMax ≤ maxfile * bsize
  · obtain ⟨disk, r, hw, hwritten, hall⟩ :=
      writei_spec (fun j => c.src (c.i + j)) hi.noHoles hoff hmax
    exact ⟨_, r, chunk_eq hf hc hw, ⟨hwritten, by rw [File.round_move]⟩, Or.inr hmax,
      fun hsrc _ hfree => hall hsrc hfree⟩
  · have hlt : min (c.n - c.i) writeMax < 2 ^ 31 := by
      have : writeMax < 2 ^ 31 := by decide
      omega
    have hw := writei_over (fun j => c.src (c.i + j)) hoff hi.size hlt (by omega)
    refine ⟨_, 0, chunk_eq hf hc hw, ⟨⟨Nat.zero_le _, ?_, fun _ _ _ => rfl,
      fun j hj => absurd hj (Nat.not_lt_zero j), hi.noHoles⟩, by rw [File.round_refused f c hpos]⟩,
      Or.inl rfl, fun _ h => absurd h hmax⟩
    show s.disk.size = max s.disk.size (f.off + 0)
    omega

/-! ## runs -/

theorem inv_set (hi : Inv s) (hf : f.off ≤ s.disk.size) (hc : ∀ c, f.call = some c → c.i < c.n) :
    Inv { s with files := s.files.set d f } := by
  refine ⟨hi.noHoles, hi.size, fun g hg => ?_, fun g hg => ?_⟩
  · rcases List.mem_or_eq_of_mem_set hg with h | rfl
    · exact hi.off g h
    · exact hf
  · rcases List.mem_or_eq_of_mem_set hg with h | rfl
    · exact hi.call g h
    · exact hc

theorem Piece.inv {n1 r : Nat} (hi : Inv s) (hp : Piece s s' d f c n1 r)
    (hf : f ∈ s.files) (hmax : r = 0 ∨ f.off + n1 ≤ maxfile * bsize) : Inv s' := by
  have hsize := hp.disk.size
  have hoff := hi.off f hf
  have hle := hp.disk.le
  refine ⟨hp.disk.noHoles, ?_, fun g hg => ?_, fun g hg c' hc' => ?_⟩
  · have := hi.size
    omega
  · rw [hp.files] at hg
    rcases List.mem_or_eq_of_mem_set hg with h | rfl
    · have := hi.off g h
      omega
    · show f.off + r ≤ s'.disk.size
      omega
  · rw [hp.files] at hg
    rcases List.mem_or_eq_of_mem_set hg with h | rfl
    · exact hi.call g h c' hc'
    · replace hc' : (if r = n1 ∧ c.i + n1 < c.n then some { c with i := c.i + n1 } else none)
        = some c' := hc'
      split at hc'
      · rename_i h
        rw [← Option.some.inj hc']
        exact h.2
      · exact absurd hc' (by simp)

theorem startWrite_spec {src : Source} {n : Int} (h : startWrite s d src n = some s') :
    ∃ f f', s.files[d]? = some f ∧ s' = { s with files := s.files.set d f' } ∧ f'.off = f.off ∧
      f'.put = f.put ∧ ∀ c, f'.call = some c → c.i < c.n := by
  unfold startWrite at h
  split at h
  · exact absurd h (by simp)
  · rename_i f hf
    split at h
    · exact absurd h (by simp)
    · rename_i hcall
      have hnone : f.call = none := by simpa using hcall
      split at h
      · exact ⟨f, _, hf, (Option.some.inj h).symm, rfl, rfl,
          fun c hc => absurd (hnone.symm.trans hc) (by simp)⟩
      · split at h
        · exact ⟨f, _, hf, (Option.some.inj h).symm, rfl, rfl,
            fun c hc => absurd (hnone.symm.trans hc) (by simp)⟩
        · rename_i hn
          refine ⟨f, _, hf, (Option.some.inj h).symm, rfl, rfl, fun c hc => ?_⟩
          rw [← Option.some.inj hc]
          show 0 < n.toNat
          omega

theorem chunk_call (h : chunk s d = some s') :
    ∃ f c, s.files[d]? = some f ∧ f.call = some c := by
  unfold chunk at h
  split at h
  · exact absurd h (by simp)
  · rename_i f hf
    split at h
    · exact absurd h (by simp)
    · rename_i c hc
      exact ⟨f, c, hf, hc⟩

theorem sysOpen_size {omode : Nat} (h : Appends s (.sysOpen omode)) :
    (sysOpen s omode).disk.size = s.disk.size := by
  show (if omode &&& oTrunc ≠ 0 then itrunc s.disk else s.disk).size = s.disk.size
  split
  · rename_i ht
    exact (h.2 ht).symm
  · rfl

theorem sysOpen_noHoles {omode : Nat} (hi : Inv s) : NoHoles (sysOpen s omode).disk := by
  show NoHoles (if omode &&& oTrunc ≠ 0 then itrunc s.disk else s.disk)
  split
  · exact fun p hp => absurd hp (Nat.not_lt_zero p)
  · exact hi.noHoles

theorem Step.inv {a : Act} (hi : Inv s) (ha : Appends s a) (h : Step s a s') : Inv s' := by
  cases a with
  | sysOpen omode =>
    obtain rfl := Option.some.inj h
    have hsize := sysOpen_size ha
    refine ⟨sysOpen_noHoles hi, ?_, fun f hf => ?_, fun f hf c hc => ?_⟩
    · rw [hsize]
      exact hi.size
    · rw [hsize]
      rcases List.mem_append.mp hf with h | h
      · exact hi.off f h
      · rw [List.mem_singleton.mp h]
        show (if omode &&& oAppend ≠ 0 then s.disk.size else 0) ≤ s.disk.size
        rw [if_pos ha.1]
    · rcases List.mem_append.mp hf with h | h
      · exact hi.call f h c hc
      · rw [List.mem_singleton.mp h] at hc
        exact absurd hc (by simp)
  | write d src n =>
    obtain ⟨f, f', hf, rfl, hoff, -, hcall⟩ := startWrite_spec h
    refine inv_set hi ?_ hcall
    rw [hoff]
    exact hi.off f (List.mem_of_getElem? hf)
  | chunk d =>
    obtain ⟨f, c, hf, hc⟩ := chunk_call h
    obtain ⟨s1, r, h1, hp, hmax, -⟩ := chunk_spec hi hf hc
    obtain rfl := Option.some.inj (h1.symm.trans h)
    exact hp.inv hi (List.mem_of_getElem? hf) hmax
  | other free =>
    obtain rfl := Option.some.inj h
    exact ⟨hi.noHoles, hi.size, hi.off, hi.call⟩

def Tracked (k base : Nat) (s : State) : Prop :=
  Inv s ∧ ∃ f, s.files[k]? = some f ∧ f.off = base + f.put

def AtEnd (k : Nat) (s : State) : Prop := ∃ f, s.files[k]? = some f ∧ f.off = s.disk.size

theorem getElem?_set_file {k : Nat} {f g g' : File} {l : List File} (hf : l[k]? = some f)
    (hg : l[d]? = some g) (hoff : g'.off = g.off) (hput : g'.put = g.put) :
    ∃ f', (l.set d g')[k]? = some f' ∧ f'.off = f.off ∧ f'.put = f.put := by
  obtain ⟨hk, -⟩ := List.getElem?_eq_some_iff.mp hf
  by_cases e : d = k
  · subst e
    obtain rfl := Option.some.inj (hf.symm.trans hg)
    exact ⟨g', List.getElem?_set_self hk, hoff, hput⟩
  · exact ⟨f, by rw [List.getElem?_set_ne e, hf], rfl, rfl⟩

theorem Step.tracked {a : Act} {k base : Nat} (ht : Tracked k base s) (ha : Appends s a)
    (h : Step s a s') : Tracked k base s' ∧
      (AtEnd k s → (∀ d, a = .chunk d → d = k) → AtEnd k s') := by
  obtain ⟨hi, f, hf, hoff⟩ := ht
  have hi' := Step.inv hi ha h
  -- a step that keeps the entry's offset and the size
  have keep : ∀ f', s'.files[k]? = some f' → f'.off = f.off → f'.put = f.put →
      s'.disk.size = s.disk.size → Tracked k base s' ∧
        (AtEnd k s → (∀ d, a = .chunk d → d = k) → AtEnd k s') := by
    intro f' hf' ho hp hs
    refine ⟨⟨hi', f', hf', by rw [ho, hp, hoff]⟩, ?_⟩
    rintro ⟨g, hg, hgs⟩ -
    obtain rfl := Option.some.inj (hf.symm.trans hg)
    exact ⟨f', hf', by rw [ho, hs, hgs]⟩
  cases a with
  | sysOpen omode =>
    obtain rfl := Option.some.inj h
    obtain ⟨hk, -⟩ := List.getElem?_eq_some_iff.mp hf
    refine keep f ?_ rfl rfl (sysOpen_size ha)
    show (s.files ++ [_])[k]? = some f
    rw [List.getElem?_append_left hk, hf]
  | write d src n =>
    obtain ⟨g, g', hg, rfl, hgo, hgp, -⟩ := startWrite_spec h
    obtain ⟨f', hf', ho, hp⟩ := getElem?_set_file hf hg hgo hgp
    exact keep f' hf' ho hp rfl
  | chunk d =>
    obtain ⟨g, c, hg, hc⟩ := chunk_call h
    obtain ⟨s1, r, h1, hp, -, -⟩ := chunk_spec hi hg hc
    obtain rfl := Option.some.inj (h1.symm.trans h)
    obtain ⟨hk, -⟩ := List.getElem?_eq_some_iff.mp hf
    by_cases e : d = k
    · subst e
      obtain rfl := Option.some.inj (hf.symm.trans hg)
      have hf' : s1.files[d]? = some (f.after c (min (c.n - c.i) writeMax) r) := by
        rw [hp.files, List.getElem?_set_self hk]
      refine ⟨⟨hi', _, hf', ?_⟩, ?_⟩
      · show f.off + r = base + (f.put + r)
        omega
      · rintro ⟨g, hg, hgs⟩ -
        obtain rfl := Option.some.inj (hf.symm.trans hg)
        refine ⟨_, hf', ?_⟩
        show f.off + r = s1.disk.size
        rw [hp.disk.size]
        omega
    · have hf' : s1.files[k]? = some f := by
        rw [hp.files, List.getElem?_set_ne e, hf]
      exact ⟨⟨hi', f, hf', hoff⟩, fun _ hall => absurd (hall d rfl) e⟩
  | other free =>
    obtain rfl := Option.some.inj h
    exact keep f hf rfl rfl rfl

theorem run_tracked {acts : List Act} {k base : Nat} (ht : Tracked k base s)
    (hr : Run (guarded Appends Step) s acts s') : Tracked k base s' ∧
      (AtEnd k s → (∀ d, .chunk d ∈ acts → d = k) → AtEnd k s') := by
  induction hr with
  | nil s => exact ⟨ht, fun h _ => h⟩
  | cons ha _ ih =>
    obtain ⟨ht1, he1⟩ := Step.tracked ht ha.1 ha.2
    obtain ⟨ht2, he2⟩ := ih ht1
    refine ⟨ht2, fun he hall => he2 (he1 he fun d hd => hall d ?_) fun d hd => hall d ?_⟩
    · rw [hd]
      exact List.mem_cons_self
    · exact List.mem_cons_of_mem _ hd

/-- a descriptor is at the size that the file had at its open and the bytes written through it,
each piece goes there, and a piece that can be written is -/
theorem append_at_offset {s0 s1 s2 : State} {acts1 acts2 : List Act} {omode : Nat}
    (hfiles : s0.files = []) (hholes : NoHoles s0.disk) (hsize : s0.disk.size ≤ maxfile * bsize)
    (h1 : Run (guarded Appends Step) s0 acts1 s1) (ho : guarded Appends Step s1 (.sysOpen omode) s2)
    (h2 : Run (guarded Appends Step) s2 acts2 s) :
    ∃ f, s.files[s1.files.length]? = some f ∧ f.off = s1.disk.size + f.put ∧
      f.off ≤ s.disk.size ∧
      ((∀ d, .chunk d ∈ acts2 → d = s1.files.length) → f.off = s.disk.size) ∧
      ∀ c, f.call = some c → ∃ s' r, Step s (.chunk s1.files.length) s' ∧
        Piece s s' s1.files.length f c (min (c.n - c.i) writeMax) r ∧
        ((∀ j < min (c.n - c.i) writeMax, (c.src (c.i + j)).isSome = true) →
          f.off + min (c.n - c.i) writeMax ≤ maxfile * bsize →
          missing s.disk (f.off / bsize) ((f.off + min (c.n - c.i) writeMax - 1) / bsize + 1)
            ≤ s.disk.free → r = min (c.n - c.i) writeMax) := by
  have hi0 : Inv s0 := ⟨hholes, hsize, fun f hf => by simp [hfiles] at hf,
    fun f hf => by simp [hfiles] at hf⟩
  have hi1 : Inv s1 := h1.invariant (fun _ _ _ hi hs => Step.inv hi hs.1 hs.2) hi0
  have hi2 : Inv s2 := Step.inv hi1 ho.1 ho.2
  obtain ⟨happ, hstep⟩ := ho
  have hsz := sysOpen_size happ
  obtain rfl := Option.some.inj hstep
  have hnew : (sysOpen s1 omode).files[s1.files.length]? = some
      { off := if omode &&& oAppend ≠ 0 then s1.disk.size else 0
        writable := omode &&& oWronly ≠ 0 || omode &&& oRdwr ≠ 0
        call := none
        ret := none
        put := 0 } := List.getElem?_concat_length
  have hoff : (if omode &&& oAppend ≠ 0 then s1.disk.size else 0) = s1.disk.size := if_pos happ.1
  obtain ⟨⟨hi, f, hf, hfoff⟩, hend⟩ := run_tracked (k := s1.files.length)
    ⟨hi2, _, hnew, hoff⟩ h2
  refine ⟨f, hf, hfoff, hi.off f (List.mem_of_getElem? hf), fun hall => ?_, fun c hc => ?_⟩
  · obtain ⟨g, hg, hgs⟩ := hend ⟨_, hnew, hoff.trans hsz.symm⟩ hall
    obtain rfl := Option.some.inj (hf.symm.trans hg)
    exact hgs
  · obtain ⟨s', r, hs, hp, -, hall⟩ := chunk_spec hi hf hc
    exact ⟨s', r, hs, hp, hall⟩

end

def emptyFile : State := ⟨⟨0, fun _ => false, false, fun _ => 0, 10⟩, []⟩

def byteFile : State := ⟨⟨1, fun _ => true, false, fun _ => 97, 10⟩, []⟩

def secondOpen : List Act := [.sysOpen 0x009, .write 0 (fun _ => some 98) 1, .chunk 0]

def bothWrite : List Act :=
  [.write 0 (fun _ => some 99) 1, .chunk 0, .write 1 (fun _ => some 100) 1]

def ranOn (s : State) (acts : List Act) : State := (exec step s acts).getD s

/-- the second descriptor writes at the size that the file had at its open -/
theorem append_twoWriters : ∃ s s' f c,
    Run (guarded Appends Step) (sysOpen (ranOn byteFile secondOpen) 0x009) bothWrite s ∧
      s.disk.size = 3 ∧ s.files[1]? = some f ∧ f.off = 2 ∧ f.call = some c ∧
        Step s (.chunk 1) s' ∧ Piece s s' 1 f c 1 1 := by
  have happ (s : State) : Appends s (.sysOpen 0x009) :=
    ⟨by decide, fun h => absurd h (by decide)⟩
  have h1 : Run (guarded Appends Step) byteFile secondOpen (ranOn byteFile secondOpen) :=
    .cons ⟨happ _, rfl⟩ (.cons ⟨trivial, rfl⟩ (.single ⟨trivial, rfl⟩))
  have hopen : guarded Appends Step (ranOn byteFile secondOpen) (.sysOpen 0x009)
      (sysOpen (ranOn byteFile secondOpen) 0x009) := ⟨happ _, rfl⟩
  have h2 : Run (guarded Appends Step) (sysOpen (ranOn byteFile secondOpen) 0x009) bothWrite
      (ranOn (sysOpen (ranOn byteFile secondOpen) 0x009) bothWrite) :=
    .cons ⟨trivial, rfl⟩ (.cons ⟨trivial, rfl⟩ (.single ⟨trivial, rfl⟩))
  obtain ⟨f, hf, hoff, -, -, hcall⟩ := append_at_offset (show byteFile.files = [] from rfl)
    (fun p hp => rfl) (by decide) h1 hopen h2
  obtain rfl := Option.some.inj hf
  obtain ⟨s', r, hs, hp, hall⟩ := hcall _ rfl
  obtain rfl := hall (fun _ _ => rfl) (by decide +kernel) (by decide +kernel)
  exact ⟨_, s', _, _, h2, rfl, rfl, hoff, rfl, hs, hp⟩

/-- two descriptors opened on the empty file: the byte of the second one replaces that of the
first -/
theorem append_overwrites : ∃ acts s s', Run (guarded Appends Step) emptyFile acts s ∧
    Step s (.chunk 1) s' ∧ s.disk.size = 1 ∧ s.disk.data 0 = 97 ∧ s'.disk.size = 1 ∧
      s'.disk.data 0 = 98 ∧ s'.files.map File.ret = [some 1, some 1] :=
  ⟨[.sysOpen 0x009, .sysOpen 0x009, .write 0 (fun _ => some 97) 1, .write 1 (fun _ => some 98) 1,
      .chunk 0], _, _,
    .cons ⟨⟨by decide, fun _ => rfl⟩, rfl⟩ (.cons ⟨⟨by decide, fun _ => rfl⟩, rfl⟩
      (.cons ⟨trivial, rfl⟩ (.cons ⟨trivial, rfl⟩ (.cons ⟨trivial, rfl⟩ (.nil _))))),
    rfl, rfl, rfl, rfl, rfl, rfl⟩

end Fs
