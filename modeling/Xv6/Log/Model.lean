import Xv6.Lib.Run
import Mathlib.Logic.Function.Basic

/-!
# The file-system log (`kernel/log.c`)

A disk block is its 32-bit words; the header block keeps `n` in word 0 and `block[i]` in word
`i + 1`.  `log.lh` is the list of its first `n` entries.  The machine state is the disk, the buffer
cache with its pins and the fields of `log`; `phase` is where the process inside `commit` or
`recover_from_log` stands, between two calls of `bwrite`.  Buffers that nobody pins may be recycled
at any moment, and any block may be read into the cache at any moment.

`step` is the machine.  `Legal` is what callers owe it, and `Hist` is a record of what happened that
the machine does not read.
-/

namespace Log

def logSize : Nat := 30
def maxOpBlocks : Nat := 10

abbrev Block := Nat → Nat
abbrev Disk := Nat → Block

/-- `log.start` and `log.size`, from the superblock -/
structure Config where
  start : Nat
  size : Nat
  sizePos : 0 < size

/-- `b` is the header block or one of the blocks behind it -/
def Config.IsLog (c : Config) (b : Nat) : Prop := c.start ≤ b ∧ b < c.start + c.size

instance (c : Config) (b : Nat) : Decidable (c.IsLog b) := inferInstanceAs (Decidable (_ ∧ _))

inductive Phase where
  /-- nobody is in `commit` -/
  | idle
  | commit
  | writeLog (tail : Nat)
  | install (tail : Nat)
  /-- booting: `recover_from_log` has not read the header yet -/
  | readHead
  | recover (tail : Nat)

def Phase.booting : Phase → Bool
  | .readHead => true
  | .recover _ => true
  | _ => false

structure Sys where
  disk : Disk
  cache : Nat → Option Block
  pins : Nat → Nat
  /-- `log.lh` -/
  lh : List Nat
  outstanding : Nat
  committing : Bool
  phase : Phase

def boot (d : Disk) : Sys where
  disk := d
  cache := fun _ => none
  pins := fun _ => 0
  lh := []
  outstanding := 0
  committing := false
  phase := .readHead

/-! ## buffers -/

/-- what a process sees in the buffer of block `b` -/
def Sys.cached (s : Sys) (b : Nat) : Block := (s.cache b).getD (s.disk b)

def bread (s : Sys) (b : Nat) : Sys := { s with cache := Function.update s.cache b (some (s.cached b)) }

/-- the buffer of `b` is filled with `x` and written to disk -/
def bwrite (s : Sys) (b : Nat) (x : Block) : Sys :=
  { s with cache := Function.update s.cache b (some x), disk := Function.update s.disk b x }

def bpin (s : Sys) (b : Nat) : Sys := { s with pins := Function.update s.pins b (s.pins b + 1) }

def bunpin (s : Sys) (b : Nat) : Sys := { s with pins := Function.update s.pins b (s.pins b - 1) }

/-- the buffer of `b` is recycled -/
def evict (s : Sys) (b : Nat) : Sys := { s with cache := Function.update s.cache b none }

/-! ## the log header -/

/-- the entries of a header block -/
def headBlocks (hb : Block) : List Nat := (List.range (hb 0)).map (fun i => hb (i + 1))

/-- `n` and the first `n` entries are overwritten, the rest of the block stays -/
def putHead (hb : Block) (lh : List Nat) : Block := fun k =>
  if k = 0 then lh.length else (lh[k - 1]?).getD (hb k)

def readHead (c : Config) (s : Sys) : Sys :=
  let s := bread s c.start
  { s with lh := headBlocks (s.cached c.start) }

def writeHead (c : Config) (s : Sys) : Sys :=
  let s := bread s c.start
  bwrite s c.start (putHead (s.cached c.start) s.lh)

/-! ## the two copying loops -/

/-- one iteration of `write_log` -/
def writeLogOne (c : Config) (s : Sys) (tail : Nat) : Sys :=
  let dst := c.start + tail + 1
  let home := s.lh.getD tail 0
  let s := bread (bread s dst) home
  bwrite s dst (s.cached home)

/-- one iteration of `install_trans` -/
def installOne (c : Config) (recovering : Bool) (s : Sys) (tail : Nat) : Sys :=
  let lbuf := c.start + tail + 1
  let dbuf := s.lh.getD tail 0
  let s := bread (bread s lbuf) dbuf
  let s := bwrite s dbuf (s.cached lbuf)
  if recovering then s else bunpin s dbuf

def installTrans (c : Config) (recovering : Bool) (s : Sys) : Sys :=
  (List.range s.lh.length).foldl (installOne c recovering) s

/-- what a reboot that is left alone makes of the disk -/
def recoverFromLog (c : Config) (d : Disk) : Disk :=
  let s := readHead c (boot d)
  let s := installTrans c true s
  (writeHead c { s with lh := [] }).disk

/-! ## `begin_op`, `log_write`, `end_op`, `commit` -/

/-- `none` is a process that sleeps -/
def beginOp (s : Sys) : Option Sys :=
  if s.committing then none
  else if s.lh.length + (s.outstanding + 1) * maxOpBlocks > logSize then none
  else some { s with outstanding := s.outstanding + 1 }

/-- the caller has put `data` into the buffer of `b`; `none` is a panic -/
def logWrite (c : Config) (s : Sys) (b : Nat) (data : Block) : Option Sys :=
  if s.lh.length ≥ logSize ∨ s.lh.length ≥ c.size - 1 then none
  else if s.outstanding < 1 then none
  else
    let s := { s with cache := Function.update s.cache b (some data) }
    if b ∈ s.lh then some s else some { bpin s b with lh := s.lh ++ [b] }

/-- `none` is a panic -/
def endOp (s : Sys) : Option Sys :=
  let s := { s with outstanding := s.outstanding - 1 }
  if s.committing then none
  else if s.outstanding = 0 then some { s with committing := true, phase := .commit }
  else some s

/-- the process in `commit` or `recover_from_log` runs on, through one `bwrite` at most -/
def advance (c : Config) (s : Sys) : Option Sys :=
  match s.phase with
  | .idle => none
  | .commit =>
    if s.lh.length > 0 then some { s with phase := .writeLog 0 }
    else some { s with committing := false, phase := .idle }
  | .writeLog tail =>
    if tail < s.lh.length then some { writeLogOne c s tail with phase := .writeLog (tail + 1) }
    else some { writeHead c s with phase := .install 0 }
  | .install tail =>
    if tail < s.lh.length then
      some { installOne c false s tail with phase := .install (tail + 1) }
    else some { writeHead c { s with lh := [] } with committing := false, phase := .idle }
  | .readHead => some { readHead c s with phase := .recover 0 }
  | .recover tail =>
    if tail < s.lh.length then
      some { installOne c true s tail with phase := .recover (tail + 1) }
    else some { writeHead c { s with lh := [] } with phase := .idle }

/-! ## the machine -/

/-- `op` names the operation that makes the call -/
inductive Event where
  | beginOp (op : Nat)
  | logWrite (op b : Nat) (data : Block)
  | endOp (op : Nat)
  | advance
  | load (b : Nat)
  | evict (b : Nat)
  | crash

def step (c : Config) (s : Sys) : Event → Option Sys
  | .beginOp _ => beginOp s
  | .logWrite _ b data => logWrite c s b data
  | .endOp _ => endOp s
  | .advance => advance c s
  | .load b => some (bread s b)
  | .evict b =>
    if s.pins b = 0 then some (evict s b) else none
  | .crash => some (boot s.disk)

/-! ## what happened -/

structure Write where
  op : Nat
  block : Nat
  data : Block

/-- `committed` are the groups whose header write reached the disk, in that order; `pending` are
the writes that the next group will have -/
structure Hist where
  begun : List Nat
  active : List Nat
  ended : List Nat
  written : List Write
  pending : List Write
  committed : List (List Write)

structure World where
  sys : Sys
  hist : Hist

def fresh (d : Disk) : World where
  sys := boot d
  hist := ⟨[], [], [], [], [], []⟩

/-- callers run only after recovery, give each operation a name of its own, and write between
`begin_op` and `end_op` to blocks outside the log -/
def Legal (c : Config) (w : World) : Event → Prop
  | .beginOp op => op ∉ w.hist.begun ∧ w.sys.phase.booting = false
  | .logWrite op b _ => op ∈ w.hist.active ∧ ¬ c.IsLog b
  | .endOp op => op ∈ w.hist.active
  | _ => True

def record (w : World) : Event → Hist
  | .beginOp op => { w.hist with begun := op :: w.hist.begun, active := op :: w.hist.active }
  | .logWrite op b data =>
    { w.hist with
      written := w.hist.written ++ [⟨op, b, data⟩]
      pending := w.hist.pending ++ [⟨op, b, data⟩] }
  | .endOp op => { w.hist with active := w.hist.active.erase op, ended := op :: w.hist.ended }
  | .advance =>
    match w.sys.phase with
    | .writeLog tail =>
      -- the loop of `write_log` is over: this step writes the header
      if tail < w.sys.lh.length then w.hist
      else { w.hist with committed := w.hist.committed ++ [w.hist.pending], pending := [] }
    | _ => w.hist
  | .crash => { w.hist with active := [], pending := [] }
  | .load _ => w.hist
  | .evict _ => w.hist

def Step (c : Config) (w : World) (e : Event) (w' : World) : Prop :=
  Legal c w e ∧ step c w.sys e = some w'.sys ∧ w'.hist = record w e

instance (c : Config) (w : World) (e : Event) : Decidable (Legal c w e) :=
  match e with
  | .beginOp _ => inferInstanceAs (Decidable (_ ∧ _))
  | .logWrite _ _ _ => inferInstanceAs (Decidable (_ ∧ _))
  | .endOp _ => inferInstanceAs (Decidable (_ ∈ _))
  | .advance => inferInstanceAs (Decidable True)
  | .load _ => inferInstanceAs (Decidable True)
  | .evict _ => inferInstanceAs (Decidable True)
  | .crash => inferInstanceAs (Decidable True)

/-- the events in order; `none` when one is not legal or not enabled -/
def runEvents (c : Config) : World → List Event → Option World
  | w, [] => some w
  | w, e :: l =>
    if Legal c w e then
      match step c w.sys e with
      | none => none
      | some s => runEvents c ⟨s, record w e⟩ l
    else none

/-! ## groups -/

/-- the writes of a group, first to last -/
def applyWrites (ws : List Write) (d : Disk) : Disk :=
  ws.foldl (fun d w => Function.update d w.block w.data) d

def applyGroups (gs : List (List Write)) (d : Disk) : Disk :=
  gs.foldl (fun d g => applyWrites g d) d

def opWrites (op : Nat) (ws : List Write) : List Write := ws.filter (fun w => w.op == op)

end Log
