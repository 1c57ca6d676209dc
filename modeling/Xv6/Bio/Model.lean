import Mathlib.Algebra.GroupWithZero.Nat
import Mathlib.Data.Fintype.Basic
import Xv6.Lib.Circ
import Xv6.Lib.Run
import Xv6.Log.Model

/-!
# The buffer cache (`kernel/bio.c`) under the log

`NBUF` buffers on a circular list, with reference counts and sleep locks.  Any number of processes
call `bread`, `log_write` and `brelse`; `bread` is two steps, `bget` up to `acquiresleep` and the
rest.  The process that ends the last operation is in `commit`, and goes through it one call of the
cache at a time.  A panic and a process that cannot go on are both `none`.
-/

namespace Bio
open Lib
open Log (Config Block Disk putHead logSize maxOpBlocks)

abbrev nbuf : Nat := 30
abbrev nproc : Nat := 64

theorem nproc_ne_zero : nproc ≠ 0 := by decide

instance : NeZero nproc := ⟨nproc_ne_zero⟩
def rootdev : Nat := 1

/-- `struct buf` without its links; `lock` is the process that holds the sleep lock -/
structure Buf where
  valid : Bool
  dev : Nat
  blockno : Nat
  lock : Option (Fin nproc)
  refcnt : Nat
  data : Block

/-- a pointer to a buffer; `none` is `&bcache.head` -/
abbrev Ptr := Option (Fin nbuf)

/-- where a process is in `commit`, with its local variables -/
inductive Pc where
  /-- `write_log`, whose `to` and `from` are `dst` and `src`: the head of the loop, `bread(from)`,
  `bwrite(to)` and the two `brelse` -/
  | writeLog (tail : Nat)
  | logFrom (tail : Nat) (dst : Fin nbuf)
  | logCopy (tail : Nat) (dst src : Fin nbuf)
  | logFreeFrom (tail : Nat) (dst src : Fin nbuf)
  | logFreeTo (tail : Nat) (dst : Fin nbuf)
  /-- `write_head`, the first time or to erase the transaction -/
  | writeHead (erase : Bool)
  | headPut (erase : Bool) (buf : Fin nbuf)
  | headFree (erase : Bool) (buf : Fin nbuf)
  /-- `install_trans`: the head of the loop, `bread(dbuf)`, `bwrite(dbuf)`, `bunpin(dbuf)` and the
  two `brelse` -/
  | install (tail : Nat)
  | installDst (tail : Nat) (lbuf : Fin nbuf)
  | installCopy (tail : Nat) (lbuf dbuf : Fin nbuf)
  | unpin (tail : Nat) (lbuf dbuf : Fin nbuf)
  | freeLbuf (tail : Nat) (lbuf dbuf : Fin nbuf)
  | freeDbuf (tail : Nat) (dbuf : Fin nbuf)
  | done

/-- `wait` is the buffer that a process in `acquiresleep` of `bget` waits for, with the block it
asked for; `commit` is the process in `commit`, if `log.committing` is set; `latest` is a record of
what was logged for each block last -/
structure State where
  buf : Fin nbuf → Buf
  links : DLinks Ptr
  disk : Disk
  wait : Fin nproc → Option (Fin nbuf × Nat)
  lh : List Nat
  outstanding : Nat
  commit : Option (Fin nproc × Pc)
  latest : Disk

/-- the loop of `binit` -/
def binitLinks (bs : List (Fin nbuf)) : DLinks Ptr :=
  bs.foldl (fun k b => k.push none (some b)) (DLinks.init none)

def binit (d : Disk) : State where
  buf := fun _ => ⟨false, 0, 0, none, 0, fun _ => 0⟩
  links := binitLinks (List.finRange nbuf)
  disk := d
  wait := fun _ => none
  lh := []
  outstanding := 0
  commit := none
  latest := d

/-! ## `bio.c` -/

def State.setBuf (s : State) (i : Fin nbuf) (x : Buf) : State :=
  { s with buf := Function.update s.buf i x }

/-- the buffers in the order in which a loop of `bget` meets them -/
def scan (nxt : Ptr → Ptr) : List (Fin nbuf) := (walk nxt none nbuf (nxt none)).reduceOption

/-- process `p` waits for the lock of buffer `i`, to have block `b` -/
def State.await (s : State) (p : Fin nproc) (i : Fin nbuf) (b : Nat) : State :=
  { s with wait := Function.update s.wait p (some (i, b)) }

/-- `bget(ROOTDEV, b)` up to `acquiresleep` -/
def State.bget (s : State) (p : Fin nproc) (b : Nat) : Option (Fin nbuf × State) :=
  match (scan s.links.next).find? (fun i => (s.buf i).dev = rootdev ∧ (s.buf i).blockno = b) with
  | some i => some (i, (s.setBuf i { s.buf i with refcnt := (s.buf i).refcnt + 1 }).await p i b)
  | none =>
    match (scan s.links.prev).find? (fun i => (s.buf i).refcnt = 0) with
    | some i =>
      some (i, (s.setBuf i { s.buf i with
        dev := rootdev, blockno := b, valid := false, refcnt := 1 }).await p i b)
    | none => none

/-- the rest of `bread`: `acquiresleep`, and the read from disk if the buffer is not valid -/
def State.acquire (s : State) (p : Fin nproc) : Option State :=
  match s.wait p with
  | none => none
  | some (i, _) =>
    let b := s.buf i
    if b.lock = none then
      some { s.setBuf i { b with
          lock := some p
          data := if b.valid then b.data else s.disk b.blockno
          valid := true } with
        wait := Function.update s.wait p none }
    else none

/-- the buffer is filled with `x`; `bwrite` -/
def State.bwrite (s : State) (p : Fin nproc) (i : Fin nbuf) (x : Block) : Option State :=
  if (s.buf i).lock = some p then
    some { s.setBuf i { s.buf i with data := x } with
      disk := Function.update s.disk (s.buf i).blockno x }
  else none

def State.brelse (s : State) (p : Fin nproc) (i : Fin nbuf) : Option State :=
  if (s.buf i).lock = some p then
    let s := s.setBuf i { s.buf i with lock := none, refcnt := (s.buf i).refcnt - 1 }
    if (s.buf i).refcnt = 0 then
      some { s with links := (s.links.unlink (some i)).push none (some i) }
    else some s
  else none

def State.bpin (s : State) (i : Fin nbuf) : State :=
  s.setBuf i { s.buf i with refcnt := (s.buf i).refcnt + 1 }

def State.bunpin (s : State) (i : Fin nbuf) : State :=
  s.setBuf i { s.buf i with refcnt := (s.buf i).refcnt - 1 }

/-! ## `log.c` -/

/-- a process that holds buffer `i` changes it to `x` and calls `log_write` -/
def State.logWrite (c : Config) (s : State) (p : Fin nproc) (i : Fin nbuf) (x : Block) :
    Option State :=
  let b := (s.buf i).blockno
  if (s.buf i).lock ≠ some p then none
  else if s.lh.length ≥ logSize ∨ s.lh.length ≥ c.size - 1 then none
  else if s.outstanding < 1 then none
  else
    let s : State :=
      { s.setBuf i { s.buf i with data := x } with latest := Function.update s.latest b x }
    if b ∈ s.lh then some s else some { s.bpin i with lh := s.lh ++ [b] }

def State.beginOp (s : State) : Option State :=
  if s.commit.isSome then none
  else if s.lh.length + (s.outstanding + 1) * maxOpBlocks > logSize then none
  else some { s with outstanding := s.outstanding + 1 }

/-- the last operation commits -/
def State.endOp (s : State) (p : Fin nproc) : Option State :=
  let s := { s with outstanding := s.outstanding - 1 }
  if s.commit.isSome then none
  else if s.outstanding = 0 then
    some { s with commit := some (p, if s.lh.length > 0 then .writeLog 0 else .done) }
  else some s

def State.goto (s : State) (p : Fin nproc) (pc : Pc) : State := { s with commit := some (p, pc) }

/-- process `p` is in `commit`, and does one call more -/
def advance (c : Config) (s : State) (p : Fin nproc) : Pc → Option State
  | .writeLog tail =>
    if tail < s.lh.length then
      (s.bget p (c.start + tail + 1)).map (fun r => r.2.goto p (.logFrom tail r.1))
    else some (s.goto p (.writeHead false))
  | .logFrom tail dst => (s.bget p (s.lh.getD tail 0)).map (fun r => r.2.goto p (.logCopy tail dst r.1))
  | .logCopy tail dst src =>
    (s.bwrite p dst (s.buf src).data).map (fun s => s.goto p (.logFreeFrom tail dst src))
  | .logFreeFrom tail dst src => (s.brelse p src).map (fun s => s.goto p (.logFreeTo tail dst))
  | .logFreeTo tail dst => (s.brelse p dst).map (fun s => s.goto p (.writeLog (tail + 1)))
  | .writeHead erase => (s.bget p c.start).map (fun r => r.2.goto p (.headPut erase r.1))
  | .headPut erase buf =>
    (s.bwrite p buf (putHead (s.buf buf).data s.lh)).map (fun s => s.goto p (.headFree erase buf))
  | .headFree erase buf =>
    (s.brelse p buf).map (fun s => s.goto p (if erase then .done else .install 0))
  | .install tail =>
    if tail < s.lh.length then
      (s.bget p (c.start + tail + 1)).map (fun r => r.2.goto p (.installDst tail r.1))
    else some ({ s with lh := [] }.goto p (.writeHead true))
  | .installDst tail lbuf =>
    (s.bget p (s.lh.getD tail 0)).map (fun r => r.2.goto p (.installCopy tail lbuf r.1))
  | .installCopy tail lbuf dbuf =>
    (s.bwrite p dbuf (s.buf lbuf).data).map (fun s => s.goto p (.unpin tail lbuf dbuf))
  | .unpin tail lbuf dbuf => some ((s.bunpin dbuf).goto p (.freeLbuf tail lbuf dbuf))
  | .freeLbuf tail lbuf dbuf => (s.brelse p lbuf).map (fun s => s.goto p (.freeDbuf tail dbuf))
  | .freeDbuf tail dbuf => (s.brelse p dbuf).map (fun s => s.goto p (.install (tail + 1)))
  | .done => some { s with commit := none }

/-! ## the machine -/

inductive Event where
  | bread (b : Nat)
  /-- a process in `bread` has the lock -/
  | acquire
  | logWrite (i : Fin nbuf) (x : Block)
  | brelse (i : Fin nbuf)
  | beginOp
  | endOp
  | commit

/-- `p` is neither in `bread` nor in `commit` -/
def State.Ready (s : State) (p : Fin nproc) : Prop :=
  s.wait p = none ∧ s.commit.map Prod.fst ≠ some p

instance (s : State) (p : Fin nproc) : Decidable (s.Ready p) := inferInstanceAs (Decidable (_ ∧ _))

def step (c : Config) (s : State) (p : Fin nproc) : Event → Option State
  | .acquire => s.acquire p
  | .commit =>
    match s.commit with
    | some (q, pc) => if q = p ∧ s.wait p = none then advance c s p pc else none
    | none => none
  | .bread b => if s.Ready p then (s.bget p b).map Prod.snd else none
  | .logWrite i x =>
    -- nobody logs a block of the log
    if s.Ready p ∧ ¬ c.IsLog (s.buf i).blockno then s.logWrite c p i x else none
  | .brelse i => if s.Ready p then s.brelse p i else none
  | .beginOp => if s.Ready p then s.beginOp else none
  | .endOp =>
    -- only behind `begin_op`
    if s.Ready p ∧ 0 < s.outstanding then s.endOp p else none

def Step (c : Config) (s : State) (e : Fin nproc × Event) (t : State) : Prop :=
  step c s e.1 e.2 = some t

end Bio
