import Xv6.Lib.RingBuf
import Xv6.Lib.Run

/-!
# The disk driver (`virtio_disk.c`) and its device

A step is what a process does in `virtio_disk_rw` between two calls of `sleep`, a round of the loop
of `virtio_disk_intr` (both have `disk.vdisk_lock`), or a step of the device: it fetches a chain
from the ring `avail`, and it carries out any of the chains that it has fetched, reading the
descriptors as they are then, and puts it into the ring `used`.  The device has every sector and
reports success (`virtio_disk_intr` panics on an error).  A process that sleeps may be woken up at
any time.  A sector has contents of a type `S`; a `struct buf` holds two.
-/

namespace Virtio
open Lib

/-- `NUM`, the number of descriptors and of cells of each ring -/
def num : Nat := 8

/-- `uint16` counts modulo this -/
def half : Nat := 65536

/-- `uint` counts modulo this -/
def word : Nat := 4294967296

/-- `sizeof(struct virtio_blk_req)`, `BSIZE` -/
def reqSize : Nat := 16
def bsize : Nat := 1024

/-- what `desc[i].addr` points to: `ops[i]`, `b->data`, `info[i].status` -/
inductive Addr (B : Type) where
  | null
  | op (i : Nat)
  | data (b : B)
  | status (i : Nat)

/-- `struct virtq_desc`; `write` and `chained` are the flags `VRING_DESC_F_WRITE` and `_NEXT` -/
structure Desc (B : Type) where
  addr : Addr B
  len : Nat
  write : Bool
  chained : Bool
  next : Nat

/-- `struct virtio_blk_req`; `out` is `type == VIRTIO_BLK_T_OUT` -/
structure Op where
  out : Bool
  sector : Nat

structure Info (B : Type) where
  b : Option B
  status : UInt8

/-- `struct buf`, as far as the driver goes -/
structure Buf (S : Type) where
  blockno : Nat
  disk : Bool
  data : S × S

inductive Pc (B : Type) where
  | out
  /-- in `sleep(&disk.free[0])` -/
  | alloc (b : B) (write : Bool)
  /-- in `sleep(b)`, with `idx[0]` -/
  | wait (b : B) (idx : Nat)

/-- `nread` of `avail` is what the device has fetched, `nread` of `used` is `disk.used_idx`;
`fetched` are the chains that the device works on, `sectors` is the disk -/
structure State (T B S : Type) where
  desc : Nat → Desc B
  avail : RingBuf Nat
  used : RingBuf Nat
  free : Nat → Bool
  info : Nat → Info B
  ops : Nat → Op
  buf : B → Buf S
  thread : T → Pc B
  fetched : List Nat
  sectors : Nat → S

inductive Stop where
  /-- `panic("free_desc 1")` -/
  | freeDesc1
  /-- `panic("free_desc 2")` -/
  | freeDesc2
  /-- `panic("virtio_disk_intr status")` -/
  | intrStatus
  /-- `info[id].b` is a null pointer -/
  | nullBuf
  /-- the device finds a chain that is no request -/
  | device
  /-- nobody can do this here -/
  | undefined
  deriving DecidableEq

inductive Act (T B S : Type) where
  | call (t : T) (b : B) (write : Bool)
  /-- the process is woken up -/
  | wake (t : T)
  /-- a round of the loop of `virtio_disk_intr` -/
  | intr
  | fetch
  | complete (idx : Nat)
  /-- the owner of a buffer changes it -/
  | store (b : B) (blockno : Nat) (data : S × S)

section
variable {T B S : Type} [DecidableEq T] [DecidableEq B]

/-! ## descriptors -/

def allocDesc (s : State T B S) : Option (Nat × State T B S) :=
  ((List.range num).find? s.free).map
    (fun i => (i, { s with free := Function.update s.free i false }))

def zeroDesc : Desc B := ⟨.null, 0, false, false, 0⟩

def freeDesc (s : State T B S) (i : Nat) : Except Stop (State T B S) :=
  if num ≤ i then .error .freeDesc1
  else if s.free i then .error .freeDesc2
  else .ok { s with
    desc := Function.update s.desc i zeroDesc
    free := Function.update s.free i true }

/-- the loop; it frees a descriptor in each round, so it does not take more rounds than this -/
def freeChainLoop : Nat → State T B S → Nat → Except Stop (State T B S)
  | 0, _, _ => .error .undefined
  | n + 1, s, i =>
    let flag := (s.desc i).chained
    let nxt := (s.desc i).next
    (freeDesc s i).bind (fun s => if flag then freeChainLoop n s nxt else .ok s)

def freeChain (s : State T B S) (i : Nat) : Except Stop (State T B S) :=
  freeChainLoop (num + 1) s i

/-- three descriptors, or none; the first are given back if there are not enough -/
def alloc3Desc (s : State T B S) : Except Stop (State T B S × Option (Nat × Nat × Nat)) :=
  match allocDesc s with
  | none => .ok (s, none)
  | some (i, s) =>
    match allocDesc s with
    | none => (freeDesc s i).map (fun s => (s, none))
    | some (j, s) =>
      match allocDesc s with
      | none => ((freeDesc s i).bind (fun s => freeDesc s j)).map (fun s => (s, none))
      | some (k, s) => .ok (s, some (i, j, k))

/-! ## `virtio_disk_rw` -/

/-- the request is handed to the device -/
def submit (s : State T B S) (t : T) (b : B) (write : Bool) (i j k : Nat) : State T B S :=
  { s with
    ops := Function.update s.ops i ⟨write, (s.buf b).blockno * 2 % word⟩
    desc := Function.update (Function.update (Function.update s.desc
      i ⟨.op i, reqSize, false, true, j⟩)
      j ⟨.data b, bsize, !write, true, k⟩)
      k ⟨.status i, 1, true, false, 0⟩
    info := Function.update s.info i ⟨some b, 0xff⟩
    buf := Function.update s.buf b { s.buf b with disk := true }
    avail := s.avail.push half num i
    thread := Function.update s.thread t (.wait b i) }

/-- the loop for the three descriptors -/
def enter (s : State T B S) (t : T) (b : B) (write : Bool) : Except Stop (State T B S) :=
  (alloc3Desc s).map (fun r =>
    match r with
    | (s, some (i, j, k)) => submit s t b write i j k
    | (s, none) => { s with thread := Function.update s.thread t (.alloc b write) })

/-- behind the loop for `b->disk` -/
def finish (s : State T B S) (t : T) (idx : Nat) : Except Stop (State T B S) :=
  (freeChain { s with info := Function.update s.info idx { s.info idx with b := none } } idx).map
    (fun s => { s with thread := Function.update s.thread t .out })

/-- a round of the loop of `virtio_disk_intr` -/
def intr (s : State T B S) : Except Stop (State T B S) :=
  if s.used.nread = s.used.nwrite then .error .undefined
  else
    let id := s.used.data (s.used.nread % num)
    if (s.info id).status ≠ 0 then .error .intrStatus
    else match (s.info id).b with
      | none => .error .nullBuf
      | some b => .ok { s with
          buf := Function.update s.buf b { s.buf b with disk := false }
          used := s.used.pop half }

/-! ## the device -/

def fetch (s : State T B S) : Except Stop (State T B S) :=
  if s.avail.nread = s.avail.nwrite then .error .undefined
  else .ok { s with
    fetched := s.avail.data (s.avail.nread % num) :: s.fetched
    avail := s.avail.pop half }

/-- the request that the chain of `idx` describes: the header, the buffer and the status byte -/
def request (s : State T B S) (idx : Nat) : Option (Op × B × Nat) :=
  let d := s.desc idx
  let e := s.desc d.next
  let f := s.desc e.next
  match d.addr, e.addr, f.addr with
  | .op i, .data b, .status k =>
    if d.len = reqSize ∧ d.write = false ∧ d.chained = true ∧ e.len = bsize ∧
        e.write = !(s.ops i).out ∧ e.chained = true ∧ f.len = 1 ∧ f.write = true ∧
        f.chained = false then
      some (s.ops i, b, k)
    else none
  | _, _, _ => none

/-- the two sectors are read or written -/
def transfer (s : State T B S) (op : Op) (b : B) : State T B S :=
  if op.out then
    { s with
      sectors := Function.update (Function.update s.sectors op.sector (s.buf b).data.1)
        (op.sector + 1) (s.buf b).data.2 }
  else
    { s with
      buf := Function.update s.buf b
        { s.buf b with data := (s.sectors op.sector, s.sectors (op.sector + 1)) } }

/-- the device carries out a request; no request fails -/
def complete (s : State T B S) (idx : Nat) : Except Stop (State T B S) :=
  if idx ∈ s.fetched then
    match request s idx with
    | none => .error .device
    | some (op, b, k) =>
      let s := transfer s op b
      .ok { s with
        info := Function.update s.info k { s.info k with status := 0 }
        fetched := s.fetched.erase idx
        used := s.used.push half num idx }
  else .error .undefined

def step (s : State T B S) (a : Act T B S) : Except Stop (State T B S) :=
  match a with
  | .call t b write =>
    match s.thread t with
    | .out => enter s t b write
    | _ => .error .undefined
  | .wake t =>
    match s.thread t with
    | .out => .error .undefined
    | .alloc b write => enter s t b write
    | .wait b idx => if (s.buf b).disk then .ok s else finish s t idx
  | .intr => intr s
  | .fetch => fetch s
  | .complete idx => complete s idx
  | .store b blockno data =>
    .ok { s with buf := Function.update s.buf b { s.buf b with blockno := blockno, data := data } }

def Step (s : State T B S) (a : Act T B S) (t : State T B S) : Prop := step s a = .ok t

def start (buf : B → Buf S) (sectors : Nat → S) : State T B S where
  desc := fun _ => zeroDesc
  avail := ⟨fun _ => 0, 0, 0⟩
  used := ⟨fun _ => 0, 0, 0⟩
  free := fun _ => true
  info := fun _ => ⟨none, 0⟩
  ops := fun _ => ⟨false, 0⟩
  buf := buf
  thread := fun _ => .out
  fetched := []
  sectors := sectors

def Pc.buf : Pc B → Option B
  | .out => none
  | .alloc b _ => some b
  | .wait b _ => some b

/-- what the callers promise: a process has the sleep lock of its buffer, so no other one uses it,
and the block is one of the first 2^31 -/
def Promised (s : State T B S) (a : Act T B S) : Prop :=
  match a with
  | .call _ b _ => (∀ t, (s.thread t).buf ≠ some b) ∧ (s.buf b).blockno * 2 < word
  | .store b _ _ => ∀ t, (s.thread t).buf ≠ some b
  | _ => True

end

end Virtio
