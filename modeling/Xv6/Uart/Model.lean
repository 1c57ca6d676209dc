import Xv6.Lib.RingBuf
import Xv6.Lib.Run

/-!
# Serial output (`kernel/uart.c`)

Writers send their texts with `uartputc`, as `consolewrite` does; each CPU may send bytes with
`uartputc_sync`, as `printf` and the echo of the console do.  `uart_tx_lock` guards the ring and is
taken by the writers and by `uartintr`; who has it is in `uartstart`.  `uartputc_sync` takes no
lock: between its test of `LSR_TX_IDLE` and its byte, `uartstart` may send one, and the other way
round.

The device keeps the bytes that it is given, up to 16, and sends one at a time; `LSR_TX_IDLE` says
that it has none.  When it has sent the last one it raises an interrupt.  `rx` interrupts have
another reason: there is input, or the PLIC has kept one that the device took back.  `panicked` is
not set.
-/

namespace Uart
open Lib

def uartTxBufSize : Nat := 32

/-- `uint64` counts modulo this -/
def word : Nat := 18446744073709551616

def ncpu : Nat := 8

/-- the bytes that the device takes (`FCR_FIFO_ENABLE`) -/
def depth : Nat := 16

theorem bufSize_lt : uartTxBufSize < word := by decide

theorem bufSize_dvd : uartTxBufSize ∣ word := by decide

/-- where the holder of `uart_tx_lock` is -/
inductive Tx (β : Type*) where
  | free
  /-- at the head of the loop of `uartstart` -/
  | loop
  /-- before `WriteReg(THR, c)` -/
  | write (c : β)

structure State (ι β : Type*) where
  /-- `uart_tx_buf`, `uart_tx_r`, `uart_tx_w` -/
  buf : RingBuf β
  tx : Tx β
  /-- what each writer has left -/
  text : ι → List β
  /-- the writers in `sleep(&uart_tx_r, &uart_tx_lock)` -/
  asleep : ι → Bool
  /-- `uartintr` was entered, and wants the lock -/
  intr : Bool
  pending : Bool
  rx : Nat
  /-- what the device has, and what it has sent -/
  fifo : List β
  line : List β
  /-- what each CPU has left for `uartputc_sync` -/
  sync : Fin ncpu → List β
  /-- the CPUs that saw `LSR_TX_IDLE` and have not sent their byte yet -/
  seen : Fin ncpu → Bool

variable {ι β : Type*}

def start (data : Nat → β) (text : ι → List β) (sync : Fin ncpu → List β) (rx : Nat) :
    State ι β where
  buf := ⟨data, 0, 0⟩
  tx := .free
  text := text
  asleep := fun _ => false
  intr := false
  pending := false
  rx := rx
  fifo := []
  line := []
  sync := sync
  seen := fun _ => false

/-- `WriteReg(THR, c)`, which takes the interrupt back.  A byte that the device has no room for is
lost -/
def State.thr (s : State ι β) (c : β) : State ι β :=
  { s with fifo := if s.fifo.length < depth then s.fifo ++ [c] else s.fifo, pending := false }

/-- `uartputc` by writer `i`, up to its `sleep` or to `uartstart` -/
def uartputc [DecidableEq ι] (s : State ι β) (i : ι) : Option (State ι β) :=
  match s.tx, s.asleep i, s.text i with
  | .free, false, c :: rest =>
    if s.buf.nwrite = (s.buf.nread + uartTxBufSize) % word then
      some { s with asleep := Function.update s.asleep i true }
    else
      some { s with
        buf := s.buf.push word uartTxBufSize c
        text := Function.update s.text i rest
        tx := .loop }
  | _, _, _ => none

/-- a piece of `uartstart` -/
def uartstart (s : State ι β) : Option (State ι β) :=
  match s.tx with
  | .free => none
  | .loop =>
    if s.buf.nread = s.buf.nwrite then some { s with tx := .free }
    else if s.fifo.isEmpty then
      some { s with
        buf := s.buf.pop word
        asleep := fun _ => false
        tx := .write (s.buf.data (s.buf.nread % uartTxBufSize)) }
    else some { s with tx := .free }
  | .write c => some { s.thr c with tx := .loop }

/-- an interrupt is taken; the PLIC gives no other one meanwhile -/
def interrupt (s : State ι β) : Option (State ι β) :=
  if s.intr = false ∧ (s.pending = true ∨ 0 < s.rx) then
    some { s with intr := true, pending := false, rx := s.rx - 1 }
  else none

/-- `uartintr` behind its `acquire` -/
def uartintr (s : State ι β) : Option (State ι β) :=
  match s.tx, s.intr with
  | .free, true => some { s with intr := false, tx := .loop }
  | _, _ => none

/-- the device sends a byte -/
def transmit (s : State ι β) : Option (State ι β) :=
  match s.fifo with
  | [] => none
  | c :: rest =>
    some { s with fifo := rest, line := s.line ++ [c], pending := s.pending || rest.isEmpty }

/-- a piece of `uartputc_sync` on CPU `k` -/
def uartputcSync (s : State ι β) (k : Fin ncpu) : Option (State ι β) :=
  match s.sync k, s.seen k with
  | [], _ => none
  | _ :: _, false =>
    if s.fifo.isEmpty then some { s with seen := Function.update s.seen k true } else none
  | c :: rest, true =>
    some { s.thr c with
      sync := Function.update s.sync k rest
      seen := Function.update s.seen k false }

inductive Action (ι : Type*) where
  | uartputc (i : ι)
  | uartstart
  | interrupt
  | uartintr
  | transmit
  | uartputcSync (k : Fin ncpu)

def next [DecidableEq ι] (s : State ι β) : Action ι → Option (State ι β)
  | .uartputc i => uartputc s i
  | .uartstart => uartstart s
  | .interrupt => interrupt s
  | .uartintr => uartintr s
  | .transmit => transmit s
  | .uartputcSync k => uartputcSync s k

def Step [DecidableEq ι] (s : State ι β) (a : Action ι) (t : State ι β) : Prop := next s a = some t

end Uart
