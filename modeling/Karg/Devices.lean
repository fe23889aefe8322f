import Karg.Kalloc
import Karg.ProcTable
import Karg.Tty
import Karg.Uart
import Karg.Vm

namespace Karg.Devices

open ByteMemory KernelMemory Kalloc Tty Uart Vm ProcTable

def driverDevCapacity : Nat := 8

def intrIsrCapacity : Nat := 256

def ttySinkCapacity : Nat := 4

def ttyCtrlBlkSize : Nat := 136

inductive Driver
  | tty
  | uart
  deriving DecidableEq

structure Dev where
  driver : Driver
  num : Nat
  deriving DecidableEq

structure DevNode where
  name : Nat
  addr : Nat
  irq : Nat
  regSize : Nat

section Intr

variable {H : Type}

structure Isr (H : Type) where
  irq : Nat
  isr : H
  data : Nat

structure Isrs (H : Type) where
  isrs : Nat → Isr H
  nrIsrs : Nat

def intrRegisterIsr (t : Isrs H) (irq : Nat) (isr : H) (data : Nat) : Isrs H × Int :=
  if t.nrIsrs ≥ intrIsrCapacity then (t, -eagain)
  else (⟨Function.update t.isrs t.nrIsrs ⟨irq, isr, data⟩, t.nrIsrs + 1⟩, 0)

def intrIsr (t : Isrs H) (irq : Nat) : Option (H × Nat) :=
  ((List.range t.nrIsrs).find? fun i => (t.isrs i).irq = irq).map fun i => ((t.isrs i).isr, (t.isrs i).data)

end Intr

structure Plic where
  baseAddr : Nat
  regs : Nat → BitVec 32
  sie : BitVec 64

def csrSieSeie : BitVec 64 := 0x200

def intrPrio (irq : Nat) : Nat := irq * 4 % 2 ^ 32

def intrEnable (irq : Nat) : Nat := 0x2080 + irq / 32 * 4

def prioThreshold : Nat := 0x201000

def Plic.reg (p : Plic) (reg : Nat) : Nat := usizeAdd p.baseAddr reg

def Plic.set (p : Plic) (reg : Nat) (val : BitVec 32) : Plic :=
  { p with regs := Function.update p.regs (p.reg reg) val }

def plicEnableIrq (p : Plic) (irq : Nat) : Plic :=
  let p := p.set (intrEnable irq) (p.regs (p.reg (intrEnable irq)) ||| (1 : BitVec 32) <<< (irq % 32))
  p.set (intrPrio irq) 1

inductive Handler
  | uart

structure CtrlBlk where
  addr : Nat
  regSize : Nat

def ier : Nat := 1

def rbr : Nat := 0

def ierErbfi : UInt8 := 0x01

structure Terminal where
  src : Dev
  sinks : Nat → Dev
  nrSinks : Nat
  tty : TtyCtrlBlk

/-- The state of the drivers. A terminal lies at the address of its control
block; `regs` are the registers of the serial lines. -/
structure Board where
  plic : Plic
  isrs : Isrs Handler
  ctrlBlks : Nat → CtrlBlk
  nrDevs : Nat
  regs : Nat → UInt8
  lines : Nat → Line
  heap : Heap
  ttyCtrlBlks : Nat → Nat
  terminals : Nat → Terminal

namespace Board

def setTerminal (b : Board) (ptr : Nat) (t : Terminal) : Board :=
  { b with terminals := Function.update b.terminals ptr t }

def reg (b : Board) (num reg : Nat) : Nat := usizeAdd (b.ctrlBlks num).addr ((b.ctrlBlks num).regSize * reg)

end Board

section Registration

variable (sym : Symbols) (fuel : Nat)

def ttyInitCtrlBlk (b : Board) (ptr : Nat) : Option (Board × Int) := do
  let (heap, rxBuf) ← kmalloc sym fuel b.heap ttyBufSize
  let b := { b with heap := heap }
  if rxBuf = nullptr then some (b, -enomem)
  else
    let t := b.terminals ptr
    some (b.setTerminal ptr { t with tty := { t.tty with rxHead := 0, rxTail := 0, val := 0, waitQueue := [] } }, 0)

def lazyInitCtrlBlk (b : Board) (num : Nat) : Option (Board × Int) :=
  if num ≥ driverDevCapacity then some (b, -eagain)
  else if b.ttyCtrlBlks num ≠ nullptr then some (b, 0)
  else do
    let (heap, ptr) ← kmalloc sym fuel b.heap ttyCtrlBlkSize
    let b := { b with heap := heap }
    if ptr = nullptr then some (b, -enomem)
    else
      let t := b.terminals ptr
      let b := b.setTerminal ptr { t with nrSinks := 0, tty := { t.tty with cursorPos := 0 } }
      let (b, res) ← ttyInitCtrlBlk sym fuel b ptr
      if res < 0 then some (b, res)
      else some ({ b with ttyCtrlBlks := Function.update b.ttyCtrlBlks num ptr }, 0)

def ldiscRegisterSrc (b : Board) (num : Nat) (dev : Dev) : Option (Board × Int) := do
  let (b, res) ← lazyInitCtrlBlk sym fuel b num
  if res < 0 then some (b, res)
  else
    let t := b.terminals (b.ttyCtrlBlks num)
    some (b.setTerminal (b.ttyCtrlBlks num) { t with src := dev }, 0)

def ldiscRegisterSink (b : Board) (num : Nat) (dev : Dev) : Option (Board × Int) := do
  let (b, res) ← lazyInitCtrlBlk sym fuel b num
  if res < 0 then some (b, res)
  else
    let t := b.terminals (b.ttyCtrlBlks num)
    if t.nrSinks ≥ ttySinkCapacity then some (b, -eagain)
    else
      some (b.setTerminal (b.ttyCtrlBlks num)
        { t with sinks := Function.update t.sinks t.nrSinks dev, nrSinks := t.nrSinks + 1 }, 0)

def uartInitDev (b : Board) (node : DevNode) : Option (Board × Int) :=
  if b.nrDevs ≥ driverDevCapacity then some (b, -eagain)
  else do
    let num := b.nrDevs
    let b := { b with nrDevs := num + 1, ctrlBlks := Function.update b.ctrlBlks num ⟨node.addr, node.regSize⟩ }
    let b := { b with regs := Function.update b.regs (b.reg num ier) ierErbfi }
    let b := { b with plic := plicEnableIrq b.plic node.irq }
    let (isrs, res) := intrRegisterIsr b.isrs node.irq .uart num
    let b := { b with isrs := isrs }
    if res < 0 then some (b, res)
    else
      let (b, res) ← ldiscRegisterSrc sym fuel b num ⟨.uart, num⟩
      if res < 0 then some (b, res)
      else
        let (b, res) ← ldiscRegisterSink sym fuel b num ⟨.uart, num⟩
        if res < 0 then some (b, res) else some (b, 0)

end Registration

def plicInitDev (b : Board) (node : DevNode) : Board × Int :=
  let p := { b.plic with baseAddr := node.addr, sie := b.plic.sie ||| csrSieSeie }
  ({ b with plic := p.set prioThreshold 0 }, 0)

section Output

def sinkLoop (devWrite : Board → Dev → Option (Board × Int)) (sinks : Nat → Dev) (size : Nat) (b : Board) (i : Nat) :
    Nat → Option (Board × Int)
  | 0 => some (b, size)
  | n + 1 => do
      let (b, res) ← devWrite b (sinks i)
      if res < 0 then some (b, res) else sinkLoop devWrite sinks size b (i + 1) n

/-- `dev_write` for both drivers. A terminal may be a sink of another one. -/
def devWrite (b : Board) (dev : Dev) (buf : List UInt8) : Nat → Option (Board × Int)
  | 0 => none
  | fuel + 1 =>
      match dev.driver with
      | .uart => do
          let line ← Uart.write (fuel + 1) (b.lines dev.num) buf
          some ({ b with lines := Function.update b.lines dev.num line }, buf.length)
      | .tty =>
          if dev.num ≥ driverDevCapacity ∨ b.ttyCtrlBlks dev.num = nullptr then some (b, -enxio)
          else
            let t := b.terminals (b.ttyCtrlBlks dev.num)
            sinkLoop (fun b dev => devWrite b dev buf fuel) t.sinks buf.length b 0 t.nrSinks

/-- `ldisc_write`, which does not check its number. -/
def ldiscWrite (fuel : Nat) (b : Board) (num : Nat) (buf : List UInt8) : Option (Board × Int) :=
  let t := b.terminals (b.ttyCtrlBlks num)
  sinkLoop (fun b dev => devWrite b dev buf fuel) t.sinks buf.length b 0 t.nrSinks

/-- `ldisc_recv_byte` of a terminal, whose null pointer it would follow. What the
terminal echoes goes to its sinks. -/
def ldiscRecvByte (fuel : Nat) (b : Board) (num : Nat) (byte : UInt8) : Option Board :=
  if b.ttyCtrlBlks num = nullptr then none
  else do
    let t := b.terminals (b.ttyCtrlBlks num)
    let tty ← Tty.ldiscRecvByte t.tty byte
    let b := b.setTerminal (b.ttyCtrlBlks num) { t with tty := tty }
    let echo := tty.echo.drop t.tty.echo.length
    if echo = [] then some b
    else do
      let (b, _) ← ldiscWrite fuel b num echo
      some b

/-- The branch of `trap_handler` for an external interrupt, given what PLIC and
the registers RBR of the lines hold. -/
def extIntr (fuel : Nat) (b : Board) (irq : Nat) (rbr : Nat → UInt8) : Option Board :=
  match intrIsr b.isrs irq with
  | some (.uart, num) => ldiscRecvByte fuel b num (rbr num)
  | none => some b

end Output

end Karg.Devices
