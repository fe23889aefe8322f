import Karg.ProcStack

namespace Karg.Log

open ByteMemory ProcStack

def logBufSize : Nat := 4096

structure State where
  inited : Bool
  logBuf : Nat → UInt8
  logHead : Nat
  logTail : Nat
  devWrites : List (List UInt8)

def devWrite (l : State) (buf : List UInt8) : State := { l with devWrites := l.devWrites ++ [buf] }

def writeByte (l : State) (byte : UInt8) : State :=
  let l := { l with logBuf := Function.update l.logBuf l.logTail byte, logTail := (l.logTail + 1) % logBufSize }
  if l.logTail = l.logHead then { l with logHead := (l.logHead + 1) % logBufSize } else l

def write (l : State) (str : List UInt8) : State :=
  if l.inited then devWrite l str else str.foldl writeByte l

def flush (l : State) : State :=
  let l := devWrite l ((List.range' l.logHead (logBufSize - l.logHead)).map l.logBuf)
  if l.logTail < l.logHead then devWrite l ((List.range l.logTail).map l.logBuf) else l

def init (l : State) : State := { flush l with inited := true }

/-- The addresses of format bytes that `kvprintf` reads, and the buffers that it
gives to `write`. -/
structure Trace where
  reads : List Nat
  writes : List (List UInt8)

def Trace.read (t : Trace) (a : Nat) : Trace := { t with reads := t.reads ++ [a] }

def Trace.write (t : Trace) (str : List UInt8) : Trace := { t with writes := t.writes ++ [str] }

def hexDigit (nibble : Nat) : UInt8 :=
  if nibble < 10 then UInt8.ofNat (nibble + 48) else UInt8.ofNat (nibble - 10 + 65)

def pointerDigits (addr : Nat) : List UInt8 :=
  ((List.range 16).map fun i => hexDigit (addr >>> (i * 4) &&& 0xF)).reverse

def bytes (m : Memory) (a n : Nat) : List UInt8 := (List.range' a n).map m.byte

/-- The arguments are the words that `va_arg` returns one after the other. -/
def kvprintf (m : Memory) (t : Trace) (fmt : Nat) (args : List Nat) (fuel : Nat) : Option Trace :=
  match fuel with
  | 0 => none
  | fuel + 1 =>
      let t := t.read fmt
      if m.byte fmt = 0 then some t
      else if m.byte fmt = 0x25 then
        let fmt := fmt + 1
        let t := t.read fmt
        if m.byte fmt = 0x73 then
          match args with
          | [] => none
          | str :: args => do
              let len ← strLen fuel m str
              kvprintf m (t.write (bytes m str len)) (fmt + 1) args fuel
        else if m.byte fmt = 0x70 then
          match args with
          | [] => none
          | addr :: args => kvprintf m (t.write (pointerDigits addr)) (fmt + 1) args fuel
        else kvprintf m t (fmt + 1) args fuel
      else kvprintf m (t.write (bytes m fmt 1)) (fmt + 1) args fuel

end Karg.Log
