import Dynarec.Guest.Instruction

/-! Interpreter routines that a guest program can call. -/
namespace Dynarec

inductive Routine where
  | nop
  /-- Notes the instruction word, the program counter and three times register 3 in registers 10 to
  12. -/
  | record
  /-- Raises the events of the instruction word. -/
  | raise
  /-- Counts register 31 down, and raises the events of the instruction word at zero. -/
  | countdown
  /-- Changes the special registers by the instruction word. -/
  | special
  /-- The instruction word becomes the program counter. -/
  | setPc
  deriving DecidableEq, Repr

namespace Routine

def all : List Routine := [.nop, .record, .raise, .countdown, .special, .setPc]

def handler : Routine → Handler
  | .nop => fun _ s => s
  | .record => fun word s =>
    let c := s.cpu
    { s with cpu := ((c.set (.gpr 10) word).set (.gpr 11) c.pc).set (.gpr 12) (c.gpr[3] * 3) }
  | .raise => fun word s => { s with events := s.events.set word }
  | .countdown => fun word s =>
    let left := s.cpu.gpr[31] - 1
    let s := { s with cpu := s.cpu.set (.gpr 31) left }
    if left = 0 then { s with events := s.events.set word } else s
  | .special => fun word s =>
    let c := s.cpu
    { s with cpu := { c with
      xer := c.xer ^^^ word
      cr := (c.cr <<< 4) ||| (c.cr >>> 28)
      lr := c.lr + word } }
  | .setPc => fun word s => { s with cpu := s.cpu.set .pc word }

end Routine
end Dynarec
