import Dynarec.Guest.Cpu
import Dynarec.Guest.Memory
import Dynarec.Guest.Preemption

/-! Decoded guest instructions, and the state that running them changes. -/
namespace Dynarec

/-- All that guest code and its helpers can change. -/
structure GuestState where
  cpu : Cpu := {}
  memory : Memory := {}
  events : PreemptionWord := {}

/-- An interpreter routine for instructions without a template. It gets the raw instruction word,
and the program counter is that of the instruction. -/
abbrev Handler := UInt32 → GuestState → GuestState

/-- The routine at a host address. -/
abbrev Handlers := UInt64 → Option Handler

inductive BranchCond where
  /-- Count down and branch while the count is not zero. -/
  | decCtrNonZero
  /-- Branch when the condition bit is set. -/
  | crSet (bit : UInt8)
  /-- Branch when the condition bit is clear. -/
  | crClear (bit : UInt8)
  deriving DecidableEq, Repr

/-- Guest operations. In `addi`, `lwz`, `stw` and `icbi` a base register number of zero stands for
the number zero. -/
inductive Op where
  | li (rd : UInt8) (imm : Int16)
  | addi (rd ra : UInt8) (imm : Int16)
  | add (rd ra rb : UInt8)
  | subf (rd ra rb : UInt8)
  | mullw (rd ra rb : UInt8)
  | and (ra rs rb : UInt8)
  | or (ra rs rb : UInt8)
  | xor (ra rs rb : UInt8)
  | ori (ra rs : UInt8) (imm : UInt16)
  | xori (ra rs : UInt8) (imm : UInt16)
  | lwz (rd ra : UInt8) (d : Int16)
  | stw (rs ra : UInt8) (d : Int16)
  /-- A load from an address that is known when the block is made. -/
  | lwzAbs (rd : UInt8) (addr : UInt32)
  /-- A store to an address that is known when the block is made. -/
  | stwAbs (rs : UInt8) (addr : UInt32)
  | cmpw (field ra rb : UInt8)
  | cmplw (field ra rb : UInt8)
  | cmpwi (field ra : UInt8) (imm : Int16)
  | cmplwi (field ra : UInt8) (imm : UInt16)
  | mtctr (rs : UInt8)
  | mtlr (rs : UInt8)
  | mfctr (rd : UInt8)
  | mflr (rd : UInt8)
  /-- A call of the interpreter routine at a host address. -/
  | call (handler : UInt64) (opcode : UInt32)
  | b (target : UInt32)
  | bl (target : UInt32)
  | bc (cond : BranchCond) (target : UInt32)
  | blr
  | bctr
  | sc
  | icbi (ra rb : UInt8)
  deriving DecidableEq, Repr

/-- The operation ends a basic block. -/
def Op.isTerminal : Op → Bool
  | .b _ | .bl _ | .bc _ _ | .blr | .bctr | .sc | .icbi _ _ => true
  | _ => false

structure Insn where
  pc : UInt32
  op : Op
  deriving DecidableEq, Repr

/-- The address of the instruction behind this one. -/
def Insn.next (i : Insn) : UInt32 := i.pc + 4

/-- The instructions up to and including the first that ends a basic block. -/
def basicBlock : List Insn → List Insn
  | [] => []
  | i :: rest => if i.op.isTerminal then [i] else i :: basicBlock rest

/-- A signed immediate as a register word. -/
def signedWord (imm : Int16) : UInt32 := imm.toInt32.toUInt32

end Dynarec
