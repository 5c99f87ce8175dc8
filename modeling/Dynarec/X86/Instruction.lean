import Dynarec.X86.Register

/-! The host instructions that templates are made of. -/
namespace Dynarec.X86

/-- Operand sizes of 32 and 64 bits. -/
inductive Size where
  | dword
  | qword
  deriving DecidableEq, Repr

/-- A register, or memory at a base register plus an index register plus a displacement. -/
inductive Operand where
  | reg (r : Reg)
  | mem (base : Reg) (index : Option Reg) (disp : UInt64)
  deriving DecidableEq, Repr

/-- Where an instruction takes a value from. -/
inductive Source where
  | operand (o : Operand)
  | imm (v : UInt64)
  deriving DecidableEq, Repr

/-- Two-operand arithmetic. -/
inductive AluOp where
  | add
  | or
  | and
  | sub
  | xor
  /-- Subtraction that keeps the flags only. -/
  | cmp
  deriving DecidableEq, Repr

inductive Cond where
  /-- Unsigned less. -/
  | below
  | equal
  | notEqual
  /-- Unsigned greater. -/
  | above
  /-- Signed less. -/
  | less
  /-- Signed greater. -/
  | greater
  deriving DecidableEq, Repr

inductive ShiftDir where
  | left
  | right
  deriving DecidableEq, Repr

/-- Displacements of jumps and calls count from the end of the instruction. -/
inductive Instr where
  | push (r : Reg)
  | pop (r : Reg)
  | mov (size : Size) (dst : Operand) (src : Source)
  | alu (op : AluOp) (size : Size) (dst : Operand) (src : Source)
  | test (size : Size) (left : Operand) (right : Source)
  | imul (dst : Reg) (src : Operand)
  | shift (dir : ShiftDir) (size : Size) (r : Reg) (count : UInt8)
  | bswap (r : Reg)
  /-- The low byte of the register becomes one or zero. -/
  | set (cond : Cond) (r : Reg)
  /-- The low byte of a register, zero extended. -/
  | movzx (dst src : Reg)
  | dec (dst : Operand)
  | jmp (disp : Int)
  | jcc (cond : Cond) (disp : Int)
  | jmpTo (target : Operand)
  | call (disp : Int)
  | callTo (target : Operand)
  | ret
  deriving DecidableEq, Repr

end Dynarec.X86
