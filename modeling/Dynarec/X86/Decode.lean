import Dynarec.Width
import Dynarec.X86.Instruction

/-!
Reading instructions from bytes. A decoder returns the instruction and the bytes behind it, and
looks at no byte beyond the instruction.
-/
namespace Dynarec.X86

/-- The bits of a REX prefix: operand size, and the fourth bits of three register numbers. -/
structure Rex where
  w : Bool := false
  r : UInt8 := 0
  x : UInt8 := 0
  b : UInt8 := 0
  deriving DecidableEq, Repr

namespace Rex

def ofByte (p : UInt8) : Rex where
  w := p &&& 8 != 0
  r := (p &&& 4) <<< 1
  x := (p &&& 2) <<< 2
  b := (p &&& 1) <<< 3

def size (p : Rex) : Size := if p.w then .qword else .dword

end Rex

/-- The register of a three-bit field and its fourth bit. -/
def regOf (high low : UInt8) : Reg := .ofNumber (high ||| (low &&& 7))

/-- A little-endian field. -/
def field : Width → List UInt8 → Option (UInt64 × List UInt8)
  | .w8, a :: rest => some (Width.decode [a], rest)
  | .w16, a :: b :: rest => some (Width.decode [a, b], rest)
  | .w32, a :: b :: c :: d :: rest => some (Width.decode [a, b, c, d], rest)
  | .w64, a :: b :: c :: d :: e :: f :: g :: h :: rest =>
    some (Width.decode [a, b, c, d, e, f, g, h], rest)
  | _, _ => none

/-- A signed field. -/
def signedField (w : Width) (bytes : List UInt8) : Option (Int × List UInt8) :=
  (field w bytes).map fun (v, rest) => (w.signExtend v, rest)

/-- A field that is sign extended to a word. -/
def extendedField (w : Width) (bytes : List UInt8) : Option (UInt64 × List UInt8) :=
  (signedField w bytes).map fun (v, rest) => (UInt64.ofInt v, rest)

/-- Base and index of a memory operand. Scaled indices are not used. -/
def indexed (p : Rex) : List UInt8 → Option ((Reg × Option Reg) × List UInt8)
  | [] => none
  | s :: rest =>
    if s >>> 6 = 0 then
      let index := regOf p.x (s >>> 3)
      some ((regOf p.b s, if index = .rsp then none else some index), rest)
    else none

/-- A register field and an operand. Forms without a base register are not used. -/
def modrm (p : Rex) : List UInt8 → Option ((UInt8 × Operand) × List UInt8)
  | [] => none
  | m :: rest =>
    let reg := (m >>> 3) &&& 7
    if m >>> 6 = 3 then some ((reg, .reg (regOf p.b m)), rest)
    else do
      let ((base, index), rest) ←
        if m &&& 7 = 4 then indexed p rest else some ((regOf p.b m, none), rest)
      if m >>> 6 = 0 then
        if base.low3 = 5 then none else some ((reg, .mem base index 0), rest)
      else
        let (disp, rest) ← extendedField (if m >>> 6 = 1 then .w8 else .w32) rest
        some ((reg, .mem base index disp), rest)

/-- The arithmetic that an opcode or a register field selects. -/
def aluOf (n : UInt8) : Option AluOp :=
  match n &&& 7 with
  | 0 => some .add
  | 1 => some .or
  | 4 => some .and
  | 5 => some .sub
  | 6 => some .xor
  | 7 => some .cmp
  | _ => none

def condOf (n : UInt8) : Option Cond :=
  match n &&& 15 with
  | 2 => some .below
  | 4 => some .equal
  | 5 => some .notEqual
  | 7 => some .above
  | 12 => some .less
  | 15 => some .greater
  | _ => none

/-- A register whose low byte has a name without a prefix. -/
def byteReg : Operand → Option Reg
  | .reg .rax => some .rax
  | .reg .rcx => some .rcx
  | .reg .rdx => some .rdx
  | .reg .rbx => some .rbx
  | _ => none

/-- The register of an operand that is one. -/
def Operand.reg? : Operand → Option Reg
  | .reg r => some r
  | .mem _ _ _ => none

/-- Opcodes behind the escape byte. -/
def decodeEscaped (p : Rex) (op : UInt8) (rest : List UInt8) : Option (Instr × List UInt8) :=
  if op &&& 0xF0 = 0x80 then do
    let cond ← condOf op
    let (disp, rest) ← signedField .w32 rest
    some (.jcc cond disp, rest)
  else if op &&& 0xF0 = 0x90 then do
    let cond ← condOf op
    let ((_, dst), rest) ← modrm p rest
    some (.set cond (← byteReg dst), rest)
  else if op = 0xAF then do
    let ((reg, src), rest) ← modrm p rest
    if p.w then none else some (.imul (regOf p.r reg) src, rest)
  else if op = 0xB6 then do
    let ((reg, src), rest) ← modrm p rest
    some (.movzx (regOf p.r reg) (← byteReg src), rest)
  else if op &&& 0xF8 = 0xC8 then
    if p.w then none else some (.bswap (regOf p.b op), rest)
  else none

/-- Opcodes of one byte. -/
def decodePlain (p : Rex) (op : UInt8) (rest : List UInt8) : Option (Instr × List UInt8) :=
  if op < 0x40 then do
    let alu ← aluOf (op >>> 3)
    if op &&& 7 = 1 then
      let ((reg, dst), rest) ← modrm p rest
      some (.alu alu p.size dst (.operand (.reg (regOf p.r reg))), rest)
    else if op &&& 7 = 3 then
      let ((reg, src), rest) ← modrm p rest
      some (.alu alu p.size (.reg (regOf p.r reg)) (.operand src), rest)
    else if op &&& 7 = 5 then
      let (v, rest) ← extendedField .w32 rest
      some (.alu alu p.size (.reg .rax) (.imm v), rest)
    else none
  else if op &&& 0xF8 = 0x50 then some (.push (regOf p.b op), rest)
  else if op &&& 0xF8 = 0x58 then some (.pop (regOf p.b op), rest)
  else if op = 0x81 ∨ op = 0x83 then do
    let ((reg, dst), rest) ← modrm p rest
    let alu ← aluOf reg
    let (v, rest) ← extendedField (if op = 0x81 then .w32 else .w8) rest
    some (.alu alu p.size dst (.imm v), rest)
  else if op = 0x85 then do
    let ((reg, left), rest) ← modrm p rest
    some (.test p.size left (.operand (.reg (regOf p.r reg))), rest)
  else if op = 0x89 then do
    let ((reg, dst), rest) ← modrm p rest
    some (.mov p.size dst (.operand (.reg (regOf p.r reg))), rest)
  else if op = 0x8B then do
    let ((reg, src), rest) ← modrm p rest
    some (.mov p.size (.reg (regOf p.r reg)) (.operand src), rest)
  else if op &&& 0xF8 = 0xB8 then do
    let (v, rest) ← field (if p.w then .w64 else .w32) rest
    some (.mov p.size (.reg (regOf p.b op)) (.imm v), rest)
  else if op = 0xC1 ∨ op = 0xD1 then do
    let ((reg, dst), rest) ← modrm p rest
    let dir ← if reg = 4 then some ShiftDir.left else if reg = 5 then some .right else none
    let (count, rest) ← if op = 0xD1 then some (1, rest) else field .w8 rest
    some (.shift dir p.size (← dst.reg?) count.toUInt8, rest)
  else if op = 0xC3 then some (.ret, rest)
  else if op = 0xC7 then do
    let ((reg, dst), rest) ← modrm p rest
    let (v, rest) ← extendedField .w32 rest
    if reg = 0 then some (.mov p.size dst (.imm v), rest) else none
  else if op = 0xE8 then do
    let (disp, rest) ← signedField .w32 rest
    some (.call disp, rest)
  else if op = 0xE9 then do
    let (disp, rest) ← signedField .w32 rest
    some (.jmp disp, rest)
  else if op = 0xF7 then do
    let ((reg, left), rest) ← modrm p rest
    let (v, rest) ← extendedField .w32 rest
    if reg = 0 then some (.test p.size left (.imm v), rest) else none
  else if op = 0xFF then do
    let ((reg, o), rest) ← modrm p rest
    if reg = 1 then if p.w then none else some (.dec o, rest)
    else if reg = 2 then some (.callTo o, rest)
    else if reg = 4 then some (.jmpTo o, rest)
    else none
  else none

def decodeOpcode (p : Rex) : List UInt8 → Option (Instr × List UInt8)
  | [] => none
  | op :: rest =>
    if op = 0x0F then
      match rest with
      | [] => none
      | op :: rest => decodeEscaped p op rest
    else decodePlain p op rest

/-- The first instruction of a byte list and what follows it. -/
def decode (bytes : List UInt8) : Option (Instr × List UInt8) :=
  match bytes with
  | [] => none
  | b :: rest =>
    if b &&& 0xF0 = 0x40 then decodeOpcode (.ofByte b) rest else decodeOpcode {} bytes

end Dynarec.X86
