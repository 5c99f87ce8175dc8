/-! Host registers, numbered as instructions encode them, and the roles that translated code gives
them. -/
namespace Dynarec.X86

inductive Reg where
  | rax
  | rcx
  | rdx
  | rbx
  | rsp
  | rbp
  | rsi
  | rdi
  | r8
  | r9
  | r10
  | r11
  | r12
  | r13
  | r14
  | r15
  deriving DecidableEq, Repr

namespace Reg

/-- All registers in the order of their numbers. -/
def all : List Reg :=
  [.rax, .rcx, .rdx, .rbx, .rsp, .rbp, .rsi, .rdi, .r8, .r9, .r10, .r11, .r12, .r13, .r14, .r15]

def number : Reg → UInt8
  | .rax => 0
  | .rcx => 1
  | .rdx => 2
  | .rbx => 3
  | .rsp => 4
  | .rbp => 5
  | .rsi => 6
  | .rdi => 7
  | .r8 => 8
  | .r9 => 9
  | .r10 => 10
  | .r11 => 11
  | .r12 => 12
  | .r13 => 13
  | .r14 => 14
  | .r15 => 15

/-- The register of a number; only the low four bits count. -/
def ofNumber (n : UInt8) : Reg :=
  match n &&& 15 with
  | 0 => .rax
  | 1 => .rcx
  | 2 => .rdx
  | 3 => .rbx
  | 4 => .rsp
  | 5 => .rbp
  | 6 => .rsi
  | 7 => .rdi
  | 8 => .r8
  | 9 => .r9
  | 10 => .r10
  | 11 => .r11
  | 12 => .r12
  | 13 => .r13
  | 14 => .r14
  | _ => .r15

theorem ofNumber_number (r : Reg) : ofNumber r.number = r := by cases r <;> rfl

def name : Reg → String
  | .rax => "Rax"
  | .rcx => "Rcx"
  | .rdx => "Rdx"
  | .rbx => "Rbx"
  | .rsp => "Rsp"
  | .rbp => "Rbp"
  | .rsi => "Rsi"
  | .rdi => "Rdi"
  | .r8 => "R8"
  | .r9 => "R9"
  | .r10 => "R10"
  | .r11 => "R11"
  | .r12 => "R12"
  | .r13 => "R13"
  | .r14 => "R14"
  | .r15 => "R15"

/-- The three bits that fit into an instruction's register field. -/
def low3 (r : Reg) : UInt8 := r.number &&& 7

/-- The fourth bit goes into a prefix. -/
def isExtended (r : Reg) : Bool := 8 ≤ r.number

end Reg

/-- Holds the guest register file. -/
def env : Reg := .rbp

/-- Holds the base of region A. -/
def regionA : Reg := .r14

/-- Holds the base of region B. -/
def regionB : Reg := .r15

/-- Saved on entry in this order and restored on the way out in the other. -/
def calleeSaved : List Reg := [.rbp, .rbx, .r12, .r13, .r14, .r15]

/-- The arguments of an interpreter routine: register file and instruction word. -/
def callArgs : List Reg := [.rdi, .rsi]

/-- What the stack pointer is lowered by after the saves, so that calls find it aligned to 16. -/
def stackAddend : Nat := (16 - 8 * (1 + calleeSaved.length) % 16) % 16

end Dynarec.X86
