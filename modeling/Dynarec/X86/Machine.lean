import Dynarec.Block.JumpCache
import Dynarec.CodeBuffer
import Dynarec.Guest.Instruction
import Dynarec.X86.Decode

/-!
A machine for translated code. Values are numbers or pointers into one of the engine's objects, so
that guest memory, which is addressed by numbers, never overlaps them. What an instruction leaves
undefined is undefined here too, and reading it is no step.
-/
namespace Dynarec.X86

/-- The objects of the engine that translated code has pointers to. -/
inductive Object where
  | registerFile
  | preemptionWord
  | jumpTable
  deriving DecidableEq, Repr

inductive Value where
  | num (v : UInt64)
  | ptr (o : Object) (offset : UInt64)
  /-- Only the low byte is known. -/
  | low (b : UInt8)
  | unknown
  deriving DecidableEq, Repr

namespace Value

/-- A sum, in which at most one side is a pointer. -/
def add : Value → Value → Option Value
  | .num x, .num y => some (.num (x + y))
  | .ptr o x, .num y => some (.ptr o (x + y))
  | .num x, .ptr o y => some (.ptr o (x + y))
  | _, _ => none

def num? : Value → Option UInt64
  | .num v => some v
  | _ => none

/-- The low 32 bits of a number. -/
def dword? (v : Value) : Option UInt32 := v.num?.map (·.toUInt32)

def lowByte? : Value → Option UInt8
  | .num v => some v.toUInt8
  | .low b => some b
  | _ => none

/-- Replaces the low byte. -/
def setLowByte : Value → UInt8 → Value
  | .num v, b => .num ((v &&& ~~~0xFF) ||| b.toUInt64)
  | _, b => .low b

/-- A 32-bit result clears the upper half of its register. -/
def ofDword (v : UInt32) : Value := .num v.toUInt64

@[simp] theorem dword?_ofDword (v : UInt32) : (ofDword v).dword? = some v := by
  simp [dword?, num?, ofDword]

/-- Whatever a register held, its low byte is known once it has been set. -/
@[simp] theorem lowByte?_setLowByte (v : Value) (b : UInt8) :
    (v.setLowByte b).lowByte? = some b := by
  have mask : ~~~(255 : UInt8) = 0 := rfl
  cases v <;> simp [setLowByte, lowByte?, mask]

end Value

/-- The registers apart from the stack pointer, which the stack itself stands for. -/
structure Regs where
  rax : Value := .unknown
  rcx : Value := .unknown
  rdx : Value := .unknown
  rbx : Value := .unknown
  rbp : Value := .unknown
  rsi : Value := .unknown
  rdi : Value := .unknown
  r8 : Value := .unknown
  r9 : Value := .unknown
  r10 : Value := .unknown
  r11 : Value := .unknown
  r12 : Value := .unknown
  r13 : Value := .unknown
  r14 : Value := .unknown
  r15 : Value := .unknown
  deriving DecidableEq, Repr

namespace Regs

def get (r : Regs) : Reg → Value
  | .rax => r.rax
  | .rcx => r.rcx
  | .rdx => r.rdx
  | .rbx => r.rbx
  | .rsp => .unknown
  | .rbp => r.rbp
  | .rsi => r.rsi
  | .rdi => r.rdi
  | .r8 => r.r8
  | .r9 => r.r9
  | .r10 => r.r10
  | .r11 => r.r11
  | .r12 => r.r12
  | .r13 => r.r13
  | .r14 => r.r14
  | .r15 => r.r15

def set (r : Regs) (k : Reg) (v : Value) : Regs :=
  match k with
  | .rax => { r with rax := v }
  | .rcx => { r with rcx := v }
  | .rdx => { r with rdx := v }
  | .rbx => { r with rbx := v }
  | .rsp => r
  | .rbp => { r with rbp := v }
  | .rsi => { r with rsi := v }
  | .rdi => { r with rdi := v }
  | .r8 => { r with r8 := v }
  | .r9 => { r with r9 := v }
  | .r10 => { r with r10 := v }
  | .r11 => { r with r11 := v }
  | .r12 => { r with r12 := v }
  | .r13 => { r with r13 := v }
  | .r14 => { r with r14 := v }
  | .r15 => { r with r15 := v }

theorem get_set (r : Regs) (j k : Reg) (v : Value) :
    (r.set j v).get k = if j = k ∧ k ≠ .rsp then v else r.get k := by
  cases j <;> cases k <;> rfl

theorem get_set_self (r : Regs) {k : Reg} (v : Value) (h : k ≠ .rsp) : (r.set k v).get k = v := by
  simp [get_set, h]

theorem get_set_ne (r : Regs) {j k : Reg} (v : Value) (h : j ≠ k) :
    (r.set j v).get k = r.get k := by
  simp [get_set, h]

/-- What a call leaves: registers that the callee need not save are unknown. -/
def afterCall (r : Regs) : Regs where
  rbx := r.rbx
  rbp := r.rbp
  r12 := r.r12
  r13 := r.r13
  r14 := r.r14
  r15 := r.r15

end Regs

/-- Status flags; a flag that the last instruction left undefined is none. -/
structure Flags where
  zero : Option Bool := none
  sign : Option Bool := none
  carry : Option Bool := none
  overflow : Option Bool := none
  deriving DecidableEq, Repr

namespace Flags

/-- The flags of a result whose carry and overflow are given. -/
def ofResult {n : Nat} (r : BitVec n) (carry overflow : Bool) : Flags where
  zero := some (r == 0)
  sign := some r.msb
  carry := some carry
  overflow := some overflow

def holds (f : Flags) : Cond → Option Bool
  | .below => f.carry
  | .equal => f.zero
  | .notEqual => f.zero.map (!·)
  | .above => do return !(← f.carry) && !(← f.zero)
  | .less => do return (← f.sign) != (← f.overflow)
  | .greater => do return !(← f.zero) && (← f.sign) == (← f.overflow)

end Flags

/-- The result and the flags of an arithmetic instruction. -/
def AluOp.eval {n : Nat} (op : AluOp) (x y : BitVec n) : BitVec n × Flags :=
  match op with
  | .add =>
    let r := x + y
    (r, .ofResult r (r.ult x) (x.msb == y.msb && r.msb != x.msb))
  | .sub | .cmp =>
    let r := x - y
    (r, .ofResult r (x.ult y) (x.msb != y.msb && r.msb != x.msb))
  | .or => (x ||| y, .ofResult (x ||| y) false false)
  | .and => (x &&& y, .ofResult (x &&& y) false false)
  | .xor => (x ^^^ y, .ofResult (x ^^^ y) false false)

/-- What translated code runs against and does not change. -/
structure Context where
  code : CodeBuffer
  jumps : JumpCache
  regions : RegionBases
  handlers : Handlers

structure Machine where
  /-- The offset of the next instruction in the code buffer. -/
  ip : Nat
  regs : Regs
  flags : Flags := {}
  /-- Cells of eight bytes, the topmost first. -/
  stack : List Value := []
  guest : GuestState

/-- What an instruction leads to. -/
inductive Progress where
  | next (m : Machine)
  /-- Return to the caller of the translated code, with the value of `eax`. -/
  | leave (code : UInt32) (guest : GuestState)

namespace Machine

def setReg (m : Machine) (r : Reg) (v : Value) : Machine := { m with regs := m.regs.set r v }

def address (m : Machine) (base : Reg) (index : Option Reg) (disp : UInt64) : Option Value := do
  let a ← match index with
    | none => some (m.regs.get base)
    | some i => (m.regs.get base).add (m.regs.get i)
  a.add (.num disp)

def load32 (m : Machine) : Value → Option UInt32
  | .num a => some (m.guest.memory.load32 a)
  | .ptr .registerFile a => (CpuField.ofOffset? a.toNat).map m.guest.cpu.get
  | .ptr .preemptionWord a => if a = 0 then some m.guest.events.bits else none
  | _ => none

/-- A line of the jump table is a tag, which no guest address equals while the line is empty, and a
host address. -/
def loadJump (jumps : JumpCache) (a : UInt64) : Option Value :=
  if h : a.toNat / 16 < jumpCacheSize then
    let entry := jumps.entries.get ⟨a.toNat / 16, h⟩
    if a.toNat % 16 = 0 then some (.num entry.tag)
    else if a.toNat % 16 = 8 then some (.num entry.host)
    else none
  else none

def load64 (cx : Context) : Value → Option Value
  | .ptr .registerFile a =>
    (LinkField.ofOffset? a.toNat).map fun
      | .preempt => .ptr .preemptionWord 0
      | .jumpCache => .ptr .jumpTable 0
      | .regionA => .num cx.regions.a
      | .regionB => .num cx.regions.b
  | .ptr .jumpTable a => loadJump cx.jumps a
  | _ => none

def store32 (m : Machine) (a : Value) (v : UInt32) : Option Machine :=
  match a with
  | .num a =>
    some { m with guest := { m.guest with memory := m.guest.memory.store32 a v } }
  | .ptr .registerFile a =>
    (CpuField.ofOffset? a.toNat).map fun f =>
      { m with guest := { m.guest with cpu := m.guest.cpu.set f v } }
  | _ => none

def read32 (m : Machine) : Operand → Option UInt32
  | .reg r => (m.regs.get r).dword?
  | .mem base index disp => do m.load32 (← m.address base index disp)

def read64 (cx : Context) (m : Machine) : Operand → Option Value
  | .reg r => some (m.regs.get r)
  | .mem base index disp => do load64 cx (← m.address base index disp)

def write32 (m : Machine) (dst : Operand) (v : UInt32) : Option Machine :=
  match dst with
  | .reg r => some (m.setReg r (.ofDword v))
  | .mem base index disp => do m.store32 (← m.address base index disp) v

def source32 (m : Machine) : Source → Option UInt32
  | .operand o => m.read32 o
  | .imm v => some v.toUInt32

def source64 (cx : Context) (m : Machine) : Source → Option Value
  | .operand o => m.read64 cx o
  | .imm v => some (.num v)

/-- Goes on at a distance from the next instruction. -/
def jump (m : Machine) (disp : Int) : Option Progress :=
  let target := m.ip + disp
  if 0 ≤ target then some (.next { m with ip := target.toNat }) else none

/-- Goes on at a host address, which has to lie in the code buffer. -/
def jumpHost (cx : Context) (m : Machine) (target : Value) : Option Progress := do
  let ip ← cx.code.offsetOf? (← target.num?)
  return .next { m with ip }

/-- Calls the routine at a host address with the register file and an instruction word. -/
def callHost (cx : Context) (m : Machine) (target : UInt64) : Option Progress := do
  let handler ← cx.handlers target
  let opcode ← m.regs.rsi.dword?
  if m.regs.rdi = .ptr .registerFile 0 then
    return .next { m with
      regs := m.regs.afterCall
      flags := {}
      guest := handler opcode m.guest }
  else none

def alu32 (m : Machine) (op : AluOp) (dst : Operand) (src : Source) : Option Progress := do
  let (r, flags) := op.eval (← m.read32 dst).toBitVec (← m.source32 src).toBitVec
  let m := { m with flags }
  if op = .cmp then return .next m else return .next (← m.write32 dst ⟨r⟩)

/-- Comparison of numbers, pointer arithmetic, and room on the stack. -/
def alu64 (cx : Context) (m : Machine) (op : AluOp) (dst : Operand) (src : Source) :
    Option Progress := do
  let y ← m.source64 cx src
  match op, dst with
  | .sub, .reg .rsp =>
    if y = .num 8 then return .next { m with stack := .unknown :: m.stack, flags := {} } else none
  | .add, .reg .rsp =>
    match m.stack with
    | _ :: stack => if y = .num 8 then return .next { m with stack, flags := {} } else none
    | [] => none
  | .cmp, _ =>
    let x ← (← m.read64 cx dst).num?
    return .next { m with flags := (AluOp.eval .cmp x.toBitVec (← y.num?).toBitVec).2 }
  | .add, .reg r => return .next { m.setReg r (← (m.regs.get r).add y) with flags := {} }
  | _, _ => none

/-- Carries out an instruction; the instruction pointer is already behind it. -/
def exec (cx : Context) (m : Machine) : Instr → Option Progress
  | .push r => return .next { m with stack := m.regs.get r :: m.stack }
  | .pop r =>
    match m.stack with
    | v :: stack => return .next ({ m with stack }.setReg r v)
    | [] => none
  | .mov .dword dst src => do return .next (← m.write32 dst (← m.source32 src))
  | .mov .qword (.reg r) src => do return .next (m.setReg r (← m.source64 cx src))
  | .mov .qword (.mem _ _ _) _ => none
  | .alu op .dword dst src => m.alu32 op dst src
  | .alu op .qword dst src => m.alu64 cx op dst src
  | .test .dword left right => do
    let r := (← m.read32 left).toBitVec &&& (← m.source32 right).toBitVec
    return .next { m with flags := .ofResult r false false }
  | .test .qword _ _ => none
  | .imul dst src => do
    let v := (← (m.regs.get dst).dword?) * (← m.read32 src)
    return .next { m.setReg dst (.ofDword v) with flags := {} }
  | .shift dir .dword r count => do
    let v ← (m.regs.get r).dword?
    let n := (count &&& 31).toUInt32
    let v := match dir with | .left => v <<< n | .right => v >>> n
    return .next { m.setReg r (.ofDword v) with flags := {} }
  | .shift dir .qword r count => do
    let v ← (m.regs.get r).num?
    let n := (count &&& 63).toUInt64
    let v := match dir with | .left => v <<< n | .right => v >>> n
    return .next { m.setReg r (.num v) with flags := {} }
  | .bswap r => do
    let v ← (m.regs.get r).dword?
    let swapped := LittleEndian.value (LittleEndian.bytes 4 v.toNat).reverse
    return .next (m.setReg r (.ofDword (UInt32.ofNat swapped)))
  | .set cond r => do
    let b : UInt8 := if ← m.flags.holds cond then 1 else 0
    return .next (m.setReg r ((m.regs.get r).setLowByte b))
  | .movzx dst src => do
    return .next (m.setReg dst (.ofDword (← (m.regs.get src).lowByte?).toUInt32))
  | .dec dst => do
    let (r, flags) := AluOp.eval .sub (← m.read32 dst).toBitVec 1
    return .next (← { m with flags := { flags with carry := m.flags.carry } }.write32 dst ⟨r⟩)
  | .jmp disp => m.jump disp
  | .jcc cond disp => do if ← m.flags.holds cond then m.jump disp else return .next m
  | .jmpTo target => do m.jumpHost cx (← m.read64 cx target)
  | .call disp => m.callHost cx (UInt64.ofInt (cx.code.base + m.ip + disp))
  | .callTo target => do m.callHost cx (← (← m.read64 cx target).num?)
  | .ret =>
    match m.stack with
    | [] => do return .leave (← m.regs.rax.dword?) m.guest
    | _ :: _ => none

/-- No instruction is longer. -/
def maxInstrLength : Nat := 15

/-- Fetches, decodes and carries out one instruction. -/
def step (cx : Context) (m : Machine) : Option Progress := do
  let window := (cx.code.bytes.extract m.ip (m.ip + maxInstrLength)).toList
  let (i, rest) ← decode window
  exec cx { m with ip := m.ip + (window.length - rest.length) } i

end Machine

/-- How a run of translated code ends. -/
inductive RunEnd where
  | left (code : UInt32) (guest : GuestState)
  /-- The bytes at an offset have no meaning in the state that reached them. -/
  | stuck (offset : Nat)
  | outOfFuel

/-- Runs translated code until it returns, for at most `fuel` instructions. -/
def run (cx : Context) : Nat → Machine → RunEnd
  | 0, _ => .outOfFuel
  | fuel + 1, m =>
    match m.step cx with
    | none => .stuck m.ip
    | some (.leave code guest) => .left code guest
    | some (.next m) => run cx fuel m

/-- Calls the code at offset `prologue` as a function of the register file and of the host address
where it goes on. -/
def call (cx : Context) (prologue : Nat) (entry : UInt64) (guest : GuestState) (fuel : Nat) :
    RunEnd :=
  run cx fuel
    { ip := prologue, regs := { rdi := .ptr .registerFile 0, rsi := .num entry }, guest }

end Dynarec.X86
