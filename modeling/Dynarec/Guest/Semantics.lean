import Dynarec.Config
import Dynarec.Guest.ConditionRegister
import Dynarec.Guest.Instruction

/-!
What guest instructions mean, without any host code: the effect of one instruction, and of the
instructions of a block one after the other.
-/
namespace Dynarec

/-- How control goes on behind an instruction. The program counter says where. -/
inductive Control where
  /-- With the instruction behind it. -/
  | next
  /-- Through a direct exit of the block. -/
  | exit (k : Nat)
  /-- At an address taken from a register. -/
  | indirect
  | syscall
  | invalidate
  deriving DecidableEq, Repr

/-- What the meaning of an instruction depends on beside the guest's state. -/
structure Platform where
  config : Config
  handlers : Handlers

namespace GuestState

def setPc (g : GuestState) (pc : UInt32) : GuestState := { g with cpu := g.cpu.set .pc pc }

/-- The general register of a number, if there is one. -/
def gpr? (g : GuestState) (n : UInt8) : Option UInt32 := (gprField n).toOption.map g.cpu.get

def setGpr? (g : GuestState) (n : UInt8) (v : UInt32) : Option GuestState :=
  (gprField n).toOption.map fun f => { g with cpu := g.cpu.set f v }

/-- Puts the outcome of a comparison into a field of the condition register. The whole field is
replaced: its summary overflow bit is cleared, since the overflow register is not read. -/
def setCondition? (g : GuestState) (field : UInt8) (less greater : Bool) : Option GuestState := do
  let shift ← (ConditionRegister.shift field).toOption
  let keep ← (ConditionRegister.keepMask field).toOption
  let outcome :=
    if less then ConditionRegister.lt
    else if greater then ConditionRegister.gt
    else ConditionRegister.eq
  return { g with cpu := g.cpu.set .cr ((g.cpu.cr &&& keep) ||| (outcome <<< shift)) }

/-- A register as a base address, where number zero is the number zero. -/
def base? (g : GuestState) (ra : UInt8) : Option UInt32 := if ra = 0 then some 0 else g.gpr? ra

end GuestState

namespace Platform

/-- The host address of a load or store. Through a register it lies in region A; with no base
register the address is a constant of the block and may lie in the window. -/
def dataAddress? (p : Platform) (g : GuestState) (ra : UInt8) (d : Int16) : Option UInt64 :=
  if ra = 0 then (p.config.hostAddr (signedWord d)).toOption
  else (g.gpr? ra).map fun base => p.config.regions.a + (base + signedWord d).toUInt64

/-- Whether a conditional branch is taken, and the state behind its test. -/
def branch? (g : GuestState) : BranchCond → Option (Bool × GuestState)
  | .decCtrNonZero =>
    let count := g.cpu.ctr - 1
    some (count ≠ 0, { g with cpu := g.cpu.set .ctr count })
  | .crSet bit => (ConditionRegister.bitMask bit).toOption.map fun m => (g.cpu.cr &&& m ≠ 0, g)
  | .crClear bit => (ConditionRegister.bitMask bit).toOption.map fun m => (g.cpu.cr &&& m = 0, g)

def signedLess (x y : UInt32) : Bool := x.toInt32 < y.toInt32

/-- The effect of an operation whose address is the program counter. -/
def apply (p : Platform) (g : GuestState) (op : Op) : Option (GuestState × Control) :=
  match op with
  | .li rd imm => next (g.setGpr? rd (signedWord imm))
  | .addi rd ra imm => next do g.setGpr? rd ((← g.base? ra) + signedWord imm)
  | .add rd ra rb => next do g.setGpr? rd ((← g.gpr? ra) + (← g.gpr? rb))
  | .subf rd ra rb => next do g.setGpr? rd ((← g.gpr? rb) - (← g.gpr? ra))
  | .mullw rd ra rb => next do g.setGpr? rd ((← g.gpr? ra) * (← g.gpr? rb))
  | .and ra rs rb => next do g.setGpr? ra ((← g.gpr? rs) &&& (← g.gpr? rb))
  | .or ra rs rb => next do g.setGpr? ra ((← g.gpr? rs) ||| (← g.gpr? rb))
  | .xor ra rs rb => next do g.setGpr? ra ((← g.gpr? rs) ^^^ (← g.gpr? rb))
  | .ori ra rs imm => next do g.setGpr? ra ((← g.gpr? rs) ||| imm.toUInt32)
  | .xori ra rs imm => next do g.setGpr? ra ((← g.gpr? rs) ^^^ imm.toUInt32)
  | .lwz rd ra d => next do g.setGpr? rd (g.memory.loadWord (← p.dataAddress? g ra d))
  | .stw rs ra d => next do store (← p.dataAddress? g ra d) (← g.gpr? rs)
  | .lwzAbs rd addr => next do
    g.setGpr? rd (g.memory.loadWord (← (p.config.hostAddr addr).toOption))
  | .stwAbs rs addr => next do store (← (p.config.hostAddr addr).toOption) (← g.gpr? rs)
  | .cmpw field ra rb => next do
    let x ← g.gpr? ra
    let y ← g.gpr? rb
    g.setCondition? field (signedLess x y) (signedLess y x)
  | .cmplw field ra rb => next do
    let x ← g.gpr? ra
    let y ← g.gpr? rb
    g.setCondition? field (x < y) (y < x)
  | .cmpwi field ra imm => next do
    let x ← g.gpr? ra
    g.setCondition? field (signedLess x (signedWord imm)) (signedLess (signedWord imm) x)
  | .cmplwi field ra imm => next do
    let x ← g.gpr? ra
    g.setCondition? field (x < imm.toUInt32) (imm.toUInt32 < x)
  | .mtctr rs => next do return { g with cpu := g.cpu.set .ctr (← g.gpr? rs) }
  | .mtlr rs => next do return { g with cpu := g.cpu.set .lr (← g.gpr? rs) }
  | .mfctr rd => next (g.setGpr? rd g.cpu.ctr)
  | .mflr rd => next (g.setGpr? rd g.cpu.lr)
  | .call handler opcode => next do return (← p.handlers handler) opcode g
  | .b target => some (g.setPc target, .exit 0)
  | .bl target => some ({ g with cpu := g.cpu.set .lr (g.cpu.pc + 4) }.setPc target, .exit 0)
  | .bc cond target => do
    let (taken, g) ← branch? g cond
    if taken then some (g.setPc target, .exit 0) else some (g.setPc (g.cpu.pc + 4), .exit 1)
  | .blr => some (g.setPc (g.cpu.lr &&& ~~~3), .indirect)
  | .bctr => some (g.setPc (g.cpu.ctr &&& ~~~3), .indirect)
  | .sc => some (g.setPc (g.cpu.pc + 4), .syscall)
  | .icbi ra rb => do
    let address := (← g.base? ra) + (← g.gpr? rb)
    some ({ g with cpu := g.cpu.set .icbiEa address }.setPc (g.cpu.pc + 4), .invalidate)
where
  next (g : Option GuestState) : Option (GuestState × Control) := g.map (·, .next)
  store (addr : UInt64) (v : UInt32) : Option GuestState :=
    some { g with memory := g.memory.storeWord addr v }

/-- The effect of one instruction. -/
def step (p : Platform) (g : GuestState) (i : Insn) : Option (GuestState × Control) :=
  p.apply (g.setPc i.pc) i.op

/-- The effect of instructions one by one, up to and including the first that ends a block. Behind
the last one control goes on through a direct exit. -/
def runBlock (p : Platform) (g : GuestState) : List Insn → Option (GuestState × Control)
  | [] => none
  | i :: rest =>
    match p.step g i with
    | some (g, .next) =>
      if rest.isEmpty then some (g.setPc i.next, .exit 0) else p.runBlock g rest
    | done => done

end Platform
end Dynarec
