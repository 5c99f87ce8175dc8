import Dynarec.Engine.Basic
import Dynarec.Guest.ConditionRegister
import Dynarec.Guest.Instruction

/-!
Plans: the templates and slot values of a block, chosen before a byte is written. Planning fails
when a template is missing or an address cannot be reached, and then nothing has changed.
-/
namespace Dynarec

/-- What a slot of a planned template will hold. -/
inductive SlotValue where
  | imm (v : UInt64)
  /-- A host address in a data region. -/
  | host (addr : UInt64)
  /-- The host address of an interpreter routine. -/
  | handler (addr : UInt64)
  /-- The offset of a stub in the code buffer. -/
  | stub (offset : Nat)
  /-- The code for the case that a branch is not taken. -/
  | fallthrough
  /-- A chained exit to a guest address. -/
  | exit (target : UInt32)
  deriving DecidableEq, Repr

inductive PlanStep where
  | place (template : Template) (values : List SlotValue)
  /-- The code for the case that a branch is not taken starts here. -/
  | fallthrough
  deriving DecidableEq, Repr

def PlanStep.size : PlanStep → Nat
  | .place t _ => t.size
  | .fallthrough => 0

structure Plan where
  steps : List PlanStep
  terminal : TerminalKind
  /-- One past the last guest byte. -/
  stop : Nat
  icount : Nat
  deriving DecidableEq, Repr

/-- The size of steps one behind the other. -/
def stepsSize : List PlanStep → Nat
  | [] => 0
  | s :: steps => s.size + stepsSize steps

/-- The number of host bytes that the plan takes. -/
def Plan.size (p : Plan) : Nat := stepsSize p.steps

/-- How an operation ends a block, if it does. -/
def Op.terminal? : Op → Option TerminalKind
  | .b _ | .bl _ | .bc _ _ => some .chained
  | .blr | .bctr => some .indirect
  | .sc | .icbi _ _ => some .dispatcher
  | _ => none

def CpuField.value (f : CpuField) : SlotValue := .imm (.ofNat f.offset)

def LinkField.value (f : LinkField) : SlotValue := .imm (.ofNat f.offset)

/-- A 32-bit constant. -/
def SlotValue.word (v : UInt32) : SlotValue := .imm v.toUInt64

namespace Engine

/-- One template with its values, one for each slot. -/
def planPlace (e : Engine) (key : TemplateKey) (values : List SlotValue) :
    Except Fault (List PlanStep) := do
  let t ← e.registry.get key
  demand (t.slots.length = values.length) (.slotCount t.name t.slots.length values.length)
  return [.place t values]

def planStore (e : Engine) (f : CpuField) (v : UInt32) : Except Fault (List PlanStep) :=
  if v = 0 then e.planPlace ⟨.storeImm, .zero⟩ [f.value]
  else e.planPlace ⟨.storeImm, .imm⟩ [f.value, .word v]

def planMove (e : Engine) (src dst : CpuField) : Except Fault (List PlanStep) :=
  e.planPlace ⟨.move, .reg⟩ [src.value, dst.value]

/-- Arithmetic with a constant, which a zero turns into a move. -/
def planAluImm (e : Engine) (c : OpClass) (dst src : UInt8) (v : UInt32) :
    Except Fault (List PlanStep) := do
  let src ← gprField src
  let dst ← gprField dst
  if v = 0 then e.planPlace ⟨c, .zero⟩ [src.value, dst.value]
  else e.planPlace ⟨c, .imm⟩ [src.value, .word v, dst.value]

def planAluReg (e : Engine) (c : OpClass) (dst left right : UInt8) :
    Except Fault (List PlanStep) := do
  let left ← gprField left
  let right ← gprField right
  e.planPlace ⟨c, .reg⟩ [left.value, right.value, (← gprField dst).value]

def planCompare (e : Engine) (key : TemplateKey) (field left : UInt8) (right : SlotValue) :
    Except Fault (List PlanStep) := do
  demand (field < 8) (.crFieldRange field)
  let left ← gprField left
  let shift ← ConditionRegister.shift field
  let keep ← ConditionRegister.keepMask field
  e.planPlace key
    [left.value, right, .word shift, CpuField.cr.value, .word keep, CpuField.cr.value]

/-- Polls the preemption word. -/
def planPreemptCheck (e : Engine) : Except Fault (List PlanStep) :=
  e.planPlace ⟨.preemptCheck, .fixed⟩ [LinkField.preempt.value, .stub e.stubs.preempt]

/-- Sets the program counter, polls the preemption word and leaves through a chainable exit. -/
def planExit (e : Engine) (target : UInt32) : Except Fault (List PlanStep) :=
  return (← e.planStore .pc target) ++ (← e.planPreemptCheck) ++
    (← e.planPlace ⟨.chainJump, .direct⟩ [.exit target])

/-- Sets the program counter and leaves through a stub. -/
def planLeave (e : Engine) (stub : Nat) (next : UInt32) : Except Fault (List PlanStep) :=
  return (← e.planStore .pc next) ++ (← e.planPlace ⟨.chainJump, .direct⟩ [.stub stub])

/-- Goes on at the address in a register, through the jump cache. -/
def planIndirect (e : Engine) (src : CpuField) : Except Fault (List PlanStep) :=
  return (← e.planPlace ⟨.indirectTarget, .reg⟩ [src.value, CpuField.pc.value]) ++
    (← e.planPreemptCheck) ++
    (← e.planPlace ⟨.indirectLookup, .fixed⟩
      [CpuField.pc.value, .imm (.ofNat (jumpCacheSize - 1)), LinkField.jumpCache.value,
        .stub e.stubs.dispatch])

/-- Whether a routine can be called from anywhere in the code buffer by a 32-bit displacement. The
place of the call is not known yet, so both ends have to reach it. -/
def isNear (e : Engine) (handler : UInt64) : Bool :=
  Width.w32.Fits (handler.toNat - e.buffer.base) ∧
    Width.w32.Fits (handler.toNat - (e.buffer.base + e.buffer.capacity))

def planCall (e : Engine) (pc : UInt32) (handler : UInt64) (opcode : UInt32) :
    Except Fault (List PlanStep) :=
  return (← e.planStore .pc pc) ++
    (← e.planPlace ⟨.callHelper, if e.isNear handler then .direct else .absolute⟩
      [.word opcode, .handler handler])

/-- The host address of a guest address that the canonical slot of a template can hold. None means
that the access has to go through region A at run time; an address in the window has no such way. -/
def reachableHost (e : Engine) (key : TemplateKey) (addr : UInt32) :
    Except Fault (Option UInt64) := do
  let width := (← e.registry.get key).canonicalWidth?.getD .w32
  let host ← e.config.hostAddr addr
  match e.config.regions.canonical host width with
  | .ok _ => return some host
  | .error fault => if e.config.inWindow addr then throw fault else return none

def planLoadAbs (e : Engine) (rd : UInt8) (addr : UInt32) : Except Fault (List PlanStep) := do
  match ← e.reachableHost ⟨.loadWordAbs, .absolute⟩ addr with
  | some host =>
    e.planPlace ⟨.loadWordAbs, .absolute⟩ [.host host, (← gprField rd).value]
  | none => e.planPlace ⟨.loadWord, .absolute⟩ [.word addr, (← gprField rd).value]

def planStoreAbs (e : Engine) (rs : UInt8) (addr : UInt32) : Except Fault (List PlanStep) := do
  match ← e.reachableHost ⟨.storeWordAbs, .absolute⟩ addr with
  | some host =>
    e.planPlace ⟨.storeWordAbs, .absolute⟩ [(← gprField rs).value, .host host]
  | none => e.planPlace ⟨.storeWord, .absolute⟩ [.word addr, (← gprField rs).value]

/-- The test of a conditional branch, which goes on when the branch is taken. -/
def planCond (e : Engine) : BranchCond → Except Fault (List PlanStep)
  | .decCtrNonZero => e.planPlace ⟨.condBranch, .ctrNonZero⟩ [CpuField.ctr.value, .fallthrough]
  | .crSet bit => bitTest .crSet bit
  | .crClear bit => bitTest .crClear bit
where
  bitTest (shape : Shape) (bit : UInt8) : Except Fault (List PlanStep) := do
    demand (bit < 32) (.crBitRange bit)
    e.planPlace ⟨.condBranch, shape⟩
      [CpuField.cr.value, .word (← ConditionRegister.bitMask bit), .fallthrough]

/-- The templates of one instruction. -/
def planInsn (e : Engine) (i : Insn) : Except Fault (List PlanStep) := do
  match i.op with
  | .li rd imm => e.planStore (← gprField rd) (signedWord imm)
  | .addi rd ra imm =>
    if ra = 0 then e.planStore (← gprField rd) (signedWord imm)
    else e.planAluImm .addImm rd ra (signedWord imm)
  | .add rd ra rb => e.planAluReg .add rd ra rb
  | .subf rd ra rb => e.planAluReg .subf rd rb ra
  | .mullw rd ra rb => e.planAluReg .mullw rd ra rb
  | .and ra rs rb => e.planAluReg .and ra rs rb
  | .or ra rs rb => e.planAluReg .or ra rs rb
  | .xor ra rs rb => e.planAluReg .xor ra rs rb
  | .ori ra rs imm => e.planAluImm .orImm ra rs imm.toUInt32
  | .xori ra rs imm => e.planAluImm .xorImm ra rs imm.toUInt32
  | .lwz rd ra d =>
    if ra = 0 then e.planLoadAbs rd (signedWord d)
    else
      let ra ← gprField ra
      e.planPlace ⟨.loadWord, .imm⟩ [ra.value, .word (signedWord d), (← gprField rd).value]
  | .stw rs ra d =>
    if ra = 0 then e.planStoreAbs rs (signedWord d)
    else
      let ra ← gprField ra
      e.planPlace ⟨.storeWord, .imm⟩ [ra.value, .word (signedWord d), (← gprField rs).value]
  | .lwzAbs rd addr => e.planLoadAbs rd addr
  | .stwAbs rs addr => e.planStoreAbs rs addr
  | .cmpw field ra rb => e.planCompare ⟨.compare, .reg⟩ field ra (← gprField rb).value
  | .cmplw field ra rb => e.planCompare ⟨.compareLogical, .reg⟩ field ra (← gprField rb).value
  | .cmpwi field ra imm => e.planCompare ⟨.compare, .imm⟩ field ra (.word (signedWord imm))
  | .cmplwi field ra imm => e.planCompare ⟨.compareLogical, .imm⟩ field ra (.word imm.toUInt32)
  | .mtctr rs => e.planMove (← gprField rs) .ctr
  | .mtlr rs => e.planMove (← gprField rs) .lr
  | .mfctr rd => e.planMove .ctr (← gprField rd)
  | .mflr rd => e.planMove .lr (← gprField rd)
  | .call handler opcode => e.planCall i.pc handler opcode
  | .b target => e.planExit target
  | .bl target => return (← e.planStore .lr i.next) ++ (← e.planExit target)
  | .bc cond target =>
    return (← e.planCond cond) ++ (← e.planExit target) ++ [.fallthrough] ++ (← e.planExit i.next)
  | .blr => e.planIndirect .lr
  | .bctr => e.planIndirect .ctr
  | .sc => e.planLeave e.stubs.syscall i.next
  | .icbi ra rb =>
    let address ←
      if ra = 0 then e.planMove (← gprField rb) .icbiEa
      else
        let ra ← gprField ra
        e.planPlace ⟨.add, .reg⟩ [ra.value, (← gprField rb).value, CpuField.icbiEa.value]
    return address ++ (← e.planLeave e.stubs.invalidate i.next)

/-- The plan of a block. Instructions behind the first that ends a block are ignored; a list without
one goes on at the address behind its last instruction. -/
def plan (e : Engine) (pc : UInt32) (insns : List Insn) : Except Fault Plan := do
  let body := basicBlock insns
  match body.getLast? with
  | none => throw (.error (.emptyBlock pc))
  | some last =>
    let steps ← body.mapM e.planInsn
    let tail ← if last.op.isTerminal then pure [] else e.planExit last.next
    return {
      steps := steps.flatten ++ tail
      terminal := last.op.terminal?.getD .chained
      stop := last.pc.toNat + 4
      icount := body.length }

end Engine
end Dynarec
