/-! Registry keys: a class of guest operation, or piece of block plumbing, and an operand shape. -/
namespace Dynarec

inductive OpClass where
  | storeImm
  | move
  | addImm
  | add
  | subf
  | and
  | or
  | xor
  | mullw
  | orImm
  | xorImm
  | loadWord
  | storeWord
  | loadWordAbs
  | storeWordAbs
  | compare
  | compareLogical
  | condBranch
  | indirectTarget
  | callHelper
  | preemptCheck
  | chainJump
  | indirectLookup
  | exitStub
  | prologue
  | epilogue
  deriving DecidableEq, Repr

namespace OpClass

def all : List OpClass :=
  [.storeImm, .move, .addImm, .add, .subf, .and, .or, .xor, .mullw, .orImm, .xorImm, .loadWord,
    .storeWord, .loadWordAbs, .storeWordAbs, .compare, .compareLogical, .condBranch,
    .indirectTarget, .callHelper, .preemptCheck, .chainJump, .indirectLookup, .exitStub,
    .prologue, .epilogue]

def name : OpClass → String
  | .storeImm => "StoreImm"
  | .move => "Move"
  | .addImm => "AddImm"
  | .add => "Add"
  | .subf => "Subf"
  | .and => "And"
  | .or => "Or"
  | .xor => "Xor"
  | .mullw => "Mullw"
  | .orImm => "OrImm"
  | .xorImm => "XorImm"
  | .loadWord => "LoadWord"
  | .storeWord => "StoreWord"
  | .loadWordAbs => "LoadWordAbs"
  | .storeWordAbs => "StoreWordAbs"
  | .compare => "Compare"
  | .compareLogical => "CompareLogical"
  | .condBranch => "CondBranch"
  | .indirectTarget => "IndirectTarget"
  | .callHelper => "CallHelper"
  | .preemptCheck => "PreemptCheck"
  | .chainJump => "ChainJump"
  | .indirectLookup => "IndirectLookup"
  | .exitStub => "ExitStub"
  | .prologue => "Prologue"
  | .epilogue => "Epilogue"

end OpClass

inductive Shape where
  /-- All operands are registers. -/
  | reg
  /-- One operand is a literal. -/
  | imm
  /-- The literal is zero and a shorter template applies. -/
  | zero
  /-- Branch when the chosen condition bit is set. -/
  | crSet
  /-- Branch when the chosen condition bit is clear. -/
  | crClear
  /-- Count down and branch while the count is not zero. -/
  | ctrNonZero
  /-- A target relative to the code. -/
  | direct
  /-- A target given as an absolute address. -/
  | absolute
  /-- Plumbing that has one form only. -/
  | fixed
  deriving DecidableEq, Repr

namespace Shape

def all : List Shape :=
  [.reg, .imm, .zero, .crSet, .crClear, .ctrNonZero, .direct, .absolute, .fixed]

def name : Shape → String
  | .reg => "Reg"
  | .imm => "Imm"
  | .zero => "Zero"
  | .crSet => "CrSet"
  | .crClear => "CrClear"
  | .ctrNonZero => "CtrNonZero"
  | .direct => "Direct"
  | .absolute => "Absolute"
  | .fixed => "Fixed"

end Shape

structure TemplateKey where
  opClass : OpClass
  shape : Shape
  deriving DecidableEq, Repr

namespace TemplateKey

def describe (k : TemplateKey) : String :=
  "TemplateKey \x7b class: " ++ k.opClass.name ++ ", shape: " ++ k.shape.name ++ " \x7d"

/-- Every key that the engine can ask for, in the order in which gaps are reported. -/
def required : List TemplateKey :=
  [⟨.storeImm, .imm⟩, ⟨.storeImm, .zero⟩, ⟨.move, .reg⟩, ⟨.addImm, .imm⟩, ⟨.addImm, .zero⟩,
    ⟨.add, .reg⟩, ⟨.subf, .reg⟩, ⟨.and, .reg⟩, ⟨.or, .reg⟩, ⟨.xor, .reg⟩, ⟨.mullw, .reg⟩,
    ⟨.orImm, .imm⟩, ⟨.orImm, .zero⟩, ⟨.xorImm, .imm⟩, ⟨.xorImm, .zero⟩,
    ⟨.loadWord, .imm⟩, ⟨.storeWord, .imm⟩, ⟨.loadWord, .absolute⟩, ⟨.storeWord, .absolute⟩,
    ⟨.loadWordAbs, .absolute⟩, ⟨.storeWordAbs, .absolute⟩,
    ⟨.compare, .reg⟩, ⟨.compare, .imm⟩, ⟨.compareLogical, .reg⟩, ⟨.compareLogical, .imm⟩,
    ⟨.condBranch, .crSet⟩, ⟨.condBranch, .crClear⟩, ⟨.condBranch, .ctrNonZero⟩,
    ⟨.indirectTarget, .reg⟩, ⟨.callHelper, .direct⟩, ⟨.callHelper, .absolute⟩,
    ⟨.preemptCheck, .fixed⟩, ⟨.chainJump, .direct⟩, ⟨.indirectLookup, .fixed⟩,
    ⟨.exitStub, .fixed⟩, ⟨.prologue, .fixed⟩, ⟨.epilogue, .fixed⟩]

end TemplateKey
end Dynarec
