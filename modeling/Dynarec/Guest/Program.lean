import Dynarec.Guest.Instruction

/-!
A guest program as a list of segments, and the instructions that a translator finds in it. When
several segments hold an address, the first request for it gets the first segment, the second
request the second, and so on, so that a program can change between two readings.
-/
namespace Dynarec

/-- Operations at consecutive addresses. -/
structure Segment where
  pc : UInt32
  ops : List Op
  /-- Hand out the whole rest, whatever the limit and wherever a block ends. -/
  raw : Bool := false
  deriving DecidableEq, Repr

/-- The operations from an address on, if the segment holds it. Addresses wrap. -/
def Segment.from? (s : Segment) (pc : UInt32) : Option (List Op) :=
  let distance := (pc - s.pc).toNat
  if distance % 4 = 0 ∧ distance / 4 < s.ops.length then some (s.ops.drop (distance / 4)) else none

/-- Instructions at consecutive addresses. -/
def insnsFrom (pc : UInt32) : List Op → List Insn
  | [] => []
  | op :: ops => ⟨pc, op⟩ :: insnsFrom (pc + 4) ops

structure Program where
  segments : List Segment := []
  /-- The requests so far: the address and how many instructions it was answered with. -/
  requests : Array (UInt32 × Nat) := #[]
  deriving DecidableEq, Repr

/-- What a segment answers: the instructions up to the end of a basic block, at most `limit`. -/
def Segment.answer (s : Segment) (pc : UInt32) (ops : List Op) (limit : Nat) : List Insn :=
  if s.raw then insnsFrom pc ops else basicBlock ((insnsFrom pc ops).take limit)

namespace Program

/-- The instructions at an address, from the segment whose turn it is. -/
def answer (p : Program) (pc : UInt32) (limit : Nat) : List Insn :=
  let candidates := p.segments.filterMap fun s => (s.from? pc).map (s, ·)
  let turn := (p.requests.toList.filter (·.1 = pc)).length
  match candidates[min turn (candidates.length - 1)]? with
  | some (s, ops) => s.answer pc ops limit
  | none => []

def translate (p : Program) (pc : UInt32) (limit : Nat) : List Insn × Program :=
  let insns := p.answer pc limit
  (insns, { p with requests := p.requests.push (pc, insns.length) })

end Program
end Dynarec
