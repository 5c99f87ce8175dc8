import Dynarec.Fault

/-! Host code templates: fixed code with holes that are filled after the code has been copied. -/
namespace Dynarec

namespace Slot

/-- A 32-bit displacement measured from the end of its field. -/
def relative32 (offset : UInt16) : Except Fault Slot :=
  return ⟨offset, .relative .w32 (← fieldEnd offset)⟩
where
  fieldEnd (offset : UInt16) : Except Fault UInt16 :=
    if offset.toNat + 4 < 0x10000 then .ok (offset + 4) else breach .arithmeticOverflow

/-- A 32-bit forward branch measured from the end of its field. -/
def forward32 (offset : UInt16) : Except Fault Slot :=
  return ⟨offset, .forward .w32 (← relative32.fieldEnd offset)⟩

end Slot

structure Template where
  name : String
  code : List UInt8
  slots : List Slot
  deriving DecidableEq, Repr

namespace Template

def size (t : Template) : Nat := t.code.length

/-- One set bit for each slot. A template has at most 32 slots. -/
def slotMask (t : Template) : Except Fault (BitVec 32) := do
  demand (t.slots.length ≤ 32) .assertionFailed
  return BitVec.ofNat 32 (1 <<< t.slots.length - 1)

/-- The width of the first slot that takes a canonical address. -/
def canonicalWidth? (t : Template) : Option Width :=
  t.slots.findSome? fun s =>
    match s.kind with
    | .canonical w _ => some w
    | _ => none

end Template
end Dynarec
