import Dynarec.Fault

/-!
The condition register: eight fields of four bits, field 0 and bit 0 being the most significant.
-/
namespace Dynarec.ConditionRegister

def lt : UInt32 := 8
def gt : UInt32 := 4
def eq : UInt32 := 2
def so : UInt32 := 1

/-- How far a field stands from the least significant bit. -/
def shift (field : UInt8) : Except Fault UInt32 :=
  if field < 8 then .ok (28 - 4 * field.toUInt32) else breach .arithmeticOverflow

/-- The mask that clears a field and keeps the others. -/
def keepMask (field : UInt8) : Except Fault UInt32 :=
  return ~~~(0xF <<< (← shift field))

/-- The mask of one bit. -/
def bitMask (bit : UInt8) : Except Fault UInt32 :=
  if bit < 32 then .ok (1 <<< (31 - bit.toUInt32)) else breach .arithmeticOverflow

/-- A field as a number of four bits. -/
def extract (cr : UInt32) (field : UInt8) : Except Fault UInt32 :=
  return (cr >>> (← shift field)) &&& 0xF

end Dynarec.ConditionRegister
