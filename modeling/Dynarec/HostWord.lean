import Dynarec.Fault

/-!
The arithmetic of fields as the host computes it, in words of 64 bits. A shift by the whole word or
more, a difference below zero and a negation that leaves the word are violations.
-/
namespace Dynarec

/-- A difference of sizes, which must not be negative. -/
def subSizes (m n : Nat) : Except Fault Nat := do
  demand (n ≤ m) .arithmeticOverflow
  return m - n

namespace HostWord

def shiftLeft (v : UInt64) (n : Nat) : Except Fault UInt64 := do
  demand (n < 64) .arithmeticOverflow
  return .ofBitVec (v.toBitVec <<< n)

/-- Shifts a signed word, with copies of its sign. -/
def shiftRight (v : Int64) (n : Nat) : Except Fault Int64 := do
  demand (n < 64) .arithmeticOverflow
  return .ofBitVec (v.toBitVec.sshiftRight n)

def negate (v : Int64) : Except Fault Int64 := do
  demand (v ≠ .minValue) .arithmeticOverflow
  return -v

end HostWord

namespace Width

open HostWord

/-- Whether a signed word is a value of this width. -/
def fitsWord (w : Width) (v : Int64) : Except Fault Bool :=
  match w with
  | .w64 => return true
  | _ => do
    let half := (← shiftLeft 1 (← subSizes w.bits 1)).toInt64
    return (← negate half) ≤ v && v < half

/-- The word without the bits that a field of this width does not keep. -/
def truncateWord (w : Width) (v : UInt64) : Except Fault UInt64 :=
  match w with
  | .w64 => return v
  | _ => do
    let mask ← subSizes (← shiftLeft 1 w.bits).toNat 1
    return v &&& .ofNat mask

/-- The low bits of the word as a signed word. -/
def signExtendWord (w : Width) (v : UInt64) : Except Fault Int64 := do
  let shift ← subSizes 64 w.bits
  shiftRight (← shiftLeft v shift).toInt64 shift

end Width
end Dynarec
