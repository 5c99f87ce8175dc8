import Dynarec.LittleEndian

/-! Widths of patchable fields, and the arithmetic that a field of a width can hold. -/
namespace Dynarec

inductive Width where
  | w8
  | w16
  | w32
  | w64
  deriving DecidableEq, Repr

namespace Width

def all : List Width := [.w8, .w16, .w32, .w64]

def bytes : Width → Nat
  | .w8 => 1
  | .w16 => 2
  | .w32 => 4
  | .w64 => 8

def bits (w : Width) : Nat := 8 * w.bytes

def name : Width → String
  | .w8 => "W8"
  | .w16 => "W16"
  | .w32 => "W32"
  | .w64 => "W64"

/-- How many numbers a field of this width can hold. -/
def modulus : Width → Nat
  | .w8 => 0x100
  | .w16 => 0x10000
  | .w32 => 0x100000000
  | .w64 => 0x10000000000000000

/-- The number `v` is a signed value of this width. -/
def Fits (w : Width) (v : Int) : Prop := -(w.modulus : Int) ≤ 2 * v ∧ 2 * v < w.modulus

instance (w : Width) (v : Int) : Decidable (w.Fits v) :=
  inferInstanceAs (Decidable (_ ∧ _))

/-- The low bits of `v` that a field of this width keeps. -/
def truncate (w : Width) (v : UInt64) : UInt64 := UInt64.ofNat (v.toNat % w.modulus)

/-- The low bits of `v` read as a signed number. -/
def signExtend (w : Width) (v : UInt64) : Int := Int.bmod v.toNat w.modulus

/-- The bytes of a field that holds `v`; what the width cannot hold is dropped. -/
def encode (w : Width) (v : UInt64) : List UInt8 := LittleEndian.bytes w.bytes v.toNat

/-- The value of a field with the given bytes, zero extended. -/
def decode (bs : List UInt8) : UInt64 := UInt64.ofNat (LittleEndian.value bs)

theorem bytes_pos (w : Width) : 0 < w.bytes := by cases w <;> decide

@[simp] theorem length_encode (w : Width) (v : UInt64) : (w.encode v).length = w.bytes := by
  simp [encode]

end Width
end Dynarec
