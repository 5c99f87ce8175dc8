import Dynarec.Width

/-!
The two host data regions, and the byte of a template that names the base register of one of them.
-/
namespace Dynarec

inductive Region where
  /-- Guest memory: guest address `x` lives at the base plus `x`. -/
  | a
  /-- The block of kernel state. -/
  | b
  deriving DecidableEq, Repr

def Region.name : Region → String
  | .a => "A"
  | .b => "B"

/-- Host base addresses of the two regions. -/
structure RegionBases where
  a : UInt64 := 0
  b : UInt64 := 0
  deriving DecidableEq, Repr

def RegionBases.base (r : RegionBases) : Region → UInt64
  | .a => r.a
  | .b => r.b

/-- A byte of a template whose masked bits name the base register of a region. The same template
serves both regions, because filling an address also sets these bits. -/
structure RegionSelector where
  offset : UInt16
  mask : UInt8
  regionA : UInt8
  regionB : UInt8
  deriving DecidableEq, Repr

namespace RegionSelector

def code (s : RegionSelector) : Region → UInt8
  | .a => s.regionA
  | .b => s.regionB

/-- The region that a selector byte names. Region A wins when both have one code. -/
def decode (s : RegionSelector) (byte : UInt8) : Option Region :=
  if byte &&& s.mask = s.regionA then some .a
  else if byte &&& s.mask = s.regionB then some .b
  else none

/-- The selector byte after it has been pointed at a region; bits outside the mask stay. -/
def select (s : RegionSelector) (byte : UInt8) (r : Region) : UInt8 :=
  (byte &&& ~~~s.mask) ||| s.code r

end RegionSelector
end Dynarec
