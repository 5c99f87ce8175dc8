import Dynarec.Fault

/-! Engine configuration and the map from guest addresses to host addresses. -/
namespace Dynarec

/-- A range of guest addresses that region B backs instead of region A. -/
structure GuestWindow where
  base : UInt32
  length : UInt32
  deriving DecidableEq, Repr

/-- Membership wraps: a window may run past the last address and go on at zero. -/
def GuestWindow.contains (w : GuestWindow) (addr : UInt32) : Bool := addr - w.base < w.length

/-- The largest code buffer. Jumps inside the buffer are signed 32-bit displacements, so the
buffer stays well inside their range even after rounding to pages. -/
def maxCodeBufferSize : Nat := 1024 * 1024 * 1024

structure Config where
  codeBufferSize : Nat := 16 * 1024 * 1024
  regions : RegionBases := {}
  /-- Guest addresses in region B, such as a kernel's data page. -/
  window : Option GuestWindow := none
  /-- How many instructions a translator is asked for at most. -/
  maxBlockInsns : Nat := 512
  /-- Whether block exits jump straight to their successors. -/
  directChaining : Bool := true
  deriving DecidableEq, Repr

namespace Config

def problem? (c : Config) : Option ConfigProblem :=
  if c.codeBufferSize = 0 then some .zeroCodeBuffer
  else if c.codeBufferSize > maxCodeBufferSize then some .codeBufferBeyondJumps
  else if c.maxBlockInsns = 0 then some .zeroBlockLimit
  else if c.window.any (·.length = 0) then some .emptyWindow
  else none

def validate (c : Config) : Except Fault Unit :=
  match c.problem? with
  | some problem => .error (.error (.invalidConfig problem))
  | none => .ok ()

def inWindow (c : Config) (addr : UInt32) : Bool := c.window.any (·.contains addr)

/-- The host address that backs a guest address. The distance from the start of the window does
not wrap, so an address that a wrapped window reaches past zero has none. -/
def hostAddr (c : Config) (addr : UInt32) : Except Fault UInt64 :=
  match c.window with
  | some w =>
    if w.contains addr then
      if addr < w.base then breach .arithmeticOverflow
      else .ok (c.regions.b + (addr - w.base).toUInt64)
    else .ok (c.regions.a + addr.toUInt64)
  | none => .ok (c.regions.a + addr.toUInt64)

end Config
end Dynarec
