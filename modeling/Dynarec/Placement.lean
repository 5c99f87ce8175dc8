import Dynarec.Engine.Event

/-!
A copy of a template and the buffer that holds it as one state, which filling a slot changes in
place. The buffer is written piece by piece, and what has been written before a failure stays.
-/
namespace Dynarec

/-- Refuses a slot that has been filled, unless it may be filled again. -/
def Instance.checkFree (i : Instance) (k : Nat) (s : Slot) : Except Fault Unit := do
  unless s.kind.isForward do
    if ← i.isFilled k then breach (.filledTwice k i.template.name i.offset)

/-- A copy of a template with the buffer that holds it. -/
structure Placement where
  copy : Instance
  buffer : CodeBuffer
  deriving DecidableEq, Repr

namespace Placement

def patch (offset : Nat) (data : List UInt8) : Traced Placement Unit := do
  let p ← get
  set { p with buffer := ← p.buffer.patch offset data }

/-- Writes the field of a slot. An address in a data region also sets the selector byte. -/
def writeSlot (regions : RegionBases) (s : Slot) (value : UInt64) : Traced Placement Unit := do
  let p ← get
  let start := p.copy.offset + s.offset.toNat
  match s.kind with
  | .immediate width => patch start (width.encode value)
  | .relative width anchor | .forward width anchor =>
    let origin ← p.buffer.addrAt (p.copy.offset + anchor.toNat)
    let distance ← displacement origin value width
    patch start (width.encode (UInt64.ofInt distance))
  | .canonical width selector =>
    let (region, distance) ← regions.canonical value width
    patch start (width.encode (UInt64.ofInt distance))
    let selectorAt := p.copy.offset + selector.offset.toNat
    let byte ← (← get).buffer.readByte selectorAt
    patch selectorAt [selector.select byte region]

/-- Notes that a slot has been filled. -/
def record (k : Nat) : Traced Placement Unit := do
  let i ← (← get).copy.markFilled k
  modify ({ · with copy := i })

/-- Fills a slot of the copy and records it. -/
def fill (regions : RegionBases) (k : Nat) (value : UInt64) : Traced Placement Unit := do
  let i := (← get).copy
  let s ← i.slot k
  i.checkFree k s
  writeSlot regions s value
  record k

end Placement
end Dynarec
