import Dynarec.CodeBuffer
import Dynarec.Template.Basic

/-!
Copies of templates in the code buffer, and the filling of their slots. A slot is filled with a
value in its own unit: a constant for immediates, an absolute host address for all others.
-/
namespace Dynarec

/-- The distance from `origin` to `target`, when the width can hold it. -/
def displacement (origin target : UInt64) (width : Width) : Except Fault Int :=
  let distance : Int := target.toNat - origin.toNat
  if width.Fits distance then .ok distance
  else .error (.error (.displacementOutOfRange origin target width))

/-- A host address as a region and a signed distance from its base. Region A is preferred. -/
def RegionBases.canonical (r : RegionBases) (target : UInt64) (width : Width) :
    Except Fault (Region × Int) :=
  let fromA : Int := target.toNat - r.a.toNat
  let fromB : Int := target.toNat - r.b.toNat
  if width.Fits fromA then .ok (.a, fromA)
  else if width.Fits fromB then .ok (.b, fromB)
  else .error (.error (.regionsNotColocated target width))

/-- The field of a branch that can be pointed elsewhere, by offsets in the code buffer. -/
structure BranchSite where
  /-- The first byte of the field. -/
  start : Nat
  /-- Where the displacement is measured from. -/
  anchor : Nat
  width : Width
  deriving DecidableEq, Repr

/-- A template that has been copied into the code buffer. -/
structure Instance where
  offset : Nat
  template : Template
  /-- One bit for each slot that has been filled. -/
  filled : BitVec 32 := 0
  deriving DecidableEq, Repr

namespace Instance

def stop (i : Instance) : Nat := i.offset + i.template.size

def slot (i : Instance) (k : Nat) : Except Fault Slot :=
  match i.template.slots[k]? with
  | some s => .ok s
  | none => breach .indexOutOfBounds

/-- Slots from number 32 on have no bit to be recorded in. -/
def isFilled (i : Instance) (k : Nat) : Except Fault Bool := do
  demand (k < 32) .arithmeticOverflow
  return i.filled.getLsbD k

def markFilled (i : Instance) (k : Nat) : Except Fault Instance := do
  demand (k < 32) .arithmeticOverflow
  return { i with filled := i.filled ||| BitVec.twoPow 32 k }

/-- The field of a slot that holds a displacement. -/
def branchSite (i : Instance) (k : Nat) : Except Fault BranchSite := do
  let s ← i.slot k
  match s.kind with
  | .forward width anchor | .relative width anchor =>
    return { start := i.offset + s.offset.toNat, anchor := i.offset + anchor.toNat, width }
  | kind => breach (.notBranch k i.template.name kind)

/-- Checks that every slot has been filled, before the code becomes reachable. -/
def checkFilled (i : Instance) : Except Fault Unit := do
  let all ← i.template.slotMask
  demand (i.filled &&& all = all)
    (.unfilled i.template.name i.offset (all &&& ~~~i.filled).toNat)

end Instance

namespace CodeBuffer

/-- Copies a template to the cursor, with no slot filled. -/
def place (b : CodeBuffer) (t : Template) : Except Fault (Instance × CodeBuffer) := do
  let b' ← b.append t.code
  return ({ offset := b.cursor, template := t }, b')

/-- Fills a slot of an instance. Only forward branches may be filled twice. -/
def fill (b : CodeBuffer) (regions : RegionBases) (i : Instance) (k : Nat) (value : UInt64) :
    Except Fault (Instance × CodeBuffer) := do
  let s ← i.slot k
  unless s.kind.isForward do
    if ← i.isFilled k then breach (.filledTwice k i.template.name i.offset)
  let at_ := i.offset + s.offset.toNat
  let b ← match s.kind with
    | .immediate width => b.writeField at_ width value
    | .relative width anchor | .forward width anchor => do
      let distance ← displacement (← b.addrAt (i.offset + anchor.toNat)) value width
      b.writeField at_ width (UInt64.ofInt distance)
    | .canonical width selector => do
      let (region, distance) ← regions.canonical value width
      let b ← b.writeField at_ width (UInt64.ofInt distance)
      let selectorAt := i.offset + selector.offset.toNat
      b.patch selectorAt [selector.select (← b.readByte selectorAt) region]
  return (← i.markFilled k, b)

/-- The distance that a branch field has to hold to reach an offset. -/
def distanceTo (b : CodeBuffer) (site : BranchSite) (target : Nat) : Except Fault Int := do
  displacement (← b.addrAt site.anchor) (← b.addrAt target) site.width

/-- Writes the distance of a branch field. -/
def pointBranch (b : CodeBuffer) (site : BranchSite) (distance : Int) : Except Fault CodeBuffer :=
  b.writeField site.start site.width (UInt64.ofInt distance)

/-- The offset where a branch field lands. -/
def branchTarget (b : CodeBuffer) (site : BranchSite) : Except Fault Int := do
  let distance := site.width.signExtend (← b.readField site.start site.width)
  let target := Int.bmod site.anchor wordBound + distance
  demand (Width.w64.Fits target) .arithmeticOverflow
  return target

/-- The host address that a filled canonical slot stands for. -/
def canonicalAddress? (b : CodeBuffer) (regions : RegionBases) (i : Instance) (k : Nat) :
    Except Fault (Option UInt64) := do
  let s ← i.slot k
  match s.kind with
  | .canonical width selector =>
    match selector.decode (← b.readByte (i.offset + selector.offset.toNat)) with
    | none => return none
    | some region =>
      let raw ← b.readField (i.offset + s.offset.toNat) width
      return some (regions.base region + UInt64.ofInt (width.signExtend raw))
  | _ => return none

end CodeBuffer
end Dynarec
