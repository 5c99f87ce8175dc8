import Dynarec.Region

/-! The patchable holes of a template. -/
namespace Dynarec

/-- What a hole is filled with. An anchor is the template offset that a displacement is measured
from. -/
inductive SlotKind where
  /-- A constant, truncated to the width. -/
  | immediate (width : Width)
  /-- A displacement to a host address, written once. -/
  | relative (width : Width) (anchor : UInt16)
  /-- A host address as a region base and a signed distance from it. -/
  | canonical (width : Width) (selector : RegionSelector)
  /-- A displacement to another block, which chaining may change at any time. -/
  | forward (width : Width) (anchor : UInt16)
  deriving DecidableEq, Repr

namespace SlotKind

def width : SlotKind → Width
  | .immediate w | .relative w _ | .canonical w _ | .forward w _ => w

/-- Forward branches are the only holes that may be filled more than once. -/
def isForward : SlotKind → Bool
  | .forward _ _ => true
  | _ => false

/-- The wording of a kind in diagnostics. -/
def describe : SlotKind → String
  | .immediate w => "ImmediateAbsolute(" ++ w.name ++ ")"
  | .relative w anchor => displaced "DisplacementRelative" w anchor
  | .canonical w s =>
    "CanonicalAddress \x7b width: " ++ w.name ++ ", selector: RegionSelector \x7b offset: " ++
      toString s.offset.toNat ++ ", mask: " ++ toString s.mask.toNat ++ ", region_a: " ++
      toString s.regionA.toNat ++ ", region_b: " ++ toString s.regionB.toNat ++ " \x7d \x7d"
  | .forward w anchor => displaced "ForwardBranch" w anchor
where
  displaced (kind : String) (w : Width) (anchor : UInt16) : String :=
    kind ++ " \x7b width: " ++ w.name ++ ", anchor: " ++ toString anchor.toNat ++ " \x7d"

end SlotKind

/-- A hole: where its field starts in the template, and what fills it. -/
structure Slot where
  offset : UInt16
  kind : SlotKind
  deriving DecidableEq, Repr

namespace Slot

def immediate (offset : UInt16) (width : Width) : Slot := ⟨offset, .immediate width⟩

def immediate32 (offset : UInt16) : Slot := immediate offset .w32

def canonical32 (offset : UInt16) (selector : RegionSelector) : Slot :=
  ⟨offset, .canonical .w32 selector⟩

def width (s : Slot) : Width := s.kind.width

/-- One past the last byte of the field. -/
def stop (s : Slot) : Nat := s.offset.toNat + s.width.bytes

end Slot
end Dynarec
