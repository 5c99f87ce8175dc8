import Dynarec.Relocation

/-! Translated guest blocks. -/
namespace Dynarec

/-- The place of a block in the store. -/
structure BlockId where
  index : Nat
  deriving DecidableEq, Repr, Hashable

def BlockId.describe (id : BlockId) : String := "BlockId(" ++ toString id.index ++ ")"

/-- How a block hands control on. -/
inductive TerminalKind where
  /-- Through one or two direct exits, which can be chained to other blocks. -/
  | chained
  /-- Through a probe of the jump cache. -/
  | indirect
  /-- Through a stub that returns to the dispatcher. -/
  | dispatcher
  deriving DecidableEq, Repr

inductive BlockState where
  | emitting
  /-- Resident, with an exit that still leads to the dispatcher. -/
  | partialLinks
  /-- Resident, with every direct exit linked to its target. -/
  | chained
  | invalidated
  deriving DecidableEq, Repr

/-- A direct exit of a block. -/
structure ExitSlot where
  /-- The guest address at which the exit goes on. -/
  target : UInt32
  /-- The jump field that chaining repoints. -/
  site : BranchSite
  /-- The block in which the jump lands; none while it lands in the dispatch stub. -/
  linked : Option BlockId := none
  deriving DecidableEq, Repr

/-- The field of a block that holds the host address of an interpreter routine, or the
displacement to it. -/
structure CallSite where
  start : Nat
  width : Width
  handler : UInt64
  deriving DecidableEq, Repr

/-- A guest range from `entry` to `stop` and the host code that it became. -/
structure Block where
  id : BlockId
  entry : UInt32
  /-- One past the last guest byte, which for a block at the top of memory is no guest address. -/
  stop : Nat
  /-- The number of guest instructions. -/
  icount : Nat
  hostOffset : Nat := 0
  hostSize : Nat := 0
  exits : List ExitSlot := []
  calls : List CallSite := []
  terminal : TerminalKind := .chained
  state : BlockState := .emitting
  /-- Exits of other blocks that jump straight into this one. -/
  incoming : List (BlockId × Nat) := []
  deriving DecidableEq, Repr

namespace BlockState

def all : List BlockState := [.emitting, .partialLinks, .chained, .invalidated]

def name : BlockState → String
  | .emitting => "Emitting"
  | .partialLinks => "Partial"
  | .chained => "Chained"
  | .invalidated => "Invalidated"

end BlockState

def TerminalKind.name : TerminalKind → String
  | .chained => "Chained"
  | .indirect => "Indirect"
  | .dispatcher => "Dispatcher"

namespace Block

/-- Published, and not invalidated since. -/
def isValid (b : Block) : Bool :=
  match b.state with
  | .partialLinks | .chained => true
  | .emitting | .invalidated => false

/-- The guest range from `start` to `stop` overlaps the block's. -/
def intersects (b : Block) (start : UInt32) (stop : Nat) : Bool :=
  b.entry.toNat < stop && start.toNat < b.stop

/-- Some exit goes on inside the guest range. -/
def targetsRange (b : Block) (start : UInt32) (stop : Nat) : Bool :=
  b.exits.any fun e => start ≤ e.target && e.target.toNat < stop

/-- The state of a resident block, read off its exits. -/
def linkState (b : Block) : BlockState :=
  if b.exits.all (·.linked.isSome) then .chained else .partialLinks

/-- Brings the state of a valid block in line with its exits. -/
def refresh (b : Block) : Block := if b.isValid then { b with state := b.linkState } else b

def exit (b : Block) (k : Nat) : Except Fault ExitSlot :=
  match b.exits[k]? with
  | some e => .ok e
  | none => breach .indexOutOfBounds

/-- Records where an exit lands. -/
def setLink (b : Block) (k : Nat) (linked : Option BlockId) : Block :=
  { b with exits := b.exits.modify k ({ · with linked }) }

def addIncoming (b : Block) (src : BlockId) (k : Nat) : Block :=
  { b with incoming := b.incoming ++ [(src, k)] }

def dropIncoming (b : Block) (src : BlockId) (k : Nat) : Block :=
  { b with incoming := b.incoming.filter (· ≠ (src, k)) }

end Block
end Dynarec
