import Std.Data.HashMap
import Dynarec.Block.JumpCache

/-!
The store of translated blocks. Blocks keep their place until a flush; an index maps entry
addresses to resident blocks, and the jump cache stands in front of it.
-/
namespace Dynarec

structure BlockCache where
  /-- Host address of the start of the code buffer. -/
  codeBase : Nat
  blocks : Array Block := #[]
  index : Std.HashMap UInt32 BlockId := ∅
  jumps : JumpCache := .empty

namespace BlockCache

/-- Adds a block that is still being written. -/
def alloc (c : BlockCache) (entry : UInt32) (stop icount : Nat) : BlockId × BlockCache :=
  let id : BlockId := ⟨c.blocks.size⟩
  (id, { c with blocks := c.blocks.push { id, entry, stop, icount } })

def get (c : BlockCache) (id : BlockId) : Except Fault Block :=
  match c.blocks[id.index]? with
  | some b => .ok b
  | none => breach .indexOutOfBounds

/-- Changes a stored block. -/
def modify (c : BlockCache) (id : BlockId) (f : Block → Block) : BlockCache :=
  { c with blocks := c.blocks.modify id.index f }

/-- Drops a block that was given up while it was being written. It has to be the last one. -/
def discard (c : BlockCache) (id : BlockId) : Except Fault BlockCache := do
  demand (id.index + 1 = c.blocks.size) .discardPublished
  demand ((← c.get id).state = .emitting) .discardNotEmitting
  return { c with blocks := c.blocks.pop }

/-- The host address of a block's code. -/
def hostEntry (c : BlockCache) (b : Block) : Except Fault UInt64 :=
  return UInt64.ofNat (← addSizes c.codeBase b.hostOffset)

/-- The resident block of an address. -/
def lookup (c : BlockCache) (pc : UInt32) : Option BlockId :=
  (c.jumps.lookup pc).orElse fun _ => c.index[pc]?

/-- Looks a block up and refills the jump cache from the index. -/
def find (c : BlockCache) (pc : UInt32) : Except Fault (Option BlockId × BlockCache) := do
  match c.jumps.lookup pc with
  | some id => return (some id, c)
  | none =>
    match c.index[pc]? with
    | none => return (none, c)
    | some id =>
      let host ← c.hostEntry (← c.get id)
      return (some id, { c with jumps := c.jumps.insert pc id host })

/-- Makes a finished block reachable. -/
def publish (c : BlockCache) (id : BlockId) : Except Fault BlockCache := do
  let b ← c.get id
  demand (b.state = .emitting) (.publishedTwice id.index)
  let host ← c.hostEntry b
  let c := c.modify id fun b => { b with state := b.linkState }
  return { c with index := c.index.insert b.entry id, jumps := c.jumps.insert b.entry id host }

/-- Makes a block unreachable, and leaves its state to the caller. An address that has gone to
another block keeps that one. -/
def unpublish (c : BlockCache) (id : BlockId) : Except Fault BlockCache := do
  let pc := (← c.get id).entry
  return { c with
    index := if c.index[pc]? = some id then c.index.erase pc else c.index
    jumps := if c.jumps.lookup pc = some id then c.jumps.remove pc else c.jumps }

/-- The resident blocks that overlap a guest range or go on inside it. -/
def affectedBy (c : BlockCache) (start : UInt32) (stop : Nat) : List BlockId :=
  (c.blocks.toList.filter fun b =>
    b.isValid && (b.intersects start stop || b.targetsRange start stop)).map (·.id)

/-- The number of resident blocks. -/
def size (c : BlockCache) : Nat := c.index.size

def isEmpty (c : BlockCache) : Bool := c.index.isEmpty

/-- Forgets every block. -/
def flush (c : BlockCache) : BlockCache := { codeBase := c.codeBase }

end BlockCache
end Dynarec
