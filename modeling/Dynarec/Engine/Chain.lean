import Dynarec.Engine.Basic

/-!
Links between blocks. An exit leads to the dispatch stub until a block at its target is resident;
then its jump is pointed at that block, and back at the stub when the block goes away.
-/
namespace Dynarec.EngineM

/-- Points an exit straight at a block. -/
def link (src : BlockId) (k : Nat) (dst : BlockId) : EngineM Unit := do
  let target := (← getBlock dst).hostOffset
  let exit ← (← getBlock src).exit k
  unless exit.linked = some dst do
    if let some old := exit.linked then modifyBlock old (·.dropIncoming src k)
    onBuffer (CodeBuffer.redirect exit.site target)
    modifyBlock src fun b => (b.setLink k (some dst)).refresh
    modifyBlock dst (·.addIncoming src k)
    modifyStats fun s => { s with chainLinks := s.chainLinks + 1 }
    Traced.report (.chained src k dst)

/-- Points an exit back at the dispatch stub. -/
def unlink (src : BlockId) (k : Nat) : EngineM Unit := do
  let exit ← (← getBlock src).exit k
  onBuffer (CodeBuffer.redirect exit.site (← get).stubs.dispatch)
  modifyBlock src fun b => (b.setLink k none).refresh
  Traced.report (.unchained src k)

/-- Links every exit that has waited for a block. -/
def resolvePending (dst : BlockId) : EngineM Unit := do
  let (waiting, chains) := (← get).chains.take (← getBlock dst).entry
  modifyChains fun _ => chains
  waiting.forM fun w => do
    if (← getBlock w.src).isValid then link w.src w.exit dst

/-- Links an exit of a new block, or lets it wait for its target. -/
def linkOrWait (src : BlockId) (k : Nat) (target : UInt32) : EngineM Unit := do
  match (← get).lookup target with
  | some dst => link src k dst
  | none => modifyChains (·.add target src k)

/-- Cuts a block off from all others: exits into it go back to the dispatch stub and wait for
another block at its address, and its own exits wait no more. -/
def detach (id : BlockId) : EngineM Unit := do
  let cache ← (← get).cache.unpublish id
  modifyCache fun _ => cache
  let b ← getBlock id
  modifyBlock id ({ · with incoming := [] })
  b.incoming.forM fun (src, k) => do
    if (← getBlock src).isValid then
      unlink src k
      if (← get).config.directChaining then modifyChains (·.add b.entry src k)
  b.exits.zipIdx.forM fun (exit, k) => do
    if let some dst := exit.linked then modifyBlock dst (·.dropIncoming id k)
  modifyChains (·.removeSource id)

/-- Takes blocks out of use. All are invalid before the first is cut off, so exits among them are
not repaired. -/
def invalidateBlocks (victims : List BlockId) : EngineM Unit := do
  victims.forM fun id => do
    let _ ← getBlock id
    modifyBlock id ({ · with state := .invalidated })
  victims.forM detach
  modifyStats fun s => { s with invalidatedBlocks := s.invalidatedBlocks + victims.length }

/-- Takes the blocks out of use that overlap a guest range or go on inside it. Returns their
number. -/
def invalidateRange (start : UInt32) (stop : Nat) : EngineM Nat := do
  let victims := (← get).cache.affectedBy start stop
  invalidateBlocks victims
  unless victims.isEmpty do Traced.report (.invalidated start stop victims.length)
  return victims.length

end Dynarec.EngineM
