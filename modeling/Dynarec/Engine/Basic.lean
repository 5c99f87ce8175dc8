import Dynarec.Block.Cache
import Dynarec.Block.ChainTable
import Dynarec.Config
import Dynarec.Engine.Event
import Dynarec.Guest.Cpu
import Dynarec.Template.Registry

/-! The recompilation engine: its parts, its creation and the removal of all blocks. -/
namespace Dynarec

/-- Offsets of the code that is written once, when the engine is created. -/
structure Stubs where
  prologue : Nat
  epilogue : Nat
  /-- Where every exit leads that is not linked. -/
  dispatch : Nat
  preempt : Nat
  syscall : Nat
  invalidate : Nat
  deriving DecidableEq, Repr

/-- What an engine has done so far. The counters are taken not to overflow: they are meant for 64
bits, and no engine lives long enough to fill those. -/
structure Stats where
  blocksTranslated : Nat := 0
  insnsTranslated : Nat := 0
  flushes : Nat := 0
  chainLinks : Nat := 0
  invalidatedBlocks : Nat := 0
  deriving DecidableEq, Repr

structure Engine where
  registry : Registry
  config : Config
  buffer : CodeBuffer
  cache : BlockCache
  chains : ChainTable := .empty
  stubs : Stubs
  stats : Stats := {}

/-- Copies a template and fills its slots in order. Returns where the copy starts. -/
def CodeBuffer.placeFilled (b : CodeBuffer) (regions : RegionBases) (t : Template)
    (values : List UInt64) : Except Fault (Nat × CodeBuffer) := do
  let (i, b) ← values.zipIdx.foldlM (fun (i, b) (v, k) => b.fill regions i k v) (← b.place t)
  i.checkFilled
  return (i.offset, b)

/-- Writes the stubs. -/
def Stubs.write (registry : Registry) (regions : RegionBases) (b : CodeBuffer) :
    Except Fault (Stubs × CodeBuffer) := do
  let offsets := [LinkField.regionA, .regionB].map fun f => UInt64.ofNat f.offset
  let (prologue, b) ← b.placeFilled regions (← registry.get ⟨.prologue, .fixed⟩) offsets
  let (epilogue, b) ← b.placeFilled regions (← registry.get ⟨.epilogue, .fixed⟩) []
  let wayOut ← b.addrAt epilogue
  let t ← registry.get ⟨.exitStub, .fixed⟩
  let stub (b : CodeBuffer) (e : ExitCode) := b.placeFilled regions t [e.code.toUInt64, wayOut]
  let (dispatch, b) ← stub b .dispatch
  let (preempt, b) ← stub b .preempt
  let (syscall, b) ← stub b .syscall
  let (invalidate, b) ← stub b .invalidate
  return ({ prologue, epilogue, dispatch, preempt, syscall, invalidate }, b)

namespace Engine

/-- An engine whose code buffer is mapped at host address `base`. -/
def create (base : Nat) (registry : Registry) (config : Config) : Except Fault Engine := do
  config.validate
  registry.validate
  let b ← CodeBuffer.map base config.codeBufferSize
  let (stubs, b) ← Stubs.write registry config.regions b
  let buffer := b.setCodeStart
  buffer.sync 0 buffer.codeStart
  return { registry, config, stubs, buffer, cache := { codeBase := base } }

/-- What a new engine reports. -/
def announcement (e : Engine) : Event :=
  .ready e.registry.hostName e.buffer.capacity e.buffer.codeStart

/-- The resident block of an address. -/
def lookup (e : Engine) (pc : UInt32) : Option BlockId := e.cache.lookup pc

end Engine

abbrev EngineM := Traced Engine

namespace EngineM

variable {α : Type}

def onBuffer (x : Traced CodeBuffer α) : EngineM α :=
  x.zoom (·.buffer) ({ · with buffer := · })

def modifyCache (f : BlockCache → BlockCache) : EngineM Unit :=
  modify fun e => { e with cache := f e.cache }

def modifyBlock (id : BlockId) (f : Block → Block) : EngineM Unit := modifyCache (·.modify id f)

def modifyChains (f : ChainTable → ChainTable) : EngineM Unit :=
  modify fun e => { e with chains := f e.chains }

def modifyStats (f : Stats → Stats) : EngineM Unit :=
  modify fun e => { e with stats := f e.stats }

def getBlock (id : BlockId) : EngineM Block := do (← get).cache.get id

/-- Drops every block and every open exit, and resets the code buffer. -/
def flush (reason : FlushReason) : EngineM Unit := do
  let dropped := (← get).cache.size
  modify fun e => { e with
    cache := e.cache.flush
    chains := e.chains.clear
    buffer := e.buffer.flush
    stats := { e.stats with flushes := e.stats.flushes + 1 } }
  Traced.report (.flushed reason dropped)

def invalidateAll : EngineM Unit := flush .explicit

end EngineM
end Dynarec
