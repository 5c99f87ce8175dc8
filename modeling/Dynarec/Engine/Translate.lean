import Dynarec.Engine.Chain
import Dynarec.Engine.Plan

/-! Writing a planned block into the code buffer, and publishing it. -/
namespace Dynarec

/-- A block that is being written. -/
structure Draft where
  buffer : CodeBuffer
  instances : Array Instance := #[]
  exits : List ExitSlot := []
  calls : List CallSite := []
  /-- Slots that wait for the place of the fallthrough code: number of the instance and slot. -/
  forward : List (Nat × Nat) := []
  fallthrough : Option Nat := none
  deriving DecidableEq, Repr

namespace Draft

/-- Fills a slot of the instance that has just been placed. A slot for the fallthrough code, whose
place is not known yet, is left for later. -/
def fillValue (e : Engine) (d : Draft) (i : Instance) (k : Nat) (v : SlotValue) :
    Except Fault (Draft × Instance) := do
  match v with
  | .imm v | .host v => fill d v
  | .handler addr =>
    let s ← i.slot k
    let site := { start := i.offset + s.offset.toNat, width := s.width, handler := addr }
    fill { d with calls := d.calls ++ [site] } addr
  | .stub offset => fill d (← d.buffer.addrAt offset)
  | .fallthrough => return ({ d with forward := d.forward ++ [(d.instances.size, k)] }, i)
  | .exit target =>
    let exit := { target, site := ← i.branchSite k }
    fill { d with exits := d.exits ++ [exit] } (← d.buffer.addrAt e.stubs.dispatch)
where
  fill (d : Draft) (v : UInt64) : Except Fault (Draft × Instance) := do
    let (i, buffer) ← d.buffer.fill e.config.regions i k v
    return ({ d with buffer }, i)

/-- Writes a step of a plan at the cursor. -/
def write (e : Engine) (d : Draft) : PlanStep → Except Fault Draft
  | .fallthrough => return { d with fallthrough := some d.buffer.cursor }
  | .place t values => do
    let (i, buffer) ← d.buffer.place t
    let (d, i) ← values.zipIdx.foldlM (fun (d, i) (v, k) => d.fillValue e i k v)
      ({ d with buffer }, i)
    return { d with instances := d.instances.push i }

/-- Fills a slot that has waited for the place of the fallthrough code. -/
def fillForward (e : Engine) (d : Draft) (n k : Nat) : Except Fault Draft := do
  match d.fallthrough, d.instances[n]? with
  | some offset, some i =>
    let (i, buffer) ← d.buffer.fill e.config.regions i k (← d.buffer.addrAt offset)
    return { d with buffer, instances := d.instances.setIfInBounds n i }
  | none, _ => breach .labelNeverPlaced
  | _, none => breach .indexOutOfBounds

/-- Writes a whole plan, and checks that no slot has been forgotten. -/
def ofPlan (e : Engine) (buffer : CodeBuffer) (p : Plan) : Except Fault Draft := do
  let d ← p.steps.foldlM (write e) { buffer }
  let d ← d.forward.foldlM (fun d (n, k) => d.fillForward e n k) d
  d.instances.toList.forM (·.checkFilled)
  return d

end Draft

namespace EngineM

/-- Makes room for a block of the given size. The block that is resident at its address makes way,
unless a flush has removed it with all others. -/
def makeRoom (pc : UInt32) (size : Nat) : EngineM Unit := do
  let (outcome, buffer) ← (← get).buffer.reserve size
  modify fun e => { e with buffer }
  match outcome with
  | .flushed =>
    Traced.report (.exhausted pc size)
    flush .capacity
  | .ready => if let some old := (← get).lookup pc then invalidateBlocks [old]

/-- Stores a written block, whose code instruction fetch has to see, and makes it reachable. -/
def publish (pc : UInt32) (p : Plan) (d : Draft) : EngineM BlockId := do
  let start := (← get).buffer.cursor
  let hostSize := d.buffer.cursor - start
  d.buffer.sync start hostSize
  let (id, cache) := (← get).cache.alloc pc p.stop p.icount
  let cache := cache.modify id fun b => { b with
    hostOffset := start
    hostSize
    terminal := p.terminal
    exits := d.exits
    calls := d.calls }
  let cache ← cache.publish id
  modify fun e => { e with buffer := d.buffer, cache }
  modifyStats fun s => { s with
    blocksTranslated := s.blocksTranslated + 1
    insnsTranslated := s.insnsTranslated + p.icount }
  Traced.report (.translated pc p.stop p.icount start hostSize)
  return id

/-- Translates instructions into a block that is entered at `pc`, and links it to its neighbours. -/
def emitBlock (pc : UInt32) (insns : List Insn) : EngineM BlockId := do
  let p ← (← get).plan pc insns
  makeRoom pc p.size
  let e ← get
  let d ← Draft.ofPlan e e.buffer p
  let id ← publish pc p d
  if e.config.directChaining then
    d.exits.zipIdx.forM fun (exit, k) => linkOrWait id k exit.target
    resolvePending id
  return id

end EngineM
end Dynarec
