import Dynarec.Block.Basic

/-! The trace of an engine: what it reports while it works, with the wording and fields of each
report. -/
namespace Dynarec

inductive FlushReason where
  /-- A block did not fit behind the cursor. -/
  | capacity
  /-- The owner of the engine asked for it. -/
  | explicit
  deriving DecidableEq, Repr

def FlushReason.name : FlushReason → String
  | .capacity => "capacity"
  | .explicit => "explicit"

inductive Event where
  | ready (host : String) (capacity codeStart : Nat)
  | exhausted (pc : UInt32) (size : Nat)
  | translated (pc : UInt32) (stop icount hostOffset hostSize : Nat)
  | flushed (reason : FlushReason) (dropped : Nat)
  | relinked (start target : Nat)
  | chained (src : BlockId) (exit : Nat) (dst : BlockId)
  | unchained (src : BlockId) (exit : Nat)
  | invalidated (start : UInt32) (stop victims : Nat)
  | dispatched (pc : UInt32)
  deriving DecidableEq, Repr

inductive Level where
  | trace
  | debug
  | warn
  deriving DecidableEq, Repr

def Level.name : Level → String
  | .trace => "TRACE"
  | .debug => "DEBUG"
  | .warn => "WARN"

inductive EventField where
  | nat (n : Nat)
  | text (s : String)
  deriving DecidableEq, Repr

namespace Event

def level : Event → Level
  | .exhausted _ _ => .warn
  | .ready _ _ _ | .translated _ _ _ _ _ | .flushed _ _ | .invalidated _ _ _ => .debug
  | .relinked _ _ | .chained _ _ _ | .unchained _ _ | .dispatched _ => .trace

def message : Event → String
  | .ready _ _ _ => "engine ready"
  | .exhausted _ _ => "code buffer exhausted"
  | .translated _ _ _ _ _ => "translated block"
  | .flushed _ _ => "code buffer flushed"
  | .relinked _ _ => "relink"
  | .chained _ _ _ => "chained"
  | .unchained _ _ => "unchained"
  | .invalidated _ _ _ => "invalidated range"
  | .dispatched _ => "dispatch"

def fields : Event → List (String × EventField)
  | .ready host capacity codeStart =>
    [("host", .text host), ("capacity", .nat capacity), ("code_start", .nat codeStart)]
  | .exhausted pc size => [("pc", .nat pc.toNat), ("size", .nat size)]
  | .translated pc stop icount hostOffset hostSize =>
    [("pc", .nat pc.toNat), ("end", .nat stop), ("icount", .nat icount),
      ("host_offset", .nat hostOffset), ("host_size", .nat hostSize)]
  | .flushed reason dropped => [("reason", .text reason.name), ("dropped", .nat dropped)]
  | .relinked start target => [("at", .nat start), ("target", .nat target)]
  | .chained src exit dst =>
    [("src", .text src.describe), ("exit", .nat exit), ("dst", .text dst.describe)]
  | .unchained src exit => [("src", .text src.describe), ("exit", .nat exit)]
  | .invalidated start stop victims =>
    [("start", .nat start.toNat), ("end", .nat stop), ("victims", .nat victims)]
  | .dispatched pc => [("pc", .nat pc.toNat)]

end Event

/-- Operations on a state that report events and may fail. What happened before a failure stays. -/
abbrev Traced (σ : Type) := ExceptT Fault (StateT σ (StateM (Array Event)))

namespace Traced

variable {σ τ α : Type}

/-- The outcome, the state and the trace after an operation. -/
def perform (x : Traced σ α) (s : σ) (log : Array Event) : (Except Fault α × σ) × Array Event :=
  ((x.run s).run log).run

def report (e : Event) : Traced σ Unit := modifyThe (Array Event) (·.push e)

/-- An operation on a part of the state. -/
def zoom (part : τ → σ) (put : τ → σ → τ) (x : Traced σ α) : Traced τ α := fun t log =>
  let ((outcome, s), log) := x.perform (part t) log
  ((outcome, put t s), log)

end Traced

/-- Points a branch of the buffer at another offset. -/
def CodeBuffer.relink (site : BranchSite) (target : Nat) : Traced CodeBuffer Unit := do
  let distance ← (← get).distanceTo site target
  Traced.report (.relinked site.start target)
  set (← (← get).pointBranch site distance)

/-- Points a branch of the buffer at another offset, and makes its new field visible to instruction
fetch. -/
def CodeBuffer.redirect (site : BranchSite) (target : Nat) : Traced CodeBuffer Unit := do
  relink site target
  (← get).sync site.start site.width.bytes

end Dynarec
