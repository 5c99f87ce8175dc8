import Dynarec.Engine.Translate
import Dynarec.X86.Machine

/-!
The dispatcher: it looks up or translates the block at the program counter, enters its code and acts
on the code with which that returns.
-/
namespace Dynarec

/-- A source of guest instructions with a state of its own: the instructions at an address, at most
so many. -/
structure Translator (σ : Type) where
  translate : σ → UInt32 → Nat → List Insn × σ

inductive ExitReason where
  /-- Events are pending at a block boundary; the caller clears those that it handles. -/
  | preempted (events : UInt32)
  /-- A system call; the program counter points behind it. -/
  | systemCall
  deriving DecidableEq, Repr

inductive RunResult where
  | finished (reason : ExitReason)
  | failed (fault : Fault)
  | outOfFuel
  deriving DecidableEq, Repr

/-- An engine at work on a guest. -/
structure Session (σ : Type) where
  engine : Engine
  log : Array Event := #[]
  guest : GuestState := {}
  source : σ

/-- The size of a guest cache line. -/
def cacheLine : UInt32 := 32

namespace EngineM

/-- The block at an address, if it is resident. -/
def find (pc : UInt32) : EngineM (Option BlockId) := do
  let (id, cache) ← (← get).cache.find pc
  modifyCache fun _ => cache
  return id

/-- The host address at which a block is entered. -/
def entryOf (id : BlockId) : EngineM UInt64 := do
  (← get).buffer.addrAt (← getBlock id).hostOffset

end EngineM

namespace Session

variable {σ α : Type}

def perform (s : Session σ) (x : EngineM α) : Except Fault α × Session σ :=
  let ((outcome, engine), log) := Traced.perform x s.engine s.log
  (outcome, { s with engine, log })

def report (s : Session σ) (e : Event) : Session σ := { s with log := s.log.push e }

/-- The host address of the code for the program counter, which is translated if it has to be. -/
def resolve (t : Translator σ) (s : Session σ) : Except Fault UInt64 × Session σ :=
  let pc := s.guest.cpu.pc
  match s.perform (EngineM.find pc) with
  | (.error f, s) => (.error f, s)
  | (.ok (some id), s) => s.perform (EngineM.entryOf id)
  | (.ok none, s) =>
    let (insns, source) := t.translate s.source pc s.engine.config.maxBlockInsns
    { s with source }.perform do EngineM.entryOf (← EngineM.emitBlock pc insns)

/-- What translated code runs against. -/
def context (s : Session σ) (handlers : Handlers) : X86.Context where
  code := s.engine.buffer
  jumps := s.engine.cache.jumps
  regions := s.engine.config.regions
  handlers

/-- Takes the blocks out of use that the cache line of the last invalidation touches. -/
def invalidateLine (s : Session σ) : Except Fault Nat × Session σ :=
  let line := s.guest.cpu.icbiEa &&& ~~~(cacheLine - 1)
  s.perform (EngineM.invalidateRange line (line.toNat + cacheLine.toNat))

/-- Runs the guest from its program counter until events are pending at a block boundary or it makes
a system call. -/
def run (t : Translator σ) (handlers : Handlers) : Nat → Session σ → RunResult × Session σ
  | 0, s => (.outOfFuel, s)
  | fuel + 1, s =>
    if s.guest.events.check then (.finished (.preempted s.guest.events.bits), s)
    else
      match s.resolve t with
      | (.error f, s) => (.failed f, s)
      | (.ok entry, s) =>
        match X86.call (s.context handlers) s.engine.stubs.prologue entry s.guest fuel with
        | .outOfFuel => (.outOfFuel, s)
        | .stuck offset => (.failed (.violation (.undefinedHostCode offset)), s)
        | .left code guest =>
          let s := { s with guest }
          match ExitCode.ofCode? code with
          | some .dispatch => run t handlers fuel (s.report (.dispatched guest.cpu.pc))
          | some .preempt => (.finished (.preempted guest.events.bits), s)
          | some .syscall => (.finished .systemCall, s)
          | some .invalidate =>
            match s.invalidateLine with
            | (.error f, s) => (.failed f, s)
            | (.ok _, s) => run t handlers fuel s
          | none => (.failed (.violation (.unknownExitCode code)), s)

end Session
end Dynarec
