import Dynarec.Engine.Run
import Dynarec.Guest.Semantics

/-!
A dispatcher without code: at each block boundary it asks for the instructions at the program
counter and carries them out one by one. It keeps nothing between blocks, so it says what running a
guest means.
-/
namespace Dynarec

/-- Why a block of the given instructions cannot be written, if it cannot. -/
def Engine.emissionFault? (e : Engine) (pc : UInt32) (insns : List Insn) : Option Fault :=
  match e.plan pc insns with
  | .error f => some f
  | .ok p =>
    if p.size > e.buffer.usable then some (.error (.blockTooLarge p.size e.buffer.usable)) else none

namespace Reference

/-- Runs a guest from block boundary to block boundary, for at most `fuel` blocks. The engine only
says which blocks could be written. -/
def run (e : Engine) (handlers : Handlers) (translate : UInt32 → Nat → List Insn) :
    Nat → GuestState → RunResult × GuestState
  | 0, g => (.outOfFuel, g)
  | fuel + 1, g =>
    if g.events.check then (.finished (.preempted g.events.bits), g)
    else
      let insns := translate g.cpu.pc e.config.maxBlockInsns
      match e.emissionFault? g.cpu.pc insns with
      | some f => (.failed f, g)
      | none =>
        match Platform.runBlock { config := e.config, handlers } g insns with
        | none => (.failed (.violation .assertionFailed), g)
        | some (g, .syscall) => (.finished .systemCall, g)
        | some (g, _) => run e handlers translate fuel g

end Reference
end Dynarec
