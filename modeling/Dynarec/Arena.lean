import Dynarec.Engine.Event

/-! The code buffer as a state that its owner's calls change in place. -/
namespace Dynarec.CodeBuffer

/-- A call that may change the buffer. -/
inductive Call where
  | append (data : List UInt8)
  | patch (offset : Nat) (data : List UInt8)
  | reserve (n : Nat)
  | flush
  | rewind (offset : Nat)
  | setCodeStart
  deriving DecidableEq, Repr

inductive Answer where
  | done
  /-- Where the written bytes start. -/
  | written (offset : Nat)
  | room (reservation : Reservation)
  deriving DecidableEq, Repr

def Call.perform : Call → Traced CodeBuffer Answer
  | .append data => do
    let b ← get
    set (← b.append data)
    return .written b.cursor
  | .patch offset data => do
    set (← (← get).patch offset data)
    return .done
  | .reserve n => do
    let (reservation, b) ← (← get).reserve n
    set b
    return .room reservation
  | .flush => do
    modify CodeBuffer.flush
    return .done
  | .rewind offset => do
    set (← (← get).rewind offset)
    return .done
  | .setCodeStart => do
    modify CodeBuffer.setCodeStart
    return .done

end Dynarec.CodeBuffer
