/-!
The preemption word. Any party may raise events in it; translated code polls it at block boundaries
and leaves while an event is pending.
-/
namespace Dynarec

structure PreemptionWord where
  bits : UInt32 := 0
  deriving DecidableEq, Repr

namespace PreemptionWord

/-- Raises events. -/
def set (w : PreemptionWord) (events : UInt32) : PreemptionWord := ⟨w.bits ||| events⟩

/-- Acknowledges events. -/
def clear (w : PreemptionWord) (events : UInt32) : PreemptionWord := ⟨w.bits &&& ~~~events⟩

/-- Overwrites the whole word. -/
def init (_ : PreemptionWord) (events : UInt32) : PreemptionWord := ⟨events⟩

/-- Some event is pending. -/
def check (w : PreemptionWord) : Bool := w.bits != 0

/-- All of the given events are pending. -/
def test (w : PreemptionWord) (events : UInt32) : Bool := w.bits &&& events == events

end PreemptionWord
end Dynarec
