import Std.Data.HashMap
import Dynarec.LittleEndian

/-! Host memory as translated code sees it: bytes by address, zero until written. -/
namespace Dynarec

structure Memory where
  cells : Std.HashMap UInt64 UInt8 := ∅

namespace Memory

def byte (m : Memory) (addr : UInt64) : UInt8 := m.cells.getD addr 0

def setByte (m : Memory) (addr : UInt64) (b : UInt8) : Memory := ⟨m.cells.insert addr b⟩

/-- Consecutive bytes; addresses wrap. -/
def read (m : Memory) (addr : UInt64) : Nat → List UInt8
  | 0 => []
  | n + 1 => m.byte addr :: m.read (addr + 1) n

/-- Stores consecutive bytes; addresses wrap. -/
def write (m : Memory) (addr : UInt64) : List UInt8 → Memory
  | [] => m
  | b :: bs => (m.setByte addr b).write (addr + 1) bs

/-- A word, least significant byte first. -/
def load32 (m : Memory) (addr : UInt64) : UInt32 :=
  UInt32.ofNat (LittleEndian.value (m.read addr 4))

def store32 (m : Memory) (addr : UInt64) (v : UInt32) : Memory :=
  m.write addr (LittleEndian.bytes 4 v.toNat)

/-- A guest word, most significant byte first. -/
def loadWord (m : Memory) (addr : UInt64) : UInt32 :=
  UInt32.ofNat (LittleEndian.value (m.read addr 4).reverse)

def storeWord (m : Memory) (addr : UInt64) (v : UInt32) : Memory :=
  m.write addr (LittleEndian.bytes 4 v.toNat).reverse

@[simp] theorem byte_setByte (m : Memory) (a b : UInt64) (v : UInt8) :
    (m.setByte a v).byte b = if a = b then v else m.byte b := by
  simp [byte, setByte, Std.HashMap.getD_insert]

@[simp] theorem length_read (m : Memory) (addr : UInt64) (n : Nat) :
    (m.read addr n).length = n := by
  induction n generalizing addr with
  | zero => rfl
  | succ n ih => simp [read, ih]

end Memory
end Dynarec
