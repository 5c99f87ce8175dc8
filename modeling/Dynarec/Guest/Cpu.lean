import Dynarec.Fault

/-!
The guest's user-level registers, and where translated code finds them: every register is a word at
a fixed distance from the start of the register file.
-/
namespace Dynarec

structure Cpu where
  gpr : Vector UInt32 32 := Vector.replicate 32 0
  cr : UInt32 := 0
  xer : UInt32 := 0
  lr : UInt32 := 0
  ctr : UInt32 := 0
  pc : UInt32 := 0
  /-- The effective address of the last cache line invalidation. -/
  icbiEa : UInt32 := 0
  deriving DecidableEq, Repr

/-- A word of the register file. -/
inductive CpuField where
  | gpr (n : Fin 32)
  | cr
  | xer
  | lr
  | ctr
  | pc
  | icbiEa
  deriving DecidableEq, Repr

/-- A host pointer or address kept behind the register file while translated code runs. -/
inductive LinkField where
  | preempt
  | jumpCache
  | regionA
  | regionB
  deriving DecidableEq, Repr

namespace CpuField

def offset : CpuField → Nat
  | .gpr n => 4 * n
  | .cr => 128
  | .xer => 132
  | .lr => 136
  | .ctr => 140
  | .pc => 144
  | .icbiEa => 148

/-- The register word that starts at an offset. -/
def ofOffset? (offset : Nat) : Option CpuField :=
  if h : offset % 4 = 0 ∧ offset < 128 then some (.gpr ⟨offset / 4, by omega⟩)
  else [CpuField.cr, .xer, .lr, .ctr, .pc, .icbiEa].find? fun f => f.offset = offset

theorem ofOffset?_offset (f : CpuField) : ofOffset? f.offset = some f := by
  cases f with
  | gpr n =>
    have : n.val < 32 := n.isLt
    simp [ofOffset?, offset]
    omega
  | _ => rfl

end CpuField

namespace LinkField

def offset : LinkField → Nat
  | .preempt => 152
  | .jumpCache => 160
  | .regionA => 168
  | .regionB => 176

def ofOffset? (offset : Nat) : Option LinkField :=
  [LinkField.preempt, .jumpCache, .regionA, .regionB].find? fun f => f.offset = offset

theorem ofOffset?_offset (f : LinkField) : ofOffset? f.offset = some f := by cases f <;> rfl

end LinkField

namespace Cpu

def get (c : Cpu) : CpuField → UInt32
  | .gpr n => c.gpr[n]
  | .cr => c.cr
  | .xer => c.xer
  | .lr => c.lr
  | .ctr => c.ctr
  | .pc => c.pc
  | .icbiEa => c.icbiEa

def set (c : Cpu) (f : CpuField) (v : UInt32) : Cpu :=
  match f with
  | .gpr n => { c with gpr := c.gpr.set n v }
  | .cr => { c with cr := v }
  | .xer => { c with xer := v }
  | .lr => { c with lr := v }
  | .ctr => { c with ctr := v }
  | .pc => { c with pc := v }
  | .icbiEa => { c with icbiEa := v }

@[simp] theorem get_set_self (c : Cpu) (f : CpuField) (v : UInt32) : (c.set f v).get f = v := by
  cases f <;> simp [get, set]

theorem get_set_ne (c : Cpu) {f g : CpuField} (v : UInt32) (h : f ≠ g) :
    (c.set f v).get g = c.get g := by
  cases f <;> cases g <;> simp_all [get, set]
  rename_i m n
  exact Vector.getElem_set_ne _ _ fun e => h (Fin.ext e)

end Cpu

/-- The general register of a number, which has to be below 32. -/
def gprField (n : UInt8) : Except Fault CpuField :=
  if h : n.toNat < 32 then .ok (.gpr ⟨n.toNat, h⟩) else breach .assertionFailed

/-- The exit codes that translated code hands back. -/
inductive ExitCode where
  /-- Look up the program counter and go on. -/
  | dispatch
  /-- The preemption word was not zero at a block boundary. -/
  | preempt
  /-- A system call; the program counter points behind it. -/
  | syscall
  /-- A cache line invalidation of the recorded effective address. -/
  | invalidate
  deriving DecidableEq, Repr

namespace ExitCode

def all : List ExitCode := [.dispatch, .preempt, .syscall, .invalidate]

def code : ExitCode → UInt32
  | .dispatch => 0
  | .preempt => 1
  | .syscall => 2
  | .invalidate => 3

def ofCode? (n : UInt32) : Option ExitCode := all.find? fun e => e.code = n

theorem ofCode?_code (e : ExitCode) : ofCode? e.code = some e := by cases e <;> rfl

end ExitCode
end Dynarec
