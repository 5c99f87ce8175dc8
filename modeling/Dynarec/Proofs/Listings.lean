import Dynarec.Proofs.Drafting
import Dynarec.Proofs.Stepping
import Dynarec.X86.Templates

/-! The instructions that the templates of x86-64 hosts consist of once their slots are filled. -/
namespace Dynarec.X86

/-- The word of the register file at a filled-in offset. -/
def cell (v : UInt64) : Operand := .mem .rbp none (signed32 v)

/-- A filled slot of 32 bits. -/
abbrev field32 (v : UInt64) : List UInt8 := Width.w32.encode v

/-- The field of a jump over a distance. -/
abbrev jump32 (d : Int) : List UInt8 := field32 (UInt64.ofInt d)

/-- The scratch registers of the templates. -/
inductive Scratch where
  | eax
  | ecx
  | edx

namespace Scratch

def reg : Scratch → Reg
  | .eax => .rax
  | .ecx => .rcx
  | .edx => .rdx

/-- An operand byte of which the register's number is the lowest part. -/
def low (r : Scratch) (rest : UInt8) : UInt8 :=
  rest + match r with
    | .eax => 0
    | .ecx => 1
    | .edx => 2

/-- An operand byte of which the register's number is the middle part. -/
def mid (r : Scratch) (rest : UInt8) : UInt8 :=
  rest + match r with
    | .eax => 0x00
    | .ecx => 0x08
    | .edx => 0x10

end Scratch

/-- Arithmetic opcodes: the form `op eax, [m]` ends in 3 and `op eax, imm` in 5. -/
def AluOp.opcode (op : AluOp) (form : UInt8) : UInt8 :=
  form + match op with
    | .add => 0x00
    | .or => 0x08
    | .and => 0x20
    | .sub => 0x28
    | .xor => 0x30
    | .cmp => 0x38

/-- Condition bytes: 80 with the number of the condition jumps and 90 sets. -/
def Cond.opcode (cond : Cond) (form : UInt8) : UInt8 :=
  form + match cond with
    | .below => 2
    | .equal => 4
    | .notEqual => 5
    | .above => 7
    | .less => 12
    | .greater => 15

/-- A displacement that fits its field is read back from it. -/
theorem signedField_jump32 {d : Int} (h : Width.w32.Fits d) (rest : List UInt8) :
    signedField .w32 (jump32 d ++ rest) = some (d, rest) := by
  have : signedField .w32 (jump32 d ++ rest) =
      some (Width.w32.signExtend (Width.decode (jump32 d)), rest) := rfl
  rw [this, Width.signExtend_decode_encode h]

namespace Coded

section Cells

variable (r : Scratch) (v c : UInt64)

def load : Coded where
  bytes := [0x8B, r.mid 0x85] ++ field32 v
  instr := .mov .dword (.reg r.reg) (.operand (cell v))
  short := Nat.le_of_ble_eq_true rfl
  decodes _ := by cases r <;> rfl

def store : Coded where
  bytes := [0x89, r.mid 0x85] ++ field32 v
  instr := .mov .dword (cell v) (.operand (.reg r.reg))
  short := Nat.le_of_ble_eq_true rfl
  decodes _ := by cases r <;> rfl

def storeConst : Coded where
  bytes := [0xC7, 0x85] ++ field32 v ++ field32 c
  instr := .mov .dword (cell v) (.imm (signed32 c))
  short := Nat.le_of_ble_eq_true rfl
  decodes _ := rfl

/-- Arithmetic of `eax` with a word of the register file. -/
def aluEax (op : AluOp) : Coded where
  bytes := [op.opcode 3, 0x85] ++ field32 v
  instr := .alu op .dword (.reg .rax) (.operand (cell v))
  short := Nat.le_of_ble_eq_true rfl
  decodes _ := by cases op <;> rfl

/-- Arithmetic of `eax` with a constant. -/
def aluEaxConst (op : AluOp) : Coded where
  bytes := [op.opcode 5] ++ field32 c
  instr := .alu op .dword (.reg .rax) (.imm (signed32 c))
  short := Nat.le_of_ble_eq_true rfl
  decodes _ := by cases op <;> rfl

def imulEax : Coded where
  bytes := [0x0F, 0xAF, 0x85] ++ field32 v
  instr := .imul .rax (cell v)
  short := Nat.le_of_ble_eq_true rfl
  decodes _ := rfl

def movEax : Coded where
  bytes := [0xB8] ++ field32 c
  instr := .mov .dword (.reg .rax) (.imm (Width.decode (field32 c)))
  short := Nat.le_of_ble_eq_true rfl
  decodes _ := rfl

def movEsi : Coded where
  bytes := [0xBE] ++ field32 c
  instr := .mov .dword (.reg .rsi) (.imm (Width.decode (field32 c)))
  short := Nat.le_of_ble_eq_true rfl
  decodes _ := rfl

def movRax : Coded where
  bytes := [0x48, 0xB8] ++ Width.w64.encode c
  instr := .mov .qword (.reg .rax) (.imm (Width.decode (Width.w64.encode c)))
  short := Nat.le_of_ble_eq_true rfl
  decodes _ := rfl

def decCell : Coded where
  bytes := [0xFF, 0x8D] ++ field32 v
  instr := .dec (cell v)
  short := Nat.le_of_ble_eq_true rfl
  decodes _ := rfl

def testCell : Coded where
  bytes := [0xF7, 0x85] ++ field32 v ++ field32 c
  instr := .test .dword (cell v) (.imm (signed32 c))
  short := Nat.le_of_ble_eq_true rfl
  decodes _ := rfl

def andConst : Coded where
  bytes := [0x81, r.low 0xE0] ++ field32 c
  instr := .alu .and .dword (.reg r.reg) (.imm (signed32 c))
  short := Nat.le_of_ble_eq_true rfl
  decodes _ := by cases r <;> rfl

/-- A shift by a filled-in distance. -/
def shlConst : Coded where
  bytes := [0xC1, r.low 0xE0] ++ Width.w8.encode c
  instr := .shift .left .dword r.reg (Width.decode (Width.w8.encode c)).toUInt8
  short := Nat.le_of_ble_eq_true rfl
  decodes _ := by cases r <;> rfl

/-- A pointer or an address from behind the register file. -/
def loadRax : Coded where
  bytes := [0x48, 0x8B, 0x85] ++ field32 v
  instr := .mov .qword (.reg .rax) (.operand (cell v))
  short := Nat.le_of_ble_eq_true rfl
  decodes _ := rfl

def loadR14 : Coded where
  bytes := [0x4C, 0x8B, 0xB5] ++ field32 v
  instr := .mov .qword (.reg .r14) (.operand (cell v))
  short := Nat.le_of_ble_eq_true rfl
  decodes _ := rfl

def loadR15 : Coded where
  bytes := [0x4C, 0x8B, 0xBD] ++ field32 v
  instr := .mov .qword (.reg .r15) (.operand (cell v))
  short := Nat.le_of_ble_eq_true rfl
  decodes _ := rfl

def addRdx : Coded where
  bytes := [0x48, 0x03, 0x95] ++ field32 v
  instr := .alu .add .qword (.reg .rdx) (.operand (cell v))
  short := Nat.le_of_ble_eq_true rfl
  decodes _ := rfl

end Cells

section Regions

/-- The register of a region's base. -/
def baseReg : Region → Reg
  | .a => regionA
  | .b => regionB

def loadRegion (r : Region) (v : UInt64) : Coded where
  bytes := [0x41, 0x8B, 0x80 ||| (baseReg r).low3] ++ field32 v
  instr := .mov .dword (.reg .rax) (.operand (.mem (baseReg r) none (signed32 v)))
  short := Nat.le_of_ble_eq_true rfl
  decodes _ := by cases r <;> rfl

def storeRegion (r : Region) (v : UInt64) : Coded where
  bytes := [0x41, 0x89, 0x80 ||| (baseReg r).low3] ++ field32 v
  instr := .mov .dword (.mem (baseReg r) none (signed32 v)) (.operand (.reg .rax))
  short := Nat.le_of_ble_eq_true rfl
  decodes _ := by cases r <;> rfl

/-- A load from region A at the distance in `eax`. -/
def loadA : Coded where
  bytes := [0x41, 0x8B, 0x04, 0x06]
  instr := .mov .dword (.reg .rax) (.operand (.mem .r14 (some .rax) 0))
  short := by decide
  decodes _ := rfl

def storeA : Coded where
  bytes := [0x41, 0x89, 0x0C, 0x06]
  instr := .mov .dword (.mem .r14 (some .rax) 0) (.operand (.reg .rcx))
  short := by decide
  decodes _ := rfl

end Regions

section Plain

variable (r : Scratch)

def bswap : Coded where
  bytes := [0x0F, r.low 0xC8]
  instr := .bswap r.reg
  short := Nat.le_of_ble_eq_true rfl
  decodes _ := by cases r <;> rfl

def setCond (cond : Cond) : Coded where
  bytes := [0x0F, cond.opcode 0x90, r.low 0xC0]
  instr := .set cond r.reg
  short := Nat.le_of_ble_eq_true rfl
  decodes _ := by cases cond <;> cases r <;> rfl

/-- The low byte of a register becomes all of it. -/
def movzx : Coded where
  bytes := [0x0F, 0xB6, r.mid (r.low 0xC0)]
  instr := .movzx r.reg r.reg
  short := Nat.le_of_ble_eq_true rfl
  decodes _ := by cases r <;> rfl

def shl (n : UInt8) : Coded where
  bytes := [0xC1, r.low 0xE0, n]
  instr := .shift .left .dword r.reg (Width.decode [n]).toUInt8
  short := Nat.le_of_ble_eq_true rfl
  decodes _ := by cases r <;> rfl

def shlOnce : Coded where
  bytes := [0xD1, r.low 0xE0]
  instr := .shift .left .dword r.reg 1
  short := Nat.le_of_ble_eq_true rfl
  decodes _ := by cases r <;> rfl

def orWith (src : Scratch) : Coded where
  bytes := [0x09, src.mid (r.low 0xC0)]
  instr := .alu .or .dword (.reg r.reg) (.operand (.reg src.reg))
  short := Nat.le_of_ble_eq_true rfl
  decodes _ := by cases r <;> cases src <;> rfl

/-- Clears the low two bits of `eax`. -/
def alignEax : Coded where
  bytes := [0x83, 0xE0, 0xFC]
  instr := .alu .and .dword (.reg .rax) (.imm 0xFFFFFFFFFFFFFFFC)
  short := by decide
  decodes _ := rfl

def movEdxEax : Coded where
  bytes := [0x89, 0xC2]
  instr := .mov .dword (.reg .rdx) (.operand (.reg .rax))
  short := by decide
  decodes _ := rfl

def shrEdx : Coded where
  bytes := [0xC1, 0xEA, 0x02]
  instr := .shift .right .dword .rdx 2
  short := by decide
  decodes _ := rfl

def shlRdx : Coded where
  bytes := [0x48, 0xC1, 0xE2, 0x04]
  instr := .shift .left .qword .rdx 4
  short := by decide
  decodes _ := rfl

/-- Compares the tag of a line of the jump table. -/
def cmpTag : Coded where
  bytes := [0x48, 0x39, 0x02]
  instr := .alu .cmp .qword (.mem .rdx none 0) (.operand (.reg .rax))
  short := by decide
  decodes _ := rfl

/-- Goes on at the host address of a line of the jump table. -/
def jmpLine : Coded where
  bytes := [0xFF, 0x62, 0x08]
  instr := .jmpTo (.mem .rdx none 8)
  short := by decide
  decodes _ := rfl

def loadPreemption : Coded where
  bytes := [0x8B, 0x00]
  instr := .mov .dword (.reg .rax) (.operand (.mem .rax none 0))
  short := by decide
  decodes _ := rfl

def testEax : Coded where
  bytes := [0x85, 0xC0]
  instr := .test .dword (.reg .rax) (.operand (.reg .rax))
  short := by decide
  decodes _ := rfl

/-- The first argument of a routine is the register file. -/
def movRdi : Coded where
  bytes := [0x48, 0x89, 0xEF]
  instr := .mov .qword (.reg .rdi) (.operand (.reg .rbp))
  short := by decide
  decodes _ := rfl

def callRax : Coded where
  bytes := [0xFF, 0xD0]
  instr := .callTo (.reg .rax)
  short := by decide
  decodes _ := rfl

end Plain

section Frame

/-- The prefix of the registers that need one. -/
def savedBytes (r : Reg) (opcode : UInt8) : List UInt8 :=
  if r.isExtended then [0x41, opcode ||| r.low3] else [opcode ||| r.low3]

def push (r : Reg) : Coded where
  bytes := savedBytes r 0x50
  instr := .push r
  short := by cases r <;> decide
  decodes _ := by cases r <;> rfl

def pop (r : Reg) : Coded where
  bytes := savedBytes r 0x58
  instr := .pop r
  short := by cases r <;> decide
  decodes _ := by cases r <;> rfl

def lowerStack : Coded where
  bytes := [0x48, 0x83, 0xEC, 0x08]
  instr := .alu .sub .qword (.reg .rsp) (.imm 8)
  short := by decide
  decodes _ := rfl

def raiseStack : Coded where
  bytes := [0x48, 0x83, 0xC4, 0x08]
  instr := .alu .add .qword (.reg .rsp) (.imm 8)
  short := by decide
  decodes _ := rfl

def movRbp : Coded where
  bytes := [0x48, 0x89, 0xFD]
  instr := .mov .qword (.reg .rbp) (.operand (.reg .rdi))
  short := by decide
  decodes _ := rfl

def jmpRsi : Coded where
  bytes := [0xFF, 0xE6]
  instr := .jmpTo (.reg .rsi)
  short := by decide
  decodes _ := rfl

def ret : Coded where
  bytes := [0xC3]
  instr := .ret
  short := by decide
  decodes _ := rfl

end Frame

section Jumps

variable (d : Int) (h : Width.w32.Fits d)

def jmp : Coded where
  bytes := [0xE9] ++ jump32 d
  instr := .jmp d
  short := Nat.le_of_ble_eq_true rfl
  decodes rest := by
    change (signedField .w32 (jump32 d ++ rest) >>= fun r => some (Instr.jmp r.1, r.2)) = _
    rw [signedField_jump32 h]
    rfl

def callRel : Coded where
  bytes := [0xE8] ++ jump32 d
  instr := .call d
  short := Nat.le_of_ble_eq_true rfl
  decodes rest := by
    change (signedField .w32 (jump32 d ++ rest) >>= fun r => some (Instr.call r.1, r.2)) = _
    rw [signedField_jump32 h]
    rfl

def jcc (cond : Cond) : Coded where
  bytes := [0x0F, cond.opcode 0x80] ++ jump32 d
  instr := .jcc cond d
  short := Nat.le_of_ble_eq_true rfl
  decodes rest := by
    have high : cond.opcode 0x80 &&& 0xF0 = 0x80 := by cases cond <;> rfl
    have low : condOf (cond.opcode 0x80) = some cond := by cases cond <;> rfl
    change decodeEscaped {} (cond.opcode 0x80) (jump32 d ++ rest) = _
    rw [decodeEscaped, if_pos high, low]
    simp only [bind, Option.bind, signedField_jump32 h]

end Jumps
end Coded

section Code

open Templates Coded

variable (w : Wiring) (p k : Nat) (v₀ v₁ v₂ v₃ v₄ v₅ : UInt64)

theorem take_field32 (n : Nat) (v : UInt64) (bs : List UInt8) :
    (field32 v ++ bs).take (n + 4) = field32 v ++ bs.take n := rfl

theorem drop_field32 (n : Nat) (v : UInt64) (bs : List UInt8) :
    (field32 v ++ bs).drop (n + 4) = bs.drop n := rfl

theorem raw_imm (v : UInt64) : w.raw k (.imm v) = some v := rfl

theorem raw_host (v : UInt64) : w.raw k (.host v) = some v := rfl

theorem raw_handler (v : UInt64) : w.raw k (.handler v) = some v := rfl

attribute [local simp] raw_imm raw_host raw_handler Wiring.code fillSlots Slot.fillIn imm rel fwd
  host Slot.immediate32 Slot.immediate Slot.canonical32 overwrite take_field32 drop_field32
  Scratch.mid Scratch.low Width.bytes

/-- The bytes of the template, with its slots filled, are those of one store. -/
theorem code_storeImm :
    w.code p k (.place storeImm [.imm v₀, .imm v₁]) = assemble [storeConst v₀ v₁] := by
  simp [storeImm, storeConst]

theorem code_storeZero : w.code p k (.place storeZero [.imm v₀]) = assemble [storeConst v₀ 0] := by
  simp [storeZero, storeConst]
  rfl

/-- A move goes through a scratch register. -/
theorem code_move :
    w.code p k (.place move [.imm v₀, .imm v₁]) = assemble [load .eax v₀, store .eax v₁] := by
  simp [move, load, store]

/-- The templates of arithmetic with a constant differ in one opcode. -/
theorem code_aluImm (name : String) (op : AluOp) :
    w.code p k (.place (aluImm name (op.opcode 5)) [.imm v₀, .imm v₁, .imm v₂]) =
      assemble [load .eax v₀, aluEaxConst v₁ op, store .eax v₂] := by
  simp [aluImm, load, aluEaxConst, store]

/-- The templates of arithmetic on registers differ in one opcode. -/
theorem code_aluReg (name : String) (op : AluOp) :
    w.code p k (.place (aluReg name (op.opcode 3)) [.imm v₀, .imm v₁, .imm v₂]) =
      assemble [load .eax v₀, aluEax v₁ op, store .eax v₂] := by
  simp [aluReg, load, aluEax, store]

theorem code_mullw :
    w.code p k (.place mullw [.imm v₀, .imm v₁, .imm v₂]) =
      assemble [load .eax v₀, imulEax v₁, store .eax v₂] := by
  simp [mullw, load, imulEax, store]

/-- A load adds its distance in 32 bits, so that the address wraps around, and swaps the bytes of
what it reads. -/
theorem code_loadWord :
    w.code p k (.place loadWord [.imm v₀, .imm v₁, .imm v₂]) =
      assemble [load .eax v₀, aluEaxConst v₁ .add, loadA, bswap .eax, store .eax v₂] := by
  simp [loadWord, load, aluEaxConst, loadA, bswap, store, AluOp.opcode]

/-- A store adds its distance in 32 bits, so that the address wraps around, and swaps the bytes of
what it writes. -/
theorem code_storeWord :
    w.code p k (.place storeWord [.imm v₀, .imm v₁, .imm v₂]) =
      assemble [load .eax v₀, aluEaxConst v₁ .add, load .ecx v₂, bswap .ecx, storeA] := by
  simp [storeWord, load, aluEaxConst, storeA, bswap, AluOp.opcode]

theorem code_loadWordLiteral :
    w.code p k (.place loadWordLiteral [.imm v₀, .imm v₁]) =
      assemble [movEax v₀, loadA, bswap .eax, store .eax v₁] := by
  simp [loadWordLiteral, movEax, loadA, bswap, store]

theorem code_storeWordLiteral :
    w.code p k (.place storeWordLiteral [.imm v₀, .imm v₁]) =
      assemble [movEax v₀, load .ecx v₁, bswap .ecx, storeA] := by
  simp [storeWordLiteral, movEax, load, bswap, storeA]

/-- The end of every comparison; `lt` and `gt` are the conditions of its order. -/
def conditionListing (lt gt : Cond) (shift cr keep : UInt64) : List Coded :=
  [setCond .ecx lt, setCond .edx gt, setCond .eax .equal, movzx .ecx, movzx .edx,
    movzx .eax, shl .ecx 3, shl .edx 2, shlOnce .eax, orWith .eax .ecx, orWith .eax .edx,
    shlConst .eax shift, load .ecx cr, andConst .ecx keep, orWith .ecx .eax, store .ecx cr]

/-- The templates of comparisons with a constant differ in the conditions that they ask for. -/
theorem code_compareImm (name : String) (lt gt : Cond) :
    w.code p k (.place (compareImm name (lt.opcode 0x90) (gt.opcode 0x90))
        [.imm v₀, .imm v₁, .imm v₂, .imm v₃, .imm v₄, .imm v₃]) =
      assemble (load .eax v₀ :: aluEaxConst v₁ .cmp :: conditionListing lt gt v₂ v₃ v₄) := by
  obtain ⟨b, hb⟩ : ∃ b, Width.w8.encode v₂ = [b] := ⟨_, rfl⟩
  simp [compareImm, conditionTail, conditionListing, load, aluEaxConst, setCond, movzx, shl,
    shlOnce, orWith, shlConst, andConst, store, AluOp.opcode, hb]
  rfl

/-- The templates of comparisons of registers differ in the conditions that they ask for. -/
theorem code_compareReg (name : String) (lt gt : Cond) :
    w.code p k (.place (compareReg name (lt.opcode 0x90) (gt.opcode 0x90))
        [.imm v₀, .imm v₁, .imm v₂, .imm v₃, .imm v₄, .imm v₃]) =
      assemble (load .eax v₀ :: aluEax v₁ .cmp :: conditionListing lt gt v₂ v₃ v₄) := by
  obtain ⟨b, hb⟩ : ∃ b, Width.w8.encode v₂ = [b] := ⟨_, rfl⟩
  simp [compareReg, conditionTail, conditionListing, load, aluEax, setCond, movzx, shl,
    shlOnce, orWith, shlConst, andConst, store, AluOp.opcode, hb]
  rfl

theorem code_indirectTarget :
    w.code p k (.place indirectTarget [.imm v₀, .imm v₁]) =
      assemble [load .eax v₀, alignEax, store .eax v₁] := by
  simp [indirectTarget, load, alignEax, store]

/-- The selector of the template picks the base from which the displacement is measured. -/
theorem code_loadWordAbs {addr : UInt64} {r : Region} {d : Int}
    (h : w.regions.canonical addr .w32 = .ok (r, d)) :
    w.code p k (.place loadWordAbs [.host addr, .imm v₀]) =
      assemble [loadRegion r (UInt64.ofInt d), bswap .eax, store .eax v₀] := by
  cases r <;> simp [loadWordAbs, h, loadRegion, bswap, store] <;> rfl

/-- A store at a host address, from the base that the selector picks. -/
theorem code_storeWordAbs {addr : UInt64} {r : Region} {d : Int}
    (h : w.regions.canonical addr .w32 = .ok (r, d)) :
    w.code p k (.place storeWordAbs [.imm v₀, .host addr]) =
      assemble [load .eax v₀, bswap .eax, storeRegion r (UInt64.ofInt d)] := by
  cases r <;> simp [storeWordAbs, h, load, bswap, storeRegion] <;> rfl

theorem code_callAbsolute (handler : UInt64) :
    w.code p k (.place callAbsolute [.imm v₀, .handler handler]) =
      assemble [movRdi, movEsi v₀, movRax handler, callRax] := by
  simp [callAbsolute, movRdi, movEsi, movRax, callRax]

section Jumps

variable {w p k} {v : SlotValue} {target : Nat}

/-- Distances in the buffer do not depend on where it is mapped. -/
theorem mapped_distance (mapped : w.base + target < 2 ^ 64) (n : Int) :
    ((w.base : Int) + target) % 18446744073709551616 - (w.base + p + n) = target - (p + n) := by
  omega

/-- The jump of an exit is one instruction, whose displacement is its field. -/
theorem code_chainJump (hv : w.raw k v = some (.ofNat (w.base + target)))
    (mapped : w.base + target < 2 ^ 64) (fits : Width.w32.Fits (target - (p + 5 : Nat))) :
    w.code p k (.place chainJump [v]) = assemble [jmp _ fits] := by
  simp [hv, chainJump, jmp, mapped_distance mapped]

/-- The poll reads the preemption word through its address and leaves if it is not zero. -/
theorem code_preemptCheck (hv : w.raw k v = some (.ofNat (w.base + target)))
    (mapped : w.base + target < 2 ^ 64) (fits : Width.w32.Fits (target - (p + 17 : Nat))) :
    w.code p k (.place preemptCheck [.imm v₀, v]) =
      assemble [loadRax v₀, loadPreemption, testEax, jcc _ fits .notEqual] := by
  simp [hv, preemptCheck, loadRax, loadPreemption, testEax, jcc, Cond.opcode,
    mapped_distance mapped]

/-- The lookup shifts and masks the program counter, compares the tag of its line and jumps through
the line. -/
theorem code_indirectLookup (hv : w.raw k v = some (.ofNat (w.base + target)))
    (mapped : w.base + target < 2 ^ 64) (fits : Width.w32.Fits (target - (p + 37 : Nat))) :
    w.code p k (.place indirectLookup [.imm v₀, .imm v₁, .imm v₂, v]) =
      assemble [load .eax v₀, movEdxEax, shrEdx, andConst .edx v₁, shlRdx, addRdx v₂, cmpTag,
        jcc _ fits .notEqual, jmpLine] := by
  simp [hv, indirectLookup, load, movEdxEax, shrEdx, andConst, shlRdx, addRdx, cmpTag, jcc, jmpLine,
    Cond.opcode, mapped_distance mapped]

theorem code_branchCtr (hv : w.raw k v = some (.ofNat (w.base + target)))
    (mapped : w.base + target < 2 ^ 64) (fits : Width.w32.Fits (target - (p + 12 : Nat))) :
    w.code p k (.place branchCtr [.imm v₀, v]) = assemble [decCell v₀, jcc _ fits .equal] := by
  simp [hv, branchCtr, decCell, jcc, Cond.opcode, mapped_distance mapped]

theorem code_branchSet (hv : w.raw k v = some (.ofNat (w.base + target)))
    (mapped : w.base + target < 2 ^ 64) (fits : Width.w32.Fits (target - (p + 16 : Nat))) :
    w.code p k (.place branchSet [.imm v₀, .imm v₁, v]) =
      assemble [testCell v₀ v₁, jcc _ fits .equal] := by
  simp [hv, branchSet, testCell, jcc, Cond.opcode, mapped_distance mapped]

theorem code_branchClear (hv : w.raw k v = some (.ofNat (w.base + target)))
    (mapped : w.base + target < 2 ^ 64) (fits : Width.w32.Fits (target - (p + 16 : Nat))) :
    w.code p k (.place branchClear [.imm v₀, .imm v₁, v]) =
      assemble [testCell v₀ v₁, jcc _ fits .notEqual] := by
  simp [hv, branchClear, testCell, jcc, Cond.opcode, mapped_distance mapped]

/-- A routine lies anywhere in the host's address space, so the distance to it depends on the
base. -/
theorem code_callDirect {handler : UInt64}
    (fits : Width.w32.Fits (handler.toNat - (w.base + p + 13 : Nat))) :
    w.code p k (.place callDirect [.imm v₀, .handler handler]) =
      assemble [movRdi, movEsi v₀, callRel _ fits] := by
  simp [callDirect, movRdi, movEsi, callRel]

end Jumps

section Stubs

variable (regions : RegionBases) (origin : Nat)

/-- The entry code saves the registers that a callee has to, and loads the bases. -/
theorem code_prologue :
    fillSlots regions origin prologue.slots [some v₀, some v₁] prologue.code =
      assemble (calleeSaved.map push ++ [lowerStack, movRbp, loadR14 v₀, loadR15 v₁, jmpRsi]) := by
  simp [prologue, calleeSaved, push, savedBytes, lowerStack, movRbp, loadR14, loadR15, jmpRsi]
  rfl

/-- The exit code restores the registers in reverse order. -/
theorem code_epilogue :
    fillSlots regions origin epilogue.slots [] epilogue.code =
      assemble (raiseStack :: calleeSaved.reverse.map pop ++ [ret]) := rfl

/-- A stub loads its exit code and goes to the common way out. -/
theorem code_exitStub {base target : Nat} (mapped : base + target < 2 ^ 64)
    (fits : Width.w32.Fits (target - (p + 10 : Nat))) :
    fillSlots regions (base + p) exitStub.slots [some v₀, some (.ofNat (base + target))]
        exitStub.code =
      assemble [movEax v₀, jmp _ fits] := by
  have distance : ((base : Int) + target) % 18446744073709551616 - (base + p + 10) =
      target - (p + 10) := by omega
  simp [exitStub, movEax, jmp, distance]

end Stubs

end Code
end Dynarec.X86
