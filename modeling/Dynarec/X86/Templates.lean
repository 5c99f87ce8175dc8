import Dynarec.Template.Registry
import Dynarec.X86.Register

/-!
The template table of x86-64 hosts. An operand `[rbp + ?]` is a word of the guest register file
whose offset is filled in; `eax`, `ecx` and `edx` are scratch. Slots stand in the order of their
values.
-/
namespace Dynarec.X86

namespace Templates

/-- A 32-bit constant. -/
def imm (offset : UInt16) : Slot := .immediate32 offset

/-- A 32-bit displacement from the end of its field. -/
def rel (offset : UInt16) : Slot := ⟨offset, .relative .w32 (offset + 4)⟩

/-- A 32-bit branch to another block. -/
def fwd (offset : UInt16) : Slot := ⟨offset, .forward .w32 (offset + 4)⟩

/-- A host address in a region; the base register is named at `selector`. -/
def host (offset selector : UInt16) : Slot :=
  .canonical32 offset
    { offset := selector, mask := 7, regionA := regionA.low3, regionB := regionB.low3 }

/-- Entry from the dispatcher with the register file and the code to run. Slots: the offsets of the
region bases. -/
def prologue : Template where
  name := "prologue"
  code := [
    0x55,                          -- push rbp
    0x53,                          -- push rbx
    0x41, 0x54,                    -- push r12
    0x41, 0x55,                    -- push r13
    0x41, 0x56,                    -- push r14
    0x41, 0x57,                    -- push r15
    0x48, 0x83, 0xEC, 0x08,        -- sub rsp, 8
    0x48, 0x89, 0xFD,              -- mov rbp, rdi
    0x4C, 0x8B, 0xB5, 0, 0, 0, 0,  -- mov r14, [rbp + ?]
    0x4C, 0x8B, 0xBD, 0, 0, 0, 0,  -- mov r15, [rbp + ?]
    0xFF, 0xE6]                    -- jmp rsi
  slots := [imm 20, imm 27]

def epilogue : Template where
  name := "epilogue"
  code := [
    0x48, 0x83, 0xC4, 0x08,  -- add rsp, 8
    0x41, 0x5F,              -- pop r15
    0x41, 0x5E,              -- pop r14
    0x41, 0x5D,              -- pop r13
    0x41, 0x5C,              -- pop r12
    0x5B,                    -- pop rbx
    0x5D,                    -- pop rbp
    0xC3]                    -- ret
  slots := []

/-- Slots: exit code, epilogue. -/
def exitStub : Template where
  name := "exit_stub"
  code := [
    0xB8, 0, 0, 0, 0,  -- mov eax, ?
    0xE9, 0, 0, 0, 0]  -- jmp ?
  slots := [imm 1, rel 6]

/-- Slots: destination, constant. -/
def storeImm : Template where
  name := "store_imm"
  code := [0xC7, 0x85, 0, 0, 0, 0, 0, 0, 0, 0]  -- mov dword [rbp + ?], ?
  slots := [imm 2, imm 6]

/-- Slots: destination. -/
def storeZero : Template where
  name := "store_zero"
  code := [0xC7, 0x85, 0, 0, 0, 0, 0, 0, 0, 0]  -- mov dword [rbp + ?], 0
  slots := [imm 2]

/-- Slots: source, destination. -/
def move : Template where
  name := "move"
  code := [
    0x8B, 0x85, 0, 0, 0, 0,  -- mov eax, [rbp + ?]
    0x89, 0x85, 0, 0, 0, 0]  -- mov [rbp + ?], eax
  slots := [imm 2, imm 8]

/-- One arithmetic instruction with a constant. Slots: source, constant, destination. -/
def aluImm (name : String) (opcode : UInt8) : Template where
  name
  code := [
    0x8B, 0x85, 0, 0, 0, 0,  -- mov eax, [rbp + ?]
    opcode, 0, 0, 0, 0,      -- op eax, ?
    0x89, 0x85, 0, 0, 0, 0]  -- mov [rbp + ?], eax
  slots := [imm 2, imm 7, imm 13]

def addImm : Template := aluImm "add_imm" 0x05
def orImm : Template := aluImm "or_imm" 0x0D
def xorImm : Template := aluImm "xor_imm" 0x35

/-- One arithmetic instruction on two registers. Slots: left, right, destination. -/
def aluReg (name : String) (opcode : UInt8) : Template where
  name
  code := [
    0x8B, 0x85, 0, 0, 0, 0,    -- mov eax, [rbp + ?]
    opcode, 0x85, 0, 0, 0, 0,  -- op eax, [rbp + ?]
    0x89, 0x85, 0, 0, 0, 0]    -- mov [rbp + ?], eax
  slots := [imm 2, imm 8, imm 14]

def add : Template := aluReg "add" 0x03
def sub : Template := aluReg "sub" 0x2B
def and : Template := aluReg "and" 0x23
def or : Template := aluReg "or" 0x0B
def xor : Template := aluReg "xor" 0x33

/-- Slots: left, right, destination. -/
def mullw : Template where
  name := "mullw"
  code := [
    0x8B, 0x85, 0, 0, 0, 0,        -- mov eax, [rbp + ?]
    0x0F, 0xAF, 0x85, 0, 0, 0, 0,  -- imul eax, [rbp + ?]
    0x89, 0x85, 0, 0, 0, 0]        -- mov [rbp + ?], eax
  slots := [imm 2, imm 9, imm 15]

/-- A load from region A at a register plus a constant, as a 32-bit sum. Slots: base, constant,
destination. -/
def loadWord : Template where
  name := "lwz"
  code := [
    0x8B, 0x85, 0, 0, 0, 0,  -- mov eax, [rbp + ?]
    0x05, 0, 0, 0, 0,        -- add eax, ?
    0x41, 0x8B, 0x04, 0x06,  -- mov eax, [r14 + rax]
    0x0F, 0xC8,              -- bswap eax
    0x89, 0x85, 0, 0, 0, 0]  -- mov [rbp + ?], eax
  slots := [imm 2, imm 7, imm 19]

/-- Slots: base, constant, source. -/
def storeWord : Template where
  name := "stw"
  code := [
    0x8B, 0x85, 0, 0, 0, 0,  -- mov eax, [rbp + ?]
    0x05, 0, 0, 0, 0,        -- add eax, ?
    0x8B, 0x8D, 0, 0, 0, 0,  -- mov ecx, [rbp + ?]
    0x0F, 0xC9,              -- bswap ecx
    0x41, 0x89, 0x0C, 0x06]  -- mov [r14 + rax], ecx
  slots := [imm 2, imm 7, imm 13]

/-- A load from a fixed host address in either region. Slots: address, destination. -/
def loadWordAbs : Template where
  name := "lwz_abs"
  code := [
    0x41, 0x8B, 0x86, 0, 0, 0, 0,  -- mov eax, [r14 + ?]
    0x0F, 0xC8,                    -- bswap eax
    0x89, 0x85, 0, 0, 0, 0]        -- mov [rbp + ?], eax
  slots := [host 3 2, imm 11]

/-- Slots: source, address. -/
def storeWordAbs : Template where
  name := "stw_abs"
  code := [
    0x8B, 0x85, 0, 0, 0, 0,        -- mov eax, [rbp + ?]
    0x0F, 0xC8,                    -- bswap eax
    0x41, 0x89, 0x86, 0, 0, 0, 0]  -- mov [r14 + ?], eax
  slots := [imm 2, host 11 10]

/-- A load from region A at a literal guest address that no distance from a region base reaches.
Slots: guest address, destination. -/
def loadWordLiteral : Template where
  name := "lwz_ea"
  code := [
    0xB8, 0, 0, 0, 0,        -- mov eax, ?
    0x41, 0x8B, 0x04, 0x06,  -- mov eax, [r14 + rax]
    0x0F, 0xC8,              -- bswap eax
    0x89, 0x85, 0, 0, 0, 0]  -- mov [rbp + ?], eax
  slots := [imm 1, imm 13]

/-- Slots: guest address, source. -/
def storeWordLiteral : Template where
  name := "stw_ea"
  code := [
    0xB8, 0, 0, 0, 0,        -- mov eax, ?
    0x8B, 0x8D, 0, 0, 0, 0,  -- mov ecx, [rbp + ?]
    0x0F, 0xC9,              -- bswap ecx
    0x41, 0x89, 0x0C, 0x06]  -- mov [r14 + rax], ecx
  slots := [imm 1, imm 7]

/-- The tail of every comparison: less, greater and equal become the high bits of one condition
field. `below` and `above` are the condition bytes of the two orders. -/
def conditionTail (below above : UInt8) : List UInt8 := [
  0x0F, below, 0xC1,       -- set less cl
  0x0F, above, 0xC2,       -- set greater dl
  0x0F, 0x94, 0xC0,        -- sete al
  0x0F, 0xB6, 0xC9,        -- movzx ecx, cl
  0x0F, 0xB6, 0xD2,        -- movzx edx, dl
  0x0F, 0xB6, 0xC0,        -- movzx eax, al
  0xC1, 0xE1, 0x03,        -- shl ecx, 3
  0xC1, 0xE2, 0x02,        -- shl edx, 2
  0xD1, 0xE0,              -- shl eax, 1
  0x09, 0xC8,              -- or eax, ecx
  0x09, 0xD0,              -- or eax, edx
  0xC1, 0xE0, 0,           -- shl eax, ?
  0x8B, 0x8D, 0, 0, 0, 0,  -- mov ecx, [rbp + ?]
  0x81, 0xE1, 0, 0, 0, 0,  -- and ecx, ?
  0x09, 0xC1,              -- or ecx, eax
  0x89, 0x8D, 0, 0, 0, 0]  -- mov [rbp + ?], ecx

/-- Slots: left, constant, shift of the field, condition register, mask of the other fields,
condition register. -/
def compareImm (name : String) (below above : UInt8) : Template where
  name
  code := [
    0x8B, 0x85, 0, 0, 0, 0,  -- mov eax, [rbp + ?]
    0x3D, 0, 0, 0, 0] ++     -- cmp eax, ?
    conditionTail below above
  slots := [imm 2, imm 7, .immediate 43 .w8, imm 46, imm 52, imm 60]

/-- Slots: left, right, shift of the field, condition register, mask of the other fields, condition
register. -/
def compareReg (name : String) (below above : UInt8) : Template where
  name
  code := [
    0x8B, 0x85, 0, 0, 0, 0,     -- mov eax, [rbp + ?]
    0x3B, 0x85, 0, 0, 0, 0] ++  -- cmp eax, [rbp + ?]
    conditionTail below above
  slots := [imm 2, imm 8, .immediate 44 .w8, imm 47, imm 53, imm 61]

def compareSignedImm : Template := compareImm "cmpwi" 0x9C 0x9F
def compareUnsignedImm : Template := compareImm "cmplwi" 0x92 0x97
def compareSigned : Template := compareReg "cmpw" 0x9C 0x9F
def compareUnsigned : Template := compareReg "cmplw" 0x92 0x97

/-- Counts down and goes on when the count is not zero. Slots: counter, fallthrough. -/
def branchCtr : Template where
  name := "bdnz"
  code := [
    0xFF, 0x8D, 0, 0, 0, 0,  -- dec dword [rbp + ?]
    0x0F, 0x84, 0, 0, 0, 0]  -- jz ?
  slots := [imm 2, rel 8]

/-- Goes on when the bit is set. Slots: condition register, bit, fallthrough. -/
def branchSet : Template where
  name := "bc_cr_set"
  code := [
    0xF7, 0x85, 0, 0, 0, 0, 0, 0, 0, 0,  -- test dword [rbp + ?], ?
    0x0F, 0x84, 0, 0, 0, 0]              -- jz ?
  slots := [imm 2, imm 6, rel 12]

/-- Goes on when the bit is clear. Slots: condition register, bit, fallthrough. -/
def branchClear : Template where
  name := "bc_cr_clear"
  code := [
    0xF7, 0x85, 0, 0, 0, 0, 0, 0, 0, 0,  -- test dword [rbp + ?], ?
    0x0F, 0x85, 0, 0, 0, 0]              -- jnz ?
  slots := [imm 2, imm 6, rel 12]

/-- The program counter becomes a register with its low two bits cleared. Slots: source, program
counter. -/
def indirectTarget : Template where
  name := "indirect_target"
  code := [
    0x8B, 0x85, 0, 0, 0, 0,  -- mov eax, [rbp + ?]
    0x83, 0xE0, 0xFC,        -- and eax, -4
    0x89, 0x85, 0, 0, 0, 0]  -- mov [rbp + ?], eax
  slots := [imm 2, imm 11]

/-- Enters the block that the jump cache has for the program counter. Slots: program counter, mask
of line numbers, jump cache, dispatch stub. -/
def indirectLookup : Template where
  name := "indirect_lookup"
  code := [
    0x8B, 0x85, 0, 0, 0, 0,        -- mov eax, [rbp + ?]
    0x89, 0xC2,                    -- mov edx, eax
    0xC1, 0xEA, 0x02,              -- shr edx, 2
    0x81, 0xE2, 0, 0, 0, 0,        -- and edx, ?
    0x48, 0xC1, 0xE2, 0x04,        -- shl rdx, 4
    0x48, 0x03, 0x95, 0, 0, 0, 0,  -- add rdx, [rbp + ?]
    0x48, 0x39, 0x02,              -- cmp [rdx], rax
    0x0F, 0x85, 0, 0, 0, 0,        -- jne ?
    0xFF, 0x62, 0x08]              -- jmp [rdx + 8]
  slots := [imm 2, imm 13, imm 24, rel 33]

/-- Leaves when an event is pending. Slots: preemption word, preempt stub. -/
def preemptCheck : Template where
  name := "preempt_check"
  code := [
    0x48, 0x8B, 0x85, 0, 0, 0, 0,  -- mov rax, [rbp + ?]
    0x8B, 0x00,                    -- mov eax, [rax]
    0x85, 0xC0,                    -- test eax, eax
    0x0F, 0x85, 0, 0, 0, 0]        -- jnz ?
  slots := [imm 3, rel 13]

/-- A block exit. Slots: where it leads. -/
def chainJump : Template where
  name := "chain_jmp"
  code := [0xE9, 0, 0, 0, 0]  -- jmp ?
  slots := [fwd 1]

/-- Slots: instruction word, routine. -/
def callDirect : Template where
  name := "call_direct"
  code := [
    0x48, 0x89, 0xEF,  -- mov rdi, rbp
    0xBE, 0, 0, 0, 0,  -- mov esi, ?
    0xE8, 0, 0, 0, 0]  -- call ?
  slots := [imm 4, rel 9]

/-- Slots: instruction word, routine. -/
def callAbsolute : Template where
  name := "call_absolute"
  code := [
    0x48, 0x89, 0xEF,                    -- mov rdi, rbp
    0xBE, 0, 0, 0, 0,                    -- mov esi, ?
    0x48, 0xB8, 0, 0, 0, 0, 0, 0, 0, 0,  -- mov rax, ?
    0xFF, 0xD0]                          -- call rax
  slots := [imm 4, .immediate 10 .w64]

/-- The template of a key. Adding, or-ing and xor-ing zero are plain moves. -/
def lookup : TemplateKey → Option Template
  | ⟨.storeImm, .imm⟩ => some storeImm
  | ⟨.storeImm, .zero⟩ => some storeZero
  | ⟨.move, .reg⟩ => some move
  | ⟨.addImm, .zero⟩ | ⟨.orImm, .zero⟩ | ⟨.xorImm, .zero⟩ => some move
  | ⟨.addImm, .imm⟩ => some addImm
  | ⟨.orImm, .imm⟩ => some orImm
  | ⟨.xorImm, .imm⟩ => some xorImm
  | ⟨.add, .reg⟩ => some add
  | ⟨.subf, .reg⟩ => some sub
  | ⟨.and, .reg⟩ => some and
  | ⟨.or, .reg⟩ => some or
  | ⟨.xor, .reg⟩ => some xor
  | ⟨.mullw, .reg⟩ => some mullw
  | ⟨.loadWord, .imm⟩ => some loadWord
  | ⟨.storeWord, .imm⟩ => some storeWord
  | ⟨.loadWord, .absolute⟩ => some loadWordLiteral
  | ⟨.storeWord, .absolute⟩ => some storeWordLiteral
  | ⟨.loadWordAbs, .absolute⟩ => some loadWordAbs
  | ⟨.storeWordAbs, .absolute⟩ => some storeWordAbs
  | ⟨.compare, .imm⟩ => some compareSignedImm
  | ⟨.compare, .reg⟩ => some compareSigned
  | ⟨.compareLogical, .imm⟩ => some compareUnsignedImm
  | ⟨.compareLogical, .reg⟩ => some compareUnsigned
  | ⟨.condBranch, .ctrNonZero⟩ => some branchCtr
  | ⟨.condBranch, .crSet⟩ => some branchSet
  | ⟨.condBranch, .crClear⟩ => some branchClear
  | ⟨.indirectTarget, .reg⟩ => some indirectTarget
  | ⟨.callHelper, .direct⟩ => some callDirect
  | ⟨.callHelper, .absolute⟩ => some callAbsolute
  | ⟨.preemptCheck, .fixed⟩ => some preemptCheck
  | ⟨.chainJump, .direct⟩ => some chainJump
  | ⟨.indirectLookup, .fixed⟩ => some indirectLookup
  | ⟨.exitStub, .fixed⟩ => some exitStub
  | ⟨.prologue, .fixed⟩ => some prologue
  | ⟨.epilogue, .fixed⟩ => some epilogue
  | _ => none

end Templates

/-- The table of this host. -/
def registry : Registry where
  hostName := "x86_64"
  lookup := Templates.lookup

end Dynarec.X86
