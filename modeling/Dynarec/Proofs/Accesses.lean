import Dynarec.Proofs.Operations

/-!
The guest memory that translated code touches: which operands of which instructions stand for guest
memory, and where. Each template for a load or a store touches it once.
-/
namespace Dynarec.X86

/-- A touch of guest memory: an operand, and the host address that it stood for. -/
structure Access where
  operand : Operand
  address : UInt64
  deriving DecidableEq, Repr

def Source.operands : Source → List Operand
  | .operand o => [o]
  | .imm _ => []

/-- What an instruction reads and writes by its operands. -/
def Instr.operands : Instr → List Operand
  | .mov _ dst src | .alu _ _ dst src | .test _ dst src => dst :: src.operands
  | .imul _ o | .dec o | .jmpTo o | .callTo o => [o]
  | .push _ | .pop _ | .shift _ _ _ _ | .bswap _ | .set _ _ | .movzx _ _ | .jmp _ | .jcc _ _
  | .call _ | .ret => []

namespace Machine

/-- The guest memory behind an operand. Pointers lead to objects of the engine, and only numbers to
guest memory. -/
def access? (m : Machine) : Operand → Option Access
  | .reg _ => none
  | .mem base index disp => do
    let a ← (← m.address base index disp).num?
    return ⟨.mem base index disp, a⟩

/-- The guest memory that an instruction touches. -/
def accesses (m : Machine) (i : Instr) : List Access := i.operands.filterMap m.access?

/-- The guest memory that the instruction at the instruction pointer touches. -/
def accessesHere (cx : Context) (m : Machine) : List Access :=
  match decode (cx.code.bytes.extract m.ip (m.ip + maxInstrLength)).toList with
  | some (i, _) => m.accesses i
  | none => []

/-- The guest memory that the next `n` instructions touch, in order. -/
def trace (cx : Context) : Nat → Machine → List Access
  | 0, _ => []
  | n + 1, m =>
    m.accessesHere cx ++ match m.step cx with
      | some (.next m') => trace cx n m'
      | _ => []

/-- The guest memory that the instructions of a listing touch, up to the first that jumps away. -/
def along (cx : Context) (m : Machine) : List Coded → List Access
  | [] => []
  | c :: listing =>
    m.accesses c.instr ++ match exec cx { m with ip := m.ip + c.bytes.length } c.instr with
      | some (.next m') => if m'.ip = m.ip + c.bytes.length then along cx m' listing else []
      | _ => []

variable {cx : Context} {m m' : Machine} {n : Nat}

theorem trace_eq_sees (m : Machine) : m.trace cx n = m.sees accesses cx n := by
  induction n generalizing m with
  | zero => rfl
  | succ n ih =>
    have here : m.accessesHere cx = m.seesHere accesses cx := rfl
    rw [trace, sees, here]
    cases m.step cx with
    | none => rfl
    | some progress =>
      cases progress with
      | leave code guest => rfl
      | next m' => exact congrArg _ (ih m')

theorem along_eq_seesAlong (m : Machine) (listing : List Coded) :
    m.along cx listing = m.seesAlong accesses cx listing := by
  induction listing generalizing m with
  | nil => rfl
  | cons c listing ih =>
    rw [along, seesAlong]
    cases exec cx { m with ip := m.ip + c.bytes.length } c.instr with
    | none => rfl
    | some progress =>
      cases progress with
      | leave code guest => rfl
      | next m' =>
        dsimp only
        rw [ih]

/-- Code touches what its listing touches. -/
theorem trace_of_follow {listing : List Coded} (holds : cx.code.Holds m.ip (assemble listing))
    (h : m.follow cx listing = some m') :
    ∃ n, m.Reaches cx n m' ∧ m.trace cx n = m.along cx listing := by
  obtain ⟨n, reaches, -, seen⟩ := sees_of_follow accesses holds h
  refine ⟨n, reaches, ?_⟩
  rw [trace_eq_sees, along_eq_seesAlong, seen]

section Operands

@[simp] theorem access?_reg (m : Machine) (r : Reg) : m.access? (.reg r) = none := rfl

/-- The register file is no guest memory. -/
theorem access?_cell (h : m.regs.rbp = .ptr .registerFile 0) (v : UInt64) :
    m.access? (cell v) = none := by
  rw [cell, access?, address_env h]
  rfl

theorem access?_regionA (a : UInt64) (x : UInt32) (hbase : m.regs.r14 = .num a)
    (hindex : m.regs.get .rax = .ofDword x) :
    m.access? (.mem .r14 (some .rax) 0) = some ⟨.mem .r14 (some .rax) 0, a + x.toUInt64⟩ := by
  rw [access?, address_regionA a x hbase hindex]
  rfl

theorem access?_direct (a d : UInt64) {r : Reg} (hbase : m.regs.get r = .num a) :
    m.access? (.mem r none d) = some ⟨.mem r none d, a + d⟩ := by
  simp [access?, address, hbase, Value.add, Value.num?]

end Operands

end Machine

/-- Translated code at offset `p` takes every guest in state `g` to offset `q` and touches this
guest memory on its way. -/
def Touches (cx : Context) (p : Nat) (g : GuestState) (made : List Access) (q : Nat) : Prop :=
  ∀ m : Machine, m.Poised cx → m.ip = p → m.guest = g →
    ∃ n m', m.Reaches cx n m' ∧ m'.ip = q ∧ m.trace cx n = made

theorem touches_of_follow {cx : Context} {p q : Nat} {g : GuestState} {made : List Access}
    {listing : List Coded} (holds : cx.code.Holds p (assemble listing))
    (effect : ∀ m : Machine, m.Poised cx → m.ip = p → m.guest = g →
      ∃ m', m.follow cx listing = some m' ∧ m'.ip = q ∧ m.along cx listing = made) :
    Touches cx p g made q := by
  intro m poised hip hguest
  obtain ⟨m', followed, arrived, touched⟩ := effect m poised hip hguest
  obtain ⟨n, reaches, traced⟩ := Machine.trace_of_follow (hip ▸ holds) followed
  exact ⟨n, m', reaches, arrived, traced.trans touched⟩

/-- Guest memory of region A, at the guest address in `rax`. -/
def Operand.indexedA : Operand := .mem .r14 (some .rax) 0

/-- Guest memory at a signed distance from the base of a region. -/
def Operand.fromBase (r : Region) (d : Int) : Operand := .mem (Coded.baseReg r) none (.ofInt d)

/-- The region and the distance of an address fit the operand, and give the address back. -/
theorem base_add_canonical {regions : RegionBases} {addr : UInt64} {r : Region} {d : Int}
    (h : regions.canonical addr .w32 = .ok (r, d)) :
    signed32 (.ofInt d) = .ofInt d ∧ regions.base r + .ofInt d = addr := by
  have sum := signed32_canonical h
  have short : signed32 (.ofInt d) = .ofInt d := by
    simp only [RegionBases.canonical] at h
    split at h
    · next fits =>
      cases h
      exact signed32_ofInt fits
    · split at h
      · next fits =>
        cases h
        exact signed32_ofInt fits
      · cases h
  rw [short] at sum
  exact ⟨short, sum⟩

section Templates

open Templates Coded Machine

variable {cx : Context} {w : Wiring} {p k : Nat} {g : GuestState}

attribute [local simp] follow along accesses Instr.operands Source.operands List.filterMap_cons exec
  source32 source64 alu32 Scratch.reg Regs.get_set Regs.rbp_set Regs.r14_set setReg
  toUInt32_unsigned32 read32_cell write32_cell read32_reg write32_reg access?_cell Width.bytes

theorem touches_loadWord (base dst : CpuField) (d : UInt32)
    (holds : cx.code.Holds p (w.code p k (.place loadWord [base.value, .word d, dst.value]))) :
    Touches cx p g [⟨.indexedA, cx.regions.a + (g.cpu.get base + d).toUInt64⟩] (p + 23) := by
  refine touches_of_follow (code_loadWord w p k _ _ _ ▸ holds) ?_
  rintro m ⟨env, regionA, regionB⟩ rfl rfl
  simp [load, aluEaxConst, loadA, bswap, store, env, AluOp.eval, regionA, Operand.indexedA,
    read32_regionA cx.regions.a (m.guest.cpu.get base + d),
    access?_regionA cx.regions.a (m.guest.cpu.get base + d)]

theorem touches_storeWord (base src : CpuField) (d : UInt32)
    (holds : cx.code.Holds p (w.code p k (.place storeWord [base.value, .word d, src.value]))) :
    Touches cx p g [⟨.indexedA, cx.regions.a + (g.cpu.get base + d).toUInt64⟩] (p + 23) := by
  refine touches_of_follow (code_storeWord w p k _ _ _ ▸ holds) ?_
  rintro m ⟨env, regionA, regionB⟩ rfl rfl
  simp [load, aluEaxConst, storeA, bswap, env, AluOp.eval, regionA, Operand.indexedA,
    write32_regionA cx.regions.a (m.guest.cpu.get base + d),
    access?_regionA cx.regions.a (m.guest.cpu.get base + d)]

theorem touches_loadWordLiteral (addr : UInt32) (dst : CpuField)
    (holds : cx.code.Holds p (w.code p k (.place loadWordLiteral [.word addr, dst.value]))) :
    Touches cx p g [⟨.indexedA, cx.regions.a + addr.toUInt64⟩] (p + 17) := by
  refine touches_of_follow (code_loadWordLiteral w p k _ _ ▸ holds) ?_
  rintro m ⟨env, regionA, regionB⟩ rfl rfl
  simp [movEax, loadA, bswap, store, env, regionA, Operand.indexedA,
    read32_regionA cx.regions.a addr, access?_regionA cx.regions.a addr]

theorem touches_storeWordLiteral (addr : UInt32) (src : CpuField)
    (holds : cx.code.Holds p (w.code p k (.place storeWordLiteral [.word addr, src.value]))) :
    Touches cx p g [⟨.indexedA, cx.regions.a + addr.toUInt64⟩] (p + 17) := by
  refine touches_of_follow (code_storeWordLiteral w p k _ _ ▸ holds) ?_
  rintro m ⟨env, regionA, regionB⟩ rfl rfl
  simp [movEax, load, storeA, bswap, env, regionA, Operand.indexedA,
    write32_regionA cx.regions.a addr, access?_regionA cx.regions.a addr]

theorem touches_loadWordAbs {addr : UInt64} {r : Region} {d : Int} (dst : CpuField)
    (regions : w.regions = cx.regions) (reach : w.regions.canonical addr .w32 = .ok (r, d))
    (holds : cx.code.Holds p (w.code p k (.place loadWordAbs [.host addr, dst.value]))) :
    Touches cx p g [⟨.fromBase r d, addr⟩] (p + 15) := by
  refine touches_of_follow (code_loadWordAbs w p k _ reach ▸ holds) ?_
  rintro m poised rfl rfl
  obtain ⟨short, haddr⟩ := base_add_canonical (regions ▸ reach)
  have hbase := poised.get_baseReg r
  obtain ⟨env, regionA, regionB⟩ := poised
  simp [loadRegion, bswap, store, env, read32_direct (cx.regions.base r), hbase, short, haddr,
    Operand.fromBase, access?_direct (cx.regions.base r)]

theorem touches_storeWordAbs {addr : UInt64} {r : Region} {d : Int} (src : CpuField)
    (regions : w.regions = cx.regions) (reach : w.regions.canonical addr .w32 = .ok (r, d))
    (holds : cx.code.Holds p (w.code p k (.place storeWordAbs [src.value, .host addr]))) :
    Touches cx p g [⟨.fromBase r d, addr⟩] (p + 15) := by
  refine touches_of_follow (code_storeWordAbs w p k _ reach ▸ holds) ?_
  rintro m poised rfl rfl
  obtain ⟨short, haddr⟩ := base_add_canonical (regions ▸ reach)
  have hbase := poised.get_baseReg r
  have hscratch : Reg.rax ≠ baseReg r := by cases r <;> decide
  obtain ⟨env, regionA, regionB⟩ := poised
  simp [load, bswap, storeRegion, env, write32_direct (cx.regions.base r), hbase,
    hscratch, short, haddr, Operand.fromBase, access?_direct (cx.regions.base r)]

end Templates

end Dynarec.X86
