import Dynarec.Proofs.Listings

/-! What the code of each template does to a guest. -/
namespace Dynarec

/-- The guest with another value in a register. -/
def GuestState.put (g : GuestState) (f : CpuField) (v : UInt32) : GuestState :=
  { g with cpu := g.cpu.set f v }

/-- Fields of the register file are so near to its start that a signed displacement reaches them. -/
theorem CpuField.offset_lt (f : CpuField) : f.offset < 0x80000000 := by
  cases f with
  | gpr n => simp only [offset]; omega
  | _ => simp [offset]

theorem CpuField.toNat_offset (f : CpuField) : (UInt64.ofNat f.offset).toNat = f.offset :=
  UInt64.toNat_ofNat_of_lt' (Nat.lt_trans f.offset_lt (by decide))

theorem LinkField.offset_lt (f : LinkField) : f.offset < 0x80000000 := by cases f <;> decide

theorem LinkField.toNat_offset (f : LinkField) : (UInt64.ofNat f.offset).toNat = f.offset :=
  UInt64.toNat_ofNat_of_lt' (Nat.lt_trans f.offset_lt (by decide))

namespace LittleEndian

/-- A list of bytes is what its number is written as. -/
theorem bytes_value (bs : List UInt8) : bytes bs.length (value bs) = bs := by
  induction bs with
  | nil => rfl
  | cons b bs ih =>
    have hb : b.toNat < 256 := b.toNat_lt
    have low : (b.toNat + 256 * value bs).toUInt8 = b := by
      apply UInt8.toNat.inj
      simp
    have high : (b.toNat + 256 * value bs) / 256 = value bs := by omega
    rw [value, List.length_cons, bytes, low, high, ih]

/-- Four bytes make a word. -/
theorem value_lt_word {bs : List UInt8} (h : bs.length = 4) : value bs < UInt32.size := by
  have := value_lt bs
  rw [h] at this
  exact this

theorem bytes_word {bs : List UInt8} (h : bs.length = 4) :
    bytes 4 (UInt32.ofNat (value bs)).toNat = bs := by
  rw [UInt32.toNat_ofNat_of_lt' (value_lt_word h), ← h, bytes_value]

end LittleEndian

/-- The low half of a value survives in a field of 32 bits. -/
theorem toUInt32_unsigned32 (v : UInt64) :
    (Width.decode (Width.w32.encode v)).toUInt32 = v.toUInt32 := by
  apply UInt32.toNat.inj
  rw [UInt64.toNat_toUInt32, UInt64.toNat_toUInt32, Width.toNat_decode_encode]
  exact Nat.mod_mod _ _

namespace Memory

/-- A loaded word with its bytes in the other order. -/
theorem swapped_load32 (m : Memory) (addr : UInt64) :
    UInt32.ofNat (LittleEndian.value (LittleEndian.bytes 4 (m.load32 addr).toNat).reverse) =
      m.loadWord addr := by
  rw [load32, loadWord, LittleEndian.bytes_word (by simp)]

/-- Storing the bytes of a word in reverse order is the store of the guest, which is big-endian. -/
theorem store32_swapped (m : Memory) (addr : UInt64) (v : UInt32) :
    m.store32 addr (UInt32.ofNat (LittleEndian.value (LittleEndian.bytes 4 v.toNat).reverse)) =
      m.storeWord addr v := by
  rw [store32, storeWord, LittleEndian.bytes_word (by simp)]

end Memory

namespace X86

theorem Regs.rbp_set (r : Regs) {k : Reg} (v : Value) (h : k ≠ .rbp) : (r.set k v).rbp = r.rbp := by
  cases k with
  | rbp => exact absurd rfl h
  | _ => rfl

theorem Regs.r14_set (r : Regs) {k : Reg} (v : Value) (h : k ≠ .r14) : (r.set k v).r14 = r.r14 := by
  cases k with
  | r14 => exact absurd rfl h
  | _ => rfl

namespace Machine

variable {cx : Context} {m : Machine}

/-- A pointer or an address that is kept behind the register file. -/
def linkValue (cx : Context) : LinkField → Value
  | .preempt => .ptr .preemptionWord 0
  | .jumpCache => .ptr .jumpTable 0
  | .regionA => .num cx.regions.a
  | .regionB => .num cx.regions.b

theorem address_env (h : m.regs.rbp = .ptr .registerFile 0) (d : UInt64) :
    m.address .rbp none d = some (.ptr .registerFile d) := by
  rw [← UInt64.zero_add d]
  simp [address, Regs.get, h, Value.add]

/-- Translated code that is under way reads a field of the register file through its base
register. -/
theorem read32_cell (h : m.regs.rbp = .ptr .registerFile 0) (f : CpuField) :
    m.read32 (cell (.ofNat f.offset)) = some (m.guest.cpu.get f) := by
  rw [cell, read32, address_env h, signed32_ofNat f.offset_lt]
  simp only [bind, Option.bind, load32, f.toNat_offset, CpuField.ofOffset?_offset, Option.map_some]

/-- A write to a field of the register file is seen by the guest. -/
theorem write32_cell (h : m.regs.rbp = .ptr .registerFile 0) (f : CpuField) (v : UInt32) :
    m.write32 (cell (.ofNat f.offset)) v = some { m with guest := m.guest.put f v } := by
  rw [cell, write32, address_env h, signed32_ofNat f.offset_lt]
  simp only [bind, Option.bind, store32, f.toNat_offset, CpuField.ofOffset?_offset, Option.map_some,
    GuestState.put]

/-- What follows the register file in memory is what the run has been linked with. -/
theorem read64_cell (h : m.regs.rbp = .ptr .registerFile 0) (f : LinkField) :
    m.read64 cx (cell (.ofNat f.offset)) = some (linkValue cx f) := by
  rw [cell, read64, address_env h, signed32_ofNat f.offset_lt]
  simp only [bind, Option.bind, load64, f.toNat_offset, LinkField.ofOffset?_offset, Option.map_some]
  cases f <;> rfl

theorem read32_reg (m : Machine) (r : Reg) : m.read32 (.reg r) = (m.regs.get r).dword? := rfl

theorem read64_reg (m : Machine) (r : Reg) : m.read64 cx (.reg r) = some (m.regs.get r) := rfl

theorem write32_reg (m : Machine) (r : Reg) (v : UInt32) :
    m.write32 (.reg r) v = some (m.setReg r (.ofDword v)) := rfl

section Regions

variable (a : UInt64) (x : UInt32) (hbase : m.regs.r14 = .num a)
  (hindex : m.regs.get .rax = .ofDword x)

include hbase hindex in
/-- The address of an access that goes through region A. -/
theorem address_regionA : m.address .r14 (some .rax) 0 = some (.num (a + x.toUInt64)) := by
  have h : m.regs.get .r14 = .num a := hbase
  rw [address, h, hindex]
  simp [Value.add, Value.ofDword]

include hbase hindex in
theorem read32_regionA :
    m.read32 (.mem .r14 (some .rax) 0) = some (m.guest.memory.load32 (a + x.toUInt64)) := by
  rw [read32, address_regionA a x hbase hindex]
  rfl

include hbase hindex in
theorem write32_regionA (v : UInt32) :
    m.write32 (.mem .r14 (some .rax) 0) v = some { m with
      guest := { m.guest with memory := m.guest.memory.store32 (a + x.toUInt64) v } } := by
  rw [write32, address_regionA a x hbase hindex]
  rfl

end Regions

section Direct

variable (a d : UInt64) {r : Reg} (hbase : m.regs.get r = .num a)

include hbase in
theorem read32_direct : m.read32 (.mem r none d) = some (m.guest.memory.load32 (a + d)) := by
  simp [read32, address, hbase, Value.add, load32]

include hbase in
theorem write32_direct (v : UInt32) : m.write32 (.mem r none d) v =
    some { m with guest := { m.guest with memory := m.guest.memory.store32 (a + d) v } } := by
  simp [write32, address, hbase, Value.add, store32]

end Direct

/-- Each region has its base in a register of its own. -/
theorem Poised.get_baseReg (h : m.Poised cx) (r : Region) :
    m.regs.get (Coded.baseReg r) = .num (cx.regions.base r) := by
  cases r with
  | a => exact h.regionA
  | b => exact h.regionB

end Machine

/-- Region and distance stand for the address that they come from. -/
theorem signed32_canonical {regions : RegionBases} {addr : UInt64} {r : Region} {d : Int}
    (h : regions.canonical addr .w32 = .ok (r, d)) :
    regions.base r + signed32 (UInt64.ofInt d) = addr := by
  have hsum (base : UInt64) : base + UInt64.ofInt (addr.toNat - base.toNat) = addr := by
    apply UInt64.toNat.inj
    have := Width.toNat_ofInt (addr.toNat - base.toNat)
    have := addr.toNat_lt
    have := base.toNat_lt
    rw [UInt64.toNat_add]
    omega
  simp only [RegionBases.canonical] at h
  split at h
  · next fits =>
    cases h
    rw [signed32_ofInt fits]
    exact hsum regions.a
  · split at h
    · next fits =>
      cases h
      rw [signed32_ofInt fits]
      exact hsum regions.b
    · cases h

section Straight

open Templates Coded Machine

variable {cx : Context} {w : Wiring} {p k : Nat} {g : GuestState}

attribute [local simp] follow exec source32 source64 alu32 Scratch.reg Regs.get_set Regs.rbp_set
  Regs.r14_set setReg toUInt32_unsigned32
  read32_cell write32_cell read64_cell read32_reg read64_reg write32_reg linkValue Width.bytes

/-- A field is set to a constant. -/
theorem goes_storeImm (f : CpuField) (v : UInt32)
    (holds : cx.code.Holds p (w.code p k (.place storeImm [f.value, .word v]))) :
    Goes cx p g (p + 10) (g.put f v) := by
  refine goes_of_follow (code_storeImm w p k _ _ ▸ holds) (by simp) ?_
  rintro m ⟨env, regionA, regionB⟩ rfl rfl
  simp [storeConst, env]
  exact ⟨env, regionA, regionB⟩

theorem goes_storeZero (f : CpuField)
    (holds : cx.code.Holds p (w.code p k (.place storeZero [f.value]))) :
    Goes cx p g (p + 10) (g.put f 0) := by
  refine goes_of_follow (code_storeZero w p k _ ▸ holds) (by simp) ?_
  rintro m ⟨env, regionA, regionB⟩ rfl rfl
  simp [storeConst, env]
  exact ⟨env, regionA, regionB⟩

/-- A field is copied to another. -/
theorem goes_move (src dst : CpuField)
    (holds : cx.code.Holds p (w.code p k (.place move [src.value, dst.value]))) :
    Goes cx p g (p + 12) (g.put dst (g.cpu.get src)) := by
  refine goes_of_follow (code_move w p k _ _ ▸ holds) (by simp) ?_
  rintro m ⟨env, regionA, regionB⟩ rfl rfl
  simp [load, store, env]
  exact ⟨env, regionA, regionB⟩

/-- Arithmetic with a constant, for each operation that has a result. -/
theorem goes_aluImm (name : String) (op : AluOp) (hop : op ≠ .cmp) (src dst : CpuField) (v : UInt32)
    (holds : cx.code.Holds p
      (w.code p k (.place (aluImm name (op.opcode 5)) [src.value, .word v, dst.value]))) :
    Goes cx p g (p + 17) (g.put dst ⟨(op.eval (g.cpu.get src).toBitVec v.toBitVec).1⟩) := by
  refine goes_of_follow (code_aluImm w p k _ _ _ _ _ ▸ holds) (by simp) ?_
  rintro m ⟨env, regionA, regionB⟩ rfl rfl
  simp [load, aluEaxConst, store, env, hop]
  exact ⟨env, regionA, regionB⟩

/-- Arithmetic on two registers, for each operation that has a result. -/
theorem goes_aluReg (name : String) (op : AluOp) (hop : op ≠ .cmp) (left right dst : CpuField)
    (holds : cx.code.Holds p
      (w.code p k (.place (aluReg name (op.opcode 3)) [left.value, right.value, dst.value]))) :
    Goes cx p g (p + 18)
      (g.put dst ⟨(op.eval (g.cpu.get left).toBitVec (g.cpu.get right).toBitVec).1⟩) := by
  refine goes_of_follow (code_aluReg w p k _ _ _ _ _ ▸ holds) (by simp) ?_
  rintro m ⟨env, regionA, regionB⟩ rfl rfl
  simp [load, aluEax, store, env, hop]
  exact ⟨env, regionA, regionB⟩

theorem goes_mullw (left right dst : CpuField)
    (holds : cx.code.Holds p (w.code p k (.place mullw [left.value, right.value, dst.value]))) :
    Goes cx p g (p + 19) (g.put dst (g.cpu.get left * g.cpu.get right)) := by
  refine goes_of_follow (code_mullw w p k _ _ _ ▸ holds) (by simp) ?_
  rintro m ⟨env, regionA, regionB⟩ rfl rfl
  simp [load, imulEax, store, env]
  exact ⟨env, regionA, regionB⟩

/-- A load at a distance from a register goes to region A, wherever the window is. -/
theorem goes_loadWord (base dst : CpuField) (d : UInt32)
    (holds : cx.code.Holds p (w.code p k (.place loadWord [base.value, .word d, dst.value]))) :
    Goes cx p g (p + 23)
      (g.put dst (g.memory.loadWord (cx.regions.a + (g.cpu.get base + d).toUInt64))) := by
  refine goes_of_follow (code_loadWord w p k _ _ _ ▸ holds) (by simp) ?_
  rintro m ⟨env, regionA, regionB⟩ rfl rfl
  simp [load, aluEaxConst, loadA, bswap, store, env, AluOp.eval, regionA,
    read32_regionA cx.regions.a (m.guest.cpu.get base + d), Memory.swapped_load32]
  exact ⟨env, regionA, regionB⟩

/-- A store at a distance from a register goes to region A, wherever the window is. -/
theorem goes_storeWord (base src : CpuField) (d : UInt32)
    (holds : cx.code.Holds p (w.code p k (.place storeWord [base.value, .word d, src.value]))) :
    Goes cx p g (p + 23)
      { g with memory :=
          g.memory.storeWord (cx.regions.a + (g.cpu.get base + d).toUInt64) (g.cpu.get src) } := by
  refine goes_of_follow (code_storeWord w p k _ _ _ ▸ holds) (by simp) ?_
  rintro m ⟨env, regionA, regionB⟩ rfl rfl
  simp [load, aluEaxConst, storeA, bswap, env, AluOp.eval, regionA,
    write32_regionA cx.regions.a (m.guest.cpu.get base + d), Memory.store32_swapped]
  exact ⟨env, regionA, regionB⟩

/-- A load at a constant that no base reaches goes through region A. -/
theorem goes_loadWordLiteral (addr : UInt32) (dst : CpuField)
    (holds : cx.code.Holds p (w.code p k (.place loadWordLiteral [.word addr, dst.value]))) :
    Goes cx p g (p + 17) (g.put dst (g.memory.loadWord (cx.regions.a + addr.toUInt64))) := by
  refine goes_of_follow (code_loadWordLiteral w p k _ _ ▸ holds) (by simp) ?_
  rintro m ⟨env, regionA, regionB⟩ rfl rfl
  simp [movEax, loadA, bswap, store, env, regionA, read32_regionA cx.regions.a addr,
    Memory.swapped_load32]
  exact ⟨env, regionA, regionB⟩

theorem goes_storeWordLiteral (addr : UInt32) (src : CpuField)
    (holds : cx.code.Holds p (w.code p k (.place storeWordLiteral [.word addr, src.value]))) :
    Goes cx p g (p + 17)
      { g with memory := g.memory.storeWord (cx.regions.a + addr.toUInt64) (g.cpu.get src) } := by
  refine goes_of_follow (code_storeWordLiteral w p k _ _ ▸ holds) (by simp) ?_
  rintro m ⟨env, regionA, regionB⟩ rfl rfl
  simp [movEax, load, storeA, bswap, env, regionA, write32_regionA cx.regions.a addr,
    Memory.store32_swapped]
  exact ⟨env, regionA, regionB⟩

/-- A load at a host address that one of the bases reaches. -/
theorem goes_loadWordAbs {addr : UInt64} {r : Region} {d : Int} (dst : CpuField)
    (regions : w.regions = cx.regions) (reach : w.regions.canonical addr .w32 = .ok (r, d))
    (holds : cx.code.Holds p (w.code p k (.place loadWordAbs [.host addr, dst.value]))) :
    Goes cx p g (p + 15) (g.put dst (g.memory.loadWord addr)) := by
  refine goes_of_follow (code_loadWordAbs w p k _ reach ▸ holds) (by simp) ?_
  rintro m poised rfl rfl
  have haddr : cx.regions.base r + signed32 (UInt64.ofInt d) = addr :=
    signed32_canonical (regions ▸ reach)
  have hbase := poised.get_baseReg r
  obtain ⟨env, regionA, regionB⟩ := poised
  simp [loadRegion, bswap, store, env, read32_direct (cx.regions.base r), hbase, haddr,
    Memory.swapped_load32]
  exact ⟨env, regionA, regionB⟩

/-- A store at a host address that one of the bases reaches. -/
theorem goes_storeWordAbs {addr : UInt64} {r : Region} {d : Int} (src : CpuField)
    (regions : w.regions = cx.regions) (reach : w.regions.canonical addr .w32 = .ok (r, d))
    (holds : cx.code.Holds p (w.code p k (.place storeWordAbs [src.value, .host addr]))) :
    Goes cx p g (p + 15) { g with memory := g.memory.storeWord addr (g.cpu.get src) } := by
  refine goes_of_follow (code_storeWordAbs w p k _ reach ▸ holds) (by simp) ?_
  rintro m poised rfl rfl
  have haddr : cx.regions.base r + signed32 (UInt64.ofInt d) = addr :=
    signed32_canonical (regions ▸ reach)
  have hbase := poised.get_baseReg r
  have hscratch : Reg.rax ≠ baseReg r := by cases r <;> decide
  obtain ⟨env, regionA, regionB⟩ := poised
  simp [load, bswap, storeRegion, env, write32_direct (cx.regions.base r), hbase, hscratch, haddr,
    Memory.store32_swapped]
  exact ⟨env, regionA, regionB⟩

/-- The bit that a comparison leaves in its field. -/
def outcomeBits (less greater : Bool) : UInt32 :=
  if less then ConditionRegister.lt else if greater then ConditionRegister.gt
  else ConditionRegister.eq

/-- The three flag bytes of a comparison, shifted to their places, make the outcome of the field. -/
theorem outcomeBits_eq {less greater : Bool} (one : (less && greater) = false) :
    ((if less = false ∧ greater = false then (1 : UInt8) else 0).toUInt32 <<< (1 &&& 31) |||
        (if less = true then (1 : UInt8) else 0).toUInt32 <<< (3 &&& 31)) |||
      (if greater = true then (1 : UInt8) else 0).toUInt32 <<< (2 &&& 31) =
        outcomeBits less greater := by
  revert one
  cases less <;> cases greater <;> decide

theorem toUInt8_byte (n : UInt8) : (Width.decode [n]).toUInt8 = n := by
  apply UInt8.toNat.inj
  have := n.toNat_lt
  simp [Width.decode, LittleEndian.value]

theorem toUInt8_decode_encode (v : UInt64) :
    (Width.decode (Width.w8.encode v)).toUInt8 = v.toUInt8 := by
  apply UInt8.toNat.inj
  rw [UInt64.toNat_toUInt8, UInt64.toNat_toUInt8, Width.toNat_decode_encode]
  exact Nat.mod_mod _ _

/-- The part behind the comparison puts its outcome into the field of the condition register and
keeps the other fields. -/
theorem follow_condition {m : Machine} {lt gt : Cond} {less greater : Bool} {shift keep : UInt32}
    (poised : m.Poised cx) (hless : m.flags.holds lt = some less)
    (hgreater : m.flags.holds gt = some greater)
    (hequal : m.flags.holds .equal = some (!less && !greater)) (one : (less && greater) = false)
    (hshift : shift % 256 &&& 31 = shift) :
    ∃ m', m.follow cx (conditionListing lt gt shift.toUInt64 (.ofNat CpuField.cr.offset)
        keep.toUInt64) = some m' ∧ m'.Poised cx ∧ m'.ip = m.ip + 53 ∧
      m'.guest =
        m.guest.put .cr ((m.guest.cpu.cr &&& keep) ||| outcomeBits less greater <<< shift) ∧
      m'.stack = m.stack := by
  obtain ⟨env, regionA, regionB⟩ := poised
  have hcr : m.guest.cpu.get .cr = m.guest.cpu.cr := rfl
  simp [conditionListing, setCond, movzx, shl, shlOnce, orWith, shlConst, andConst,
    load, store, env, hless, hgreater, hequal, AluOp.eval, toUInt8_byte,
    toUInt8_decode_encode, hshift, hcr]
  rw [outcomeBits_eq one]
  exact ⟨⟨env, regionA, regionB⟩, rfl⟩

theorem sub_beq_zero {n : Nat} (x y : BitVec n) : (x - y == 0#n) = (x == y) := by
  rw [Bool.eq_iff_iff, beq_iff_eq, beq_iff_eq, BitVec.sub_eq_iff_eq_add, BitVec.zero_add]

/-- The two orders of comparisons. -/
inductive Order where
  | signed
  | unsigned

namespace Order

def lt : Order → Cond
  | .signed => .less
  | .unsigned => .below

def gt : Order → Cond
  | .signed => .greater
  | .unsigned => .above

def less (o : Order) (x y : BitVec 32) : Bool :=
  match o with
  | .signed => x.slt y
  | .unsigned => x.ult y

/-- No two words are below each other. -/
theorem less_asymm (o : Order) (x y : BitVec 32) : (o.less x y && o.less y x) = false := by
  cases o <;> simp [less, BitVec.slt, BitVec.ult] <;> omega

/-- Words are equal if neither is below the other. -/
theorem beq_iff (o : Order) (x y : BitVec 32) : (x == y) = (!o.less x y && !o.less y x) := by
  rw [Bool.eq_iff_iff, beq_iff_eq]
  cases o with
  | signed =>
    rw [← BitVec.toInt_inj]
    simp only [less, BitVec.slt_eq_decide, Bool.and_eq_true, Bool.not_eq_true',
      decide_eq_false_iff_not]
    omega
  | unsigned =>
    rw [← BitVec.toNat_inj]
    simp only [less, BitVec.ult, Bool.and_eq_true, Bool.not_eq_true', decide_eq_false_iff_not]
    omega

/-- Sign and overflow of a difference say which side is less as a signed number. -/
theorem sign_ne_overflow (x y : BitVec 32) :
    ((x - y).msb != (x.msb != y.msb && (x - y).msb != x.msb)) = x.slt y := by
  have negative (z : BitVec 32) : z.msb = true ↔ 2 ^ 31 ≤ z.toNat :=
    BitVec.msb_eq_true_iff_two_mul_ge.trans (by omega)
  have hx := negative x
  have hy := negative y
  have hsub := negative (x - y)
  rw [BitVec.toNat_sub] at hsub
  have := x.isLt
  have := y.isLt
  rw [BitVec.slt_eq_decide, BitVec.toInt_eq_msb_cond, BitVec.toInt_eq_msb_cond, Bool.eq_iff_iff,
    decide_eq_true_iff]
  cases xSign : x.msb <;> cases ySign : y.msb <;> cases subSign : (x - y).msb <;>
    simp only [xSign, ySign, subSign, bne_self_eq_false, Bool.bne_false, Bool.bne_true,
      Bool.not_false, Bool.and_false, Bool.and_true, Bool.false_eq_true, true_iff, false_iff,
      if_true, if_false] at hx hy hsub ⊢ <;>
    omega

variable (o : Order) (x y : BitVec 32)

/-- A comparison leaves the flags that the order of its operands asks for. -/
theorem holds_lt : (AluOp.eval .cmp x y).2.holds o.lt = some (o.less x y) := by
  cases o with
  | signed => simp [AluOp.eval, Flags.ofResult, Flags.holds, lt, less, sign_ne_overflow]
  | unsigned => rfl

theorem holds_equal :
    (AluOp.eval .cmp x y).2.holds .equal = some (!o.less x y && !o.less y x) := by
  rw [← o.beq_iff, ← sub_beq_zero]
  rfl

theorem holds_gt : (AluOp.eval .cmp x y).2.holds o.gt = some (o.less y x) := by
  have asymm := o.less_asymm x y
  have hzero : (x - y == 0) = (!o.less x y && !o.less y x) :=
    (sub_beq_zero x y).trans (o.beq_iff x y)
  cases o with
  | signed =>
    have hsign : ((x - y).msb == (x.msb != y.msb && (x - y).msb != x.msb)) = !x.slt y := by
      rw [← sign_ne_overflow]
      cases (x - y).msb <;> cases x.msb <;> cases y.msb <;> rfl
    simp only [less] at asymm hzero
    simp only [AluOp.eval, Flags.ofResult, Flags.holds, gt, less, bind, Option.bind, hsign, hzero]
    revert asymm
    cases x.slt y <;> cases y.slt x <;> decide
  | unsigned =>
    simp only [less] at asymm hzero
    simp only [AluOp.eval, Flags.ofResult, Flags.holds, gt, less, bind, Option.bind, hzero]
    revert asymm
    cases x.ult y <;> cases y.ult x <;> decide

end Order

section Compare

variable (o : Order) (left : CpuField) {shift keep : UInt32} (hshift : shift % 256 &&& 31 = shift)

/-- The guest behind a comparison. -/
def compared (g : GuestState) (o : Order) (x y shift keep : UInt32) : GuestState :=
  g.put .cr ((g.cpu.cr &&& keep) |||
    outcomeBits (o.less x.toBitVec y.toBitVec) (o.less y.toBitVec x.toBitVec) <<< shift)

include hshift

/-- A comparison of two registers sets one field of the condition register. -/
theorem goes_compareReg (name : String) (right : CpuField)
    (holds : cx.code.Holds p
      (w.code p k
        (.place (compareReg name (o.lt.opcode 0x90) (o.gt.opcode 0x90))
          [left.value, right.value, .word shift, CpuField.cr.value, .word keep,
            CpuField.cr.value]))) :
    Goes cx p g (p + 65) (compared g o (g.cpu.get left) (g.cpu.get right) shift keep) := by
  refine goes_of_follow (code_compareReg w p k _ _ _ _ _ _ _ _ ▸ holds) (by simp) ?_
  rintro m ⟨env, regionA, regionB⟩ rfl rfl
  simp [load, aluEax, env]
  exact follow_condition ⟨env, regionA, regionB⟩ (o.holds_lt _ _) (o.holds_gt _ _)
    (o.holds_equal _ _) (o.less_asymm _ _) hshift

/-- A comparison with a constant sets one field of the condition register. -/
theorem goes_compareImm (name : String) (v : UInt32)
    (holds : cx.code.Holds p (w.code p k
      (.place (compareImm name (o.lt.opcode 0x90) (o.gt.opcode 0x90))
        [left.value, .word v, .word shift, CpuField.cr.value, .word keep, CpuField.cr.value]))) :
    Goes cx p g (p + 64) (compared g o (g.cpu.get left) v shift keep) := by
  refine goes_of_follow (code_compareImm w p k _ _ _ _ _ _ _ _ ▸ holds) (by simp) ?_
  rintro m ⟨env, regionA, regionB⟩ rfl rfl
  simp [load, aluEaxConst, env]
  exact follow_condition ⟨env, regionA, regionB⟩ (o.holds_lt _ _) (o.holds_gt _ _)
    (o.holds_equal _ _) (o.less_asymm _ _) hshift

end Compare

/-- The code that takes the program counter from a register. -/
def alignListing (src : CpuField) : List Coded :=
  [load .eax (.ofNat src.offset), alignEax, store .eax (.ofNat CpuField.pc.offset)]

/-- The target of an indirect branch is aligned to a word on its way to the program counter. -/
theorem follow_align (src : CpuField) {m : Machine} (poised : m.Poised cx) :
    ∃ m', m.follow cx (alignListing src) = some m' ∧ m'.Poised cx ∧ m'.ip = m.ip + 15 ∧
      m'.guest = m.guest.put .pc (m.guest.cpu.get src &&& ~~~3) ∧ m'.stack = m.stack := by
  obtain ⟨env, regionA, regionB⟩ := poised
  simp [alignListing, load, alignEax, store, env, AluOp.eval]
  exact ⟨⟨env, regionA, regionB⟩, rfl⟩

theorem goes_indirectTarget (src : CpuField)
    (holds : cx.code.Holds p (w.code p k (.place indirectTarget [src.value, CpuField.pc.value]))) :
    Goes cx p g (p + 15) (g.put .pc (g.cpu.get src &&& ~~~3)) := by
  have listed : cx.code.Holds p (assemble (alignListing src)) :=
    code_indirectTarget w p k _ _ ▸ holds
  refine goes_of_follow listed (by simp [alignListing]) ?_
  rintro m poised rfl rfl
  exact follow_align src poised

section Jumps

variable {v : SlotValue} {target : Nat}

/-- The distances in the code reach from any place in the buffer to any other. -/
structure Spans (cx : Context) (w : Wiring) : Prop where
  base : w.base = cx.code.base
  mapped : cx.code.base + cx.code.capacity < 2 ^ 64
  reach : cx.code.capacity ≤ 2 ^ 30

/-- Any two places in a code buffer are near enough for a displacement of 32 bits. -/
theorem Spans.fits {spans : Spans cx w} {n : Nat} (from_ : p + n ≤ cx.code.capacity)
    (target_le : target ≤ cx.code.capacity) : Width.w32.Fits (target - (p + n : Nat)) := by
  have := spans.reach
  constructor <;> simp only [Width.modulus] <;> omega

theorem Spans.mapped_target (spans : Spans cx w) (target_le : target ≤ cx.code.capacity) :
    w.base + target < 2 ^ 64 := by
  have := spans.mapped
  have := spans.base
  omega

theorem jump_eq (target : Nat) {ip : Nat} {regs : Regs} {flags : Flags} {stack : List Value}
    {d : Int} (h : ip + d = target) :
    jump ⟨ip, regs, flags, stack, g⟩ d = some (.next ⟨target, regs, flags, stack, g⟩) := by
  simp only [jump, h]
  rw [if_pos (Int.natCast_nonneg _), Int.toNat_natCast]

/-- The jump of an exit lands where its field leads. -/
theorem goes_chainJump (spans : Spans cx w) (inside : p + 5 ≤ cx.code.capacity)
    (hv : w.raw k v = some (.ofNat (w.base + target))) (target_le : target ≤ cx.code.capacity)
    (holds : cx.code.Holds p (w.code p k (.place chainJump [v]))) :
    Goes cx p g target g := by
  have fits : Width.w32.Fits (target - (p + 5 : Nat)) := spans.fits inside target_le
  refine goes_of_follow (code_chainJump hv (spans.mapped_target target_le) fits ▸ holds) (by simp)
    ?_
  rintro m ⟨env, regionA, regionB⟩ rfl rfl
  simp [jmp]
  rw [jump_eq target (by omega)]
  exact ⟨_, rfl, ⟨env, regionA, regionB⟩, rfl, rfl, rfl⟩

theorem read32_preemption {m : Machine} (h : m.regs.get .rax = .ptr .preemptionWord 0) :
    m.read32 (.mem .rax none 0) = some m.guest.events.bits := by
  simp [read32, address, h, Value.add, load32]

/-- The code that polls the preemption word. -/
def pollListing {d : Int} (fits : Width.w32.Fits d) : List Coded :=
  [loadRax (.ofNat LinkField.preempt.offset), loadPreemption, testEax, jcc d fits .notEqual]

/-- The poll goes on behind itself, or to its target if events are pending. -/
theorem follow_poll {m : Machine} (poised : m.Poised cx) {d : Int} (fits : Width.w32.Fits d)
    (hland : (m.ip + 17 : Nat) + d = target) :
    ∃ m', m.follow cx (pollListing fits) = some m' ∧ m'.Poised cx ∧
      m'.ip = (if m.guest.events.check then target else m.ip + 17) ∧ m'.guest = m.guest ∧
      m'.stack = m.stack := by
  obtain ⟨env, regionA, regionB⟩ := poised
  by_cases quiet : m.guest.events.bits.toBitVec = 0#32
  · have hcheck : m.guest.events.check = false := by
      have : m.guest.events.bits = 0 := UInt32.toBitVec_inj.1 quiet
      simp [PreemptionWord.check, this]
    simp [pollListing, loadRax, loadPreemption, testEax, jcc, env, read32_preemption,
      Flags.ofResult, Flags.holds, quiet, hcheck]
    exact ⟨env, regionA, regionB⟩
  · have hcheck : m.guest.events.check = true := by
      have : m.guest.events.bits ≠ 0 := fun h => quiet (UInt32.toBitVec_inj.2 h)
      simp [PreemptionWord.check, this]
    simp [pollListing, loadRax, loadPreemption, testEax, jcc, env, read32_preemption,
      Flags.ofResult, Flags.holds, quiet, hcheck]
    rw [jump_eq target (by omega)]
    exact ⟨_, rfl, ⟨env, regionA, regionB⟩, rfl, rfl, rfl⟩

/-- Code that polls the preemption word leaves for its target exactly if events are pending. -/
theorem goes_preemptCheck (spans : Spans cx w) (inside : p + 17 ≤ cx.code.capacity)
    (hv : w.raw k v = some (.ofNat (w.base + target))) (target_le : target ≤ cx.code.capacity)
    (holds : cx.code.Holds p (w.code p k (.place preemptCheck [LinkField.preempt.value, v]))) :
    Goes cx p g (if g.events.check then target else p + 17) g := by
  have fits : Width.w32.Fits (target - (p + 17 : Nat)) := spans.fits inside target_le
  have listed : cx.code.Holds p (assemble (pollListing fits)) :=
    code_preemptCheck _ hv (spans.mapped_target target_le) fits ▸ holds
  refine goes_of_follow listed (by simp [pollListing]) ?_
  rintro m poised rfl rfl
  exact follow_poll poised fits (by omega)

/-- The counter goes down by one, and the branch is taken when that makes it zero. -/
theorem goes_branchCtr (spans : Spans cx w) (inside : p + 12 ≤ cx.code.capacity)
    (hv : w.raw k v = some (.ofNat (w.base + target))) (target_le : target ≤ cx.code.capacity)
    (holds : cx.code.Holds p (w.code p k (.place branchCtr [CpuField.ctr.value, v]))) :
    Goes cx p g (if g.cpu.ctr - 1 = 0 then target else p + 12) (g.put .ctr (g.cpu.ctr - 1)) := by
  have fits : Width.w32.Fits (target - (p + 12 : Nat)) := spans.fits inside target_le
  refine goes_of_follow (code_branchCtr _ hv (spans.mapped_target target_le) fits ▸ holds) (by simp)
    ?_
  rintro m ⟨env, regionA, regionB⟩ rfl rfl
  have hctr : m.guest.cpu.get .ctr = m.guest.cpu.ctr := rfl
  have hzero : m.guest.cpu.ctr.toBitVec - 1#32 = 0#32 ↔ m.guest.cpu.ctr - 1 = 0 :=
    (UInt32.toBitVec_inj (a := m.guest.cpu.ctr - 1) (b := 0))
  by_cases last : m.guest.cpu.ctr - 1 = 0
  · simp [decCell, jcc, env, hctr, Flags.ofResult, Flags.holds, AluOp.eval, hzero, last]
    rw [jump_eq target (by omega)]
    exact ⟨_, rfl, ⟨env, regionA, regionB⟩, rfl, rfl, rfl⟩
  · simp [decCell, jcc, env, hctr, Flags.ofResult, Flags.holds, AluOp.eval, hzero, last]
    exact ⟨env, regionA, regionB⟩

/-- A branch that is taken when the bit of the condition register is clear. -/
theorem goes_branchSet (mask : UInt32) (spans : Spans cx w) (inside : p + 16 ≤ cx.code.capacity)
    (hv : w.raw k v = some (.ofNat (w.base + target))) (target_le : target ≤ cx.code.capacity)
    (holds : cx.code.Holds p (w.code p k (.place branchSet [CpuField.cr.value, .word mask, v]))) :
    Goes cx p g (if g.cpu.cr &&& mask = 0 then target else p + 16) g := by
  have fits : Width.w32.Fits (target - (p + 16 : Nat)) := spans.fits inside target_le
  refine goes_of_follow (code_branchSet _ _ hv (spans.mapped_target target_le) fits ▸ holds)
    (by simp) ?_
  rintro m ⟨env, regionA, regionB⟩ rfl rfl
  have hcr : m.guest.cpu.get .cr = m.guest.cpu.cr := rfl
  have hzero : m.guest.cpu.cr.toBitVec &&& mask.toBitVec = 0#32 ↔ m.guest.cpu.cr &&& mask = 0 :=
    (UInt32.toBitVec_inj (a := m.guest.cpu.cr &&& mask) (b := 0))
  by_cases clear : m.guest.cpu.cr &&& mask = 0
  · simp [testCell, jcc, env, hcr, Flags.ofResult, Flags.holds, hzero, clear]
    rw [jump_eq target (by omega)]
    exact ⟨_, rfl, ⟨env, regionA, regionB⟩, rfl, rfl, rfl⟩
  · simp [testCell, jcc, env, hcr, Flags.ofResult, Flags.holds, hzero, clear]
    exact ⟨env, regionA, regionB⟩

/-- A branch that is taken when the bit of the condition register is set. -/
theorem goes_branchClear (mask : UInt32) (spans : Spans cx w) (inside : p + 16 ≤ cx.code.capacity)
    (hv : w.raw k v = some (.ofNat (w.base + target))) (target_le : target ≤ cx.code.capacity)
    (holds : cx.code.Holds p (w.code p k (.place branchClear [CpuField.cr.value, .word mask, v]))) :
    Goes cx p g (if g.cpu.cr &&& mask = 0 then p + 16 else target) g := by
  have fits : Width.w32.Fits (target - (p + 16 : Nat)) := spans.fits inside target_le
  refine goes_of_follow (code_branchClear _ _ hv (spans.mapped_target target_le) fits ▸ holds)
    (by simp) ?_
  rintro m ⟨env, regionA, regionB⟩ rfl rfl
  have hcr : m.guest.cpu.get .cr = m.guest.cpu.cr := rfl
  have hzero : m.guest.cpu.cr.toBitVec &&& mask.toBitVec = 0#32 ↔ m.guest.cpu.cr &&& mask = 0 :=
    (UInt32.toBitVec_inj (a := m.guest.cpu.cr &&& mask) (b := 0))
  by_cases clear : m.guest.cpu.cr &&& mask = 0
  · simp [testCell, jcc, env, hcr, Flags.ofResult, Flags.holds, hzero, clear]
    exact ⟨env, regionA, regionB⟩
  · simp [testCell, jcc, env, hcr, Flags.ofResult, Flags.holds, hzero, clear]
    rw [jump_eq target (by omega)]
    exact ⟨_, rfl, ⟨env, regionA, regionB⟩, rfl, rfl, rfl⟩

section Calls

variable {handler : UInt64} {routine : Handler} (opcode : UInt32)

/-- A routine is handed the register file and the instruction word, and may change the guest and the
registers that a call does not preserve. -/
theorem callHost_eq {m : Machine} (found : cx.handlers handler = some routine)
    (hword : m.regs.rsi = .ofDword opcode) (hfile : m.regs.rdi = .ptr .registerFile 0) :
    m.callHost cx handler = some (.next
      { m with regs := m.regs.afterCall, flags := {}, guest := routine opcode m.guest }) := by
  simp [callHost, found, hword, hfile]

theorem goes_callAbsolute (found : cx.handlers handler = some routine)
    (holds : cx.code.Holds p
      (w.code p k (.place callAbsolute [.word opcode, .handler handler]))) :
    Goes cx p g (p + 20) (routine opcode g) := by
  refine goes_of_follow (code_callAbsolute w p k _ _ ▸ holds) (by simp) ?_
  rintro m ⟨env, regionA, regionB⟩ rfl rfl
  have hhandler : Width.decode (Width.w64.encode handler) = handler := by
    apply UInt64.toNat.inj
    rw [Width.toNat_decode_encode]
    exact Nat.mod_eq_of_lt handler.toNat_lt
  simp [movRdi, movEsi, movRax, callRax, hhandler, Value.num?]
  rw [callHost_eq opcode found rfl env]
  exact ⟨_, rfl, ⟨env, regionA, regionB⟩, rfl, rfl, rfl⟩

/-- A routine that is near enough is called by its distance. -/
theorem goes_callDirect (base : w.base = cx.code.base) (found : cx.handlers handler = some routine)
    (fits : Width.w32.Fits (handler.toNat - (w.base + p + 13 : Nat)))
    (holds : cx.code.Holds p (w.code p k (.place callDirect [.word opcode, .handler handler]))) :
    Goes cx p g (p + 13) (routine opcode g) := by
  refine goes_of_follow (code_callDirect _ fits ▸ holds) (by simp) ?_
  rintro m ⟨env, regionA, regionB⟩ rfl rfl
  have hhandler (n : Int) (hn : n = handler.toNat) : UInt64.ofInt n = handler := by
    rw [hn, Width.ofInt_natCast, UInt64.ofNat_toNat]
  simp [movRdi, movEsi, callRel, -UInt64.ofInt_add]
  rw [hhandler _ (by omega), callHost_eq opcode found rfl env]
  exact ⟨_, rfl, ⟨env, regionA, regionB⟩, rfl, rfl, rfl⟩

end Calls

section Lookup

variable {pc : UInt32} {a : UInt64}

/-- A load from the line of an address, by the distance from the start of the line. -/
theorem loadJump_line (jumps : JumpCache) {d : Nat}
    (h : a.toNat = 16 * (JumpCache.index pc).val + d) (low : d < 16) :
    loadJump jumps a = if d = 0 then some (.num (jumps.entry pc).tag)
      else if d = 8 then some (.num (jumps.entry pc).host) else none := by
  have hline : a.toNat / 16 = (JumpCache.index pc).val := by omega
  have hlt : a.toNat / 16 < jumpCacheSize := hline ▸ (JumpCache.index pc).isLt
  have hget : jumps.entries.get ⟨a.toNat / 16, hlt⟩ = jumps.entry pc :=
    congrArg jumps.entries.get (Fin.ext hline)
  have hrest : a.toNat % 16 = d := by omega
  simp only [loadJump, dif_pos hlt, hget, hrest]

/-- The first word of a line of the jump cache is its tag. -/
theorem loadJump_tag (jumps : JumpCache) (h : a.toNat = 16 * (JumpCache.index pc).val) :
    loadJump jumps a = some (.num (jumps.entry pc).tag) :=
  loadJump_line jumps (d := 0) h (by decide)

theorem loadJump_host (jumps : JumpCache) (h : a.toNat = 16 * (JumpCache.index pc).val + 8) :
    loadJump jumps a = some (.num (jumps.entry pc).host) :=
  loadJump_line jumps h (by decide)

/-- The distance of an address's line from the start of the table. -/
def lineOffset (pc : UInt32) : UInt64 := (pc >>> 2 &&& 4095).toUInt64 <<< 4

theorem toNat_lineOffset (pc : UInt32) : (lineOffset pc).toNat = 16 * (JumpCache.index pc).val := by
  have hword := pc.toNat_lt
  have hmask : (pc.toNat >>> 2 &&& 4095) = pc.toNat / 4 % 4096 := by
    rw [Nat.shiftRight_eq_div_pow, show 4095 = 2 ^ 12 - 1 from rfl, Nat.and_two_pow_sub_one_eq_mod]
  have hlow : (pc >>> 2 &&& 4095).toNat = pc.toNat / 4 % 4096 := by
    rw [UInt32.toNat_and, UInt32.toNat_shiftRight]
    exact hmask
  rw [lineOffset, UInt64.toNat_shiftLeft, UInt32.toNat_toUInt64, hlow]
  simp [JumpCache.index, jumpCacheSize, Nat.shiftLeft_eq]
  omega

theorem read64_line {m : Machine} (h : m.regs.get .rdx = .ptr .jumpTable a) (d : UInt64) :
    m.read64 cx (.mem .rdx none d) = loadJump cx.jumps (a + d) := by
  simp [read64, address, h, Value.add, load64]

/-- The part of a look-up that finds the line of the program counter. -/
def probeListing : List Coded :=
  [load .eax (.ofNat CpuField.pc.offset), movEdxEax, shrEdx,
    andConst .edx (.ofNat (jumpCacheSize - 1)), shlRdx, addRdx (.ofNat LinkField.jumpCache.offset)]

/-- The part of a look-up that enters the line's block or goes on to the dispatch stub. -/
def enterListing {d : Int} (fits : Width.w32.Fits d) : List Coded :=
  [cmpTag, jcc d fits .notEqual, jmpLine]

/-- The probe computes the place of the line that the program counter maps to. -/
theorem follow_probe {m : Machine} (poised : m.Poised cx) :
    ∃ m', m.follow cx probeListing = some m' ∧ m'.Poised cx ∧ m'.ip = m.ip + 28 ∧
      m'.guest = m.guest ∧ m'.stack = m.stack ∧ m'.regs.get .rax = .ofDword m.guest.cpu.pc ∧
      m'.regs.get .rdx = .ptr .jumpTable (lineOffset m.guest.cpu.pc) := by
  obtain ⟨env, regionA, regionB⟩ := poised
  have hpc : m.guest.cpu.get .pc = m.guest.cpu.pc := rfl
  have hsize : UInt32.ofNat (jumpCacheSize - 1) = 4095 := rfl
  have hnum (v : UInt32) : (Value.ofDword v).num? = some v.toUInt64 := rfl
  have hadd (x y : UInt64) (o : Object) : (Value.num x).add (.ptr o y) = some (.ptr o (x + y)) :=
    rfl
  have heval (x y : BitVec 32) : (AluOp.eval .and x y).1 = x &&& y := rfl
  simp [probeListing, load, movEdxEax, shrEdx, andConst, shlRdx, addRdx, env, hpc,
    alu64, hsize, hnum, hadd, heval, lineOffset]
  exact ⟨⟨env, regionA, regionB⟩, rfl⟩

/-- The code of a lookup is the probe, and behind it what acts on the line that it finds. -/
theorem code_lookup (hv : w.raw k v = some (.ofNat (w.base + target)))
    (mapped : w.base + target < 2 ^ 64) (fits : Width.w32.Fits (target - (p + 37 : Nat)))
    (holds : cx.code.Holds p
      (w.code p k
        (.place indirectLookup
          [CpuField.pc.value, .imm (.ofNat (jumpCacheSize - 1)), LinkField.jumpCache.value, v]))) :
    cx.code.Holds p (assemble probeListing) ∧
      cx.code.Holds (p + 28) (assemble (enterListing fits)) := by
  have hcode := code_indirectLookup (.ofNat CpuField.pc.offset) (.ofNat (jumpCacheSize - 1))
    (.ofNat LinkField.jumpCache.offset) hv mapped fits
  have hsplit : cx.code.Holds p (assemble probeListing ++ assemble (enterListing fits)) := by
    rw [← assemble_append]
    exact hcode ▸ holds
  exact CodeBuffer.holds_append.1 hsplit

variable {m : Machine} {d : Int} (fits : Width.w32.Fits d)
  (hrax : m.regs.get .rax = .ofDword pc) (hrdx : m.regs.get .rdx = .ptr .jumpTable (lineOffset pc))

/-- The flags behind the comparison of the tag. -/
def tagFlags (jumps : JumpCache) (pc : UInt32) : Flags :=
  (AluOp.eval .cmp (jumps.entry pc).tag.toBitVec pc.toUInt64.toBitVec).2

include hrax hrdx in
theorem exec_cmpTag (ip : Nat) : exec cx { m with ip } cmpTag.instr =
    some (.next { m with ip, flags := tagFlags cx.jumps pc }) := by
  have hload : loadJump cx.jumps (lineOffset pc) = some (.num (cx.jumps.entry pc).tag) :=
    loadJump_tag cx.jumps (toNat_lineOffset pc)
  have hline : ({ m with ip } : Machine).read64 cx (.mem .rdx none 0) =
      some (.num (cx.jumps.entry pc).tag) := by
    rw [@read64_line _ _ { m with ip } hrdx, UInt64.add_zero, hload]
  simp [cmpTag, alu64, hrax, hline, Value.ofDword, Value.num?, tagFlags]

theorem holds_notEqual (jumps : JumpCache) (pc : UInt32) :
    (tagFlags jumps pc).holds .notEqual = some ((jumps.entry pc).tag != pc.toUInt64) := by
  have hbeq (x y : UInt64) : (x.toBitVec == y.toBitVec) = (x == y) := by
    rw [Bool.eq_iff_iff, beq_iff_eq, beq_iff_eq, UInt64.toBitVec_inj]
  unfold tagFlags
  simp only [AluOp.eval, Flags.ofResult, Flags.holds, Option.map_some]
  exact congrArg (fun b => some (!b)) ((sub_beq_zero _ _).trans (hbeq _ _))

include hrax hrdx in
/-- A line whose tag is the program counter leads to the code that it holds. -/
theorem follow_enter_hit {l : JumpLine} {q : Nat} (hline : cx.jumps.line? pc = some l)
    (htag : l.tag = pc) (hoffset : cx.code.offsetOf? l.host = some q) :
    m.follow cx (enterListing fits) = some { m with ip := q, flags := tagFlags cx.jumps pc } := by
  have hequal : (cx.jumps.entry pc).tag = pc.toUInt64 :=
    JumpCache.tag_entry_eq_iff.2 ⟨l, hline, htag⟩
  have hload : loadJump cx.jumps (lineOffset pc + 8) = some (.num l.host) := by
    have hoff : (lineOffset pc + 8).toNat = 16 * (JumpCache.index pc).val + 8 := by
      have := toNat_lineOffset pc
      have := (JumpCache.index pc).isLt
      unfold jumpCacheSize at this
      rw [UInt64.toNat_add]
      simp
      omega
    rw [loadJump_host cx.jumps hoff, JumpCache.entry_eq_of_line? hline]
  rw [enterListing, follow, exec_cmpTag hrax hrdx]
  simp [jcc, jmpLine, holds_notEqual, hequal, read64_line, hrdx, hload, jumpHost,
    Value.num?, hoffset]

include hrax hrdx in
/-- A line with another tag, or with none, leads to the target for misses. -/
theorem follow_enter_miss (miss : ∀ l, cx.jumps.line? pc = some l → l.tag ≠ pc)
    (hland : (m.ip + 9 : Nat) + d = target) (away : target ≠ m.ip + 9) :
    m.follow cx (enterListing fits) =
      some { m with ip := target, flags := tagFlags cx.jumps pc } := by
  have hdiffer : (cx.jumps.entry pc).tag ≠ pc.toUInt64 := by
    intro equal
    obtain ⟨l, hline, htag⟩ := JumpCache.tag_entry_eq_iff.1 equal
    exact miss l hline htag
  rw [enterListing, follow, exec_cmpTag hrax hrdx]
  simp [jcc, holds_notEqual, hdiffer, cmpTag]
  rw [jump_eq target (by omega)]
  simp
  omega

variable {l : JumpLine} {q : Nat} (spans : Spans cx w) (inside : p + 40 ≤ cx.code.capacity)
  (hv : w.raw k v = some (.ofNat (w.base + target))) (target_le : target ≤ cx.code.capacity)
  (holds : cx.code.Holds p (w.code p k (.place indirectLookup
    [CpuField.pc.value, .imm (.ofNat (jumpCacheSize - 1)), LinkField.jumpCache.value, v])))

include spans inside hv target_le holds

/-- A look-up whose second part lands at `q` goes there. -/
theorem goes_lookup
    (enter : ∀ m : Machine, m.ip = p + 28 → m.regs.get .rax = .ofDword g.cpu.pc →
      m.regs.get .rdx = .ptr .jumpTable (lineOffset g.cpu.pc) →
        ∀ fits : Width.w32.Fits (target - (p + 37 : Nat)), m.follow cx (enterListing fits) =
          some { m with ip := q, flags := tagFlags cx.jumps g.cpu.pc }) :
    Goes cx p g q g := by
  have fits : Width.w32.Fits (target - (p + 37 : Nat)) := spans.fits (by omega) target_le
  obtain ⟨probe, rest⟩ := code_lookup hv (spans.mapped_target target_le) fits holds
  rintro m poised rfl rfl
  obtain ⟨m₁, follow₁, poised₁, hip₁, hguest₁, hstack₁, hrax, hrdx⟩ := follow_probe poised
  obtain ⟨n, reaches, _⟩ := reaches_of_follow probe follow₁
  obtain ⟨n', reaches', pos⟩ := reaches_of_follow (hip₁ ▸ rest) (enter m₁ hip₁ hrax hrdx fits)
  have := pos (by simp [enterListing])
  exact ⟨n + n', _, by omega, reaches.trans reaches',
    ⟨poised₁.env, poised₁.regionA, poised₁.regionB⟩, rfl, hguest₁, hstack₁⟩

theorem goes_lookup_hit (hline : cx.jumps.line? g.cpu.pc = some l) (htag : l.tag = g.cpu.pc)
    (hoffset : cx.code.offsetOf? l.host = some q) : Goes cx p g q g :=
  goes_lookup spans inside hv target_le holds fun _ _ hrax hrdx fits =>
    follow_enter_hit fits hrax hrdx hline htag hoffset

theorem goes_lookup_miss (miss : ∀ l, cx.jumps.line? g.cpu.pc = some l → l.tag ≠ g.cpu.pc)
    (below : target < p) : Goes cx p g target g :=
  goes_lookup spans inside hv target_le holds fun _ hip hrax hrdx fits =>
    follow_enter_miss fits hrax hrdx miss (by omega) (by omega)

end Lookup

end Jumps

section Frame

/-- The instructions of the entry code. -/
def prologueListing : List Coded :=
  calleeSaved.map push ++
    [lowerStack, movRbp, loadR14 (.ofNat LinkField.regionA.offset),
      loadR15 (.ofNat LinkField.regionB.offset), jmpRsi]

/-- What the entry code puts on the stack. -/
def frameOf (r : Regs) : List Value := .unknown :: calleeSaved.reverse.map r.get

/-- The entry code saves the registers of its caller, loads the bases and enters the block that it
is given. -/
theorem follow_prologue {m : Machine} {entry : UInt64} {q : Nat}
    (hfile : m.regs.get .rdi = .ptr .registerFile 0) (hto : m.regs.get .rsi = .num entry)
    (hentry : cx.code.offsetOf? entry = some q) :
    ∃ m', m.follow cx prologueListing = some m' ∧ m'.Poised cx ∧ m'.ip = q ∧ m'.guest = m.guest ∧
      m'.stack = frameOf m.regs ++ m.stack := by
  have hset (r : Regs) (v : Value) : (r.set .rbp v).rbp = v := rfl
  simp [prologueListing, calleeSaved, push, lowerStack, movRbp, loadR14, loadR15, jmpRsi,
    alu64, jumpHost, hentry, hfile, hto, Value.num?, hset, frameOf]
  exact ⟨rfl, rfl, rfl⟩

/-- The instructions of the way out, up to the return. -/
def epilogueListing : List Coded := raiseStack :: calleeSaved.reverse.map pop

/-- The exit code restores what the entry code has saved, and keeps the exit code that is
returned. -/
theorem follow_epilogue {m : Machine} {r : Regs} (hstack : m.stack = frameOf r) :
    ∃ m', m.follow cx epilogueListing = some m' ∧ m'.ip = m.ip + 14 ∧
      m'.regs.get .rax = m.regs.get .rax ∧ m'.guest = m.guest ∧ m'.stack = [] := by
  simp [epilogueListing, calleeSaved, raiseStack, pop, alu64, hstack, frameOf]
  rfl

theorem follow_exitStub {m : Machine} {d : Int} (fits : Width.w32.Fits d) {target : Nat}
    (hland : (m.ip + 10 : Nat) + d = target) (v : UInt64) :
    m.follow cx [movEax v, jmp d fits] =
      some { m with ip := target, regs := m.regs.set .rax (.ofDword v.toUInt32) } := by
  simp [movEax, jmp]
  rw [jump_eq target (by omega)]

/-- An exit stub returns its code to the caller of the entry code, and nothing else happens. -/
theorem leaves_of_exitStub {m : Machine} {r : Regs} {d : Int} {fits : Width.w32.Fits d}
    {target : Nat} {v : UInt64} (hstub : cx.code.Holds m.ip (assemble [movEax v, jmp d fits]))
    (hland : (m.ip + 10 : Nat) + d = target)
    (hway : cx.code.Holds target (assemble (epilogueListing ++ [ret])))
    (hstack : m.stack = frameOf r) :
    ∃ n m', Reaches cx n m m' ∧ m'.step cx = some (.leave v.toUInt32 m.guest) := by
  obtain ⟨n, reaches, _⟩ := reaches_of_follow hstub (follow_exitStub fits hland v)
  rw [assemble_append] at hway
  obtain ⟨hpops, hret⟩ := CodeBuffer.holds_append.1 hway
  obtain ⟨m', hfollow, hip, hrax, hguest, hempty⟩ := @follow_epilogue cx
    { m with ip := target, regs := m.regs.set .rax (.ofDword v.toUInt32) } r hstack
  obtain ⟨n', reaches', _⟩ := reaches_of_follow hpops hfollow
  refine ⟨n + n', m', reaches.trans reaches', ?_⟩
  have hstep := @step_of_holds cx m' ret (by rw [hip]; exact hret)
  have hcode : m'.regs.rax = .ofDword v.toUInt32 := hrax
  rw [hstep]
  simp [ret, hempty, hcode, hguest]

end Frame

end Straight
end X86
end Dynarec
