import Dynarec.Proofs.BlockExecution

/-!
Emission is total. Instructions with registers, condition fields and condition bits that exist
become a block, unless there are none of them, one of them has an address that no region base
reaches, or the block is larger than the buffer.
-/
namespace Dynarec

/-- The window ends at the last guest address or before it. -/
def GuestWindow.Straight (w : GuestWindow) : Prop := w.base.toNat + w.length.toNat ≤ 2 ^ 32

def BranchCond.bits : BranchCond → List UInt8
  | .decCtrNonZero => []
  | .crSet bit | .crClear bit => [bit]

namespace Op

/-- The numbers of the general registers that the operation names. -/
def gprs : Op → List UInt8
  | .li r _ | .lwzAbs r _ | .stwAbs r _ | .mtctr r | .mtlr r | .mfctr r | .mflr r => [r]
  | .cmpwi _ r _ | .cmplwi _ r _ => [r]
  | .addi r s _ | .ori r s _ | .xori r s _ | .lwz r s _ | .stw r s _ | .icbi r s => [r, s]
  | .cmpw _ r s | .cmplw _ r s => [r, s]
  | .add r s t | .subf r s t | .mullw r s t | .and r s t | .or r s t | .xor r s t => [r, s, t]
  | .call _ _ | .b _ | .bl _ | .bc _ _ | .blr | .bctr | .sc => []

/-- The numbers of the condition fields that the operation sets. -/
def crFields : Op → List UInt8
  | .cmpw field _ _ | .cmplw field _ _ | .cmpwi field _ _ | .cmplwi field _ _ => [field]
  | _ => []

/-- The numbers of the condition bits that the operation tests. -/
def crBits : Op → List UInt8
  | .bc cond _ => cond.bits
  | _ => []

/-- All that the operation names exists. -/
def InRange (op : Op) : Prop :=
  (∀ r ∈ op.gprs, r < 32) ∧ (∀ field ∈ op.crFields, field < 8) ∧ ∀ bit ∈ op.crBits, bit < 32

instance (op : Op) : Decidable op.InRange := inferInstanceAs (Decidable (_ ∧ _))

/-- The address of an access that is known before the operation runs. -/
def absolute? : Op → Option UInt32
  | .lwzAbs _ addr | .stwAbs _ addr => some addr
  | .lwz _ ra d | .stw _ ra d => if ra = 0 then some (signedWord d) else none
  | _ => none

end Op

namespace Config

/-- The address lies in the window, and neither region base reaches its host address by a signed
32-bit distance. -/
def Misses (c : Config) (addr : UInt32) (host : UInt64) : Prop :=
  ∃ w, c.window = some w ∧ w.contains addr = true ∧ host = c.regions.b + (addr - w.base).toUInt64 ∧
    ¬ Width.w32.Fits (host.toNat - c.regions.a.toNat) ∧
    ¬ Width.w32.Fits (host.toNat - c.regions.b.toNat)

/-- The operation accesses an address that is known beforehand and out of reach. -/
def Strays (c : Config) (op : Op) (host : UInt64) : Prop :=
  ∃ addr, op.absolute? = some addr ∧ c.Misses addr host

variable {c : Config} {addr : UInt32} {host : UInt64}

theorem not_strays {op : Op} (h : op.absolute? = none) : ¬ c.Strays op host := by
  rintro ⟨addr, known, -⟩
  rw [h] at known
  cases known

end Config

/-- In a window that does not wrap no address lies in front of the base. -/
theorem GuestWindow.Straight.base_le {w : GuestWindow} {addr : UInt32} (h : w.Straight)
    (inside : w.contains addr = true) : w.base ≤ addr := by
  simp only [contains, decide_eq_true_eq, UInt32.lt_iff_toNat_lt, UInt32.toNat_sub] at inside
  rw [Straight] at h
  rw [UInt32.le_iff_toNat_le]
  have := addr.toNat_lt
  have := w.base.toNat_lt
  omega

theorem exists_bind_eq_ok {α β : Type} {x : Except Fault α} {f : α → Except Fault β}
    (hx : ∃ a, x = .ok a) (hf : ∀ a, ∃ b, f a = .ok b) : ∃ b, x >>= f = .ok b := by
  obtain ⟨a, ha⟩ := hx
  obtain ⟨b, hb⟩ := hf a
  exact ⟨b, bind_eq_ok.2 ⟨a, ha, hb⟩⟩

theorem exists_gprField {n : UInt8} (h : n < 32) : ∃ f, gprField n = .ok f := by
  have small : n.toNat < 32 := UInt8.lt_iff_toNat_lt.1 h
  exact ⟨_, dif_pos small⟩

namespace Engine.Hosted

variable {e : Engine} {c : OpClass} {dst src left right field : UInt8}

section Registers

variable (h : e.Hosted)
include h

theorem exists_planAluImm {t z : Template} {v : UInt32}
    (found : X86.Templates.lookup ⟨c, .imm⟩ = some t) (count : t.slots.length = 3)
    (foundZero : X86.Templates.lookup ⟨c, .zero⟩ = some z) (countZero : z.slots.length = 2)
    (hdst : dst < 32) (hsrc : src < 32) : ∃ steps, e.planAluImm c dst src v = .ok steps := by
  refine exists_bind_eq_ok (exists_gprField hsrc) fun _ =>
    exists_bind_eq_ok (exists_gprField hdst) fun _ => ?_
  split
  · exact ⟨_, h.planPlace foundZero countZero⟩
  · exact ⟨_, h.planPlace found count⟩

theorem exists_planAluReg {t : Template} (found : X86.Templates.lookup ⟨c, .reg⟩ = some t)
    (count : t.slots.length = 3) (hdst : dst < 32) (hleft : left < 32) (hright : right < 32) :
    ∃ steps, e.planAluReg c dst left right = .ok steps := by
  refine exists_bind_eq_ok (exists_gprField hleft) fun _ =>
    exists_bind_eq_ok (exists_gprField hright) fun _ =>
    exists_bind_eq_ok (exists_gprField hdst) fun _ => ?_
  exact ⟨_, h.planPlace found count⟩

theorem exists_planCompare {key : TemplateKey} {t : Template} {value : SlotValue}
    (found : X86.Templates.lookup key = some t) (count : t.slots.length = 6) (hfield : field < 8)
    (hleft : left < 32) : ∃ steps, e.planCompare key field left value = .ok steps := by
  have shift : ConditionRegister.shift field = .ok _ := if_pos hfield
  have keep : ConditionRegister.keepMask field = .ok _ := bind_eq_ok.2 ⟨_, shift, rfl⟩
  refine exists_bind_eq_ok ⟨(), if_pos hfield⟩ fun _ =>
    exists_bind_eq_ok (exists_gprField hleft) fun _ =>
    exists_bind_eq_ok ⟨_, shift⟩ fun _ => exists_bind_eq_ok ⟨_, keep⟩ fun _ => ?_
  exact ⟨_, h.planPlace found count⟩

theorem exists_planCond {cond : BranchCond} (hbits : ∀ bit ∈ cond.bits, bit < 32) :
    ∃ steps, e.planCond cond = .ok steps := by
  have test {shape : Shape} {t : Template} {bit : UInt8}
      (found : X86.Templates.lookup ⟨.condBranch, shape⟩ = some t) (count : t.slots.length = 3)
      (small : bit < 32) : ∃ steps, planCond.bitTest e shape bit = .ok steps := by
    have mask : ConditionRegister.bitMask bit = .ok _ := if_pos small
    refine exists_bind_eq_ok ⟨(), if_pos small⟩ fun _ => exists_bind_eq_ok ⟨_, mask⟩ fun _ => ?_
    exact ⟨_, h.planPlace found count⟩
  cases cond with
  | decCtrNonZero => exact ⟨_, h.planPlace rfl rfl⟩
  | crSet bit => exact test rfl rfl (hbits bit (List.mem_singleton_self bit))
  | crClear bit => exact test rfl rfl (hbits bit (List.mem_singleton_self bit))

end Registers

end Engine.Hosted

/-- Every address has a host address if the window does not wrap. -/
theorem Config.hostAddr_cases {c : Config} (straight : ∀ w, c.window = some w → w.Straight)
    (addr : UInt32) :
    (∃ w, c.window = some w ∧ w.contains addr = true ∧
      c.hostAddr addr = .ok (c.regions.b + (addr - w.base).toUInt64)) ∨
    (c.inWindow addr = false ∧ c.hostAddr addr = .ok (c.regions.a + addr.toUInt64)) := by
  cases inside : c.inWindow addr with
  | false => exact .inr ⟨rfl, hostAddr_of_not_inWindow inside⟩
  | true =>
    cases hw : c.window with
    | none =>
      rw [inWindow, hw] at inside
      cases inside
    | some w =>
      rw [inWindow, hw] at inside
      have contains : w.contains addr = true := inside
      have base_le := (straight w hw).base_le contains
      refine .inl ⟨w, rfl, contains, ?_⟩
      rw [hostAddr, hw]
      simp only [contains, if_true]
      exact if_neg (UInt32.not_lt.2 base_le)

/-- Whether a region base reaches a host address. -/
theorem RegionBases.canonical_cases (r : RegionBases) (host : UInt64) (width : Width) :
    (¬ width.Fits (host.toNat - r.a.toNat) ∧ ¬ width.Fits (host.toNat - r.b.toNat) ∧
      r.canonical host width = .error (.error (.regionsNotColocated host width))) ∨
    ((width.Fits (host.toNat - r.a.toNat) ∨ width.Fits (host.toNat - r.b.toNat)) ∧
      ∃ x, r.canonical host width = .ok x) := by
  by_cases fromA : width.Fits (host.toNat - r.a.toNat)
  · exact .inr ⟨.inl fromA, _, if_pos fromA⟩
  · by_cases fromB : width.Fits (host.toNat - r.b.toNat)
    · exact .inr ⟨.inr fromB, _, (if_neg fromA).trans (if_pos fromB)⟩
    · exact .inl ⟨fromA, fromB, (if_neg fromA).trans (if_neg fromB)⟩

namespace Engine

variable {e : Engine} {α β : Type} {op : Op} {addr : UInt32} {x : Except Fault α}

/-- `x` fails exactly if the operation strays, and then with the host address that is out of
reach. -/
def Settles (e : Engine) (op : Op) (x : Except Fault α) : Prop :=
  (∃ host, e.config.Strays op host ∧ x = .error (.error (.regionsNotColocated host .w32))) ∨
    ((∀ host, ¬ e.config.Strays op host) ∧ ∃ a, x = .ok a)

theorem settles_of_ok (h : op.absolute? = none) (hx : ∃ a, x = .ok a) : e.Settles op x :=
  .inr ⟨fun _ => Config.not_strays h, hx⟩

theorem Settles.bind {f : α → Except Fault β} (hx : e.Settles op x) (hf : ∀ a, ∃ b, f a = .ok b) :
    e.Settles op (x >>= f) := by
  obtain ⟨host, strays, rfl⟩ | ⟨reached, a, rfl⟩ := hx
  · exact .inl ⟨host, strays, rfl⟩
  · exact .inr ⟨reached, hf a⟩

namespace Hosted

variable {key : TemplateKey} {t : Template} {r : UInt8}

theorem reachableHost_eq (h : e.Hosted) (found : X86.Templates.lookup key = some t)
    (width : t.canonicalWidth? = some .w32) {host : UInt64}
    (hhost : e.config.hostAddr addr = .ok host) :
    e.reachableHost key addr = match e.config.regions.canonical host .w32 with
      | .ok _ => .ok (some host)
      | .error fault => if e.config.inWindow addr then .error fault else .ok none := by
  rw [Engine.reachableHost, get_eq_of_lookup h.registry found, hhost]
  simp only [bind, Except.bind, width, Option.getD_some]
  rfl

theorem settles_reachableHost (h : e.Hosted) (straight : ∀ w, e.config.window = some w → w.Straight)
    (known : op.absolute? = some addr) (found : X86.Templates.lookup key = some t)
    (width : t.canonicalWidth? = some .w32) : e.Settles op (e.reachableHost key addr) := by
  obtain ⟨w, hw, contains, hhost⟩ | ⟨outside, hhost⟩ := Config.hostAddr_cases straight addr
  · have inside : e.config.inWindow addr = true := by rw [Config.inWindow, hw]; exact contains
    rw [h.reachableHost_eq found width hhost]
    obtain ⟨fromA, fromB, apart⟩ | ⟨reached, r, canonical⟩ := e.config.regions.canonical_cases
      (e.config.regions.b + (addr - w.base).toUInt64) .w32
    · rw [apart]
      exact .inl ⟨_, ⟨addr, known, w, hw, contains, rfl, fromA, fromB⟩, if_pos inside⟩
    · rw [canonical]
      refine .inr ⟨?_, _, rfl⟩
      rintro host ⟨addr', known', w', hw', -, rfl, fromA, fromB⟩
      obtain rfl := Option.some.inj (known.symm.trans known')
      obtain rfl := Option.some.inj (hw.symm.trans hw')
      exact reached.elim fromA fromB
  · rw [h.reachableHost_eq found width hhost, outside]
    refine .inr ⟨?_, ?_⟩
    · rintro host ⟨addr', known', w', hw', contains, -⟩
      obtain rfl := Option.some.inj (known.symm.trans known')
      rw [Config.inWindow, hw'] at outside
      exact Bool.false_ne_true (outside.symm.trans contains)
    · cases e.config.regions.canonical (e.config.regions.a + addr.toUInt64) .w32 with
      | ok _ => exact ⟨_, rfl⟩
      | error _ => exact ⟨_, rfl⟩

variable (h : e.Hosted) (straight : ∀ w, e.config.window = some w → w.Straight)
include h straight

theorem settles_planLoadAbs (known : op.absolute? = some addr) (small : r < 32) :
    e.Settles op (e.planLoadAbs r addr) := by
  have found : X86.Templates.lookup ⟨.loadWordAbs, .absolute⟩ = some X86.Templates.loadWordAbs :=
    rfl
  refine (h.settles_reachableHost straight known found rfl).bind fun host => ?_
  cases host with
  | some host => exact exists_bind_eq_ok (exists_gprField small) fun _ => ⟨_, h.planPlace rfl rfl⟩
  | none => exact exists_bind_eq_ok (exists_gprField small) fun _ => ⟨_, h.planPlace rfl rfl⟩

theorem settles_planStoreAbs (known : op.absolute? = some addr) (small : r < 32) :
    e.Settles op (e.planStoreAbs r addr) := by
  have found : X86.Templates.lookup ⟨.storeWordAbs, .absolute⟩ = some X86.Templates.storeWordAbs :=
    rfl
  refine (h.settles_reachableHost straight known found rfl).bind fun host => ?_
  cases host with
  | some host => exact exists_bind_eq_ok (exists_gprField small) fun _ => ⟨_, h.planPlace rfl rfl⟩
  | none => exact exists_bind_eq_ok (exists_gprField small) fun _ => ⟨_, h.planPlace rfl rfl⟩

/-- Planning an instruction fails only if it strays. -/
theorem settles_planInsn {i : Insn} (inRange : i.op.InRange) : e.Settles i.op (e.planInsn i) := by
  obtain ⟨gprs, fields, bits⟩ := inRange
  obtain ⟨pc, op⟩ := i
  cases op with
  | li rd imm =>
    simp only [Op.gprs, List.forall_mem_cons] at gprs
    exact settles_of_ok rfl (exists_bind_eq_ok (exists_gprField gprs.1) fun _ => ⟨_, h.planStore⟩)
  | addi rd ra imm =>
    simp only [Op.gprs, List.forall_mem_cons] at gprs
    obtain ⟨hrd, hra, -⟩ := gprs
    refine settles_of_ok rfl ?_
    simp only [planInsn]
    split
    · exact exists_bind_eq_ok (exists_gprField hrd) fun _ => ⟨_, h.planStore⟩
    · exact h.exists_planAluImm rfl rfl rfl rfl hrd hra
  | add rd ra rb | mullw rd ra rb | and rd ra rb | or rd ra rb | xor rd ra rb =>
    simp only [Op.gprs, List.forall_mem_cons] at gprs
    exact settles_of_ok rfl (h.exists_planAluReg rfl rfl gprs.1 gprs.2.1 gprs.2.2.1)
  | subf rd ra rb =>
    simp only [Op.gprs, List.forall_mem_cons] at gprs
    exact settles_of_ok rfl (h.exists_planAluReg rfl rfl gprs.1 gprs.2.2.1 gprs.2.1)
  | ori ra rs imm | xori ra rs imm =>
    simp only [Op.gprs, List.forall_mem_cons] at gprs
    exact settles_of_ok rfl (h.exists_planAluImm rfl rfl rfl rfl gprs.1 gprs.2.1)
  | lwz rd ra d =>
    simp only [Op.gprs, List.forall_mem_cons] at gprs
    obtain ⟨hrd, hra, -⟩ := gprs
    simp only [planInsn]
    split
    · next zero => exact h.settles_planLoadAbs straight (if_pos zero) hrd
    · next other =>
      refine settles_of_ok (if_neg other) ?_
      exact exists_bind_eq_ok (exists_gprField hra) fun _ =>
        exists_bind_eq_ok (exists_gprField hrd) fun _ => ⟨_, h.planPlace rfl rfl⟩
  | stw rs ra d =>
    simp only [Op.gprs, List.forall_mem_cons] at gprs
    obtain ⟨hrs, hra, -⟩ := gprs
    simp only [planInsn]
    split
    · next zero => exact h.settles_planStoreAbs straight (if_pos zero) hrs
    · next other =>
      refine settles_of_ok (if_neg other) ?_
      exact exists_bind_eq_ok (exists_gprField hra) fun _ =>
        exists_bind_eq_ok (exists_gprField hrs) fun _ => ⟨_, h.planPlace rfl rfl⟩
  | lwzAbs rd addr =>
    simp only [Op.gprs, List.forall_mem_cons] at gprs
    exact h.settles_planLoadAbs straight rfl gprs.1
  | stwAbs rs addr =>
    simp only [Op.gprs, List.forall_mem_cons] at gprs
    exact h.settles_planStoreAbs straight rfl gprs.1
  | cmpw field ra rb | cmplw field ra rb =>
    simp only [Op.gprs, Op.crFields, List.forall_mem_cons] at gprs fields
    exact settles_of_ok rfl (exists_bind_eq_ok (exists_gprField gprs.2.1) fun _ =>
      h.exists_planCompare rfl rfl fields.1 gprs.1)
  | cmpwi field ra imm | cmplwi field ra imm =>
    simp only [Op.gprs, Op.crFields, List.forall_mem_cons] at gprs fields
    exact settles_of_ok rfl (h.exists_planCompare rfl rfl fields.1 gprs.1)
  | mtctr r | mtlr r | mfctr r | mflr r =>
    simp only [Op.gprs, List.forall_mem_cons] at gprs
    exact settles_of_ok rfl (exists_bind_eq_ok (exists_gprField gprs.1) fun _ => ⟨_, h.planMove⟩)
  | call handler opcode => exact settles_of_ok rfl ⟨_, h.planCall pc⟩
  | b target => exact settles_of_ok rfl ⟨_, h.planExit target⟩
  | bl target =>
    exact settles_of_ok rfl
      (exists_bind_eq_ok ⟨_, h.planStore⟩ fun _ => exists_bind_eq_ok ⟨_, h.planExit target⟩
      fun _ => ⟨_, rfl⟩)
  | bc cond target =>
    exact settles_of_ok rfl (exists_bind_eq_ok (h.exists_planCond bits) fun _ =>
      exists_bind_eq_ok ⟨_, h.planExit target⟩ fun _ =>
        exists_bind_eq_ok ⟨_, h.planExit _⟩ fun _ => ⟨_, rfl⟩)
  | blr | bctr => exact settles_of_ok rfl ⟨_, h.planIndirect _⟩
  | sc => exact settles_of_ok rfl ⟨_, h.planLeave _ _⟩
  | icbi ra rb =>
    simp only [Op.gprs, List.forall_mem_cons] at gprs
    obtain ⟨hra, hrb, -⟩ := gprs
    refine settles_of_ok rfl ?_
    have leaves (address : List PlanStep) : ∃ steps, (do
        return address ++ (← e.planLeave e.stubs.invalidate (Insn.next ⟨pc, .icbi ra rb⟩))) =
          .ok steps :=
      exists_bind_eq_ok ⟨_, h.planLeave _ _⟩ fun _ => ⟨_, rfl⟩
    simp only [planInsn]
    split
    · exact exists_bind_eq_ok (exists_gprField hrb) fun _ =>
        exists_bind_eq_ok ⟨_, h.planMove⟩ leaves
    · exact exists_bind_eq_ok (exists_gprField hra) fun _ =>
        exists_bind_eq_ok (exists_gprField hrb) fun _ =>
        exists_bind_eq_ok ⟨_, h.planPlace rfl rfl⟩ leaves

/-- The first instruction that strays decides. -/
theorem mapM_planInsn_cases {insns : List Insn} (inRange : ∀ i ∈ insns, i.op.InRange) :
    (∃ i ∈ insns, ∃ host, e.config.Strays i.op host ∧
      insns.mapM e.planInsn = .error (.error (.regionsNotColocated host .w32))) ∨
    ((∀ i ∈ insns, ∀ host, ¬ e.config.Strays i.op host) ∧
      ∃ parts, insns.mapM e.planInsn = .ok parts) := by
  induction insns with
  | nil => exact .inr ⟨fun i hi => absurd hi List.not_mem_nil, [], rfl⟩
  | cons i rest ih =>
    obtain ⟨first, others⟩ := List.forall_mem_cons.1 inRange
    rw [List.mapM_cons]
    obtain ⟨host, strays, failed⟩ | ⟨reached, part, planned⟩ := h.settles_planInsn straight first
    · rw [failed]
      exact .inl ⟨i, List.mem_cons_self, host, strays, rfl⟩
    · rw [planned]
      obtain ⟨j, hj, host, strays, failed⟩ | ⟨reached', parts, planned'⟩ := ih others
      · rw [failed]
        exact .inl ⟨j, List.mem_cons_of_mem _ hj, host, strays, rfl⟩
      · rw [planned']
        exact .inr ⟨List.forall_mem_cons.2 ⟨reached, reached'⟩, _, rfl⟩

/-- Planning a block fails only if an instruction of it strays. -/
theorem plan_cases (pc : UInt32) {insns : List Insn} (full : insns ≠ [])
    (inRange : ∀ i ∈ basicBlock insns, i.op.InRange) :
    (∃ i ∈ basicBlock insns, ∃ host, e.config.Strays i.op host ∧
      e.plan pc insns = .error (.error (.regionsNotColocated host .w32))) ∨
    ((∀ i ∈ basicBlock insns, ∀ host, ¬ e.config.Strays i.op host) ∧
      ∃ p, e.plan pc insns = .ok p) := by
  obtain ⟨first, rest, rfl⟩ := List.exists_cons_of_ne_nil full
  cases hlast : (basicBlock (first :: rest)).getLast? with
  | none => exact absurd (List.getLast?_eq_none_iff.1 hlast) (basicBlock_cons_ne_nil first rest)
  | some last =>
    simp only [plan, hlast]
    obtain ⟨i, hi, host, strays, failed⟩ | ⟨reached, parts, planned⟩ :=
      h.mapM_planInsn_cases straight inRange
    · rw [failed]
      exact .inl ⟨i, hi, host, strays, rfl⟩
    · rw [planned]
      refine .inr ⟨reached, exists_bind_eq_ok ⟨parts, rfl⟩ fun _ => ?_⟩
      split
      · exact ⟨_, rfl⟩
      · exact exists_bind_eq_ok ⟨_, h.planExit last.next⟩ fun _ => ⟨_, rfl⟩

end Hosted

/-- The outcomes that an emission can have, and what each says about the instructions. -/
inductive Verdict (e : Engine) (pc : UInt32) (insns : List Insn) : Option Fault → Prop
  | empty (nothing : insns = []) : Verdict e pc insns (some (.error (.emptyBlock pc)))
  | apart {i : Insn} {host : UInt64} (mem : i ∈ basicBlock insns)
      (strays : e.config.Strays i.op host) :
      Verdict e pc insns (some (.error (.regionsNotColocated host .w32)))
  | large {p : Plan} (full : insns ≠ [])
      (reached : ∀ i ∈ basicBlock insns, ∀ host, ¬ e.config.Strays i.op host)
      (planned : e.plan pc insns = .ok p) (large : e.buffer.usable < p.size) :
      Verdict e pc insns (some (.error (.blockTooLarge p.size e.buffer.usable)))
  | possible {p : Plan} (full : insns ≠ [])
      (reached : ∀ i ∈ basicBlock insns, ∀ host, ¬ e.config.Strays i.op host)
      (planned : e.plan pc insns = .ok p) (fits : p.size ≤ e.buffer.usable) :
      Verdict e pc insns none

theorem Hosted.verdict (h : e.Hosted) (straight : ∀ w, e.config.window = some w → w.Straight)
    (pc : UInt32) {insns : List Insn} (inRange : ∀ i ∈ basicBlock insns, i.op.InRange) :
    e.Verdict pc insns (e.emissionFault? pc insns) := by
  by_cases full : insns = []
  · subst full
    exact .empty rfl
  · obtain ⟨i, hi, host, strays, failed⟩ | ⟨reached, p, planned⟩ :=
      h.plan_cases straight pc full inRange
    · rw [emissionFault?, failed]
      exact .apart hi strays
    · rw [emissionFault?, planned]
      dsimp only
      split
      · next large => exact .large full reached planned large
      · next fits => exact .possible full reached planned (Nat.le_of_not_lt fits)

/-- What an emission with the given outcome and the engine `c` behind it says about its
instructions. -/
structure Explained (e : Engine) (pc : UInt32) (insns : List Insn) (outcome : Except Fault BlockId)
    (c : Engine) : Prop where
  empty : outcome = .error (.error (.emptyBlock pc)) ↔ insns = []
  apart : (∃ host, outcome = .error (.error (.regionsNotColocated host .w32))) ↔
    ∃ i ∈ basicBlock insns, ∃ host, e.config.Strays i.op host
  /-- Otherwise there is a plan, and its size decides. -/
  sized : insns ≠ [] → (∀ i ∈ basicBlock insns, ∀ host, ¬ e.config.Strays i.op host) →
    ∃ p, e.plan pc insns = .ok p ∧
      (outcome = .error (.error (.blockTooLarge p.size e.buffer.usable)) ↔
        e.buffer.usable < p.size) ∧
      ((∃ id b, outcome = .ok id ∧ c.cache.get id = .ok b ∧ b.hostSize = p.size) ↔
        p.size ≤ e.buffer.usable)
  documented : ∀ fault, outcome = .error fault → fault = .error (.emptyBlock pc) ∨
    (∃ host, fault = .error (.regionsNotColocated host .w32)) ∨
    ∃ size, fault = .error (.blockTooLarge size e.buffer.usable)

section Explained

variable {pc : UInt32} {insns : List Insn} {fault : Fault} {id : BlockId} {c : Engine}

theorem Verdict.explained_error (h : e.Verdict pc insns (some fault)) :
    e.Explained pc insns (.error fault) c := by
  cases h with
  | empty nothing =>
    subst nothing
    refine ⟨by simp, ?_, fun full => absurd rfl full, ?_⟩
    · simp [basicBlock]
    · rintro _ ⟨⟩
      exact .inl rfl
  | @apart i host mem strays =>
    refine ⟨?_, iff_of_true ⟨host, rfl⟩ ⟨i, mem, host, strays⟩, fun _ reached => ?_, ?_⟩
    · refine iff_of_false (by simp) fun nothing => ?_
      subst nothing
      cases mem
    · exact absurd strays (reached i mem host)
    · rintro _ ⟨⟩
      exact .inr (.inl ⟨host, rfl⟩)
  | @large p full reached planned large =>
    refine ⟨iff_of_false (by simp) full, iff_of_false (by simp) ?_,
      fun _ _ => ⟨p, planned, ?_, ?_⟩, ?_⟩
    · rintro ⟨i, mem, host, strays⟩
      exact reached i mem host strays
    · exact iff_of_true rfl large
    · exact iff_of_false (by simp) (Nat.not_le.2 large)
    · rintro _ ⟨⟩
      exact .inr (.inr ⟨p.size, rfl⟩)

theorem Verdict.explained_ok {src : Nat → List Insn} (h : e.Verdict pc insns none)
    (emitted : e.Emitted src pc insns id c) : e.Explained pc insns (.ok id) c := by
  cases h with
  | @possible p full reached planned fits =>
    refine ⟨iff_of_false (by simp) full, iff_of_false (by simp) ?_,
      fun _ _ => ⟨p, planned, ?_, ?_⟩, ?_⟩
    · rintro ⟨i, mem, host, strays⟩
      exact reached i mem host strays
    · exact iff_of_false (by simp) (Nat.not_lt.2 fits)
    · refine iff_of_true ?_ fits
      obtain ⟨b, hb, -, entry⟩ := emitted.block
      obtain ⟨p', follows⟩ := emitted.resting.placed.follows hb
      have planned' := follows.planned
      rw [noted_self, entry, plan_of_frame emitted.frame, planned] at planned'
      cases planned'
      exact ⟨id, b, rfl, get_eq_ok.2 hb, follows.size⟩
    · rintro _ ⟨⟩

end Explained

/-- Emission always has an outcome, never a broken contract. It fails exactly if the list is empty,
or else an instruction up to the first that ends a block strays, or else the plan is larger than the
buffer. -/
theorem Reachable.emission_total (h : e.Reachable)
    (straight : ∀ w, e.config.window = some w → w.Straight) (pc : UInt32) {insns : List Insn}
    (inRange : ∀ i ∈ basicBlock insns, i.op.InRange) :
    ∃ outcome c, Traced.Yields (EngineM.emitBlock pc insns) e outcome c ∧
      e.Explained pc insns outcome c := by
  obtain ⟨src, made⟩ := h.made
  have verdict := made.resting.placed.hosted.verdict straight pc inRange
  obtain ⟨fault, told, yields⟩ | ⟨told, id, c, yields, emitted⟩ :=
    made.resting.yields_emitBlock pc insns
  · rw [told] at verdict
    exact ⟨_, _, yields, verdict.explained_error⟩
  · rw [told] at verdict
    exact ⟨_, _, yields, verdict.explained_ok emitted⟩

/-- Two data regions far from each other, with a window that reaches up to the last guest
address. -/
def wideWindow : Config where
  codeBufferSize := 4096
  regions := { a := 0x700000000000, b := 0x100000000000 }
  window := some { base := 0x40000000, length := 0xC0000000 }

/-- A load from the end of the wide window, between two other instructions. -/
def farLoad : List Insn := [⟨0x100, .li 3 5⟩, ⟨0x104, .lwzAbs 4 0xF0000000⟩, ⟨0x108, .sc⟩]

theorem far_load_strays : ∃ e, e.Reachable ∧ e.config = wideWindow ∧
    (∀ w, e.config.window = some w → w.Straight) ∧ (∀ i ∈ basicBlock farLoad, i.op.InRange) ∧
    ∃ host c, Traced.Yields (EngineM.emitBlock 0x100 farLoad) e
      (.error (.error (.regionsNotColocated host .w32))) c := by
  have created : create 4096 X86.registry wideWindow = .ok (fresh 4096 4096 wideWindow) := rfl
  have reachable := Reachable.create created
  have straight : ∀ w, wideWindow.window = some w → w.Straight := by
    rintro w ⟨⟩
    exact (by decide : 0x40000000 + 0xC0000000 ≤ 2 ^ 32)
  have inRange : ∀ i ∈ basicBlock farLoad, i.op.InRange := by decide +kernel
  refine ⟨_, reachable, rfl, straight, inRange, ?_⟩
  obtain ⟨outcome, c, yields, explained⟩ := reachable.emission_total straight 0x100 inRange
  have mem : (⟨0x104, .lwzAbs 4 0xF0000000⟩ : Insn) ∈ basicBlock farLoad := by decide
  obtain ⟨host, rfl⟩ :=
    explained.apart.2 ⟨_, mem, 0x100000000000 + 0xB0000000, 0xF0000000, rfl, _, rfl, rfl, rfl,
      by decide, by decide⟩
  exact ⟨host, c, yields⟩

end Engine
end Dynarec
