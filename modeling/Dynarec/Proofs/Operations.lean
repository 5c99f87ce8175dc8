import Dynarec.Proofs.Lowering

/-! Each guest operation that does not end a block, and the steps that it becomes. -/
namespace Dynarec

open X86 (Context Goes AluOp)
open X86.Templates

section Guest

variable {g : GuestState} {f : CpuField} {n : UInt8}

/-- General registers are not the program counter. -/
theorem ne_pc_of_gprField (h : gprField n = .ok f) : f ≠ .pc := by
  unfold gprField at h
  split at h
  · cases h
    simp
  · cases h

theorem GuestState.get_setPc (hf : f ≠ .pc) (g : GuestState) (pc : UInt32) :
    (g.setPc pc).cpu.get f = g.cpu.get f :=
  Cpu.get_set_ne _ _ (Ne.symm hf)

/-- A write to another field commutes with one to the program counter. -/
theorem GuestState.put_setPc (hf : f ≠ .pc) (g : GuestState) (pc v : UInt32) :
    (g.setPc pc).put f v = (g.put f v).setPc pc := by
  cases f with
  | pc => exact absurd rfl hf
  | _ => rfl

theorem GuestState.gpr?_eq (h : gprField n = .ok f) (g : GuestState) :
    g.gpr? n = some (g.cpu.get f) := by
  rw [gpr?, h]
  rfl

theorem GuestState.setGpr?_eq (h : gprField n = .ok f) (g : GuestState) (v : UInt32) :
    g.setGpr? n v = some (g.put f v) := by
  rw [setGpr?, h]
  rfl

end Guest

variable {e : Engine} {i : Insn} {steps : List PlanStep}

/-- The host's table is asked for templates by the function that lists them. -/
theorem Engine.get_eq_of_lookup (x86 : e.registry = X86.registry) {key : TemplateKey} {t : Template}
    (found : X86.Templates.lookup key = some t) : e.registry.get key = .ok t := by
  rw [x86]
  simp [Registry.get, X86.registry, found]

/-- A template of the host's table is placed when it is given a value for each slot. -/
theorem Engine.planPlace_eq (x86 : e.registry = X86.registry) {key : TemplateKey} {t : Template}
    {values : List SlotValue} (found : X86.Templates.lookup key = some t)
    (count : t.slots.length = values.length) : e.planPlace key values = .ok [.place t values] := by
  simp [Engine.planPlace, get_eq_of_lookup x86 found, demand, count, bind, Except.bind,
    pure, Except.pure]

theorem Engine.Hosted.planPlace (h : e.Hosted) {key : TemplateKey} {t : Template}
    {values : List SlotValue} (found : X86.Templates.lookup key = some t)
    (count : t.slots.length = values.length) : e.planPlace key values = .ok [.place t values] :=
  planPlace_eq h.registry found count

/-- The templates of the table keep their slots in their code. -/
theorem inRange_of_lookup {key : TemplateKey} {t : Template}
    (h : X86.Templates.lookup key = some t) :
    t.slots.length ≤ 32 ∧ ∀ s ∈ t.slots, s.InRange t.size := by
  unfold X86.Templates.lookup at h
  split at h <;> cases h <;> decide

/-- A template of the host's table keeps its slots in its code, so it is enough that the values
fit. -/
theorem fits_of_lookup {key : TemplateKey} {t : Template} {values : List SlotValue}
    (found : X86.Templates.lookup key = some t) (fits : SlotValue.FitAll e t.slots values) :
    PlanStep.Fits e (.place t values) :=
  ⟨(inRange_of_lookup found).1, (inRange_of_lookup found).2, fits⟩

/-- The step that sets a register to a constant. -/
def storeStep (f : CpuField) (v : UInt32) : PlanStep :=
  if v = 0 then .place storeZero [f.value] else .place storeImm [f.value, .word v]

section Store

variable {f : CpuField} {v : UInt32}

/-- A store of a constant has a shorter form for zero. -/
theorem Engine.planStore_eq (x86 : e.registry = X86.registry) :
    e.planStore f v = .ok [storeStep f v] := by
  unfold Engine.planStore storeStep
  split
  · exact planPlace_eq x86 rfl rfl
  · exact planPlace_eq x86 rfl rfl

theorem Engine.Hosted.planStore (h : e.Hosted) : e.planStore f v = .ok [storeStep f v] :=
  planStore_eq h.registry

theorem fits_storeStep : (storeStep f v).Fits e := by
  unfold storeStep
  split
  · exact @fits_of_lookup e ⟨.storeImm, .zero⟩ _ _ rfl ⟨.imm _ _, trivial⟩
  · exact @fits_of_lookup e ⟨.storeImm, .imm⟩ _ _ rfl ⟨.imm _ _, .imm _ _, trivial⟩

theorem straight_storeStep : (storeStep f v).Straight := by
  unfold storeStep
  split <;> simp [PlanStep.Straight, CpuField.value, SlotValue.word]

theorem exitCount_storeStep : (storeStep f v).exitCount = 0 := by
  unfold storeStep
  split <;> rfl

theorem size_storeStep : (storeStep f v).size = 10 := by
  unfold storeStep
  split <;> rfl

theorem goes_storeStep {cx : Context} {w : Wiring} {p k : Nat} {g : GuestState}
    (holds : cx.code.Holds p (w.code p k (storeStep f v))) : Goes cx p g (p + 10) (g.put f v) := by
  unfold storeStep at holds
  split at holds
  · next h =>
    rw [h]
    exact X86.goes_storeZero f holds
  · exact X86.goes_storeImm f v holds

/-- An instruction that sets a register to a constant is lowered to a store. -/
theorem lowers_store (hf : f ≠ .pc)
    (means : ∀ handlers g, Platform.apply ⟨e.config, handlers⟩ g i.op = some (g.put f v, .next)) :
    Lowers e i [storeStep f v] :=
  .of_step fits_storeStep straight_storeStep exitCount_storeStep
    (fun _ _ _ _ _ _ _ holds => size_storeStep ▸ goes_storeStep holds)
    (fun g pc => GuestState.put_setPc hf g pc v) means

end Store

/-- A step that puts one value into one register. -/
theorem lowers_put {s : PlanStep} {f : CpuField} {v : GuestState → UInt32} (hf : f ≠ .pc)
    (fits : s.Fits e) (straight : s.Straight) (exits : s.exitCount = 0)
    (goes : ∀ cx w p k g, Attached e cx w → cx.code.Holds p (w.code p k s) →
      Goes cx p g (p + s.size) (g.put f (v g)))
    (stable : ∀ g pc, v (g.setPc pc) = v g)
    (means : ∀ handlers g, Platform.apply ⟨e.config, handlers⟩ g i.op =
      some (g.put f (v g), .next)) :
    Lowers e i [s] :=
  .of_step fits straight exits (fun cx w p k g attached _ => goes cx w p k g attached)
    (fun g pc => by rw [stable, GuestState.put_setPc hf]) means

section Move

variable {src dst : CpuField}

theorem Engine.Hosted.planMove (h : e.Hosted) :
    e.planMove src dst = .ok [.place move [src.value, dst.value]] := h.planPlace rfl rfl

theorem fits_move : PlanStep.Fits e (.place move [src.value, dst.value]) :=
  @fits_of_lookup e ⟨.move, .reg⟩ move _ rfl ⟨.imm _ _, .imm _ _, trivial⟩

/-- An instruction that copies a register is lowered to a move. -/
theorem lowers_move (hsrc : src ≠ .pc) (hdst : dst ≠ .pc)
    (means : ∀ handlers g,
      Platform.apply ⟨e.config, handlers⟩ g i.op = some (g.put dst (g.cpu.get src), .next)) :
    Lowers e i [.place move [src.value, dst.value]] :=
  lowers_put hdst fits_move (by simp [PlanStep.Straight, CpuField.value]) rfl
    (fun _ _ _ _ _ _ holds => X86.goes_move src dst holds)
    (fun g pc => GuestState.get_setPc hsrc g pc) means

end Move

section Arithmetic

variable {c : OpClass} {op : AluOp} {name : String} {dst left right : UInt8}

/-- The word that arithmetic gives. -/
def aluWord (op : AluOp) (x y : UInt32) : UInt32 := ⟨(op.eval x.toBitVec y.toBitVec).1⟩

/-- Instructions with two source registers are lowered by the operation that they name. -/
theorem lowers_aluReg (hosted : e.Hosted)
    (found : X86.Templates.lookup ⟨c, .reg⟩ = some (aluReg name (op.opcode 3))) (hop : op ≠ .cmp)
    (planned : e.planAluReg c dst left right = .ok steps)
    (means : ∀ handlers g, Platform.apply ⟨e.config, handlers⟩ g i.op =
      ((do g.setGpr? dst (aluWord op (← g.gpr? left) (← g.gpr? right))).map (·, .next))) :
    Lowers e i steps := by
  obtain ⟨l, hl, planned⟩ := bind_eq_ok.1 planned
  obtain ⟨r, hr, planned⟩ := bind_eq_ok.1 planned
  obtain ⟨d, hd, planned⟩ := bind_eq_ok.1 planned
  rw [hosted.planPlace found rfl] at planned
  cases planned
  refine lowers_put (ne_pc_of_gprField hd)
    (fits_of_lookup found ⟨.imm _ _, .imm _ _, .imm _ _, trivial⟩)
    (by simp [PlanStep.Straight, CpuField.value]) rfl
    (fun _ _ _ _ _ _ holds => X86.goes_aluReg name op hop l r d holds) ?_ ?_
  · intro g pc
    rw [GuestState.get_setPc (ne_pc_of_gprField hl), GuestState.get_setPc (ne_pc_of_gprField hr)]
  · intro handlers g
    rw [means, GuestState.gpr?_eq hl, GuestState.gpr?_eq hr]
    simp [GuestState.setGpr?_eq hd, aluWord]

theorem lowers_mullw (hosted : e.Hosted) (planned : e.planAluReg .mullw dst left right = .ok steps)
    (means : ∀ handlers g, Platform.apply ⟨e.config, handlers⟩ g i.op =
      ((do g.setGpr? dst ((← g.gpr? left) * (← g.gpr? right))).map (·, .next))) :
    Lowers e i steps := by
  obtain ⟨l, hl, planned⟩ := bind_eq_ok.1 planned
  obtain ⟨r, hr, planned⟩ := bind_eq_ok.1 planned
  obtain ⟨d, hd, planned⟩ := bind_eq_ok.1 planned
  have found : X86.Templates.lookup ⟨.mullw, .reg⟩ = some mullw := rfl
  rw [hosted.planPlace found rfl] at planned
  cases planned
  refine lowers_put (ne_pc_of_gprField hd)
    (fits_of_lookup found ⟨.imm _ _, .imm _ _, .imm _ _, trivial⟩)
    (by simp [PlanStep.Straight, CpuField.value]) rfl
    (fun _ _ _ _ _ _ holds => X86.goes_mullw l r d holds) ?_ ?_
  · intro g pc
    rw [GuestState.get_setPc (ne_pc_of_gprField hl), GuestState.get_setPc (ne_pc_of_gprField hr)]
  · intro handlers g
    rw [means, GuestState.gpr?_eq hl, GuestState.gpr?_eq hr]
    simp [GuestState.setGpr?_eq hd]

/-- Arithmetic with a constant. A constant of zero, which has a template of its own, changes
nothing. -/
theorem lowers_aluImm {v : UInt32} (hosted : e.Hosted)
    (found : X86.Templates.lookup ⟨c, .imm⟩ = some (aluImm name (op.opcode 5)))
    (foundZero : X86.Templates.lookup ⟨c, .zero⟩ = some move) (hop : op ≠ .cmp)
    (neutral : ∀ x, aluWord op x 0 = x) (planned : e.planAluImm c dst left v = .ok steps)
    (means : ∀ handlers g, Platform.apply ⟨e.config, handlers⟩ g i.op =
      ((do g.setGpr? dst (aluWord op (← g.gpr? left) v)).map (·, .next))) :
    Lowers e i steps := by
  obtain ⟨l, hl, planned⟩ := bind_eq_ok.1 planned
  obtain ⟨d, hd, planned⟩ := bind_eq_ok.1 planned
  have hmeans (handlers : Handlers) (g : GuestState) : Platform.apply ⟨e.config, handlers⟩ g i.op =
      some (g.put d (aluWord op (g.cpu.get l) v), .next) := by
    rw [means, GuestState.gpr?_eq hl]
    simp [GuestState.setGpr?_eq hd]
  split at planned
  · next zero =>
    rw [hosted.planPlace foundZero rfl] at planned
    cases planned
    subst zero
    simp only [neutral] at hmeans
    exact lowers_move (ne_pc_of_gprField hl) (ne_pc_of_gprField hd) hmeans
  · rw [hosted.planPlace found rfl] at planned
    cases planned
    refine lowers_put (ne_pc_of_gprField hd)
      (fits_of_lookup found ⟨.imm _ _, .imm _ _, .imm _ _, trivial⟩)
      (by simp [PlanStep.Straight, CpuField.value, SlotValue.word]) rfl
      (fun _ _ _ _ _ _ holds => X86.goes_aluImm name op hop l d v holds) ?_ hmeans
    intro g pc
    rw [GuestState.get_setPc (ne_pc_of_gprField hl)]

end Arithmetic

section Memory

variable {ra rd rs : UInt8} {d addr : UInt32}

/-- The guest behind a store of a register. -/
def stored (g : GuestState) (addr : UInt64) (v : UInt32) : GuestState :=
  { g with memory := g.memory.storeWord addr v }

/-- A load at a distance from a register is lowered to one in region A. -/
theorem lowers_load (hosted : e.Hosted) {base dst : CpuField} (hbase : base ≠ .pc)
    (hdst : dst ≠ .pc)
    (planned : e.planPlace ⟨.loadWord, .imm⟩ [base.value, .word d, dst.value] = .ok steps)
    (means : ∀ handlers g, Platform.apply ⟨e.config, handlers⟩ g i.op = some
      (g.put dst (g.memory.loadWord (e.config.regions.a + (g.cpu.get base + d).toUInt64)), .next)) :
    Lowers e i steps := by
  have found : X86.Templates.lookup ⟨.loadWord, .imm⟩ = some loadWord := rfl
  rw [hosted.planPlace found rfl] at planned
  cases planned
  refine lowers_put hdst (fits_of_lookup found ⟨.imm _ _, .imm _ _, .imm _ _, trivial⟩)
    (by simp [PlanStep.Straight, CpuField.value, SlotValue.word]) rfl
    (fun cx _ _ _ _ attached holds => attached.regions ▸ X86.goes_loadWord base dst d holds)
    ?_ means
  intro g pc
  rw [GuestState.get_setPc hbase]
  rfl

/-- A store at a distance from a register is lowered to one in region A. -/
theorem lowers_storeWord (hosted : e.Hosted) {base src : CpuField} (hbase : base ≠ .pc)
    (hsrc : src ≠ .pc)
    (planned : e.planPlace ⟨.storeWord, .imm⟩ [base.value, .word d, src.value] = .ok steps)
    (means : ∀ handlers g, Platform.apply ⟨e.config, handlers⟩ g i.op =
      some (stored g (e.config.regions.a + (g.cpu.get base + d).toUInt64) (g.cpu.get src), .next)) :
    Lowers e i steps := by
  have found : X86.Templates.lookup ⟨.storeWord, .imm⟩ = some storeWord := rfl
  rw [hosted.planPlace found rfl] at planned
  cases planned
  refine .of_step (fits_of_lookup found ⟨.imm _ _, .imm _ _, .imm _ _, trivial⟩)
    (by simp [PlanStep.Straight, CpuField.value, SlotValue.word]) rfl
    (fun cx _ _ _ _ attached _ holds => attached.regions ▸ X86.goes_storeWord base src d holds)
    ?_ means
  intro g pc
  rw [GuestState.get_setPc hbase, GuestState.get_setPc hsrc]
  rfl

/-- What is not in the window lies in region A. -/
theorem Config.hostAddr_of_not_inWindow {c : Config} (h : c.inWindow addr = false) :
    c.hostAddr addr = .ok (c.regions.a + addr.toUInt64) := by
  unfold hostAddr
  unfold inWindow at h
  cases hw : c.window with
  | none => rfl
  | some w =>
    rw [hw] at h
    simp only [Option.any_some] at h
    simp [h]

/-- A guest address either has a host address that a slot can hold, or lies in region A. -/
theorem Engine.Hosted.reachableHost (hosted : e.Hosted) {key : TemplateKey} {t : Template}
    {r : Option UInt64} (found : X86.Templates.lookup key = some t)
    (width : t.canonicalWidth? = some .w32) (h : e.reachableHost key addr = .ok r) :
    (∃ host x, r = some host ∧ e.config.hostAddr addr = .ok host ∧
        e.config.regions.canonical host .w32 = .ok x) ∨
      (r = none ∧ e.config.hostAddr addr = .ok (e.config.regions.a + addr.toUInt64)) := by
  unfold Engine.reachableHost at h
  obtain ⟨_, hget, h⟩ := bind_eq_ok.1 h
  rw [get_eq_of_lookup hosted.registry found] at hget
  cases hget
  obtain ⟨host, hhost, h⟩ := bind_eq_ok.1 h
  rw [width] at h
  simp only [Option.getD_some] at h
  split at h
  · next x hcanonical =>
    cases h
    exact .inl ⟨host, x, rfl, hhost, hcanonical⟩
  · split at h
    · cases h
    · next outside =>
      cases h
      exact .inr ⟨rfl, Config.hostAddr_of_not_inWindow (by simpa using outside)⟩

/-- A load at a known address is lowered to one at its host address. -/
theorem lowers_loadAbs (hosted : e.Hosted) (planned : e.planLoadAbs rd addr = .ok steps)
    (means : ∀ handlers g host dst, e.config.hostAddr addr = .ok host → gprField rd = .ok dst →
      Platform.apply ⟨e.config, handlers⟩ g i.op =
        some (g.put dst (g.memory.loadWord host), .next)) :
    Lowers e i steps := by
  have found : X86.Templates.lookup ⟨.loadWordAbs, .absolute⟩ = some loadWordAbs := rfl
  have foundLiteral : X86.Templates.lookup ⟨.loadWord, .absolute⟩ = some loadWordLiteral := rfl
  obtain ⟨r, hreach, planned⟩ := bind_eq_ok.1 planned
  obtain ⟨host, ⟨region, distance⟩, rfl, hhost, hcanonical⟩ | ⟨rfl, hhost⟩ :=
    hosted.reachableHost found rfl hreach
  · obtain ⟨dst, hdst, planned⟩ := bind_eq_ok.1 planned
    rw [hosted.planPlace found rfl] at planned
    cases planned
    refine lowers_put (ne_pc_of_gprField hdst)
      (fits_of_lookup found ⟨.host _ hcanonical, .imm _ _, trivial⟩)
      (by simp [PlanStep.Straight, CpuField.value]) rfl
      (fun cx w _ _ _ attached holds => X86.goes_loadWordAbs dst attached.wiring_regions
        (attached.wiring.regions ▸ hcanonical) holds) (fun _ _ => rfl)
      fun handlers g => means handlers g host dst hhost hdst
  · obtain ⟨dst, hdst, planned⟩ := bind_eq_ok.1 planned
    rw [hosted.planPlace foundLiteral rfl] at planned
    cases planned
    exact lowers_put (ne_pc_of_gprField hdst)
      (fits_of_lookup foundLiteral ⟨.imm _ _, .imm _ _, trivial⟩)
      (by simp [PlanStep.Straight, CpuField.value, SlotValue.word]) rfl
      (fun cx _ _ _ _ attached holds =>
        attached.regions ▸ X86.goes_loadWordLiteral addr dst holds) (fun _ _ => rfl)
      fun handlers g => means handlers g _ dst hhost hdst

/-- A store at a known address is lowered to one at its host address. -/
theorem lowers_storeAbs (hosted : e.Hosted) (planned : e.planStoreAbs rs addr = .ok steps)
    (means : ∀ handlers g host src, e.config.hostAddr addr = .ok host → gprField rs = .ok src →
      Platform.apply ⟨e.config, handlers⟩ g i.op = some (stored g host (g.cpu.get src), .next)) :
    Lowers e i steps := by
  have found : X86.Templates.lookup ⟨.storeWordAbs, .absolute⟩ = some storeWordAbs := rfl
  have foundLiteral : X86.Templates.lookup ⟨.storeWord, .absolute⟩ = some storeWordLiteral := rfl
  obtain ⟨r, hreach, planned⟩ := bind_eq_ok.1 planned
  obtain ⟨host, ⟨region, distance⟩, rfl, hhost, hcanonical⟩ | ⟨rfl, hhost⟩ :=
    hosted.reachableHost found rfl hreach
  · obtain ⟨src, hsrc, planned⟩ := bind_eq_ok.1 planned
    rw [hosted.planPlace found rfl] at planned
    cases planned
    refine .of_step (fits_of_lookup found ⟨.imm _ _, .host _ hcanonical, trivial⟩)
      (by simp [PlanStep.Straight, CpuField.value]) rfl
      (fun cx w _ _ _ attached _ holds => X86.goes_storeWordAbs src attached.wiring_regions
        (attached.wiring.regions ▸ hcanonical) holds) ?_
      fun handlers g => means handlers g host src hhost hsrc
    intro g pc
    rw [GuestState.get_setPc (ne_pc_of_gprField hsrc)]
    rfl
  · obtain ⟨src, hsrc, planned⟩ := bind_eq_ok.1 planned
    rw [hosted.planPlace foundLiteral rfl] at planned
    cases planned
    refine .of_step (fits_of_lookup foundLiteral ⟨.imm _ _, .imm _ _, trivial⟩)
      (by simp [PlanStep.Straight, CpuField.value, SlotValue.word]) rfl
      (fun cx _ _ _ _ attached _ holds =>
        attached.regions ▸ X86.goes_storeWordLiteral addr src holds) ?_
      fun handlers g => means handlers g _ src hhost hsrc
    intro g pc
    rw [GuestState.get_setPc (ne_pc_of_gprField hsrc)]
    rfl

end Memory

section Compare

variable {key : TemplateKey} {field ra : UInt8} {right : SlotValue} {shift keep : UInt32}

/-- The distance of a field is small enough for a shift by an immediate. -/
theorem shift_small (h : ConditionRegister.shift field = .ok shift) :
    shift % 256 &&& 31 = shift := by
  unfold ConditionRegister.shift at h
  split at h
  · next small =>
    have small : field.toNat < 8 := UInt8.lt_iff_toNat_lt.1 small
    have : field = 0 ∨ field = 1 ∨ field = 2 ∨ field = 3 ∨ field = 4 ∨ field = 5 ∨ field = 6 ∨
        field = 7 := by
      simp only [← UInt8.toNat_inj, UInt8.reduceToNat]
      omega
    cases h
    rcases this with rfl | rfl | rfl | rfl | rfl | rfl | rfl | rfl <;> decide
  · cases h

/-- The guest's signed order is the host's. -/
theorem signedLess_eq (x y : UInt32) :
    Platform.signedLess x y = X86.Order.signed.less x.toBitVec y.toBitVec := by
  rw [Bool.eq_iff_iff]
  exact decide_eq_true_iff.trans Int32.lt_iff_toBitVec_slt

/-- What a comparison is planned as, and that its field is one of the eight. -/
theorem Engine.Hosted.planCompare {t : Template} (hosted : e.Hosted)
    (found : X86.Templates.lookup key = some t) (count : t.slots.length = 6)
    (planned : e.planCompare key field ra right = .ok steps) :
    ∃ left shift keep, gprField ra = .ok left ∧ ConditionRegister.shift field = .ok shift ∧
      ConditionRegister.keepMask field = .ok keep ∧
        steps =
          [.place t [left.value, right, .word shift, CpuField.cr.value, .word keep,
            CpuField.cr.value]] := by
  obtain ⟨_, _, planned⟩ := bind_eq_ok.1 planned
  obtain ⟨left, hleft, planned⟩ := bind_eq_ok.1 planned
  obtain ⟨shift, hshift, planned⟩ := bind_eq_ok.1 planned
  obtain ⟨keep, hkeep, planned⟩ := bind_eq_ok.1 planned
  rw [hosted.planPlace found (by exact count)] at planned
  cases planned
  exact ⟨left, shift, keep, hleft, hshift, hkeep, rfl⟩

/-- The outcome of a comparison as bits that are put in place of the field. -/
theorem GuestState.setCondition?_eq (hshift : ConditionRegister.shift field = .ok shift)
    (hkeep : ConditionRegister.keepMask field = .ok keep) (g : GuestState) (less greater : Bool) :
    g.setCondition? field less greater =
      some (g.put .cr ((g.cpu.cr &&& keep) ||| X86.outcomeBits less greater <<< shift)) := by
  simp only [setCondition?, hshift, hkeep]
  rfl

/-- A comparison of registers is lowered by the order that it asks for. -/
theorem lowers_compareReg {o : X86.Order} {name : String} {rb : UInt8} {r : CpuField}
    (hosted : e.Hosted)
    (found : X86.Templates.lookup key =
      some (compareReg name (o.lt.opcode 0x90) (o.gt.opcode 0x90)))
    (hr : gprField rb = .ok r) (planned : e.planCompare key field ra r.value = .ok steps)
    (means : ∀ handlers g, Platform.apply ⟨e.config, handlers⟩ g i.op = ((do
      let x ← g.gpr? ra
      let y ← g.gpr? rb
      g.setCondition? field (o.less x.toBitVec y.toBitVec) (o.less y.toBitVec x.toBitVec)).map
        (·, .next))) : Lowers e i steps := by
  obtain ⟨l, shift, keep, hl, hshift, hkeep, rfl⟩ := hosted.planCompare found rfl planned
  refine .of_step
    (fits_of_lookup found ⟨.imm _ _, .imm _ _, .imm _ _, .imm _ _, .imm _ _, .imm _ _, trivial⟩)
    (by simp [PlanStep.Straight, CpuField.value, SlotValue.word]) rfl
    (fun _ _ _ _ _ _ _ holds => X86.goes_compareReg o l (shift_small hshift) name r holds) ?_ ?_
  · intro g pc
    rw [GuestState.get_setPc (ne_pc_of_gprField hl), GuestState.get_setPc (ne_pc_of_gprField hr)]
    rfl
  · intro handlers g
    rw [means, GuestState.gpr?_eq hl, GuestState.gpr?_eq hr]
    simp [GuestState.setCondition?_eq hshift hkeep, X86.compared]

/-- A comparison with a constant is lowered by the order that it asks for. -/
theorem lowers_compareImm {o : X86.Order} {name : String} {v : UInt32} (hosted : e.Hosted)
    (found : X86.Templates.lookup key =
      some (compareImm name (o.lt.opcode 0x90) (o.gt.opcode 0x90)))
    (planned : e.planCompare key field ra (.word v) = .ok steps)
    (means : ∀ handlers g, Platform.apply ⟨e.config, handlers⟩ g i.op = ((do
      let x ← g.gpr? ra
      g.setCondition? field (o.less x.toBitVec v.toBitVec) (o.less v.toBitVec x.toBitVec)).map
        (·, .next))) : Lowers e i steps := by
  obtain ⟨l, shift, keep, hl, hshift, hkeep, rfl⟩ := hosted.planCompare found rfl planned
  refine .of_step
    (fits_of_lookup found ⟨.imm _ _, .imm _ _, .imm _ _, .imm _ _, .imm _ _, .imm _ _, trivial⟩)
    (by simp [PlanStep.Straight, CpuField.value, SlotValue.word]) rfl
    (fun _ _ _ _ _ _ _ holds => X86.goes_compareImm o l (shift_small hshift) name v holds) ?_ ?_
  · intro g pc
    rw [GuestState.get_setPc (ne_pc_of_gprField hl)]
    rfl
  · intro handlers g
    rw [means, GuestState.gpr?_eq hl]
    simp [GuestState.setCondition?_eq hshift hkeep, X86.compared]

end Compare

section Call

variable {handler : UInt64} {opcode : UInt32}

theorem GuestState.setPc_self (g : GuestState) : g.setPc g.cpu.pc = g := rfl

/-- The step that calls a routine. -/
def callStep (e : Engine) (handler : UInt64) (opcode : UInt32) : PlanStep :=
  .place (if e.isNear handler then callDirect else callAbsolute) [.word opcode, .handler handler]

/-- Before a routine is called the program counter is made to point at the instruction. -/
theorem Engine.planCall_eq (x86 : e.registry = X86.registry) (pc : UInt32) :
    e.planCall pc handler opcode = .ok [storeStep .pc pc, callStep e handler opcode] := by
  unfold Engine.planCall callStep
  rw [planStore_eq x86]
  split
  · rw [planPlace_eq x86 rfl rfl]
    rfl
  · rw [planPlace_eq x86 rfl rfl]
    rfl

theorem Engine.Hosted.planCall (h : e.Hosted) (pc : UInt32) :
    e.planCall pc handler opcode = .ok [storeStep .pc pc, callStep e handler opcode] :=
  planCall_eq h.registry pc

theorem fits_callStep : (callStep e handler opcode).Fits e := by
  unfold callStep
  split
  · next near =>
    exact @fits_of_lookup e ⟨.callHelper, .direct⟩ _ _ rfl ⟨.imm _ _, .near _ near, trivial⟩
  · exact @fits_of_lookup e ⟨.callHelper, .absolute⟩ _ _ rfl ⟨.imm _ _, .routine _ _, trivial⟩

/-- A call does what its routine does, in either form. -/
theorem performs_callStep {handlers : Handlers} {routine : Handler}
    (found : handlers handler = some routine) :
    Performs e handlers [callStep e handler opcode] (routine opcode) := by
  apply performs_single
  rintro cx w p k g rfl attached room holds
  unfold callStep at room holds ⊢
  split at holds
  · next near =>
    rw [if_pos near] at room ⊢
    refine X86.goes_callDirect opcode (attached.wiring.base.trans attached.base.symm) found ?_ holds
    rw [attached.wiring.base]
    exact e.fits_near near room
  · next far =>
    rw [if_neg far]
    exact X86.goes_callAbsolute opcode found holds

theorem performs_storeStep {handlers : Handlers} {f : CpuField} {v : UInt32} :
    Performs e handlers [storeStep f v] (·.put f v) :=
  performs_single fun _ _ _ _ _ _ _ _ holds => size_storeStep ▸ goes_storeStep holds

/-- A routine is called with the program counter at its instruction. -/
theorem lowers_call (hosted : e.Hosted) (hop : i.op = .call handler opcode) :
    Lowers e i [storeStep .pc i.pc, callStep e handler opcode] where
  fits := by simpa using ⟨fits_storeStep, fits_callStep⟩
  straight := by
    refine List.forall_mem_cons.2 ⟨straight_storeStep, List.forall_mem_singleton.2 ?_⟩
    simp [callStep, PlanStep.Straight, SlotValue.word]
  exits := by
    simp only [exitTotal, exitCount_storeStep]
    rfl
  performs handlers covered := by
    obtain ⟨routine, found⟩ := Option.isSome_iff_exists.1 (covered handler opcode hop)
    refine ⟨_, performs_storeStep.append hosted (by simpa using fits_storeStep)
      (performs_callStep found), fun g pc => ?_⟩
    refine ⟨routine opcode (g.setPc i.pc), _, ?_, (GuestState.setPc_self _).symm⟩
    simp only [Platform.step, Platform.apply, hop, found]
    rfl

end Call

/-- What an instruction that does not end a block is planned as. -/
theorem lowers_of_planInsn (hosted : e.Hosted) (inner : i.op.isTerminal = false)
    (planned : e.planInsn i = .ok steps) : Lowers e i steps := by
  obtain ⟨pc, op⟩ := i
  cases op with
  | b | bl | bc | blr | bctr | sc | icbi => cases inner
  | li rd imm =>
    obtain ⟨d, hd, planned⟩ := bind_eq_ok.1 planned
    rw [hosted.planStore] at planned
    cases planned
    exact lowers_store (ne_pc_of_gprField hd) fun _ g => by
      simp [Platform.apply, Platform.apply.next, GuestState.setGpr?_eq hd]
  | addi rd ra imm =>
    simp only [Engine.planInsn] at planned
    split at planned
    · next zero =>
      obtain ⟨d, hd, planned⟩ := bind_eq_ok.1 planned
      rw [hosted.planStore] at planned
      cases planned
      exact lowers_store (ne_pc_of_gprField hd) fun _ g => by
        simp [Platform.apply, Platform.apply.next, GuestState.base?, zero, GuestState.setGpr?_eq hd]
    · next nonzero =>
      exact @lowers_aluImm _ _ _ _ .add _ _ _ _ hosted rfl rfl nofun (fun x => UInt32.add_zero x)
        planned fun _ g => by
          simp [Platform.apply, Platform.apply.next, GuestState.base?, nonzero]; rfl
  | add rd ra rb =>
    exact @lowers_aluReg _ _ _ _ .add _ _ _ _ hosted rfl nofun planned fun _ _ => rfl
  | subf rd ra rb =>
    refine @lowers_aluReg _ _ _ _ .sub _ _ _ _ hosted rfl nofun planned fun _ g => ?_
    cases ha : g.gpr? ra <;> cases hb : g.gpr? rb <;>
      simp [Platform.apply, Platform.apply.next, ha, hb]
    rfl
  | mullw rd ra rb => exact lowers_mullw hosted planned fun _ _ => rfl
  | and ra rs rb =>
    exact @lowers_aluReg _ _ _ _ .and _ _ _ _ hosted rfl nofun planned fun _ _ => rfl
  | or ra rs rb => exact @lowers_aluReg _ _ _ _ .or _ _ _ _ hosted rfl nofun planned fun _ _ => rfl
  | xor ra rs rb =>
    exact @lowers_aluReg _ _ _ _ .xor _ _ _ _ hosted rfl nofun planned fun _ _ => rfl
  | ori ra rs imm =>
    exact @lowers_aluImm _ _ _ _ .or _ _ _ _ hosted rfl rfl nofun (fun x => UInt32.or_zero)
      planned fun _ _ => rfl
  | xori ra rs imm =>
    exact @lowers_aluImm _ _ _ _ .xor _ _ _ _ hosted rfl rfl nofun (fun x => UInt32.xor_zero)
      planned fun _ _ => rfl
  | lwz rd ra d =>
    simp only [Engine.planInsn] at planned
    split at planned
    · next zero =>
      exact lowers_loadAbs hosted planned fun _ g host dst hhost hdst => by
        simp [Platform.apply, Platform.apply.next, Platform.dataAddress?, zero, hhost,
          Except.toOption, GuestState.setGpr?_eq hdst]
    · next nonzero =>
      obtain ⟨base, hbase, planned⟩ := bind_eq_ok.1 planned
      obtain ⟨dst, hdst, planned⟩ := bind_eq_ok.1 planned
      exact lowers_load hosted (ne_pc_of_gprField hbase) (ne_pc_of_gprField hdst) planned
        fun _ g => by
          simp [Platform.apply, Platform.apply.next, Platform.dataAddress?, nonzero,
            GuestState.gpr?_eq hbase, GuestState.setGpr?_eq hdst]
  | stw rs ra d =>
    simp only [Engine.planInsn] at planned
    split at planned
    · next zero =>
      exact lowers_storeAbs hosted planned fun _ g host src hhost hsrc => by
        simp [Platform.apply, Platform.apply.next, Platform.apply.store,
          Platform.dataAddress?, zero, hhost, Except.toOption, GuestState.gpr?_eq hsrc, stored]
    · next nonzero =>
      obtain ⟨base, hbase, planned⟩ := bind_eq_ok.1 planned
      obtain ⟨src, hsrc, planned⟩ := bind_eq_ok.1 planned
      exact lowers_storeWord hosted (ne_pc_of_gprField hbase) (ne_pc_of_gprField hsrc) planned
        fun _ g => by
          simp [Platform.apply, Platform.apply.next, Platform.apply.store, Platform.dataAddress?,
            nonzero, GuestState.gpr?_eq hbase, GuestState.gpr?_eq hsrc, stored]
  | lwzAbs rd addr =>
    exact lowers_loadAbs hosted planned fun _ g host dst hhost hdst => by
      simp [Platform.apply, Platform.apply.next, hhost, Except.toOption, GuestState.setGpr?_eq hdst]
  | stwAbs rs addr =>
    exact lowers_storeAbs hosted planned fun _ g host src hhost hsrc => by
      simp [Platform.apply, Platform.apply.next, Platform.apply.store, hhost, Except.toOption,
        GuestState.gpr?_eq hsrc, stored]
  | cmpw field ra rb =>
    obtain ⟨r, hr, planned⟩ := bind_eq_ok.1 planned
    exact @lowers_compareReg _ _ _ _ _ _ .signed _ _ _ hosted rfl hr planned fun _ g => by
      simp [Platform.apply, Platform.apply.next, signedLess_eq]
  | cmplw field ra rb =>
    obtain ⟨r, hr, planned⟩ := bind_eq_ok.1 planned
    exact @lowers_compareReg _ _ _ _ _ _ .unsigned _ _ _ hosted rfl hr planned fun _ _ => rfl
  | cmpwi field ra imm =>
    exact @lowers_compareImm _ _ _ _ _ _ .signed _ _ hosted rfl planned fun _ g => by
      simp [Platform.apply, Platform.apply.next, signedLess_eq]
  | cmplwi field ra imm =>
    exact @lowers_compareImm _ _ _ _ _ _ .unsigned _ _ hosted rfl planned fun _ _ => rfl
  | mtctr rs | mtlr rs =>
    obtain ⟨src, hsrc, planned⟩ := bind_eq_ok.1 planned
    rw [hosted.planMove] at planned
    cases planned
    exact lowers_move (ne_pc_of_gprField hsrc) (by simp) fun _ g => by
      simp [Platform.apply, Platform.apply.next, GuestState.gpr?_eq hsrc, GuestState.put]
  | mfctr rd | mflr rd =>
    obtain ⟨dst, hdst, planned⟩ := bind_eq_ok.1 planned
    rw [hosted.planMove] at planned
    cases planned
    exact lowers_move (by simp) (ne_pc_of_gprField hdst) fun _ g => by
      simp [Platform.apply, Platform.apply.next, GuestState.setGpr?_eq hdst, Cpu.get]
  | call handler opcode =>
    change e.planCall pc handler opcode = .ok steps at planned
    rw [hosted.planCall] at planned
    cases planned
    exact lowers_call hosted rfl

end Dynarec
