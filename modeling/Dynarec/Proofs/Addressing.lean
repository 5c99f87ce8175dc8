import Dynarec.Proofs.Accesses
import Dynarec.Proofs.Backing
import Dynarec.Proofs.Confinement
import Dynarec.Proofs.History

/-!
Where loads and stores land. An access to an address that is known beforehand goes to the host
address that backs it. An access through a register goes to region A, in the window too.
-/
namespace Dynarec

open X86 (Access Operand Touches Goes)
open X86.Templates

/-- The base register and the distance of an access whose address is not known before it is made. -/
def Op.based? : Op → Option (UInt8 × UInt32)
  | .lwz _ ra d | .stw _ ra d => if ra = 0 then none else some (ra, signedWord d)
  | _ => none

theorem Op.plain_of_absolute {op : Op} {addr : UInt32} (h : op.absolute? = some addr) :
    op.isTerminal = false ∧ ∀ routine word, op ≠ .call routine word := by
  cases op with
  | lwz | stw | lwzAbs | stwAbs => exact ⟨rfl, fun _ _ called => by cases called⟩
  | _ => cases h

theorem Op.plain_of_based {op : Op} {ra : UInt8} {d : UInt32} (h : op.based? = some (ra, d)) :
    op.isTerminal = false ∧ ∀ routine word, op ≠ .call routine word := by
  cases op with
  | lwz | stw => exact ⟨rfl, fun _ _ called => by cases called⟩
  | _ => cases h

/-- The forms of an access to a known address, which land on its host address. -/
inductive Config.KnownForm (c : Config) (addr : UInt32) (host : UInt64) : Operand → Prop
  /-- A signed distance from a region base; region A is preferred. -/
  | fromBase {r : Region} {d : Int} (chosen : c.regions.canonical host .w32 = .ok (r, d))
      (lands : c.regions.base r + .ofInt d = host) : KnownForm c addr host (.fromBase r d)
  /-- The guest address itself from the base of region A, where no base reaches the host address. -/
  | indexedA (outside : c.inWindow addr = false) (far : ¬ c.regions.Near host)
      (lands : c.regions.a + addr.toUInt64 = host) : KnownForm c addr host .indexedA

section KnownForm

variable {c : Config} {addr : UInt32} {host : UInt64} {operand : Operand}

theorem Config.KnownForm.eq_fromBase (h : c.KnownForm addr host operand) {r : Region} {d : Int}
    (chosen : c.regions.canonical host .w32 = .ok (r, d)) : operand = .fromBase r d := by
  cases h with
  | fromBase chosen' =>
    cases chosen.symm.trans chosen'
    rfl
  | indexedA _ far => exact absurd (RegionBases.near_of_canonical chosen) far

theorem Config.KnownForm.eq_indexedA (h : c.KnownForm addr host operand)
    (far : ¬ c.regions.Near host) : operand = .indexedA := by
  cases h with
  | fromBase chosen => exact absurd (RegionBases.near_of_canonical chosen) far
  | indexedA => rfl

end KnownForm

theorem CodeBuffer.page_le_of_map {base size : Nat} {b : CodeBuffer} (nonempty : size ≠ 0)
    (h : map base size = .ok b) : pageSize ≤ b.capacity := by
  rw [map, if_neg nonempty] at h
  obtain ⟨sum, hsum, h⟩ := bind_eq_ok.1 h
  have large := (addSizes_eq_ok.1 hsum).2
  dsimp only at h
  split at h
  · cases h
  · cases h
    unfold pageSize at large ⊢
    dsimp only
    omega

namespace Engine

variable {e : Engine} {src : Nat → List Insn} {id : BlockId} {b : Block} {i : Insn} {addr : UInt32}
  {host : UInt64} {before after : List Insn} {handlers : Handlers}

/-- The code of block `b` for instruction `i`, behind that for the instructions `before`, does what
the instruction means in every guest state `g`, and touches guest memory just once, which is `made
g`. -/
def Makes (e : Engine) (handlers : Handlers) (b : Block) (before : List Insn) (i : Insn)
    (made : GuestState → Access) : Prop :=
  ∃ parts steps start stop, before.mapM e.planInsn = .ok parts ∧ e.planInsn i = .ok steps ∧
    start = b.hostOffset + stepsSize parts.flatten ∧ stop = start + stepsSize steps ∧
    stop ≤ b.hostOffset + b.hostSize ∧
    ∀ g, Touches (e.context handlers) start g [made g] stop ∧
      ∃ g' pc, Platform.step ⟨e.config, handlers⟩ g i = some (g', .next) ∧
        Goes (e.context handlers) start g stop (g'.setPc pc)

/-- The steps of an instruction stand in the plan of its block behind those of the instructions
before it. -/
theorem steps_of_plan {pc : UInt32} {insns : List Insn} {p : Plan}
    (planned : e.plan pc insns = .ok p) (source : basicBlock insns = before ++ i :: after) :
    ∃ parts steps rest, before.mapM e.planInsn = .ok parts ∧
      e.planInsn i = .ok steps ∧ p.steps = parts.flatten ++ (steps ++ rest) := by
  obtain ⟨last, parts, tail, -, hparts, -, hsteps, -⟩ := parts_of_plan planned
  rw [source, List.mapM_append] at hparts
  obtain ⟨front, hfront, hparts⟩ := bind_eq_ok.1 hparts
  obtain ⟨others, hothers, hparts⟩ := bind_eq_ok.1 hparts
  cases hparts
  rw [List.mapM_cons] at hothers
  obtain ⟨steps, hplan, hothers⟩ := bind_eq_ok.1 hothers
  obtain ⟨back, -, hothers⟩ := bind_eq_ok.1 hothers
  cases hothers
  refine ⟨front, steps, back.flatten ++ tail, hfront, hplan, ?_⟩
  rw [hsteps]
  simp

/-- The code of an instruction stands in its block behind that of the instructions before it. -/
theorem Resting.code_of_insn (h : e.Resting src) (hb : e.block? id = some b)
    (source : basicBlock (src id.index) = before ++ i :: after) (handlers : Handlers) :
    ∃ parts steps w k, before.mapM e.planInsn = .ok parts ∧ e.planInsn i = .ok steps ∧
      Attached e (e.context handlers) w ∧
      b.hostOffset + stepsSize parts.flatten + stepsSize steps ≤ b.hostOffset + b.hostSize ∧
      (e.context handlers).code.Holds (b.hostOffset + stepsSize parts.flatten)
        (w.codes (b.hostOffset + stepsSize parts.flatten) k steps) := by
  obtain ⟨p, follows⟩ := h.placed.follows hb
  obtain ⟨parts, steps, rest, hparts, hplan, hsteps⟩ := steps_of_plan follows.planned source
  have attached : Attached e (e.context handlers) (b.wiring e p.steps) :=
    ⟨rfl, rfl, rfl, h.placed.wiring_of hb follows⟩
  have holds :
      (e.context handlers).code.Holds b.hostOffset
        ((b.wiring e p.steps).codes b.hostOffset 0 p.steps) :=
    h.coded.code hb follows
  have fits := (h.placed.translates follows).fits
  have size : b.hostSize = stepsSize p.steps := follows.size
  rw [hsteps, List.forall_mem_append, List.forall_mem_append] at fits
  rw [hsteps, stepsSize_append, stepsSize_append] at size
  have room : b.hostOffset + stepsSize parts.flatten + stepsSize steps ≤ e.buffer.capacity := by
    have := h.placed.stop_le hb
    have := h.placed.cursor_le
    omega
  refine ⟨parts, steps, b.wiring e p.steps, 0 + exitTotal parts.flatten, hparts, hplan,
    attached, by omega, ?_⟩
  generalize b.wiring e p.steps = w at attached holds ⊢
  rw [hsteps, attached.holds_append h.placed.hosted fits.1 (by omega),
    attached.holds_append h.placed.hosted fits.2.1 room] at holds
  exact holds.2.1

/-- An instruction of a block makes the access that its steps make wherever they stand. -/
theorem Resting.makes (h : e.Resting src) (hb : e.block? id = some b)
    (source : basicBlock (src id.index) = before ++ i :: after) (inner : i.op.isTerminal = false)
    (uncalled : ∀ routine word, i.op ≠ .call routine word) {made : GuestState → Access}
    (touches : ∀ steps, e.planInsn i = .ok steps → ∀ cx w p k g, Attached e cx w →
      cx.code.Holds p (w.codes p k steps) → Touches cx p g [made g] (p + stepsSize steps)) :
    e.Makes handlers b before i made := by
  obtain ⟨parts, steps, w, k, hparts, hplan, attached, within, holds⟩ :=
    h.code_of_insn hb source handlers
  obtain ⟨f, performs, means⟩ := (lowers_of_planInsn h.placed.hosted inner hplan).performs handlers
    fun routine word called => absurd called (uncalled routine word)
  refine ⟨parts, steps, _, _, hparts, hplan, rfl, rfl, within, fun g =>
    ⟨touches steps hplan _ _ _ _ g attached holds, ?_⟩⟩
  obtain ⟨g', pc, stepped, result⟩ := means g g.cpu.pc
  refine ⟨g', pc, stepped, ?_⟩
  rw [← result]
  refine performs _ _ _ _ g rfl attached ?_ holds
  have := h.placed.stop_le hb
  have := h.placed.cursor_le
  omega

/-- The steps of an access to a known address touch its host address, in one of its forms. -/
theorem touches_planAccess {load : Bool} {r : UInt8} {steps : List PlanStep}
    (hhost : e.config.hostAddr addr = .ok host) (planned : e.planAccess load addr r = .ok steps) :
    ∃ operand, e.config.KnownForm addr host operand ∧
      ∀ cx w p k g, Attached e cx w → cx.code.Holds p (w.codes p k steps) →
        Touches cx p g [⟨operand, host⟩] (p + stepsSize steps) := by
  obtain ⟨o, hreached, planned⟩ := bind_eq_ok.1 planned
  obtain ⟨f, -, planned⟩ := bind_eq_ok.1 planned
  cases planned
  obtain ⟨-, ⟨region, d, canonical⟩, reached⟩ | ⟨-, -, reached⟩ | ⟨far, outside, reached⟩ :=
    Config.reached_cases hhost
  · cases reached.symm.trans hreached
    refine ⟨_, .fromBase canonical (X86.base_add_canonical canonical).2,
      fun cx w p k g attached holds => ?_⟩
    have chosen : w.regions.canonical host .w32 = .ok (region, d) :=
      attached.wiring.regions ▸ canonical
    simp only [Wiring.codes, List.append_nil] at holds
    cases load with
    | true => exact X86.touches_loadWordAbs f attached.wiring_regions chosen holds
    | false => exact X86.touches_storeWordAbs f attached.wiring_regions chosen holds
  · cases reached.symm.trans hreached
  · cases reached.symm.trans hreached
    have lands : e.config.regions.a + addr.toUInt64 = host :=
      Except.ok.inj ((Config.hostAddr_of_not_inWindow outside).symm.trans hhost)
    refine ⟨_, .indexedA outside far lands, fun cx w p k g attached holds => ?_⟩
    rw [← lands, ← attached.regions]
    simp only [Wiring.codes, List.append_nil] at holds
    cases load with
    | true => exact X86.touches_loadWordLiteral addr f holds
    | false => exact X86.touches_storeWordLiteral addr f holds

/-- The steps of an access through a register touch region A. -/
theorem Hosted.touches_based (hosted : e.Hosted) {ra : UInt8} {d : UInt32}
    (based : i.op.based? = some (ra, d)) {steps : List PlanStep}
    (planned : e.planInsn i = .ok steps) : ∃ f, gprField ra = .ok f ∧
      ∀ cx w p k g, Attached e cx w → cx.code.Holds p (w.codes p k steps) →
        Touches cx p g [⟨.indexedA, e.config.regions.a + (g.cpu.get f + d).toUInt64⟩]
          (p + stepsSize steps) := by
  obtain ⟨pc, op⟩ := i
  cases op with
  | lwz rd ra' d' =>
    obtain ⟨other, same⟩ := Option.ite_none_left_eq_some.1 based
    cases same
    replace planned := (if_neg other).symm.trans planned
    obtain ⟨base, hbase, planned⟩ := bind_eq_ok.1 planned
    obtain ⟨dst, -, planned⟩ := bind_eq_ok.1 planned
    rw [hosted.planPlace (t := loadWord) rfl rfl] at planned
    cases planned
    refine ⟨base, hbase, fun cx w p k g attached holds => ?_⟩
    rw [← attached.regions]
    simp only [Wiring.codes, List.append_nil] at holds
    exact X86.touches_loadWord base dst (signedWord d') holds
  | stw rs ra' d' =>
    obtain ⟨other, same⟩ := Option.ite_none_left_eq_some.1 based
    cases same
    replace planned := (if_neg other).symm.trans planned
    obtain ⟨base, hbase, planned⟩ := bind_eq_ok.1 planned
    obtain ⟨src, -, planned⟩ := bind_eq_ok.1 planned
    rw [hosted.planPlace (t := storeWord) rfl rfl] at planned
    cases planned
    refine ⟨base, hbase, fun cx w p k g attached holds => ?_⟩
    rw [← attached.regions]
    simp only [Wiring.codes, List.append_nil] at holds
    exact X86.touches_storeWord base src (signedWord d') holds
  | _ => cases based

/-- A block's access to a known address lands on its host address. -/
theorem Resting.makes_known (h : e.Resting src) (hb : e.block? id = some b)
    (source : basicBlock (src id.index) = before ++ i :: after) (known : i.op.absolute? = some addr)
    (hhost : e.config.hostAddr addr = .ok host) (handlers : Handlers) :
    ∃ operand, e.config.KnownForm addr host operand ∧ e.Makes handlers b before i fun _ =>
      ⟨operand, host⟩ := by
  obtain ⟨-, steps, -, -, -, hplan, -⟩ := h.code_of_insn hb source handlers
  obtain ⟨load, r, -, planned⟩ := h.placed.hosted.planInsn_absolute known
  obtain ⟨operand, form, touches⟩ := touches_planAccess hhost (planned.symm.trans hplan)
  obtain ⟨inner, uncalled⟩ := Op.plain_of_absolute known
  refine ⟨operand, form, h.makes hb source inner uncalled fun steps' hplan' => ?_⟩
  cases hplan.symm.trans hplan'
  exact touches

/-- A block's access through a register lands in region A. -/
theorem Resting.makes_based (h : e.Resting src) (hb : e.block? id = some b)
    (source : basicBlock (src id.index) = before ++ i :: after) {ra : UInt8} {d : UInt32}
    (based : i.op.based? = some (ra, d)) (handlers : Handlers) : ∃ f, gprField ra = .ok f ∧
      e.Makes handlers b before i fun g =>
        ⟨.indexedA, e.config.regions.a + (g.cpu.get f + d).toUInt64⟩ := by
  obtain ⟨-, steps, -, -, -, hplan, -⟩ := h.code_of_insn hb source handlers
  obtain ⟨f, hf, touches⟩ := h.placed.hosted.touches_based based hplan
  obtain ⟨inner, uncalled⟩ := Op.plain_of_based based
  refine ⟨f, hf, h.makes hb source inner uncalled fun steps' hplan' => ?_⟩
  cases hplan.symm.trans hplan'
  exact touches

section Translation

variable {pc : UInt32} {fault : Fault}

theorem plan_single_error (inner : i.op.isTerminal = false) (failed : e.planInsn i = .error fault) :
    e.plan pc [i] = .error fault := by
  simp only [plan, basicBlock, inner, Bool.false_eq_true, if_false, List.getLast?_singleton,
    List.mapM_cons, failed]
  rfl

theorem Hosted.plan_single_ok (h : e.Hosted) (pc : UInt32) (inner : i.op.isTerminal = false)
    {steps : List PlanStep} (planned : e.planInsn i = .ok steps) :
    ∃ p, e.plan pc [i] = .ok p ∧ p.size = stepsSize steps + 32 := by
  simp only [plan, basicBlock, inner, Bool.false_eq_true, if_false, List.getLast?_singleton,
    List.mapM_cons, List.mapM_nil, planned, h.planExit]
  refine ⟨_, rfl, ?_⟩
  simp only [Plan.size, List.flatten_cons, List.flatten_nil, List.append_nil, stepsSize_append,
    stepsSize_exitSteps]

/-- Planning an access fails for want of reach exactly if it is in the window and no base reaches
it. -/
theorem planAccess_eq_apart {load : Bool} {r : UInt8} (hhost : e.config.hostAddr addr = .ok host) :
    e.planAccess load addr r = .error (.error (.regionsNotColocated host .w32)) ↔
      e.config.inWindow addr = true ∧ ¬ e.config.regions.Near host := by
  have failed (o : Option UInt64) (reached : e.config.reached addr = .ok o) :
      e.planAccess load addr r ≠ .error (.error (.regionsNotColocated host .w32)) := by
    intro failed
    obtain failed | ⟨o', -, failed⟩ := bind_eq_error.1 failed
    · cases reached.symm.trans failed
    · obtain failed | ⟨f, -, failed⟩ := bind_eq_error.1 failed
      · cases gprField_eq_error failed
      · cases failed
  obtain ⟨near, -, reached⟩ | ⟨far, inside, reached⟩ | ⟨far, outside, reached⟩ :=
    Config.reached_cases hhost
  · exact iff_of_false (failed _ reached) fun apart => apart.2 near
  · exact iff_of_true (bind_eq_error.2 (.inl reached)) ⟨inside, far⟩
  · exact iff_of_false (failed _ reached) fun apart =>
      Bool.false_ne_true (outside.symm.trans apart.1)

theorem exists_planAccess (load : Bool) {r : UInt8} (small : r < 32)
    (hhost : e.config.hostAddr addr = .ok host) :
    e.planAccess load addr r = .error (.error (.regionsNotColocated host .w32)) ∨
      ∃ steps, e.planAccess load addr r = .ok steps ∧ stepsSize steps ≤ 17 := by
  have planned (o : Option UInt64) (reached : e.config.reached addr = .ok o) :
      ∃ steps, e.planAccess load addr r = .ok steps ∧ stepsSize steps ≤ 17 := by
    obtain ⟨f, hf⟩ := exists_gprField small
    refine ⟨_, bind_eq_ok.2 ⟨o, reached, bind_eq_ok.2 ⟨f, hf, rfl⟩⟩, ?_⟩
    cases o <;> cases load <;> exact Nat.le_of_ble_eq_true rfl
  obtain ⟨-, -, reached⟩ | ⟨-, -, reached⟩ | ⟨-, -, reached⟩ := Config.reached_cases hhost
  · exact .inr (planned _ reached)
  · exact .inl (bind_eq_error.2 (.inl reached))
  · exact .inr (planned _ reached)

theorem Resting.emission_eq_error (h : e.Resting src) {insns : List Insn} {log : Array Event} :
    ((EngineM.emitBlock pc insns).perform e log).1.1 = .error fault ↔
      e.emissionFault? pc insns = some fault := by
  obtain ⟨fault', failed, yields⟩ | ⟨possible, id, c, yields, -⟩ := h.yields_emitBlock pc insns
  · rw [yields log, failed]
    exact ⟨fun same => congrArg some (Except.error.inj same),
      fun same => congrArg _ (Option.some.inj same)⟩
  · rw [yields log, possible]
    constructor
    · intro failed
      cases failed
    · intro failed
      cases failed

/-- What can be planned becomes a block exactly if the buffer is large enough. -/
theorem Resting.emission_ok_iff (h : e.Resting src) {insns : List Insn} {log : Array Event}
    {p : Plan} (planned : e.plan pc insns = .ok p) :
    (∃ id, ((EngineM.emitBlock pc insns).perform e log).1.1 = .ok id) ↔
      p.size ≤ e.buffer.usable := by
  have verdict : e.emissionFault? pc insns =
      if p.size > e.buffer.usable then some (.error (.blockTooLarge p.size e.buffer.usable))
      else none := by
    rw [emissionFault?, planned]
  obtain ⟨fault, failed, yields⟩ | ⟨possible, id, c, yields, -⟩ := h.yields_emitBlock pc insns
  · rw [yields log]
    refine iff_of_false (fun done => ?_) fun fits => ?_
    · obtain ⟨id, done⟩ := done
      cases done
    · rw [verdict, if_neg (Nat.not_lt.2 fits)] at failed
      cases failed
  · rw [yields log]
    refine iff_of_true ⟨id, rfl⟩ ?_
    by_contra large
    rw [verdict, if_pos (Nat.lt_of_not_le large)] at possible
    cases possible

/-- Translating an access fails for want of reach exactly if planning it does. -/
theorem Resting.emission_apart_iff (h : e.Resting src) (inner : i.op.isTerminal = false)
    {log : Array Event} :
    ((EngineM.emitBlock pc [i]).perform e log).1.1 =
      .error (.error (.regionsNotColocated host .w32)) ↔
      e.planInsn i = .error (.error (.regionsNotColocated host .w32)) := by
  rw [h.emission_eq_error, emissionFault?]
  cases planned : e.planInsn i with
  | error fault =>
    rw [plan_single_error inner planned]
    exact ⟨fun same => congrArg _ (Option.some.inj same),
      fun same => congrArg some (Except.error.inj same)⟩
  | ok steps =>
    obtain ⟨p, hp, -⟩ := h.placed.hosted.plan_single_ok pc inner planned
    rw [hp]
    dsimp only
    constructor
    · intro failed
      split at failed
      · cases failed
      · cases failed
    · intro failed
      cases failed

end Translation

/-- An engine has room for a page of code. -/
theorem Made.page_le (h : e.Made src) : CodeBuffer.pageSize ≤ e.buffer.capacity := by
  obtain ⟨e₀, created, frame⟩ := h.origin
  rw [capacity_of_frame frame]
  obtain ⟨b, stubs, b', valid, -, mapped, written, -, rfl⟩ := create_eq_ok.1 created
  obtain ⟨nonempty, small⟩ := e.config.codeBufferSize_of_validate valid
  have page := CodeBuffer.page_le_of_map nonempty mapped
  obtain ⟨capacity, rfl, room, -, bound⟩ := CodeBuffer.map_inv mapped nonempty small
  rw [X86.write_eq_ok e.config.regions room bound] at written
  cases written
  exact page

/-- An access to an address that is known beforehand lands on its host address, in whatever block it
stands: at a signed distance from the base of a region or, outside the window and where no base
reaches, at the guest address in region A. Only in the window it cannot be translated, exactly where
no base reaches. -/
theorem Made.known_access_lands (h : e.Made src) (known : i.op.absolute? = some addr)
    (hhost : e.config.hostAddr addr = .ok host) :
    (∀ pc log, ((EngineM.emitBlock pc [i]).perform e log).1.1 =
      .error (.error (.regionsNotColocated host .w32)) ↔
      e.config.inWindow addr = true ∧ ¬ e.config.regions.Near host) ∧
    (i.op.InRange → ∀ pc log, (∃ id, ((EngineM.emitBlock pc [i]).perform e log).1.1 = .ok id) ∨
      ((EngineM.emitBlock pc [i]).perform e log).1.1 =
        .error (.error (.regionsNotColocated host .w32))) ∧
    ∀ handlers id b before after, e.block? id = some b →
      basicBlock (src id.index) = before ++ i :: after →
      ∃ operand, e.config.KnownForm addr host operand ∧ e.Makes handlers b before i fun _ =>
        ⟨operand, host⟩ := by
  have hosted := h.resting.placed.hosted
  obtain ⟨inner, -⟩ := Op.plain_of_absolute known
  obtain ⟨load, r, hr, planned⟩ := hosted.planInsn_absolute known
  refine ⟨fun pc log => ?_, fun inRange pc log => ?_, fun handlers id b before after hb source =>
    h.resting.makes_known hb source known hhost handlers⟩
  · rw [h.resting.emission_apart_iff inner, planned]
    exact planAccess_eq_apart hhost
  · obtain apart | ⟨steps, fine, short⟩ := exists_planAccess load (inRange.1 r hr) hhost
    · exact .inr ((h.resting.emission_apart_iff inner).2 (planned.trans apart))
    · obtain ⟨p, hp, size⟩ := hosted.plan_single_ok pc inner (planned.trans fine)
      refine .inl ((h.resting.emission_ok_iff hp).2 ?_)
      have page := h.page_le
      rw [CodeBuffer.usable, hosted.codeStart]
      unfold CodeBuffer.pageSize at page
      unfold X86.stubsSize
      omega

/-- The engine that a new one becomes by one emission. -/
theorem exists_block_of_create {base : Nat} {config : Config}
    (created : create base X86.registry config = .ok e) (pc : UInt32) (insns : List Insn)
    (possible : e.emissionFault? pc insns = none) :
    ∃ (c : Engine) (src : Nat → List Insn) (id : BlockId) (b : Block), c.Made src ∧
      c.frame = e.frame ∧ c.block? id = some b ∧ src id.index = insns := by
  have made : e.Made fun _ => [] := .create _ created
  obtain ⟨fault, failed, -⟩ | ⟨-, id, c, yields, emitted⟩ := made.resting.yields_emitBlock pc insns
  · cases possible.symm.trans failed
  · obtain ⟨b, hb, -, -⟩ := emitted.block
    exact ⟨c, noted (fun _ => []) id insns, id, b, made.emitBlock (yields #[]), emitted.frame,
      hb, noted_self⟩

/-- Regions far from each other, and a window of which region B reaches the first half. -/
def spread : Config where
  codeBufferSize := 4096
  regions := { a := 0x1000000000, b := 0x2000000000 }
  window := some { base := 0x10000000, length := 0xE0000000 }

/-- A load in front of the window, a store into it and a load behind it. -/
def scattered : List Insn :=
  [⟨0x100, .lwz 3 0 0x100⟩, ⟨0x104, .stwAbs 4 0x80000000⟩, ⟨0x108, .lwz 5 0 (-4)⟩, ⟨0x10C, .sc⟩]

theorem scattered_accesses_land :
    ∃ (e : Engine) (src : Nat → List Insn) (id : BlockId) (b : Block), e.Made src ∧
    e.config = spread ∧ e.block? id = some b ∧ src id.index = scattered ∧ ∀ handlers,
      e.Makes handlers b [] ⟨0x100, .lwz 3 0 0x100⟩ (fun _ => ⟨.fromBase .a 0x100, 0x1000000100⟩) ∧
      e.Makes handlers b (scattered.take 1) ⟨0x104, .stwAbs 4 0x80000000⟩
        (fun _ => ⟨.fromBase .b 0x70000000, 0x2070000000⟩) ∧
      e.Makes handlers b (scattered.take 2) ⟨0x108, .lwz 5 0 (-4)⟩
        (fun _ => ⟨.indexedA, 0x10FFFFFFFC⟩) ∧
      ∀ pc log, ((EngineM.emitBlock pc [⟨pc, .lwzAbs 6 0xE0000000⟩]).perform e log).1.1 =
        .error (.error (.regionsNotColocated 0x20D0000000 .w32)) := by
  have created : create 4096 X86.registry spread = .ok (fresh 4096 4096 spread) := rfl
  obtain ⟨e, src, id, b, made, frame, hb, source⟩ :=
    exists_block_of_create created 0x100 scattered rfl
  have config : e.config = spread := config_of_frame frame
  have body : basicBlock (src id.index) = scattered := by rw [source]; rfl
  have lands {i : Insn} {addr : UInt32} {host : UInt64} (known : i.op.absolute? = some addr)
      (hhost : spread.hostAddr addr = .ok host) :=
    made.known_access_lands known (config.symm ▸ hhost)
  have unreached : ¬ spread.regions.Near 0x10FFFFFFFC := by decide
  refine ⟨e, src, id, b, made, config, hb, source, fun handlers => ⟨?_, ?_, ?_, fun pc log => ?_⟩⟩
  · obtain ⟨operand, form, makes⟩ := (lands rfl rfl).2.2 handlers id b [] _ hb body
    rw [config] at form
    cases form.eq_fromBase rfl
    exact makes
  · obtain ⟨operand, form, makes⟩ := (lands rfl rfl).2.2 handlers id b (scattered.take 1) _ hb body
    rw [config] at form
    cases form.eq_fromBase rfl
    exact makes
  · obtain ⟨operand, form, makes⟩ := (lands rfl rfl).2.2 handlers id b (scattered.take 2) _ hb body
    rw [config] at form
    cases form.eq_indexedA unreached
    exact makes
  · refine ((lands rfl rfl).1 pc log).2 ?_
    rw [config]
    decide

end Engine

/-- Region A has an address of the window where region B has it exactly if region B is region A from
the base of the window on. -/
theorem GuestWindow.Straight.coincide_iff {w : GuestWindow} {ea : UInt32} (h : w.Straight)
    (inside : w.contains ea = true) (a b : UInt64) :
    a + ea.toUInt64 = b + (ea - w.base).toUInt64 ↔ b = a + w.base.toUInt64 := by
  have low := h.base_le inside
  have distance : (ea - w.base).toUInt64 = ea.toUInt64 - w.base.toUInt64 := by
    have low' : w.base.toUInt64 ≤ ea.toUInt64 := by
      rw [UInt64.le_iff_toNat_le, UInt32.toNat_toUInt64, UInt32.toNat_toUInt64]
      exact UInt32.le_iff_toNat_le.1 low
    apply UInt64.toNat.inj
    rw [UInt64.toNat_sub_of_le _ _ low', UInt32.toNat_toUInt64, UInt32.toNat_toUInt64,
      UInt32.toNat_toUInt64, UInt32.toNat_sub_of_le _ _ low]
  rw [distance]
  constructor
  · intro same
    grind
  · rintro rfl
    grind

/-- Where the window does not wrap, an address is backed by region A at its own distance exactly if
it is outside the window or the regions coincide there. -/
theorem Config.backed_by_regionA_iff {c : Config} (straight : ∀ w, c.window = some w → w.Straight)
    (ea : UInt32) :
    ∃ host, c.hostAddr ea = .ok host ∧ (c.regions.a + ea.toUInt64 = host ↔
      c.inWindow ea = false ∨ ∃ w, c.window = some w ∧
      c.regions.b = c.regions.a + w.base.toUInt64) := by
  obtain ⟨w, hw, inside, hhost⟩ | ⟨outside, hhost⟩ := hostAddr_cases straight ea
  · refine ⟨_, hhost,
      ((straight w hw).coincide_iff inside _ _).trans ⟨fun same => .inr ⟨w, hw, same⟩, ?_⟩⟩
    rintro (outside | ⟨w', hw', same⟩)
    · rw [inWindow, hw] at outside
      exact absurd (outside.symm.trans inside) Bool.false_ne_true
    · cases hw.symm.trans hw'
      exact same
  · exact ⟨_, hhost, iff_of_true rfl (.inl outside)⟩

namespace Engine

variable {e : Engine} {src : Nat → List Insn} {i : Insn}

/-- An access through a register lands in region A, whatever the register holds. An access to the
same address that is known beforehand lands on the same host address exactly if the address is
outside the window or the regions coincide there. -/
theorem Made.based_access_lands (h : e.Made src)
    (straight : ∀ w, e.config.window = some w → w.Straight) {ra : UInt8} {d : UInt32}
    (based : i.op.based? = some (ra, d)) {id : BlockId} {b : Block} {before after : List Insn}
    (hb : e.block? id = some b) (source : basicBlock (src id.index) = before ++ i :: after)
    (handlers : Handlers) :
    (∃ f, gprField ra = .ok f ∧
      e.Makes handlers b before i fun g =>
        ⟨.indexedA, e.config.regions.a + (g.cpu.get f + d).toUInt64⟩) ∧
    ∀ ea, ∃ host, e.config.hostAddr ea = .ok host ∧
      (∀ j id' b' before' after', j.op.absolute? = some ea → e.block? id' = some b' →
        basicBlock (src id'.index) = before' ++ j :: after' →
        ∃ operand, e.Makes handlers b' before' j fun _ => ⟨operand, host⟩) ∧
      (e.config.regions.a + ea.toUInt64 = host ↔ e.config.inWindow ea = false ∨
        ∃ w, e.config.window = some w ∧
          e.config.regions.b = e.config.regions.a + w.base.toUInt64) := by
  refine ⟨h.resting.makes_based hb source based handlers, fun ea => ?_⟩
  obtain ⟨host, hhost, same⟩ := Config.backed_by_regionA_iff straight ea
  refine ⟨host, hhost, fun j id' b' before' after' known hb' source' => ?_, same⟩
  obtain ⟨operand, -, makes⟩ := h.resting.makes_known hb' source' known hhost handlers
  exact ⟨operand, makes⟩

/-- Two pages of guest memory, such as a kernel's data, in a region of their own. -/
def kernelPages : Config where
  codeBufferSize := 0x100000
  regions := { a := 0x1000000000, b := 0x1800000000 }
  window := some { base := 0x68FFE000, length := 0x2000 }

/-- A load through a register, a load from a known address, and a system call. -/
def twoLoads : List Insn := [⟨0x1000, .lwz 4 3 0⟩, ⟨0x1004, .lwzAbs 5 0x68FFE010⟩, ⟨0x1008, .sc⟩]

theorem exists_twoLoads :
    ∃ (e : Engine) (src : Nat → List Insn) (id : BlockId) (b : Block), e.Made src ∧
    e.config = kernelPages ∧ e.block? id = some b ∧ basicBlock (src id.index) = twoLoads := by
  have created : create 4096 X86.registry kernelPages = .ok (fresh 4096 0x100000 kernelPages) := rfl
  obtain ⟨e, src, id, b, made, frame, hb, source⟩ :=
    exists_block_of_create created 0x1000 twoLoads rfl
  refine ⟨e, src, id, b, made, config_of_frame frame, hb, ?_⟩
  rw [source]
  rfl

theorem straight_kernelPages (w : GuestWindow) (hw : kernelPages.window = some w) : w.Straight := by
  cases hw
  show (0x68FFE000 : UInt32).toNat + (0x2000 : UInt32).toNat ≤ 2 ^ 32
  decide

/-- In region A the two loads land alike, and in the window apart. -/
theorem twoLoads_land :
    ∃ (e : Engine) (src : Nat → List Insn) (id : BlockId) (b : Block), e.Made src ∧
    e.config = kernelPages ∧ e.block? id = some b ∧ basicBlock (src id.index) = twoLoads ∧
      ∀ handlers, (∃ f, gprField 3 = .ok f ∧ e.Makes handlers b [] ⟨0x1000, .lwz 4 3 0⟩ fun g =>
        ⟨.indexedA, 0x1000000000 + (g.cpu.get f + 0).toUInt64⟩) ∧
      kernelPages.hostAddr 0x200 = .ok (0x1000000000 + 0x200) ∧
      ∃ host, kernelPages.hostAddr 0x68FFE010 = .ok host ∧ 0x1000000000 + 0x68FFE010 ≠ host ∧
        ∃ operand, e.Makes handlers b (twoLoads.take 1) ⟨0x1004, .lwzAbs 5 0x68FFE010⟩ fun _ =>
          ⟨operand, host⟩ := by
  obtain ⟨e, src, id, b, made, config, hb, source⟩ := exists_twoLoads
  refine ⟨e, src, id, b, made, config, hb, source, fun handlers => ?_⟩
  have first : basicBlock (src id.index) = [] ++ ⟨0x1000, .lwz 4 3 0⟩ :: twoLoads.drop 1 := source
  have lands := made.based_access_lands (config.symm ▸ straight_kernelPages) rfl hb first handlers
  rw [config] at lands
  obtain ⟨based, known⟩ := lands
  obtain ⟨low, hlow, -, sameLow⟩ := known 0x200
  obtain ⟨high, hhigh, makes, same⟩ := known 0x68FFE010
  refine ⟨based, ?_, high, hhigh, ?_, makes _ id b _ _ rfl hb source⟩
  · rw [hlow, ← sameLow.2 (.inl rfl)]
    rfl
  · intro alike
    obtain outside | ⟨w, hw, coincide⟩ := same.1 alike
    · cases outside
    · cases hw
      exact absurd coincide (by decide)

/-- In the window of an accepted configuration a load through a register lands in region A, and the
load from the same address that is known beforehand in region B. -/
theorem twoLoads_land_apart :
    kernelPages.validate = .ok () ∧ kernelPages.inWindow 0x68FFE010 = true ∧
    kernelPages.hostAddr 0x68FFE010 = .ok 0x1800000010 ∧
    ∃ (e : Engine) (src : Nat → List Insn) (id : BlockId) (b : Block) (f : CpuField), e.Made src ∧
      e.config = kernelPages ∧ e.block? id = some b ∧ basicBlock (src id.index) = twoLoads ∧
      gprField 3 = .ok f ∧ ∀ handlers,
        (∃ made, e.Makes handlers b [] ⟨0x1000, .lwz 4 3 0⟩ made ∧
          ∀ g, g.cpu.get f = 0x68FFE010 → (made g).address = 0x1068FFE010) ∧
        ∃ operand, e.Makes handlers b (twoLoads.take 1) ⟨0x1004, .lwzAbs 5 0x68FFE010⟩ fun _ =>
          ⟨operand, 0x1800000010⟩ := by
  obtain ⟨e, src, id, b, made, config, hb, source⟩ := exists_twoLoads
  refine ⟨rfl, rfl, rfl, e, src, id, b, .gpr 3, made, config, hb, source, rfl,
    fun handlers => ⟨?_, ?_⟩⟩
  · have first : basicBlock (src id.index) = [] ++ ⟨0x1000, .lwz 4 3 0⟩ :: twoLoads.drop 1 := source
    obtain ⟨f, hf, makes⟩ := made.resting.makes_based hb first rfl handlers
    obtain rfl : CpuField.gpr 3 = f := Except.ok.inj hf
    refine ⟨_, makes, fun g holds => ?_⟩
    rw [config, holds]
    rfl
  · have second : basicBlock (src id.index) = twoLoads.take 1 ++ ⟨0x1004, .lwzAbs 5 0x68FFE010⟩ ::
        twoLoads.drop 2 :=
      source
    have hhost : e.config.hostAddr 0x68FFE010 = .ok 0x1800000010 := by rw [config]; rfl
    obtain ⟨operand, -, makes⟩ := made.resting.makes_known hb second rfl hhost handlers
    exact ⟨operand, makes⟩

end Engine
end Dynarec
