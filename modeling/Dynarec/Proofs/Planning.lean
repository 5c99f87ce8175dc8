import Dynarec.Proofs.Endings

/-!
What planning does whatever the table: each step is a template of the table, exits come from its
chained jump alone, and they lead to where the last instruction goes on. A part of a table plans the
same or fails.
-/
namespace Dynarec

theorem Registry.get_eq_ok {r : Registry} {key : TemplateKey} {t : Template} :
    r.get key = .ok t ↔ r.lookup key = some t := by
  unfold get
  cases r.lookup key <;> simp

/-- The addresses at which a direct exit of the instruction goes on. -/
def Insn.goals (i : Insn) : List UInt32 :=
  match i.op with
  | .b target | .bl target => [target]
  | .bc _ target => [target, i.next]
  | _ => []

/-- The addresses at which a block goes on that ends with the instruction. -/
def Insn.leavesTo (last : Insn) : List UInt32 :=
  if last.op.isTerminal then last.goals else [last.next]

/-- The step is a template of the table, and at most one exit to one of the goals. -/
inductive PlanStep.Drawn (r : Registry) (goals : List UInt32) : PlanStep → Prop
  | inner {key : TemplateKey} {t : Template} {values : List SlotValue}
      (found : r.lookup key = some t) (counted : t.slots.length = values.length)
      (closed : values.any SlotValue.isExit = false) : Drawn r goals (.place t values)
  | exit {t : Template} {target : UInt32} (found : r.lookup ⟨.chainJump, .direct⟩ = some t)
      (counted : t.slots.length = 1) (goal : target ∈ goals) :
      Drawn r goals (.place t [.exit target])
  | fallthrough : Drawn r goals .fallthrough

/-- Steps that a table gives, with some code in them. -/
structure Sourced (r : Registry) (goals : List UInt32) (steps : List PlanStep) : Prop where
  placed : ∃ t values, .place t values ∈ steps
  drawn : ∀ s ∈ steps, s.Drawn r goals

section Sourced

variable {r : Registry} {goals : List UInt32} {xs ys : List PlanStep}

/-- A step stays one of the table's when it may lead to more places. -/
theorem PlanStep.Drawn.mono {goals' : List UInt32} {s : PlanStep} (h : s.Drawn r goals)
    (sub : goals ⊆ goals') : s.Drawn r goals' := by
  cases h with
  | inner found counted closed => exact .inner found counted closed
  | exit found counted goal => exact .exit found counted (sub goal)
  | fallthrough => exact .fallthrough

/-- Steps of the table can be put behind others. -/
theorem Sourced.append (h : Sourced r goals xs) (drawn : ∀ s ∈ ys, s.Drawn r goals) :
    Sourced r goals (xs ++ ys) where
  placed := by
    obtain ⟨t, values, hs⟩ := h.placed
    exact ⟨t, values, List.mem_append_left _ hs⟩
  drawn := List.forall_mem_append.2 ⟨h.drawn, drawn⟩

/-- The exits of steps from a table lead to the goals. -/
theorem PlanStep.Drawn.target_mem (drawn : ∀ s ∈ xs, s.Drawn r goals) {offset : Nat} {x : ExitSlot}
    (hx : x ∈ allExits offset xs) : x.target ∈ goals := by
  induction xs generalizing offset with
  | nil => cases hx
  | cons s xs ih =>
    obtain ⟨first, rest⟩ := List.forall_mem_cons.1 drawn
    rw [allExits, List.mem_append] at hx
    rcases hx with hx | hx
    · cases first with
      | @inner _ t values found counted closed =>
        have none : exitCount (.place t values) = 0 := List.countP_eq_zero.2 (by simpa using closed)
        rw [exits_eq_nil none] at hx
        cases hx
      | @exit t target found counted goal =>
        obtain ⟨s, slots⟩ := List.length_eq_one_iff.1 counted
        rw [exits, SlotValue.exitsOf, slots] at hx
        cases List.mem_singleton.1 hx
        exact goal
      | fallthrough => cases hx
    · exact ih rest hx

end Sourced

namespace Engine

variable {e : Engine} {key : TemplateKey} {values : List SlotValue} {steps : List PlanStep}
  {goals : List UInt32}

/-- A template is placed if the table has it and it is given a value for each slot. -/
theorem planPlace_eq_ok : e.planPlace key values = .ok steps ↔ ∃ t, e.registry.lookup key = some t ∧
    t.slots.length = values.length ∧ steps = [.place t values] := by
  unfold planPlace
  rw [bind_eq_ok]
  refine exists_congr fun t => and_congr Registry.get_eq_ok ?_
  by_cases counted : t.slots.length = values.length
  · simp [demand, counted, bind, Except.bind, pure, Except.pure, eq_comm]
  · simp [demand, counted, breach, bind, Except.bind]

/-- A placed template without an exit leads nowhere, so any goals will do. -/
theorem sourced_planPlace (closed : values.any SlotValue.isExit = false)
    (h : e.planPlace key values = .ok steps) : Sourced e.registry goals steps := by
  obtain ⟨t, found, counted, rfl⟩ := planPlace_eq_ok.1 h
  exact ⟨⟨t, values, List.mem_singleton_self _⟩, by simpa using .inner found counted closed⟩

theorem sourced_planStore {f : CpuField} {v : UInt32} (h : e.planStore f v = .ok steps) :
    Sourced e.registry goals steps := by
  unfold planStore at h
  split at h
  · exact sourced_planPlace rfl h
  · exact sourced_planPlace rfl h

theorem sourced_planMove {src dst : CpuField} (h : e.planMove src dst = .ok steps) :
    Sourced e.registry goals steps :=
  sourced_planPlace rfl h

theorem sourced_planAluImm {c : OpClass} {dst src : UInt8} {v : UInt32}
    (h : e.planAluImm c dst src v = .ok steps) : Sourced e.registry goals steps := by
  obtain ⟨src, -, h⟩ := bind_eq_ok.1 h
  obtain ⟨dst, -, h⟩ := bind_eq_ok.1 h
  split at h
  · exact sourced_planPlace rfl h
  · exact sourced_planPlace rfl h

theorem sourced_planAluReg {c : OpClass} {dst left right : UInt8}
    (h : e.planAluReg c dst left right = .ok steps) : Sourced e.registry goals steps := by
  obtain ⟨left, -, h⟩ := bind_eq_ok.1 h
  obtain ⟨right, -, h⟩ := bind_eq_ok.1 h
  obtain ⟨dst, -, h⟩ := bind_eq_ok.1 h
  exact sourced_planPlace rfl h

theorem sourced_planCompare {field left : UInt8} {right : SlotValue} (closed : right.isExit = false)
    (h : e.planCompare key field left right = .ok steps) : Sourced e.registry goals steps := by
  obtain ⟨-, -, h⟩ := bind_eq_ok.1 h
  obtain ⟨left, -, h⟩ := bind_eq_ok.1 h
  obtain ⟨shift, -, h⟩ := bind_eq_ok.1 h
  obtain ⟨keep, -, h⟩ := bind_eq_ok.1 h
  have rest :
      List.any [left.value, right, .word shift, CpuField.cr.value, .word keep, CpuField.cr.value]
      SlotValue.isExit = (right.isExit || false) := rfl
  exact sourced_planPlace (by rw [rest, closed]; rfl) h

theorem sourced_planPreemptCheck (h : e.planPreemptCheck = .ok steps) :
    Sourced e.registry goals steps :=
  sourced_planPlace rfl h

/-- The steps of an exit lead to its target. -/
theorem sourced_planExit {target : UInt32} (goal : target ∈ goals)
    (h : e.planExit target = .ok steps) : Sourced e.registry goals steps := by
  obtain ⟨store, hstore, h⟩ := bind_eq_ok.1 h
  obtain ⟨poll, hpoll, h⟩ := bind_eq_ok.1 h
  obtain ⟨jump, hjump, h⟩ := bind_eq_ok.1 h
  obtain ⟨t, found, counted, rfl⟩ := planPlace_eq_ok.1 hjump
  cases h
  refine ((sourced_planStore hstore).append (sourced_planPreemptCheck hpoll).drawn).append ?_
  simpa using .exit found counted goal

theorem sourced_planLeave {stub : Nat} {next : UInt32} (h : e.planLeave stub next = .ok steps) :
    Sourced e.registry goals steps := by
  obtain ⟨store, hstore, h⟩ := bind_eq_ok.1 h
  obtain ⟨jump, hjump, h⟩ := bind_eq_ok.1 h
  cases h
  exact (sourced_planStore hstore).append (sourced_planPlace rfl hjump).drawn

/-- An indirect branch has no exit of its own. -/
theorem sourced_planIndirect {src : CpuField} (h : e.planIndirect src = .ok steps) :
    Sourced e.registry goals steps := by
  obtain ⟨load, hload, h⟩ := bind_eq_ok.1 h
  obtain ⟨poll, hpoll, h⟩ := bind_eq_ok.1 h
  obtain ⟨probe, hprobe, h⟩ := bind_eq_ok.1 h
  cases h
  have first : Sourced e.registry goals load := sourced_planPlace rfl hload
  exact (first.append (sourced_planPreemptCheck hpoll).drawn).append
    (sourced_planPlace rfl hprobe).drawn

theorem sourced_planCall {pc : UInt32} {handler : UInt64} {opcode : UInt32}
    (h : e.planCall pc handler opcode = .ok steps) : Sourced e.registry goals steps := by
  obtain ⟨store, hstore, h⟩ := bind_eq_ok.1 h
  obtain ⟨call, hcall, h⟩ := bind_eq_ok.1 h
  cases h
  exact (sourced_planStore hstore).append (sourced_planPlace rfl hcall).drawn

theorem sourced_planLoadAbs {rd : UInt8} {addr : UInt32} (h : e.planLoadAbs rd addr = .ok steps) :
    Sourced e.registry goals steps := by
  obtain ⟨host, -, h⟩ := bind_eq_ok.1 h
  split at h
  · obtain ⟨rd, -, h⟩ := bind_eq_ok.1 h
    exact sourced_planPlace rfl h
  · obtain ⟨rd, -, h⟩ := bind_eq_ok.1 h
    exact sourced_planPlace rfl h

theorem sourced_planStoreAbs {rs : UInt8} {addr : UInt32} (h : e.planStoreAbs rs addr = .ok steps) :
    Sourced e.registry goals steps := by
  obtain ⟨host, -, h⟩ := bind_eq_ok.1 h
  split at h
  · obtain ⟨rs, -, h⟩ := bind_eq_ok.1 h
    exact sourced_planPlace rfl h
  · obtain ⟨rs, -, h⟩ := bind_eq_ok.1 h
    exact sourced_planPlace rfl h

/-- The test of a condition has no exit: the steps behind it do. -/
theorem sourced_planCond {cond : BranchCond} (h : e.planCond cond = .ok steps) :
    Sourced e.registry goals steps := by
  have test {shape : Shape} {bit : UInt8} (h : planCond.bitTest e shape bit = .ok steps) :
      Sourced e.registry goals steps := by
    obtain ⟨-, -, h⟩ := bind_eq_ok.1 h
    obtain ⟨mask, -, h⟩ := bind_eq_ok.1 h
    exact sourced_planPlace rfl h
  cases cond with
  | decCtrNonZero => exact sourced_planPlace rfl h
  | crSet bit => exact test h
  | crClear bit => exact test h

/-- What an instruction is planned as, over any table. -/
theorem sourced_planInsn {i : Insn} (h : e.planInsn i = .ok steps) :
    Sourced e.registry i.goals steps := by
  obtain ⟨pc, op⟩ := i
  cases op with
  | li rd imm =>
    obtain ⟨rd, -, h⟩ := bind_eq_ok.1 h
    exact sourced_planStore h
  | addi rd ra imm =>
    simp only [planInsn] at h
    split at h
    · obtain ⟨rd, -, h⟩ := bind_eq_ok.1 h
      exact sourced_planStore h
    · exact sourced_planAluImm h
  | add | subf | mullw | and | or | xor => exact sourced_planAluReg h
  | ori | xori => exact sourced_planAluImm h
  | lwz rd ra d =>
    simp only [planInsn] at h
    split at h
    · exact sourced_planLoadAbs h
    · obtain ⟨ra, -, h⟩ := bind_eq_ok.1 h
      obtain ⟨rd, -, h⟩ := bind_eq_ok.1 h
      exact sourced_planPlace rfl h
  | stw rs ra d =>
    simp only [planInsn] at h
    split at h
    · exact sourced_planStoreAbs h
    · obtain ⟨ra, -, h⟩ := bind_eq_ok.1 h
      obtain ⟨rs, -, h⟩ := bind_eq_ok.1 h
      exact sourced_planPlace rfl h
  | lwzAbs => exact sourced_planLoadAbs h
  | stwAbs => exact sourced_planStoreAbs h
  | cmpw field ra rb | cmplw field ra rb =>
    obtain ⟨rb, -, h⟩ := bind_eq_ok.1 h
    exact sourced_planCompare rfl h
  | cmpwi | cmplwi => exact sourced_planCompare rfl h
  | mtctr r | mtlr r | mfctr r | mflr r =>
    obtain ⟨r, -, h⟩ := bind_eq_ok.1 h
    exact sourced_planMove h
  | call => exact sourced_planCall h
  | b target => exact sourced_planExit (List.mem_singleton_self _) h
  | bl target =>
    obtain ⟨store, hstore, h⟩ := bind_eq_ok.1 h
    obtain ⟨jump, hjump, h⟩ := bind_eq_ok.1 h
    cases h
    exact (sourced_planStore hstore).append
      (sourced_planExit (List.mem_singleton_self _) hjump).drawn
  | bc cond target =>
    obtain ⟨test, htest, h⟩ := bind_eq_ok.1 h
    obtain ⟨taken, htaken, h⟩ := bind_eq_ok.1 h
    obtain ⟨other, hother, h⟩ := bind_eq_ok.1 h
    cases h
    refine (((sourced_planCond htest).append (sourced_planExit ?_ htaken).drawn).append ?_).append
      (sourced_planExit ?_ hother).drawn
    · exact List.mem_cons_self
    · simpa using .fallthrough
    · exact List.mem_cons_of_mem _ List.mem_cons_self
  | blr | bctr => exact sourced_planIndirect h
  | sc => exact sourced_planLeave h
  | icbi ra rb =>
    simp only [planInsn] at h
    split at h
    · obtain ⟨rb, -, h⟩ := bind_eq_ok.1 h
      obtain ⟨address, haddress, h⟩ := bind_eq_ok.1 h
      obtain ⟨leave, hleave, h⟩ := bind_eq_ok.1 h
      cases h
      exact (sourced_planMove haddress).append (sourced_planLeave hleave).drawn
    · obtain ⟨ra, -, h⟩ := bind_eq_ok.1 h
      obtain ⟨rb, -, h⟩ := bind_eq_ok.1 h
      obtain ⟨address, haddress, h⟩ := bind_eq_ok.1 h
      obtain ⟨leave, hleave, h⟩ := bind_eq_ok.1 h
      cases h
      exact (sourced_planPlace rfl haddress).append
        (sourced_planLeave hleave).drawn

end Engine

section BasicBlock

variable {i last : Insn} {insns : List Insn}

/-- Only the last instruction of a block leads elsewhere. -/
theorem Insn.goals_of_inner (inner : i.op.isTerminal = false) : i.goals = [] := by
  obtain ⟨pc, op⟩ := i
  cases op <;> first | rfl | cases inner

/-- Only the last instruction of a basic block ends it. -/
theorem getLast?_of_isTerminal (hi : i ∈ basicBlock insns) (terminal : i.op.isTerminal = true) :
    (basicBlock insns).getLast? = some i := by
  induction insns with
  | nil => cases hi
  | cons j rest ih =>
    rw [basicBlock] at hi ⊢
    split at hi
    · next ends =>
      rw [if_pos ends, List.mem_singleton.1 hi]
      rfl
    · next inner =>
      rw [if_neg inner]
      obtain rfl | hi := List.mem_cons.1 hi
      · exact absurd terminal inner
      · rw [List.getLast?_cons_of_ne_nil (List.ne_nil_of_mem hi)]
        exact ih hi

/-- Every exit of a block leads to where its last instruction goes on. -/
theorem Insn.goals_subset_leavesTo (hlast : (basicBlock insns).getLast? = some last)
    (hi : i ∈ basicBlock insns) : i.goals ⊆ last.leavesTo := by
  cases terminal : i.op.isTerminal with
  | false =>
    rw [goals_of_inner terminal]
    exact List.nil_subset _
  | true =>
    obtain rfl := Option.some.inj ((getLast?_of_isTerminal hi terminal).symm.trans hlast)
    rw [leavesTo, if_pos terminal]
    exact fun _ h => h

/-- At most one goal is not the address behind the last instruction. -/
theorem Insn.exists_leavesTo (last : Insn) : ∃ t, ∀ g ∈ last.leavesTo, g = t ∨ g = last.next := by
  have goals : ∃ t, ∀ g ∈ last.goals, g = t ∨ g = last.next := by
    obtain ⟨pc, op⟩ := last
    cases op with
    | b target | bl target => exact ⟨target, fun g hg => .inl (List.mem_singleton.1 hg)⟩
    | bc cond target =>
      exact ⟨target, fun g hg => (List.mem_cons.1 hg).imp_right List.mem_singleton.1⟩
    | _ => exact ⟨0, fun g hg => absurd hg List.not_mem_nil⟩
  unfold leavesTo
  split
  · exact goals
  · exact ⟨0, fun g hg => .inr (List.mem_singleton.1 hg)⟩

end BasicBlock

theorem exists_of_mem_mapM {α β : Type} {f : α → Except Fault β} {xs : List α} {ys : List β}
    (h : xs.mapM f = .ok ys) {y : β} (hy : y ∈ ys) : ∃ x ∈ xs, f x = .ok y := by
  induction xs generalizing ys with
  | nil =>
    cases h
    cases hy
  | cons x xs ih =>
    rw [List.mapM_cons] at h
    obtain ⟨first, hfirst, h⟩ := bind_eq_ok.1 h
    obtain ⟨rest, hrest, h⟩ := bind_eq_ok.1 h
    cases h
    obtain rfl | hy := List.mem_cons.1 hy
    · exact ⟨x, List.mem_cons_self, hfirst⟩
    · obtain ⟨x', hx', found⟩ := ih hrest hy
      exact ⟨x', List.mem_cons_of_mem _ hx', found⟩

theorem size_le_stepsSize {s : PlanStep} {steps : List PlanStep} (h : s ∈ steps) :
    s.size ≤ stepsSize steps := by
  induction steps with
  | nil => cases h
  | cons t steps ih =>
    rw [stepsSize_cons]
    obtain rfl | h := List.mem_cons.1 h
    · omega
    · have := ih h
      omega

namespace Engine

variable {e : Engine} {pc : UInt32} {insns : List Insn} {last : Insn} {p : Plan}

/-- The parts of a plan: one for each instruction, and the way out of a block that none of them
ends. -/
theorem parts_of_plan (h : e.plan pc insns = .ok p) : ∃ last parts tail,
    (basicBlock insns).getLast? = some last ∧
    (basicBlock insns).mapM e.planInsn = .ok parts ∧
    (if last.op.isTerminal then pure [] else e.planExit last.next) = .ok tail ∧
    p.steps = parts.flatten ++ tail ∧ p.stop = last.pc.toNat + 4 := by
  simp only [plan] at h
  split at h
  · cases h
  · next last hlast =>
    obtain ⟨parts, hparts, h⟩ := bind_eq_ok.1 h
    split at h
    · next terminal =>
      cases h
      exact ⟨last, parts, [], hlast, hparts, if_pos terminal, rfl, rfl⟩
    · next inner =>
      obtain ⟨tail, htail, h⟩ := bind_eq_ok.1 h
      cases h
      exact ⟨last, parts, tail, hlast, hparts, (if_neg inner).trans htail, rfl, rfl⟩

/-- A plan ends behind the last instruction of its block. -/
theorem exists_last_of_plan (h : e.plan pc insns = .ok p) :
    ∃ last, (basicBlock insns).getLast? = some last ∧ p.stop = last.pc.toNat + 4 := by
  obtain ⟨last, -, -, hlast, -, -, -, stop⟩ := parts_of_plan h
  exact ⟨last, hlast, stop⟩

/-- All steps of a plan come from the table, and its exits lead to where the last instruction goes
on. -/
theorem drawn_of_plan (h : e.plan pc insns = .ok p)
    (hlast : (basicBlock insns).getLast? = some last) :
    ∀ s ∈ p.steps, s.Drawn e.registry last.leavesTo := by
  obtain ⟨_, parts, tail, hlast', hparts, htail, steps, -⟩ := parts_of_plan h
  obtain rfl := Option.some.inj (hlast.symm.trans hlast')
  rw [steps]
  refine List.forall_mem_append.2 ⟨fun s hs => ?_, ?_⟩
  · obtain ⟨part, hpart, hs⟩ := List.mem_flatten.1 hs
    obtain ⟨i, hi, planned⟩ := exists_of_mem_mapM hparts hpart
    exact ((sourced_planInsn planned).drawn s hs).mono (Insn.goals_subset_leavesTo hlast hi)
  · split at htail
    · cases htail
      nofun
    · next inner =>
      refine (sourced_planExit ?_ htail).drawn
      rw [Insn.leavesTo, if_neg inner]
      exact List.mem_singleton_self _

/-- Over a table without empty templates no step is empty. -/
theorem size_pos_of_drawn (full : ∀ {key t}, e.registry.lookup key = some t → 0 < t.size)
    {goals : List UInt32} {t : Template} {values : List SlotValue}
    (h : PlanStep.Drawn e.registry goals (.place t values)) : 0 < t.size := by
  cases h with
  | inner found => exact full found
  | exit found => exact full found

/-- Every instruction takes up at least a byte of code. -/
theorem length_le_of_mapM (full : ∀ {key t}, e.registry.lookup key = some t → 0 < t.size)
    {parts : List (List PlanStep)} (h : insns.mapM e.planInsn = .ok parts) :
    insns.length ≤ stepsSize parts.flatten := by
  induction insns generalizing parts with
  | nil => exact Nat.zero_le _
  | cons i insns ih =>
    rw [List.mapM_cons] at h
    obtain ⟨part, planned, h⟩ := bind_eq_ok.1 h
    obtain ⟨rest, hrest, h⟩ := bind_eq_ok.1 h
    cases h
    obtain ⟨⟨t, values, hplace⟩, drawn⟩ := sourced_planInsn planned
    have positive := size_pos_of_drawn full (drawn _ hplace)
    have fits : t.size ≤ stepsSize part := size_le_stepsSize hplace
    have := ih hrest
    rw [List.flatten_cons, stepsSize_append, List.length_cons]
    omega

/-- Over a table without empty templates a block has a byte of code or more for each instruction. -/
theorem length_le_size_of_plan (full : ∀ {key t}, e.registry.lookup key = some t → 0 < t.size)
    (h : e.plan pc insns = .ok p) : (basicBlock insns).length ≤ p.size := by
  obtain ⟨-, parts, tail, -, hparts, -, steps, -⟩ := parts_of_plan h
  have := length_le_of_mapM full hparts
  rw [Plan.size, steps, stepsSize_append]
  omega

end Engine

/-- Every template of the table is that of the other one. -/
def Registry.PartOf (r whole : Registry) : Prop :=
  ∀ key t, r.lookup key = some t → whole.lookup key = some t

theorem Registry.PartOf.refl (r : Registry) : r.PartOf r := fun _ _ h => h

/-- A table from which keys have been dropped is part of the whole. -/
theorem Registry.partOf_without (r : Registry) (drop : TemplateKey → Bool) :
    (r.without drop).PartOf r := by
  intro key t found
  simp only [without] at found
  split at found
  · cases found
  · exact found

/-- Where `x` has a result `y` has the same. -/
structure Refines {α : Type} (x y : Except Fault α) : Prop where
  eq_ok : ∀ {a}, x = .ok a → y = .ok a

section Refines

variable {α β : Type} {x y : Except Fault α} {f g : α → Except Fault β}

theorem Refines.refl (x : Except Fault α) : Refines x x := ⟨fun h => h⟩

/-- If the parts fail or agree, so does what is made of them. -/
theorem Refines.bind (h : Refines x y) (step : ∀ a, Refines (f a) (g a)) :
    Refines (x >>= f) (y >>= g) := by
  refine ⟨fun hb => ?_⟩
  obtain ⟨a, ha, hb⟩ := bind_eq_ok.1 hb
  exact bind_eq_ok.2 ⟨a, h.eq_ok ha, (step a).eq_ok hb⟩

theorem Refines.ite {p : Prop} [Decidable p] {x' y' : Except Fault α} (h : Refines x y)
    (h' : Refines x' y') : Refines (if p then x else x') (if p then y else y') := by
  by_cases hp : p
  · rw [if_pos hp, if_pos hp]
    exact h
  · rw [if_neg hp, if_neg hp]
    exact h'

/-- A list of plans fails, or agrees item by item. -/
theorem Refines.mapM (h : ∀ a, Refines (f a) (g a)) (xs : List α) :
    Refines (xs.mapM f) (xs.mapM g) := by
  induction xs with
  | nil => exact .refl _
  | cons a xs ih =>
    rw [List.mapM_cons, List.mapM_cons]
    exact (h a).bind fun _ => ih.bind fun _ => .refl _

end Refines

namespace Engine

/-- The engine with another table. -/
def withRegistry (e : Engine) (r : Registry) : Engine := { e with registry := r }

section PartOf

variable {e : Engine} {r : Registry} (part : r.PartOf e.registry)
include part

theorem refines_get (key : TemplateKey) : Refines (r.get key) (e.registry.get key) :=
  ⟨fun ht => Registry.get_eq_ok.2 (part key _ (Registry.get_eq_ok.1 ht))⟩

/-- With fewer templates a step is the same or cannot be planned. -/
theorem refines_planPlace (key : TemplateKey) (values : List SlotValue) :
    Refines ((e.withRegistry r).planPlace key values) (e.planPlace key values) :=
  (refines_get part key).bind fun _ => .refl _

theorem refines_planStore (f : CpuField) (v : UInt32) :
    Refines ((e.withRegistry r).planStore f v) (e.planStore f v) :=
  .ite (refines_planPlace part ..) (refines_planPlace part ..)

theorem refines_planAluImm (c : OpClass) (dst src : UInt8) (v : UInt32) :
    Refines ((e.withRegistry r).planAluImm c dst src v) (e.planAluImm c dst src v) :=
  (Refines.refl _).bind fun _ => (Refines.refl _).bind fun _ =>
    .ite (refines_planPlace part ..) (refines_planPlace part ..)

theorem refines_planAluReg (c : OpClass) (dst left right : UInt8) :
    Refines ((e.withRegistry r).planAluReg c dst left right) (e.planAluReg c dst left right) :=
  (Refines.refl _).bind fun _ => (Refines.refl _).bind fun _ => (Refines.refl _).bind fun _ =>
    refines_planPlace part ..

theorem refines_planCompare (key : TemplateKey) (field left : UInt8) (right : SlotValue) :
    Refines ((e.withRegistry r).planCompare key field left right)
      (e.planCompare key field left right) :=
  (Refines.refl _).bind fun _ => (Refines.refl _).bind fun _ => (Refines.refl _).bind fun _ =>
    (Refines.refl _).bind fun _ => refines_planPlace part ..

theorem refines_planExit (target : UInt32) :
    Refines ((e.withRegistry r).planExit target) (e.planExit target) :=
  (refines_planStore part ..).bind fun _ => (refines_planPlace part ..).bind fun _ =>
    (refines_planPlace part ..).bind fun _ => .refl _

theorem refines_planLeave (stub : Nat) (next : UInt32) :
    Refines ((e.withRegistry r).planLeave stub next) (e.planLeave stub next) :=
  (refines_planStore part ..).bind fun _ => (refines_planPlace part ..).bind fun _ => .refl _

theorem refines_planIndirect (src : CpuField) :
    Refines ((e.withRegistry r).planIndirect src) (e.planIndirect src) :=
  (refines_planPlace part ..).bind fun _ => (refines_planPlace part ..).bind fun _ =>
    (refines_planPlace part ..).bind fun _ => .refl _

theorem refines_planCall (pc : UInt32) (handler : UInt64) (opcode : UInt32) :
    Refines ((e.withRegistry r).planCall pc handler opcode) (e.planCall pc handler opcode) :=
  (refines_planStore part ..).bind fun _ => (refines_planPlace part ..).bind fun _ => .refl _

/-- With fewer templates an address is reached in the same way, or its template is missed. -/
theorem refines_reachableHost (key : TemplateKey) (addr : UInt32) :
    Refines ((e.withRegistry r).reachableHost key addr) (e.reachableHost key addr) :=
  (refines_get part key).bind fun _ => .refl _

theorem refines_planLoadAbs (rd : UInt8) (addr : UInt32) :
    Refines ((e.withRegistry r).planLoadAbs rd addr) (e.planLoadAbs rd addr) := by
  refine (refines_reachableHost part ..).bind fun host => ?_
  cases host with
  | some host => exact (Refines.refl _).bind fun _ => refines_planPlace part ..
  | none => exact (Refines.refl _).bind fun _ => refines_planPlace part ..

theorem refines_planStoreAbs (rs : UInt8) (addr : UInt32) :
    Refines ((e.withRegistry r).planStoreAbs rs addr) (e.planStoreAbs rs addr) := by
  refine (refines_reachableHost part ..).bind fun host => ?_
  cases host with
  | some host => exact (Refines.refl _).bind fun _ => refines_planPlace part ..
  | none => exact (Refines.refl _).bind fun _ => refines_planPlace part ..

theorem refines_planCond (cond : BranchCond) :
    Refines ((e.withRegistry r).planCond cond) (e.planCond cond) := by
  have test (shape : Shape) (bit : UInt8) :
      Refines (planCond.bitTest (e.withRegistry r) shape bit) (planCond.bitTest e shape bit) :=
    (Refines.refl _).bind fun _ => (Refines.refl _).bind fun _ => refines_planPlace part ..
  cases cond with
  | decCtrNonZero => exact refines_planPlace part ..
  | crSet bit => exact test .crSet bit
  | crClear bit => exact test .crClear bit

/-- With fewer templates an instruction has the same plan or none. -/
theorem refines_planInsn (i : Insn) : Refines ((e.withRegistry r).planInsn i) (e.planInsn i) := by
  obtain ⟨pc, op⟩ := i
  cases op with
  | li => exact (Refines.refl _).bind fun _ => refines_planStore part ..
  | addi =>
    exact .ite ((Refines.refl _).bind fun _ => refines_planStore part ..)
      (refines_planAluImm part ..)
  | add | subf | mullw | and | or | xor => exact refines_planAluReg part ..
  | ori | xori => exact refines_planAluImm part ..
  | lwz =>
    exact .ite (refines_planLoadAbs part ..)
        ((Refines.refl _).bind fun _ => (Refines.refl _).bind fun _ =>
      refines_planPlace part ..)
  | stw =>
    exact .ite (refines_planStoreAbs part ..)
        ((Refines.refl _).bind fun _ => (Refines.refl _).bind fun _ =>
      refines_planPlace part ..)
  | lwzAbs => exact refines_planLoadAbs part ..
  | stwAbs => exact refines_planStoreAbs part ..
  | cmpw | cmplw => exact (Refines.refl _).bind fun _ => refines_planCompare part ..
  | cmpwi | cmplwi => exact refines_planCompare part ..
  | mtctr | mtlr | mfctr | mflr => exact (Refines.refl _).bind fun _ => refines_planPlace part ..
  | call => exact refines_planCall part ..
  | b => exact refines_planExit part ..
  | bl =>
    exact (refines_planStore part ..).bind fun _ => (refines_planExit part ..).bind fun _ => .refl _
  | bc =>
    exact (refines_planCond part _).bind fun _ => (refines_planExit part _).bind fun _ =>
      (refines_planExit part _).bind fun _ => .refl _
  | blr | bctr => exact refines_planIndirect part ..
  | sc => exact refines_planLeave part ..
  | icbi =>
    refine .ite ?_ ?_
    · exact (Refines.refl _).bind fun _ => (refines_planPlace part ..).bind fun _ =>
        (refines_planLeave part ..).bind fun _ => .refl _
    · exact (Refines.refl _).bind fun _ => (Refines.refl _).bind fun _ =>
        (refines_planPlace part ..).bind fun _ => (refines_planLeave part ..).bind fun _ => .refl _

/-- A part of a table plans as the whole, or fails. -/
theorem refines_plan (pc : UInt32) (insns : List Insn) :
    Refines ((e.withRegistry r).plan pc insns) (e.plan pc insns) := by
  cases hlast : (basicBlock insns).getLast? with
  | none =>
    simp only [plan, hlast]
    exact .refl _
  | some last =>
    simp only [plan, hlast]
    exact (Refines.mapM (refines_planInsn part) _).bind fun _ =>
      .ite (.refl _) ((refines_planExit part _).bind fun _ => .refl _)

end PartOf

end Engine
end Dynarec
