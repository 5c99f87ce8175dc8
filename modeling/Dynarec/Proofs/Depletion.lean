import Dynarec.Proofs.BlockExecution
import Dynarec.Proofs.History
import Dynarec.Proofs.Indifference
import Dynarec.Proofs.Planning

/-!
Engines whose table loses templates after they have been created. Only planning reads the table, and
a plan over a part of the table is the plan over the whole. So such an engine does what it would do
over the whole table, or fails before it has changed anything.
-/
namespace Dynarec

open Traced

variable {α : Type}

/-- The result of an operation, with another table in the engine behind it. -/
def swapped (r : Registry) :
    (Except Fault α × Engine) × Array Event → (Except Fault α × Engine) × Array Event
  | ((outcome, e), log) => ((outcome, e.withRegistry r), log)

/-- The operation does the same over every table. -/
structure Blind (x : EngineM α) : Prop where
  perform : ∀ r e log, x.perform (e.withRegistry r) log = swapped r (x.perform e log)

theorem blind_of_indifferent {x : EngineM α}
    (h : ∀ r, Indifferent (Engine.recast (fun _ => r) id) x) : Blind x :=
  ⟨fun r e log => (h r).perform e log⟩

namespace EngineM

theorem blind_invalidateRange (start : UInt32) (stop : Nat) : Blind (invalidateRange start stop) :=
  blind_of_indifferent fun _ => indifferent_invalidateRange (fun _ _ => rfl) start stop

theorem blind_flush (reason : FlushReason) : Blind (flush reason) :=
  blind_of_indifferent fun _ => indifferent_flush (fun _ _ => rfl) reason

theorem blind_find (pc : UInt32) : Blind (find pc) :=
  blind_of_indifferent fun _ => indifferent_find pc

/-- With the plan known, the rest of an emission does not read the table. -/
theorem blind_emitPlanned (pc : UInt32) (p : Plan) : Blind (emitPlanned pc p) :=
  blind_of_indifferent fun _ => indifferent_emitPlanned (fun _ _ => rfl) pc p

end EngineM

namespace Engine

variable {e c : Engine} {pc : UInt32} {insns : List Insn}

/-- The engine has a part of the x86-64 table, and with the whole table it would be one that
operations make. -/
structure Backed (e : Engine) : Prop where
  part : e.registry.PartOf X86.registry
  made : ∃ src, (e.withRegistry X86.registry).Made src

theorem Backed.withRegistry (h : e.Backed) {r : Registry} (part : r.PartOf X86.registry) :
    (e.withRegistry r).Backed := ⟨part, h.made⟩

theorem Made.backed {src : Nat → List Insn} (h : e.Made src) {r : Registry}
    (part : r.PartOf X86.registry) : (e.withRegistry r).Backed := by
  have whole : (e.withRegistry r).withRegistry X86.registry = e := by
    show { e with registry := X86.registry } = e
    rw [← h.resting.placed.hosted.registry]
  exact ⟨part, src, whole.symm ▸ h⟩

/-- An operation that does not read the table does what it would do over the whole table. -/
theorem yields_of_blind {x : EngineM α} (blind : Blind x) {o : Except Fault α}
    (h : Yields x (e.withRegistry X86.registry) o c) :
    Yields x e o (c.withRegistry e.registry) := by
  intro log
  have performs :
      x.perform e log = swapped e.registry (x.perform (e.withRegistry X86.registry) log) :=
    blind.perform e.registry (e.withRegistry X86.registry) log
  have outcome := h log
  rw [performs]
  generalize x.perform (e.withRegistry X86.registry) log = result at outcome
  obtain ⟨_, log'⟩ := result
  cases outcome
  rfl

/-- An emission over a part of the table fails with the fault that can be told beforehand, and then
changes nothing; or it succeeds. -/
theorem Backed.emitBlock_cases (h : e.Backed) (pc : UInt32) (insns : List Insn) :
    (∃ fault, e.emissionFault? pc insns = some fault ∧
      Yields (EngineM.emitBlock pc insns) e (.error fault) e) ∨
    (e.emissionFault? pc insns = none ∧ ∃ id c, Yields (EngineM.emitBlock pc insns) e (.ok id) c ∧
      c.Backed) := by
  obtain ⟨src, made⟩ := h.made
  cases planned : e.plan pc insns with
  | error fault =>
    refine .inl ⟨fault, by rw [emissionFault?, planned], yields_get.bind ?_⟩
    rw [planned]
    exact (yields_lift _).bind_error
  | ok p =>
    have planned' : (e.withRegistry X86.registry).plan pc insns = .ok p :=
      (refines_plan (e := e.withRegistry X86.registry) h.part pc insns).eq_ok planned
    have same :
        e.emissionFault? pc insns = (e.withRegistry X86.registry).emissionFault? pc insns := by
      rw [emissionFault?, emissionFault?, planned, planned']
      rfl
    have yields {o : Except Fault BlockId} {c : Engine}
        (whole : Yields (EngineM.emitBlock pc insns) (e.withRegistry X86.registry) o c) :
        Yields (EngineM.emitBlock pc insns) e o (c.withRegistry e.registry) := by
      intro log
      rw [EngineM.perform_emitBlock planned]
      refine yields_of_blind (EngineM.blind_emitPlanned pc p) (fun log => ?_) log
      rw [← EngineM.perform_emitBlock planned']
      exact whole log
    rw [same]
    obtain ⟨fault, failed, whole⟩ | ⟨possible, id, c, whole, -⟩ :=
      made.resting.yields_emitBlock pc insns
    · exact .inl ⟨fault, failed, yields (c := e.withRegistry X86.registry) whole⟩
    · exact .inr ⟨possible, id, _, yields whole, (made.emitBlock (whole #[])).backed h.part⟩

theorem Backed.emitBlock (h : e.Backed) (pc : UInt32) (insns : List Insn) (log : Array Event) :
    ((EngineM.emitBlock pc insns).perform e log).1.2.Backed := by
  obtain ⟨fault, -, yields⟩ | ⟨-, id, c, yields, backed⟩ := h.emitBlock_cases pc insns
  · rw [yields log]
    exact h
  · rw [yields log]
    exact backed

theorem Backed.invalidateRange (h : e.Backed) (start : UInt32) (stop : Nat) (log : Array Event) :
    ((EngineM.invalidateRange start stop).perform e log).1.2.Backed := by
  obtain ⟨src, made⟩ := h.made
  obtain ⟨c, whole, -⟩ := made.resting.yields_invalidateRange start stop
  have made' := made.invalidateRange start stop log
  rw [whole log] at made'
  rw [yields_of_blind (EngineM.blind_invalidateRange start stop) whole log]
  exact made'.backed h.part

theorem Backed.invalidateAll (h : e.Backed) (log : Array Event) :
    (EngineM.invalidateAll.perform e log).1.2.Backed := by
  obtain ⟨src, made⟩ := h.made
  obtain ⟨c, whole, -⟩ := yields_invalidateAll (e := e.withRegistry X86.registry)
  have made' := made.invalidateAll log
  rw [whole log] at made'
  have yields : Yields EngineM.invalidateAll e (.ok ()) (c.withRegistry e.registry) :=
    yields_of_blind (EngineM.blind_flush .explicit) whole
  rw [yields log]
  exact made'.backed h.part

theorem Backed.find (h : e.Backed) (pc : UInt32) (log : Array Event) :
    ((EngineM.find pc).perform e log).1.2.Backed := by
  obtain ⟨src, made⟩ := h.made
  obtain ⟨jumps, whole, -⟩ := made.resting.yields_find pc
  have made' := made.find pc log
  rw [whole log] at made'
  rw [yields_of_blind (EngineM.blind_find pc) whole log]
  exact made'.backed h.part

/-- The engines that operations lead to from a new one over the x86-64 table, when templates may go
missing and come back at any time. -/
inductive Dwindling : Engine → Prop
  | create {base : Nat} {config : Config} {e : Engine}
      (created : create base X86.registry config = .ok e) : Dwindling e
  | table {e : Engine} (h : Dwindling e) {r : Registry} (part : r.PartOf X86.registry) :
      Dwindling (e.withRegistry r)
  | emitBlock {e : Engine} (h : Dwindling e) (pc : UInt32) (insns : List Insn) (log : Array Event) :
      Dwindling ((EngineM.emitBlock pc insns).perform e log).1.2
  | invalidateRange {e : Engine} (h : Dwindling e) (start : UInt32) (stop : Nat)
      (log : Array Event) : Dwindling ((EngineM.invalidateRange start stop).perform e log).1.2
  | invalidateAll {e : Engine} (h : Dwindling e) (log : Array Event) :
      Dwindling (EngineM.invalidateAll.perform e log).1.2
  | run {σ : Type} {s : Session σ} (h : Dwindling s.engine) (t : Translator σ) (handlers : Handlers)
      (fuel : Nat) : Dwindling (s.run t handlers fuel).2.engine

theorem Dwindling.backed (h : e.Dwindling) : e.Backed := by
  induction h with
  | @create base config e created =>
    have made : e.Made fun _ => [] := .create _ created
    have same : e.withRegistry X86.registry = e := by
      show { e with registry := X86.registry } = e
      rw [← made.resting.placed.hosted.registry]
    exact same ▸ made.backed (.refl _)
  | table _ part ih => exact ih.withRegistry part
  | emitBlock _ pc insns log ih => exact ih.emitBlock pc insns log
  | invalidateRange _ start stop log ih => exact ih.invalidateRange start stop log
  | invalidateAll _ log ih => exact ih.invalidateAll log
  | run _ t handlers fuel ih =>
    exact Session.engine_run ⟨Backed.find, Backed.emitBlock, Backed.invalidateRange⟩
      ih handlers fuel

/-- An emission that fails has changed nothing, whatever templates are missing. It fails just when
its instructions cannot be planned or their code could never fit. -/
theorem Dwindling.failed_emission_iff (h : e.Dwindling) (pc : UInt32) (insns : List Insn)
    (log : Array Event) (fault : Fault) (e' : Engine) :
    ((EngineM.emitBlock pc insns).perform e log).1 = (.error fault, e') ↔
      e.emissionFault? pc insns = some fault ∧ e' = e := by
  obtain ⟨fault', failed, yields⟩ | ⟨possible, id, c, yields, -⟩ :=
    h.backed.emitBlock_cases pc insns
  · rw [yields log, failed]
    constructor
    · rintro ⟨⟩
      exact ⟨rfl, rfl⟩
    · rintro ⟨⟨⟩, rfl⟩
      rfl
  · rw [yields log, possible]
    exact ⟨nofun, fun ⟨failed, _⟩ => nomatch failed⟩

/-- The x86-64 table without multiplication. -/
def withoutMultiply : Registry := X86.registry.without (· = ⟨.mullw, .reg⟩)

theorem countdown_outlives_failed_emission : ∃ (e : Engine) (id : BlockId), e.Dwindling ∧
    e.lookup 0x100 = some id ∧
    ((EngineM.emitBlock 0x100 [⟨0x100, .li 3 5⟩, ⟨0x104, .mullw 3 3 3⟩]).perform e #[]).1 =
      (.error (.error (.missingTemplate ⟨.mullw, .reg⟩)), e) := by
  obtain ⟨src, id, e, performed, -, emitted⟩ := exists_countdown
  have created : onePage.Dwindling := by
    have : Engine.create 4096 X86.registry { codeBufferSize := 4096 } = .ok onePage := rfl
    exact .create this
  have dwindling : e.Dwindling := by
    have := created.emitBlock 0x100 countdown #[]
    rwa [performed] at this
  have depleted : (e.withRegistry withoutMultiply).Dwindling :=
    dwindling.table (Registry.partOf_without _ _)
  obtain ⟨b, hb, valid, entry⟩ := emitted.block
  refine ⟨_, id, depleted, ?_, ?_⟩
  · exact (emitted.resting.indexed.lookup 0x100).trans
      (emitted.resting.indexed.index.2 ⟨b, hb, valid, entry⟩)
  · refine (depleted.failed_emission_iff _ _ _ _ _).2 ⟨?_, rfl⟩
    have frame :
        (e.withRegistry withoutMultiply).frame = (onePage.withRegistry withoutMultiply).frame :=
      congrArg (·.withRegistry withoutMultiply) emitted.frame
    rw [emissionFault?, plan_of_frame frame]
    rfl

end Engine
end Dynarec
