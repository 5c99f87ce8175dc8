import Dynarec.Proofs.Outcome

/-!
What operations do not look at. Only planning reads the table of templates, and the counters are
added to and never read. So an operation over an engine with another table or other counters does
what it did, and the change is still there behind it.
-/
namespace Dynarec

open Traced

variable {α β : Type}

/-- The counters with those of `d` added. -/
def Stats.plus (s d : Stats) : Stats where
  blocksTranslated := s.blocksTranslated + d.blocksTranslated
  insnsTranslated := s.insnsTranslated + d.insnsTranslated
  flushes := s.flushes + d.flushes
  chainLinks := s.chainLinks + d.chainLinks
  invalidatedBlocks := s.invalidatedBlocks + d.invalidatedBlocks

theorem Stats.plus_right_comm (s d d' : Stats) : (s.plus d).plus d' = (s.plus d').plus d := by
  simp only [Stats.plus, Nat.add_right_comm]

/-- The engine with another table and other counters. -/
def Engine.recast (ρ : Registry → Registry) (τ : Stats → Stats) (e : Engine) : Engine :=
  { e with registry := ρ e.registry, stats := τ e.stats }

/-- The result of an operation, with a change to the engine behind it. -/
def carried (φ : Engine → Engine) :
    (Except Fault α × Engine) × Array Event → (Except Fault α × Engine) × Array Event
  | ((outcome, e), log) => ((outcome, φ e), log)

/-- A change before the operation is the change behind it. -/
structure Indifferent (φ : Engine → Engine) (x : EngineM α) : Prop where
  perform : ∀ e log, x.perform (φ e) log = carried φ (x.perform e log)

section Indifferent

variable {φ : Engine → Engine} {x : EngineM α} {f : α → EngineM β}

theorem indifferent_pure (a : α) : Indifferent φ (pure a) := ⟨fun _ _ => rfl⟩

theorem indifferent_report (event : Event) : Indifferent φ (report event) := ⟨fun _ _ => rfl⟩

/-- A computation that does not look at the engine cannot depend on it. -/
theorem indifferent_lift (y : Except Fault α) : Indifferent φ (liftM y : EngineM α) := by
  refine ⟨fun e log => ?_⟩
  cases y <;> rfl

/-- One change of the engine is indifferent to another if the two commute. -/
theorem indifferent_modify {g : Engine → Engine} (h : ∀ e, g (φ e) = φ (g e)) :
    Indifferent φ (modify g : EngineM PUnit) := by
  refine ⟨fun e log => ?_⟩
  have result (e : Engine) : (modify g : EngineM PUnit).perform e log = ((.ok ⟨⟩, g e), log) := rfl
  rw [result, result, h]
  rfl

/-- What is done one after the other is indifferent if its parts are. -/
theorem Indifferent.bind (hx : Indifferent φ x) (hf : ∀ a, Indifferent φ (f a)) :
    Indifferent φ (x >>= f) := by
  refine ⟨fun e log => ?_⟩
  rw [perform_bind, perform_bind, hx.perform]
  generalize x.perform e log = result
  obtain ⟨⟨outcome, e'⟩, log'⟩ := result
  cases outcome with
  | ok a => exact (hf a).perform e' log'
  | error fault => rfl

/-- What is read from the engine must be the same behind the change. -/
theorem indifferent_get {g : Engine → EngineM β} (same : ∀ e, g (φ e) = g e)
    (h : ∀ e, Indifferent φ (g e)) : Indifferent φ (get >>= g) := by
  refine ⟨fun e log => ?_⟩
  have result (e : Engine) : (get >>= g).perform e log = (g e).perform e log := rfl
  rw [result, result, same]
  exact (h e).perform e log

theorem indifferent_forM {xs : List α} {g : α → EngineM PUnit} (h : ∀ a, Indifferent φ (g a)) :
    Indifferent φ (xs.forM g) := by
  induction xs with
  | nil => exact indifferent_pure _
  | cons a xs ih => exact (h a).bind fun _ => ih

theorem indifferent_ite {p : Prop} [Decidable p] {y : EngineM α} (hx : Indifferent φ x)
    (hy : Indifferent φ y) : Indifferent φ (if p then x else y) := by
  by_cases hp : p
  · rw [if_pos hp]
    exact hx
  · rw [if_neg hp]
    exact hy

/-- Such an operation has the same outcome before and behind the change. -/
theorem Indifferent.outcome (h : Indifferent φ x) {e c : Engine} {log : Array Event}
    {o : Except Fault α} :
    (x.perform (φ e) log).1 = (o, c) ↔ ∃ e', (x.perform e log).1 = (o, e') ∧ c = φ e' := by
  rw [h.perform]
  obtain ⟨⟨o', e'⟩, log'⟩ := x.perform e log
  constructor
  · rintro ⟨⟩
    exact ⟨e', rfl, rfl⟩
  · rintro ⟨_, ⟨⟩, rfl⟩
    rfl

/-- Counters that a change leaves as they are stay so in an operation that goes along with the
change. -/
theorem Indifferent.stats_fixed {τ : Stats → Stats} (h : Indifferent (Engine.recast id τ) x)
    {e c : Engine} {log : Array Event} {o : Except Fault α} (fixed : τ e.stats = e.stats)
    (done : (x.perform e log).1 = (o, c)) : τ c.stats = c.stats := by
  have same : Engine.recast id τ e = e := by simp only [Engine.recast, fixed, id]
  obtain ⟨e', done', changed⟩ := h.outcome.1 (same.symm ▸ done)
  cases done.symm.trans done'
  exact (congrArg Engine.stats changed).symm

end Indifferent

namespace EngineM

variable {ρ : Registry → Registry} {τ : Stats → Stats}

/-- What is done to the code buffer is indifferent to the table and to the counters. -/
theorem indifferent_onBuffer (y : Traced CodeBuffer α) :
    Indifferent (Engine.recast ρ τ) (onBuffer y) :=
  ⟨fun _ _ => rfl⟩

theorem indifferent_getBlock (id : BlockId) : Indifferent (Engine.recast ρ τ) (getBlock id) :=
  indifferent_get (fun _ => rfl) fun _ => indifferent_lift _

theorem indifferent_modifyBlock (id : BlockId) (f : Block → Block) :
    Indifferent (Engine.recast ρ τ) (modifyBlock id f) := indifferent_modify fun _ => rfl

theorem indifferent_modifyChains (f : ChainTable → ChainTable) :
    Indifferent (Engine.recast ρ τ) (modifyChains f) := indifferent_modify fun _ => rfl

/-- Counting is indifferent to a change of the counters that goes along with it. -/
theorem indifferent_modifyStats {f : Stats → Stats} (h : ∀ s, f (τ s) = τ (f s)) :
    Indifferent (Engine.recast ρ τ) (modifyStats f) := by
  refine indifferent_modify fun e => ?_
  simp only [Engine.recast, h]

theorem indifferent_unlink (src : BlockId) (k : Nat) :
    Indifferent (Engine.recast ρ τ) (unlink src k) :=
  (indifferent_getBlock src).bind fun _ => (indifferent_lift _).bind fun _ =>
    indifferent_get (fun _ => rfl) fun _ => (indifferent_onBuffer _).bind fun _ =>
      (indifferent_modifyBlock ..).bind fun _ => indifferent_report _

/-- Cutting a block off counts nothing, so it is indifferent to any change of the counters. -/
theorem indifferent_detach (id : BlockId) : Indifferent (Engine.recast ρ τ) (detach id) := by
  refine indifferent_get (fun _ => rfl) fun e => (indifferent_lift _).bind fun cache => ?_
  refine Indifferent.bind (indifferent_modify fun _ => rfl) fun _ =>
    (indifferent_getBlock id).bind fun b => ?_
  refine (indifferent_modifyBlock ..).bind fun _ => (indifferent_forM fun p => ?_).bind fun _ =>
    (indifferent_forM fun p => ?_).bind fun _ => indifferent_modifyChains _
  · refine (indifferent_getBlock _).bind fun s =>
      indifferent_ite ((indifferent_unlink ..).bind fun _ => ?_) (indifferent_pure _)
    exact indifferent_get (fun _ => rfl) fun e =>
      indifferent_ite (indifferent_modifyChains _) (indifferent_pure _)
  · obtain ⟨exit, k⟩ := p
    dsimp only
    cases exit.linked with
    | some dst => exact indifferent_modifyBlock ..
    | none => exact indifferent_pure _

/-- Marking blocks as invalid counts nothing either. -/
theorem indifferent_mark (victims : List BlockId) :
    Indifferent (Engine.recast ρ τ) (victims.forM fun id => do
      let _ ← getBlock id
      modifyBlock id ({ · with state := .invalidated })) :=
  indifferent_forM fun id => (indifferent_getBlock id).bind fun _ => indifferent_modifyBlock ..

theorem indifferent_find (pc : UInt32) : Indifferent (Engine.recast ρ τ) (find pc) :=
  indifferent_get (fun _ => rfl) fun _ => (indifferent_lift _).bind fun _ =>
    Indifferent.bind (indifferent_modify fun _ => rfl) fun _ => indifferent_pure _

theorem indifferent_entryOf (id : BlockId) : Indifferent (Engine.recast ρ τ) (entryOf id) :=
  indifferent_get (fun _ => rfl) fun _ => (indifferent_getBlock id).bind fun _ => indifferent_lift _

section Linking

-- Linking counts links, so the change to the counters has to go along with that.
variable (linked : ∀ s : Stats, (τ s).plus { chainLinks := 1 } = τ (s.plus { chainLinks := 1 }))
include linked

/-- Linking is indifferent to changes that go along with one more link. -/
theorem indifferent_link (src : BlockId) (k : Nat) (dst : BlockId) :
    Indifferent (Engine.recast ρ τ) (link src k dst) := by
  refine (indifferent_getBlock dst).bind fun b => (indifferent_getBlock src).bind fun _ =>
    (indifferent_lift _).bind fun exit => indifferent_ite (indifferent_pure _) ?_
  have rest : Indifferent (Engine.recast ρ τ) (do
      onBuffer (CodeBuffer.redirect exit.site b.hostOffset)
      modifyBlock src fun b => (b.setLink k (some dst)).refresh
      modifyBlock dst (·.addIncoming src k)
      modifyStats fun s => { s with chainLinks := s.chainLinks + 1 }
      report (.chained src k dst)) :=
    (indifferent_onBuffer _).bind fun _ => (indifferent_modifyBlock ..).bind fun _ =>
      (indifferent_modifyBlock ..).bind fun _ => (indifferent_modifyStats linked).bind fun _ =>
        indifferent_report _
  cases exit.linked with
  | some old => exact (indifferent_modifyBlock ..).bind fun _ => rest
  | none => exact rest

theorem indifferent_resolvePending (dst : BlockId) :
    Indifferent (Engine.recast ρ τ) (resolvePending dst) := by
  refine indifferent_get (fun _ => rfl) fun e => (indifferent_getBlock dst).bind fun b => ?_
  refine (indifferent_modifyChains _).bind fun _ => indifferent_forM fun w =>
    (indifferent_getBlock _).bind fun b => ?_
  exact indifferent_ite (indifferent_link linked ..) (indifferent_pure _)

theorem indifferent_linkOrWait (src : BlockId) (k : Nat) (target : UInt32) :
    Indifferent (Engine.recast ρ τ) (linkOrWait src k target) := by
  refine indifferent_get (fun _ => rfl) fun e => ?_
  cases e.lookup target with
  | some dst => exact indifferent_link linked ..
  | none => exact indifferent_modifyChains _

/-- A new block is linked to its neighbours whatever the table and the counters are. -/
theorem indifferent_chain (chaining : Bool) (exits : List ExitSlot) (id : BlockId) :
    Indifferent (Engine.recast ρ τ) (do
      if chaining then
        exits.zipIdx.forM fun (exit, k) => linkOrWait id k exit.target
        resolvePending id
      return id) := by
  refine indifferent_ite ?_ (indifferent_pure _)
  exact (indifferent_forM fun p => indifferent_linkOrWait linked ..).bind fun _ =>
    (indifferent_resolvePending linked _).bind fun _ => indifferent_pure _

end Linking

/-- The rest of an emission, when room has been made. -/
def emitRoomy (pc : UInt32) (p : Plan) : EngineM BlockId := do
  let e ← get
  let d ← Draft.ofPlan e e.buffer p
  let id ← publish pc p d
  if e.config.directChaining then
    d.exits.zipIdx.forM fun (exit, k) => linkOrWait id k exit.target
    resolvePending id
  return id

/-- The rest of an emission, when the plan is known. -/
def emitPlanned (pc : UInt32) (p : Plan) : EngineM BlockId := do
  makeRoom pc p.size
  emitRoomy pc p

/-- An emission whose plan is known is what is left of it behind the plan. -/
theorem perform_emitBlock {e : Engine} {pc : UInt32} {insns : List Insn} {p : Plan}
    (planned : e.plan pc insns = .ok p) (log : Array Event) :
    (emitBlock pc insns).perform e log = (emitPlanned pc p).perform e log := by
  have unfolded : (emitBlock pc insns).perform e log =
      (liftM (e.plan pc insns) >>= emitPlanned pc : EngineM BlockId).perform e log := rfl
  rw [unfolded, planned]
  rfl

section Counting

-- The change goes along with all counting.
variable (counting : ∀ s d : Stats, (τ s).plus d = τ (s.plus d))
include counting

/-- Taking blocks out of use counts them, which goes along with the change. -/
theorem indifferent_invalidateBlocks (victims : List BlockId) :
    Indifferent (Engine.recast ρ τ) (invalidateBlocks victims) :=
  (indifferent_mark victims).bind fun _ => (indifferent_forM indifferent_detach).bind fun _ =>
    indifferent_modifyStats fun s => counting s { invalidatedBlocks := victims.length }

theorem indifferent_invalidateRange (start : UInt32) (stop : Nat) :
    Indifferent (Engine.recast ρ τ) (invalidateRange start stop) :=
  indifferent_get (fun _ => rfl) fun _ => (indifferent_invalidateBlocks counting _).bind fun _ =>
    indifferent_ite (indifferent_pure _) ((indifferent_report _).bind fun _ => indifferent_pure _)

theorem indifferent_flush (reason : FlushReason) :
    Indifferent (Engine.recast ρ τ) (flush reason) := by
  refine indifferent_get (fun _ => rfl) fun _ =>
    Indifferent.bind (indifferent_modify fun e => ?_) fun _ => indifferent_report _
  have counted : { τ e.stats with flushes := (τ e.stats).flushes + 1 } =
    τ { e.stats with flushes := e.stats.flushes + 1 } := counting e.stats { flushes := 1 }
  simp only [Engine.recast, counted]

/-- Making room counts a flush or the block that makes way, which goes along with the change. -/
theorem indifferent_makeRoom (pc : UInt32) (size : Nat) :
    Indifferent (Engine.recast ρ τ) (makeRoom pc size) := by
  refine indifferent_get (fun _ => rfl) fun e => (indifferent_lift _).bind fun reserved => ?_
  obtain ⟨outcome, buffer⟩ := reserved
  refine Indifferent.bind (indifferent_modify fun _ => rfl) fun _ => ?_
  cases outcome with
  | flushed => exact (indifferent_report _).bind fun _ => indifferent_flush counting _
  | ready =>
    refine indifferent_get (fun _ => rfl) fun e => ?_
    cases e.lookup pc with
    | some old => exact indifferent_invalidateBlocks counting _
    | none => exact indifferent_pure _

/-- Publishing counts a block and its instructions, which goes along with the change. -/
theorem indifferent_publish (pc : UInt32) (p : Plan) (d : Draft) :
    Indifferent (Engine.recast ρ τ) (publish pc p d) :=
  indifferent_get (fun _ => rfl) fun _ => (indifferent_lift _).bind fun _ =>
    indifferent_get (fun _ => rfl) fun _ =>
    (indifferent_lift _).bind fun _ => Indifferent.bind (indifferent_modify fun _ => rfl) fun _ =>
      (indifferent_modifyStats fun s =>
        counting s { blocksTranslated := 1, insnsTranslated := p.icount }).bind
        fun _ => (indifferent_report _).bind fun _ => indifferent_pure _

/-- All of an emission behind its plan is indifferent to the table. -/
theorem indifferent_emitPlanned (pc : UInt32) (p : Plan) :
    Indifferent (Engine.recast ρ τ) (emitPlanned pc p) := by
  refine (indifferent_makeRoom counting ..).bind fun _ => indifferent_get (fun _ => rfl) fun e =>
    (indifferent_lift _).bind fun d => (indifferent_publish counting ..).bind fun id => ?_
  exact indifferent_chain (fun s => counting s _) e.config.directChaining d.exits id

/-- Without a change to the table all of an emission goes along. -/
theorem indifferent_emitBlock (pc : UInt32) (insns : List Insn) :
    Indifferent (Engine.recast id τ) (emitBlock pc insns) :=
  indifferent_get (fun _ => rfl) fun _ => (indifferent_lift _).bind fun p =>
    indifferent_emitPlanned counting pc p

end Counting

end EngineM
end Dynarec
