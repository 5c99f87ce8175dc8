import Dynarec.Proofs.CodeImage
import Dynarec.Proofs.Conversation
import Dynarec.Proofs.Outline

/-!
Engines that differ in whether they link blocks. They give the same answers whatever they are asked,
and all that ever differs between them are links, what is derived from links, and the jump fields
that links are written to.
-/
namespace Dynarec

/-- Blocks that the call may add need no routines but the given ones, and if it runs a guest it has
all of those. -/
def Call.Provided {σ : Type} (routines : Handlers) : Call σ → Prop
  | .emitBlock _ insns => Covers routines insns
  | .run t handlers _ _ => (∀ source pc n, Covers routines (t.translate source pc n).1) ∧
      ∀ addr, (routines addr).isSome = true → (handlers addr).isSome = true
  | .lookup _ | .invalidateRange .. | .invalidateAll => True

namespace Engine

open Traced

variable {σ : Type} {f e e' c c' : Engine} {routines : Handlers} {src : Nat → List Insn}

section Tracked

variable {log : Array Event} (tracked : Tracked f routines e src)
include tracked

theorem Tracked.emitBlock {pc : UInt32} {insns : List Insn} {id : BlockId}
    (covers : Covers routines insns)
    (done : ((EngineM.emitBlock pc insns).perform e log).1 = (.ok id, e')) :
    Tracked f routines e' (noted src id insns) := by
  have made := tracked.made.emitBlock done
  obtain ⟨fault, -, failed⟩ | ⟨-, id', c, yields, emitted⟩ :=
    tracked.made.resting.yields_emitBlock pc insns
  · cases (failed log).symm.trans done
  · cases (yields log).symm.trans done
    refine ⟨made, ?_, (kin_of_frame emitted.frame).symm.trans tracked.kin⟩
    intro i b hb valid
    by_cases new : i = id
    · rw [new, noted_self]
      exact covers
    · obtain ⟨b₀, hb₀, valid₀, -⟩ := emitted.old hb valid new
      rw [noted_of_ne new]
      exact tracked.equipped hb₀ valid₀

theorem Tracked.refuse {pc : UInt32} {insns : List Insn} {fault : Fault}
    (failed : ((EngineM.emitBlock pc insns).perform e log).1 = (.error fault, e')) :
    Tracked f routines e' src := by
  obtain ⟨fault', -, yields⟩ | ⟨-, id, c, yields, -⟩ :=
    tracked.made.resting.yields_emitBlock pc insns
  · cases (yields log).symm.trans failed
    exact tracked
  · cases (yields log).symm.trans failed

theorem Tracked.invalidateRange {start : UInt32} {stop : Nat} {o : Except Fault Nat}
    (done : ((EngineM.invalidateRange start stop).perform e log).1 = (o, e')) :
    Tracked f routines e' src := by
  have made := tracked.made.invalidateRange start stop log
  obtain ⟨c, yields, removed⟩ := tracked.made.resting.yields_invalidateRange start stop
  cases (yields log).symm.trans done
  rw [yields log] at made
  exact removed.shrunk.tracked made tracked

theorem Tracked.invalidateAll {o : Except Fault Unit}
    (done : (EngineM.invalidateAll.perform e log).1 = (o, e')) : Tracked f routines e' src := by
  have made := tracked.made.invalidateAll log
  obtain ⟨c, yields, emptied⟩ := yields_invalidateAll (e := e)
  cases (yields log).symm.trans done
  rw [yields log] at made
  exact emptied.shrunk.tracked made tracked

end Tracked

/-- Two engines of one kind with the same blocks, made from the same instructions. -/
def Paired (f : Engine) (routines : Handlers) (e c : Engine) : Prop :=
  c.roster = e.roster ∧ ∃ src, Tracked f routines e src ∧ Tracked f routines c src

theorem Paired.symm (h : Paired f routines e c) : Paired f routines c e := by
  obtain ⟨roster, src, tracked, tracked'⟩ := h
  exact ⟨roster.symm, src, tracked', tracked⟩

theorem outline_of_roster (h : c.roster = e.roster) (guest : GuestState) (source : σ)
    (src : Nat → List Insn) :
    Session.outline ⟨c, #[], guest, source⟩ src = Session.outline ⟨e, #[], guest, source⟩ src := by
  rw [Session.outline, Session.outline, h]

section Answers

variable {call : Call σ} {answer answer' : Answer σ}

/-- Paired engines answer alike and stay paired. -/
theorem Paired.answers_eq (h : Paired f routines e c) (provided : call.Provided routines)
    (asked : e.Answers call answer e') (asked' : c.Answers call answer' c') :
    answer = answer' ∧ Paired f routines e' c' := by
  obtain ⟨roster, src, tracked, tracked'⟩ := h
  cases asked with
  | @emitBlock pc insns o e' done =>
    cases asked' with
    | emitBlock done' =>
      have left := tracked.made.resting.roster_emitBlock tracked.kin done
      have right := tracked'.made.resting.roster_emitBlock tracked'.kin done'
      rw [roster, left] at right
      obtain ⟨rfl, same⟩ := Prod.mk.inj right
      refine ⟨rfl, same.symm, ?_⟩
      cases o with
      | ok id => exact ⟨_, tracked.emitBlock provided done, tracked'.emitBlock provided done'⟩
      | error fault => exact ⟨src, tracked.refuse done, tracked'.refuse done'⟩
  | lookup pc =>
    cases asked'
    rw [tracked.made.resting.indexed.lookup_eq_find,
      tracked'.made.resting.indexed.lookup_eq_find, roster]
    exact ⟨rfl, roster, src, tracked, tracked'⟩
  | invalidateRange done =>
    cases asked' with
    | invalidateRange done' =>
      obtain ⟨rfl, left⟩ := tracked.made.resting.roster_invalidateRange done
      obtain ⟨rfl, right⟩ := tracked'.made.resting.roster_invalidateRange done'
      rw [roster, ← left] at right
      rw [roster]
      exact ⟨rfl, right, src, tracked.invalidateRange done, tracked'.invalidateRange done'⟩
  | invalidateAll done =>
    cases asked' with
    | invalidateAll done' =>
      obtain ⟨rfl, left⟩ := tracked.made.resting.roster_invalidateAll done
      obtain ⟨rfl, right⟩ := tracked'.made.resting.roster_invalidateAll done'
      rw [roster, ← left] at right
      exact ⟨rfl, right, src, tracked.invalidateAll done, tracked'.invalidateAll done'⟩
  | @run t handlers guest source fuel result s ran returns =>
    cases asked' with
    | @run _ _ _ _ fuel' result' s' ran' returns' =>
      obtain ⟨src₁, tracked₁, ends⟩ := Session.ends_of_run provided.1 provided.2 tracked ran returns
      obtain ⟨src₂, tracked₂, ends'⟩ :=
        Session.ends_of_run provided.1 provided.2 tracked' ran' returns'
      rw [outline_of_roster roster] at ends'
      obtain ⟨rfl, same⟩ := ends.unique ends'
      obtain ⟨roster', sources, guest', source'⟩ := Outline.mk.inj same
      rw [guest', source']
      exact ⟨rfl, roster'.symm, src₁, tracked₁, sources ▸ tracked₂⟩

/-- If one of two paired engines answers then so does the other. -/
theorem Paired.exists_answer (h : Paired f routines e c) (provided : call.Provided routines)
    (asked : e.Answers call answer e') : ∃ answer' c', c.Answers call answer' c' := by
  cases asked with
  | emitBlock => exact ⟨_, _, .emitBlock rfl⟩
  | lookup pc => exact ⟨_, _, .lookup pc⟩
  | invalidateRange => exact ⟨_, _, .invalidateRange rfl⟩
  | invalidateAll => exact ⟨_, _, .invalidateAll rfl⟩
  | @run t handlers guest source fuel result s ran returns =>
    obtain ⟨roster, src, tracked, tracked'⟩ := h
    obtain ⟨src₁, -, ends⟩ := Session.ends_of_run provided.1 provided.2 tracked ran returns
    rw [outline_of_roster roster.symm] at ends
    obtain ⟨s', src', enough, -, -, ran'⟩ :=
      Session.lands_of_ends (s := ⟨c, #[], guest, source⟩) provided.1 provided.2 tracked' ends
    exact ⟨_, _, .run (ran' enough (Nat.le_refl _)) returns⟩

end Answers

section Converses

variable {calls : List (Call σ)} {answers answers' : List (Answer σ)}

theorem Converses.reaches {e₀ : Engine} (talk : e.Converses calls answers e') (h : e₀.Reaches e) :
    e₀.Reaches e' := by
  induction talk with
  | nil => exact h
  | cons first _ ih =>
    refine ih ?_
    cases first with
    | @emitBlock pc insns o e' done =>
      have reached := h.emitBlock pc insns #[]
      rwa [done] at reached
    | lookup => exact h
    | @invalidateRange start stop o e' done =>
      have reached := h.invalidateRange start stop #[]
      rwa [done] at reached
    | invalidateAll done =>
      have reached := h.invalidateAll #[]
      rwa [done] at reached
    | @run t handlers guest source fuel result s ran =>
      have reached := Reaches.run (s := ⟨_, #[], guest, source⟩) h t handlers fuel
      rwa [ran] at reached

theorem Paired.conversations_eq (h : Paired f routines e c)
    (provided : ∀ call ∈ calls, call.Provided routines) (talk : e.Converses calls answers e')
    (talk' : c.Converses calls answers' c') : answers = answers' ∧ Paired f routines e' c' := by
  induction talk generalizing c answers' with
  | nil =>
    cases talk'
    exact ⟨rfl, h⟩
  | cons first _ ih =>
    cases talk' with
    | cons first' rest' =>
      obtain ⟨rfl, paired⟩ := h.answers_eq (provided _ List.mem_cons_self) first first'
      obtain ⟨rfl, paired'⟩ :=
        ih paired (fun call mem => provided call (List.mem_cons_of_mem _ mem)) rest'
      exact ⟨rfl, paired'⟩

theorem Paired.exists_conversation (h : Paired f routines e c)
    (provided : ∀ call ∈ calls, call.Provided routines) (talk : e.Converses calls answers e') :
    ∃ answers' c', c.Converses calls answers' c' := by
  induction talk generalizing c with
  | nil => exact ⟨[], c, .nil c⟩
  | cons first _ ih =>
    obtain ⟨answer, c₁, first'⟩ := h.exists_answer (provided _ List.mem_cons_self) first
    obtain ⟨-, paired⟩ := h.answers_eq (provided _ List.mem_cons_self) first first'
    obtain ⟨answers, c', rest'⟩ :=
      ih paired fun call mem => provided call (List.mem_cons_of_mem _ mem)
    exact ⟨answer :: answers, c', .cons first' rest'⟩

end Converses

/-- Engine `c` links no blocks and is otherwise as `e` is. -/
structure Twins (e c : Engine) : Prop where
  config : c.config = { e.config with directChaining := false }
  base : c.buffer.base = e.buffer.base
  cursor : c.buffer.cursor = e.buffer.cursor
  /-- The same blocks are stored, in use or not. Only their links and what those make of their
  states differ. -/
  blocks : ∀ id, (c.block? id).map (fun b => (b.body, b.isValid)) = (e.block? id).map fun b =>
    (b.body, b.isValid)
  lookup : ∀ pc, c.lookup pc = e.lookup pc
  counters : { c.stats with chainLinks := 0 } = { e.stats with chainLinks := 0 }
  bytes :
    ∀ n, (∀ id b x, e.block? id = some b → x ∈ b.exits → n < x.site.start ∨ x.site.anchor ≤ n) →
    c.buffer.bytes[n]? = e.buffer.bytes[n]?
  unlinked : ∀ {id b x}, c.block? id = some b → x ∈ b.exits →
    x.linked = none ∧ c.buffer.branchTarget x.site = .ok c.stubs.dispatch

theorem Paired.block (h : Paired f routines e c) (id : BlockId) :
    (c.block? id).map (fun b => (b.body, b.isValid)) = (e.block? id).map fun b =>
      (b.body, b.isValid) := by
  rw [← getElem?_roster, ← getElem?_roster, h.1]

theorem Paired.bytes_eq (h : Paired f routines e c) {n : Nat}
    (outside : ∀ id b x, e.block? id = some b → x ∈ b.exits → n < x.site.start ∨
      x.site.anchor ≤ n) :
    c.buffer.bytes[n]? = e.buffer.bytes[n]? := by
  have cursor : c.buffer.cursor = e.buffer.cursor := congrArg Roster.cursor h.1
  have same := h.block
  obtain ⟨-, src, tracked, tracked'⟩ := h
  by_cases low : n < e.buffer.cursor
  · refine tracked.made.bytes_eq tracked'.made (tracked.kin.trans tracked'.kin.symm) ?_ low outside
    intro id b hb
    have stored := same id
    rw [hb] at stored
    obtain ⟨b', hb', shared⟩ := Option.map_eq_some_iff.1 stored
    exact ⟨rfl, b', hb', (Prod.mk.inj shared).1⟩
  · have high : c.buffer.cursor ≤ n := cursor ▸ Nat.le_of_not_lt low
    rw [Array.getElem?_eq_none high, Array.getElem?_eq_none (Nat.le_of_not_lt low)]

theorem Paired.twins (h : Paired f routines e c) (off : c.config.directChaining = false) :
    e.Twins c := by
  have bytes := fun n => @Paired.bytes_eq _ _ _ _ h n
  have blocks := h.block
  obtain ⟨roster, src, tracked, tracked'⟩ := h
  have kin : c.Kin e := tracked.kin.trans tracked'.kin.symm
  have resting := tracked'.made.resting
  refine ⟨?_, kin.base, congrArg Roster.cursor roster, blocks, fun pc => ?_,
    congrArg Roster.counts roster, bytes, ?_⟩
  · have config : c.unchained.config = c.config := by rw [unchained, ← off]
    exact config.symm.trans kin.config
  · rw [tracked.made.resting.indexed.lookup_eq_find, resting.indexed.lookup_eq_find, roster]
  · intro id b x hb hx
    obtain ⟨k, hk⟩ := List.mem_iff_getElem?.1 hx
    have none : x.linked = none := resting.graph.postponed ⟨b, hb, hk⟩ off
    exact ⟨none, resting.branchTarget_unlinked hb hk none⟩

/-- Creation does not depend on whether blocks are linked. -/
theorem create_unchained {base : Nat} {registry : Registry} {config : Config}
    (created : create base registry config = .ok e) :
    create base registry { config with directChaining := false } = .ok e.unchained := by
  obtain ⟨b, stubs, b', valid, complete, mapped, written, visible, rfl⟩ := create_eq_ok.1 created
  exact create_eq_ok.2 ⟨b, stubs, b', valid, complete, mapped, written, visible, rfl⟩

theorem paired_unchained {base : Nat} {config : Config}
    (created : create base X86.registry config = .ok e) (routines : Handlers) :
    Paired e routines e e.unchained := by
  have empty {i : BlockId} {b : Block} : e.block? i ≠ some b := by
    obtain ⟨capacity, rfl, -⟩ := create_inv created
    rintro ⟨⟩
  have src : Nat → List Insn := fun _ => []
  exact ⟨rfl, src, ⟨.create src created, fun _ _ hb _ => absurd hb empty, rfl⟩,
    ⟨.create src (create_unchained created), fun _ _ hb _ => absurd hb empty, rfl⟩⟩

/-- An engine that links blocks and one that does not, over the same buffer, give the same answers
to any calls, and behind them differ in links and in the jump fields of exits only. Without links
those lead to the dispatch stub. -/
theorem chaining_changes_only_jump_fields {base : Nat} {config : Config}
    (created : create base X86.registry config = .ok e) :
    ∃ c, create base X86.registry { config with directChaining := false } = .ok c ∧
      ∀ {σ : Type} {routines : Handlers} {calls : List (Call σ)},
      (∀ call ∈ calls, call.Provided routines) →
        ((∃ answers e', e.Converses calls answers e') ↔
          ∃ answers c', c.Converses calls answers c') ∧
        ∀ {answers answers' e' c'}, e.Converses calls answers e' → c.Converses calls answers' c' →
          answers = answers' ∧ e'.Twins c' := by
  refine ⟨e.unchained, create_unchained created, ?_⟩
  intro σ routines calls provided
  have paired := paired_unchained created routines
  have made : e.unchained.Made fun _ => [] := .create _ (create_unchained created)
  refine ⟨⟨?_, ?_⟩, ?_⟩
  · rintro ⟨answers, e', talk⟩
    exact paired.exists_conversation provided talk
  · rintro ⟨answers, c', talk⟩
    exact paired.symm.exists_conversation provided talk
  · intro answers answers' e' c' talk talk'
    obtain ⟨same, paired'⟩ := paired.conversations_eq provided talk talk'
    obtain ⟨src', -, continues⟩ := (talk'.reaches .refl).later made
    refine ⟨same, paired'.twins ?_⟩
    rw [config_of_frame continues.frame]
    rfl

/-- The source that has the loop. -/
def loopTranslator : Translator Unit := ⟨fun source pc n => (Session.loopProgram pc n, source)⟩

/-- Two turns of the loop, and then a system call. -/
def loopCall : Call Unit :=
  .run loopTranslator notingHandlers { cpu := { ctr := 2, pc := 0x100 } } ()

/-- Block by block the loop ends with the system call, and its block has stayed in use. -/
theorem loop_ends (src : Nat → List Insn) :
    ∃ o q, Outline.Ends onePage loopTranslator notingHandlers
      (none, ⟨onePage.roster, src, { cpu := { ctr := 2, pc := 0x100 } }, ()⟩)
        (.finished .systemCall) o ∧
    o.roster.blocks[0]? = some (q, true) ∧ q.entry = 0x100 ∧
    q.exits.map (·.target) = [0x100, 0x10c] := by
  obtain ⟨r, q, emit, found, absent, stays, kept⟩ : ∃ r q,
      onePage.roster.emit onePage 0x100 countdown = (.ok ⟨0⟩, r) ∧ r.find 0x100 = some ⟨0⟩ ∧
      r.find 0x10c = none ∧ (r.emit onePage 0x10c [⟨0x10c, .sc⟩]).2.blocks[0]? = some (q, true) ∧
      q.entry = 0x100 ∧ q.exits.map (·.target) = [0x100, 0x10c] :=
    ⟨_, _, rfl, rfl, rfl, rfl, rfl, rfl⟩
  obtain ⟨id, r', emit'⟩ : ∃ id r', r.emit onePage 0x10c [⟨0x10c, .sc⟩] = (.ok id, r') :=
    ⟨_, _, rfl⟩
  obtain ⟨g₁, g₂, g₃, first, second, third, quiet₁, pc₁, quiet₂, pc₂⟩ : ∃ g₁ g₂ g₃,
      Platform.runBlock ⟨onePage.config, notingHandlers⟩
        { cpu := { ctr := 2, pc := 0x100 } } countdown = some (g₁, .exit 0) ∧
      Platform.runBlock ⟨onePage.config, notingHandlers⟩ g₁ countdown = some (g₂, .exit 1) ∧
      Platform.runBlock ⟨onePage.config, notingHandlers⟩ g₂ [⟨0x10c, .sc⟩] = some (g₃, .syscall) ∧
      g₁.events.check = false ∧ g₁.cpu.pc = 0x100 ∧ g₂.events.check = false ∧ g₂.cpu.pc = 0x10c :=
    ⟨_, _, _, rfl, rfl, rfl, rfl, rfl, rfl, rfl⟩
  have resolve₀ : Outline.resolve onePage loopTranslator ⟨onePage.roster, src,
      { cpu := { ctr := 2, pc := 0x100 } }, ()⟩ =
      (.ok ⟨0⟩, ⟨r, noted src ⟨0⟩ countdown, { cpu := { ctr := 2, pc := 0x100 } }, ()⟩) := by
    have new : onePage.roster.find 0x100 = none := rfl
    simp only [Outline.resolve, new, loopTranslator, Session.loopProgram, if_true, emit]
  have resolve₁ : Outline.resolve onePage loopTranslator ⟨r, noted src ⟨0⟩ countdown, g₁, ()⟩ =
      (.ok ⟨0⟩, ⟨r, noted src ⟨0⟩ countdown, g₁, ()⟩) := by simp only [Outline.resolve, pc₁, found]
  have resolve₂ : Outline.resolve onePage loopTranslator ⟨r, noted src ⟨0⟩ countdown, g₂, ()⟩ =
      (.ok id, ⟨r', noted (noted src ⟨0⟩ countdown) id [⟨0x10c, .sc⟩], g₂, ()⟩) := by
    have program : Session.loopProgram 0x10c onePage.config.maxBlockInsns = [⟨0x10c, .sc⟩] := rfl
    simp only [Outline.resolve, pc₂, absent, loopTranslator, program, emit']
  have made : noted (noted src ⟨0⟩ countdown) id [⟨0x10c, .sc⟩] id.index = [⟨0x10c, .sc⟩] :=
    noted_self
  rw [← made] at third
  refine ⟨⟨r', noted (noted src ⟨0⟩ countdown) id [⟨0x10c, .sc⟩], g₃, ()⟩, q, ?_, ?_, kept⟩
  · refine .step ?_
    rw [Outline.step_resolved rfl resolve₀ first]
    refine .step ?_
    rw [Outline.step_resolved quiet₁ resolve₁ second]
    refine .step ?_
    rw [Outline.step_resolved quiet₂ resolve₂ third]
    exact .done ..
  · rw [emit'] at stays
    exact stays

theorem loop_runs_alike : ∃ (e c e' c' : Engine) (guest : GuestState) (x : ExitSlot),
    create 4096 X86.registry { codeBufferSize := 4096 } = .ok e ∧
    create 4096 X86.registry { codeBufferSize := 4096, directChaining := false } = .ok c ∧
    loopCall.Provided notingHandlers ∧
    e.Converses [loopCall] [.ended (.finished .systemCall) guest ()] e' ∧
    c.Converses [loopCall] [.ended (.finished .systemCall) guest ()] c' ∧ e'.Twins c' ∧
    e'.HasExit ⟨0⟩ 0 x ∧ x.linked = some ⟨0⟩ := by
  have created : create 4096 X86.registry { codeBufferSize := 4096 } = .ok onePage := rfl
  obtain ⟨c, created', agree⟩ := chaining_changes_only_jump_fields created
  have provided : loopCall.Provided notingHandlers := ⟨fun _ _ _ _ _ _ _ _ => rfl, fun _ _ => rfl⟩
  obtain ⟨both, same⟩ := @agree Unit notingHandlers [loopCall] fun call mem =>
    List.mem_singleton.1 mem ▸ provided
  obtain ⟨-, src, tracked, -⟩ := paired_unchained created notingHandlers
  obtain ⟨o, q, ends, stays, entry, targets⟩ := loop_ends src
  obtain ⟨s, src', enough, tracked', rfl, ran⟩ := Session.lands_of_ends
    (s := ⟨onePage, #[], { cpu := { ctr := 2, pc := 0x100 } }, ()⟩) provided.1
      provided.2 tracked ends
  have returns : RunResult.finished .systemCall ≠ .outOfFuel := by rintro ⟨⟩
  have talk : onePage.Converses [loopCall] [.ended (.finished .systemCall) s.guest ()] s.engine :=
    .cons (.run (ran enough (Nat.le_refl _)) returns) (.nil _)
  obtain ⟨answers, c', talk'⟩ := both.1 ⟨_, _, talk⟩
  obtain ⟨rfl, twins⟩ := same talk talk'
  -- In the engine that links blocks the loop leads into itself.
  have resting := tracked'.made.resting
  obtain ⟨b, hb, stored⟩ := Option.map_eq_some_iff.1 ((getElem?_roster s.engine 0).symm.trans stays)
  obtain ⟨rfl, valid⟩ := Prod.mk.inj stored
  have target : (b.body.exits.map (·.target))[0]? = some 0x100 := by rw [targets]; rfl
  rw [Block.body, List.map_map, List.getElem?_map] at target
  obtain ⟨x, hx, target⟩ := Option.map_eq_some_iff.1 target
  have exit : s.engine.HasExit ⟨0⟩ 0 x := ⟨b, hb, valid, hx⟩
  obtain ⟨_, -, continues⟩ := (talk.reaches .refl).later tracked.made
  have on : ¬ s.engine.config.directChaining = false := by
    rw [config_of_frame continues.frame]
    exact fun off => Bool.false_ne_true off.symm
  refine ⟨onePage, c, s.engine, c', s.guest, x, created, created', provided, talk, talk',
    twins, exit, ?_⟩
  rw [resting.graph.linked exit on]
  exact resting.indexed.index.2 ⟨b, hb, valid, entry.trans target.symm⟩

end Engine
end Dynarec
