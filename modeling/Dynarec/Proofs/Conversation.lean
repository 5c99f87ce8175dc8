import Dynarec.Proofs.Indifference

/-!
Conversations with an engine: calls of its owner and the answers. The counters have no say in them,
so two engines that differ in their counters give the same answers and go on to differ in the same
way.
-/
namespace Dynarec

/-- What the owner of an engine can ask of it. -/
inductive Call (σ : Type) where
  | emitBlock (pc : UInt32) (insns : List Insn)
  | lookup (pc : UInt32)
  | invalidateRange (start : UInt32) (stop : Nat)
  | invalidateAll
  /-- Runs a guest on instructions from a source. -/
  | run (t : Translator σ) (handlers : Handlers) (guest : GuestState) (source : σ)

inductive Answer (σ : Type) where
  | emitted (outcome : Except Fault BlockId)
  | found (id : Option BlockId)
  | invalidated (outcome : Except Fault Nat)
  | flushed (outcome : Except Fault Unit)
  /-- How a run has ended, with the guest and the source behind it. -/
  | ended (result : RunResult) (guest : GuestState) (source : σ)

namespace Engine

variable {σ : Type}

/-- The engine answers a call and is then another. A run that does not end has no answer. -/
inductive Answers (e : Engine) : Call σ → Answer σ → Engine → Prop
  | emitBlock {pc : UInt32} {insns : List Insn} {outcome : Except Fault BlockId} {e' : Engine}
      (done : ((EngineM.emitBlock pc insns).perform e #[]).1 = (outcome, e')) :
      Answers e (.emitBlock pc insns) (.emitted outcome) e'
  | lookup (pc : UInt32) : Answers e (.lookup pc) (.found (e.lookup pc)) e
  | invalidateRange {start : UInt32} {stop : Nat} {outcome : Except Fault Nat} {e' : Engine}
      (done : ((EngineM.invalidateRange start stop).perform e #[]).1 = (outcome, e')) :
      Answers e (.invalidateRange start stop) (.invalidated outcome) e'
  | invalidateAll {outcome : Except Fault Unit} {e' : Engine}
      (done : (EngineM.invalidateAll.perform e #[]).1 = (outcome, e')) :
      Answers e .invalidateAll (.flushed outcome) e'
  | run {t : Translator σ} {handlers : Handlers} {guest : GuestState} {source : σ} {fuel : Nat}
      {result : RunResult} {s : Session σ}
      (ran : Session.run t handlers fuel ⟨e, #[], guest, source⟩ = (result, s))
      (returns : result ≠ .outOfFuel) :
      Answers e (.run t handlers guest source) (.ended result s.guest s.source) s.engine

/-- The engine answers calls one by one. -/
inductive Converses : Engine → List (Call σ) → List (Answer σ) → Engine → Prop
  | nil (e : Engine) : Converses e [] [] e
  | cons {e e₁ e' : Engine} {call : Call σ} {answer : Answer σ} {calls : List (Call σ)}
      {answers : List (Answer σ)} (first : e.Answers call answer e₁)
      (rest : Converses e₁ calls answers e') : Converses e (call :: calls) (answer :: answers) e'

/-- The engine with `d` added to its counters. -/
def advance (d : Stats) : Engine → Engine := recast id (·.plus d)

end Engine

section Advance

variable (d : Stats)

theorem Stats.counting_plus (s d' : Stats) : (s.plus d).plus d' = (s.plus d').plus d :=
  s.plus_right_comm d d'

namespace EngineM

theorem advance_emitBlock (pc : UInt32) (insns : List Insn) :
    Indifferent (Engine.advance d) (emitBlock pc insns) :=
  indifferent_emitBlock (Stats.counting_plus d) pc insns

theorem advance_invalidateRange (start : UInt32) (stop : Nat) :
    Indifferent (Engine.advance d) (invalidateRange start stop) :=
  indifferent_invalidateRange (Stats.counting_plus d) start stop

theorem advance_invalidateAll : Indifferent (Engine.advance d) invalidateAll :=
  indifferent_flush (Stats.counting_plus d) .explicit

end EngineM

namespace Session

variable {σ α : Type}

def advance (s : Session σ) : Session σ := { s with engine := s.engine.advance d }

theorem perform_advance {x : EngineM α} (h : Indifferent (Engine.advance d) x) (s : Session σ) :
    (s.advance d).perform x = Prod.map id (advance d) (s.perform x) := by
  have performed : Traced.perform x (s.advance d).engine (s.advance d).log =
    carried (Engine.advance d) (Traced.perform x s.engine s.log) := h.perform s.engine s.log
  unfold perform
  rw [performed]
  rfl

theorem resolve_advance (t : Translator σ) (s : Session σ) :
    (s.advance d).resolve t = Prod.map id (advance d) (s.resolve t) := by
  have find : (s.advance d).perform (EngineM.find (s.advance d).guest.cpu.pc) =
      Prod.map id (advance d) (s.perform (EngineM.find s.guest.cpu.pc)) :=
    perform_advance d (EngineM.indifferent_find _) s
  unfold resolve
  simp only [find]
  obtain ⟨outcome, s'⟩ := s.perform (EngineM.find s.guest.cpu.pc)
  cases outcome with
  | error fault => rfl
  | ok found =>
    cases found with
    | some id => exact perform_advance d (EngineM.indifferent_entryOf id) s'
    | none =>
      let asked := t.translate s'.source s.guest.cpu.pc s'.engine.config.maxBlockInsns
      exact perform_advance d (x := do EngineM.entryOf (← EngineM.emitBlock s.guest.cpu.pc asked.1))
        ((EngineM.advance_emitBlock d _ _).bind EngineM.indifferent_entryOf)
        { s' with source := asked.2 }

theorem invalidateLine_advance (s : Session σ) :
    (s.advance d).invalidateLine = Prod.map id (advance d) s.invalidateLine :=
  perform_advance d (EngineM.advance_invalidateRange d _ _) s

/-- Counters have no say in a run. -/
theorem run_advance (t : Translator σ) (handlers : Handlers) (fuel : Nat) (s : Session σ) :
    (s.advance d).run t handlers fuel = Prod.map id (advance d) (s.run t handlers fuel) := by
  induction fuel generalizing s with
  | zero => rfl
  | succ fuel ih =>
    have events : (s.advance d).guest.events = s.guest.events := rfl
    simp only [run, resolve_advance, events]
    cases s.guest.events.check with
    | true => rfl
    | false =>
      obtain ⟨outcome, s'⟩ := s.resolve t
      cases outcome with
      | error fault => rfl
      | ok entry =>
        have called : X86.call ((s'.advance d).context handlers)
          (s'.advance d).engine.stubs.prologue entry (s'.advance d).guest fuel =
            X86.call (s'.context handlers) s'.engine.stubs.prologue entry s'.guest fuel :=
          rfl
        simp only [Bool.false_eq_true, if_false, Prod.map, id, called]
        cases X86.call (s'.context handlers) s'.engine.stubs.prologue entry s'.guest fuel with
        | outOfFuel => rfl
        | stuck offset => rfl
        | left code guest =>
          have behind : ({ s'.advance d with guest } : Session σ) = advance d { s' with guest } :=
            rfl
          simp only [behind, invalidateLine_advance, Prod.map, id]
          cases ExitCode.ofCode? code with
          | none => rfl
          | some code =>
            cases code with
            | dispatch => exact ih (report { s' with guest } (.dispatched guest.cpu.pc))
            | preempt => rfl
            | syscall => rfl
            | invalidate =>
              obtain ⟨outcome, s''⟩ := invalidateLine { s' with guest }
              cases outcome with
              | error fault => rfl
              | ok n => exact ih s''

end Session

namespace Engine

variable {d} {σ : Type} {e c : Engine}

theorem answers_advance {call : Call σ} {answer : Answer σ} :
    (e.advance d).Answers call answer c ↔ ∃ e', e.Answers call answer e' ∧ c = e'.advance d := by
  constructor
  · intro h
    cases h with
    | emitBlock done =>
      obtain ⟨e', done', rfl⟩ := (EngineM.advance_emitBlock d _ _).outcome.1 done
      exact ⟨e', .emitBlock done', rfl⟩
    | lookup pc => exact ⟨e, .lookup pc, rfl⟩
    | invalidateRange done =>
      obtain ⟨e', done', rfl⟩ := (EngineM.advance_invalidateRange d _ _).outcome.1 done
      exact ⟨e', .invalidateRange done', rfl⟩
    | invalidateAll done =>
      obtain ⟨e', done', rfl⟩ := (EngineM.advance_invalidateAll d).outcome.1 done
      exact ⟨e', .invalidateAll done', rfl⟩
    | @run t handlers guest source fuel result s ran returns =>
      have both := (Session.run_advance d t handlers fuel ⟨e, #[], guest, source⟩).symm.trans ran
      cases ended : Session.run t handlers fuel ⟨e, #[], guest, source⟩ with
      | mk result' s' =>
        rw [ended] at both
        cases both
        exact ⟨s'.engine, .run (s := s') ended returns, rfl⟩
  · rintro ⟨e', h, rfl⟩
    cases h with
    | emitBlock done =>
      exact .emitBlock ((EngineM.advance_emitBlock d _ _).outcome.2 ⟨e', done, rfl⟩)
    | lookup pc => exact .lookup pc
    | invalidateRange done =>
      exact .invalidateRange ((EngineM.advance_invalidateRange d _ _).outcome.2 ⟨e', done, rfl⟩)
    | invalidateAll done =>
      exact .invalidateAll ((EngineM.advance_invalidateAll d).outcome.2 ⟨e', done, rfl⟩)
    | @run t handlers guest source fuel result s ran returns =>
      have both := Session.run_advance d t handlers fuel ⟨e, #[], guest, source⟩
      rw [ran] at both
      exact .run both returns

/-- The engine answers as `e` does whatever it is asked, and stays `e` with `d` added to its
counters. -/
def Mimics (c e : Engine) (d : Stats) : Prop :=
  ∀ {σ : Type} {calls : List (Call σ)} {answers : List (Answer σ)} {c' : Engine},
    c.Converses calls answers c' ↔ ∃ e', e.Converses calls answers e' ∧ c' = e'.advance d

theorem mimics_advance (e : Engine) (d : Stats) : (e.advance d).Mimics e d := by
  intro σ calls answers c'
  induction calls generalizing e answers with
  | nil =>
    constructor
    · rintro ⟨⟩
      exact ⟨e, .nil e, rfl⟩
    · rintro ⟨e', ⟨⟩, rfl⟩
      exact .nil _
  | cons call calls ih =>
    constructor
    · intro h
      cases h with
      | cons first rest =>
        obtain ⟨e₁, first', rfl⟩ := answers_advance.1 first
        obtain ⟨e', rest', rfl⟩ := (ih e₁).1 rest
        exact ⟨e', .cons first' rest', rfl⟩
    · rintro ⟨e', h, rfl⟩
      cases h with
      | @cons _ e₁ _ _ _ _ _ first rest =>
        exact .cons (answers_advance.2 ⟨e₁, first, rfl⟩) ((ih e₁).2 ⟨e', rest, rfl⟩)

end Engine

end Advance
end Dynarec
