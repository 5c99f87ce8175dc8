import Dynarec.Proofs.Course

/-!
Preempted guests that are run again. The owner of a guest clears the events that have ended a run
and starts the next one; of system calls and errors it hears what it would hear if no routine raised
an event.
-/
namespace Dynarec

/-- What an owner sees of a guest: its registers and its memory. -/
structure View where
  cpu : Cpu
  memory : Memory

namespace GuestState

def view (g : GuestState) : View := ⟨g.cpu, g.memory⟩

/-- The guest with other registers and memory. -/
def withView (g : GuestState) (v : View) : GuestState := { g with cpu := v.cpu, memory := v.memory }

/-- The guest with no event pending. -/
def calm (g : GuestState) : GuestState := { g with events := {} }

theorem calm_eq {g g' : GuestState} (h : g.view = g'.view) : g.calm = g'.calm := by
  obtain ⟨cpu, memory⟩ := View.mk.inj h
  simp only [calm, cpu, memory]

theorem calm_setGpr? (g : GuestState) (n : UInt8) (v : UInt32) :
    g.calm.setGpr? n v = (g.setGpr? n v).map calm := by
  simp only [setGpr?, Option.map_map]
  rfl

theorem calm_setCondition? (g : GuestState) (field : UInt8) (less greater : Bool) :
    g.calm.setCondition? field less greater = (g.setCondition? field less greater).map calm := by
  cases shift : (ConditionRegister.shift field).toOption with
  | none => simp only [setCondition?, shift]; rfl
  | some a =>
    cases keep : (ConditionRegister.keepMask field).toOption with
    | none => simp only [setCondition?, shift, keep]; rfl
    | some b => simp only [setCondition?, shift, keep]; rfl

end GuestState

/-- Where events are raised: the word that a routine leaves behind, by its address, the instruction
word and the state that it is called in. -/
abbrev Choice := UInt64 → UInt32 → GuestState → PreemptionWord

namespace Handlers

/-- The routines do to registers and memory the same whatever events are pending. -/
def Indifferent (handlers : Handlers) : Prop :=
  ∀ ⦃addr routine⦄, handlers addr = some routine →
    ∀ word g events, (routine word { g with events }).view = (routine word g).view

/-- The same routines, which leave the given words behind. -/
def raising (handlers : Handlers) (choice : Choice) : Handlers := fun addr =>
  (handlers addr).map fun routine word g => { routine word g with events := choice addr word g }

/-- The same routines, which raise nothing. -/
def silent (handlers : Handlers) : Handlers := raising handlers fun _ _ g => g.events

end Handlers

theorem Covers.raising {handlers : Handlers} {insns : List Insn} (h : Covers handlers insns)
    (choice : Choice) : Covers (handlers.raising choice) insns := by
  intro i hi addr word hop
  rw [Handlers.raising, Option.isSome_map]
  exact h i hi addr word hop

namespace Platform

open GuestState (calm calm_setGpr? calm_setCondition?)

variable {handlers : Handlers}

theorem next_calm {x y : Option GuestState} (h : y = x.map calm) :
    apply.next y = (apply.next x).map (Prod.map calm id) := by
  subst h
  simp only [apply.next, Option.map_map]
  rfl

theorem bind_calm {α β : Type} {x : Option α} {f f' : α → Option β} {calmed : β → β}
    (h : ∀ a, f' a = (f a).map calmed) : (x >>= f') = (x >>= f).map calmed := by
  rw [funext h]
  exact Option.map_bind.symm

theorem branch?_calm (g : GuestState) (cond : BranchCond) :
    branch? g.calm cond = (branch? g cond).map (Prod.map id calm) := by
  cases cond with
  | decCtrNonZero => rfl
  | crSet bit | crClear bit =>
    simp only [branch?, Option.map_map]
    rfl

/-- Neither the events that are pending nor those that a routine raises change anything else. -/
theorem apply_silent (indifferent : handlers.Indifferent) (choice : Choice) (config : Config)
    (g : GuestState) (op : Op) :
    apply ⟨config, handlers.silent⟩ g.calm op =
      (apply ⟨config, handlers.raising choice⟩ g op).map (Prod.map calm id) := by
  cases op with
  | li | mfctr | mflr => exact next_calm (calm_setGpr? ..)
  | addi | ori | xori | lwz | lwzAbs => exact next_calm (bind_calm fun _ => calm_setGpr? ..)
  | add | subf | mullw | and | or | xor =>
    exact next_calm (bind_calm fun _ => bind_calm fun _ => calm_setGpr? ..)
  | cmpw | cmplw => exact next_calm (bind_calm fun _ => bind_calm fun _ => calm_setCondition? ..)
  | cmpwi | cmplwi => exact next_calm (bind_calm fun _ => calm_setCondition? ..)
  | stw | stwAbs => exact next_calm (bind_calm fun _ => bind_calm fun _ => rfl)
  | mtctr | mtlr => exact next_calm (bind_calm fun _ => rfl)
  | call addr word =>
    refine next_calm ?_
    cases found : handlers addr with
    | none =>
      simp only [Handlers.silent, Handlers.raising, found]
      rfl
    | some routine =>
      simp only [Handlers.silent, Handlers.raising, found]
      exact congrArg some (GuestState.calm_eq (indifferent found word g {}))
  | b | bl | blr | bctr | sc => rfl
  | bc cond target =>
    simp only [apply, branch?_calm]
    cases branch? g cond with
    | none => rfl
    | some test =>
      obtain ⟨taken, g'⟩ := test
      cases taken <;> rfl
  | icbi => exact bind_calm fun _ => bind_calm fun _ => rfl

theorem runBlock_silent (indifferent : handlers.Indifferent) (choice : Choice) (config : Config)
    (g : GuestState) (insns : List Insn) :
    runBlock ⟨config, handlers.silent⟩ g.calm insns =
      (runBlock ⟨config, handlers.raising choice⟩ g insns).map (Prod.map calm id) := by
  induction insns generalizing g with
  | nil => rfl
  | cons i rest ih =>
    have step : step ⟨config, handlers.silent⟩ g.calm i =
        (step ⟨config, handlers.raising choice⟩ g i).map (Prod.map calm id) :=
      apply_silent indifferent choice config (g.setPc i.pc) i.op
    simp only [runBlock, step]
    cases Platform.step ⟨config, handlers.raising choice⟩ g i with
    | none => rfl
    | some done =>
      obtain ⟨g', c⟩ := done
      cases c with
      | next =>
        cases rest with
        | nil => rfl
        | cons => exact ih g'
      | exit | indirect | syscall | invalidate => rfl

end Platform

/-- A run that ends so has something to tell: a system call, or why a block cannot be made. -/
def RunResult.isNotice : RunResult → Bool
  | .finished .systemCall | .failed _ => true
  | .finished (.preempted _) | .outOfFuel => false

theorem RunResult.ne_outOfFuel {result : RunResult} (h : result.isNotice = true) :
    result ≠ .outOfFuel := by
  rintro rfl
  cases h

namespace Reference

variable {handlers : Handlers}

theorem run_stuck {e : Engine} {program : UInt32 → Nat → List Insn} {g : GuestState}
    (quiet : g.events.check = false)
    (possible : e.emissionFault? g.cpu.pc (program g.cpu.pc e.config.maxBlockInsns) = none)
    (ran : Platform.runBlock ⟨e.config, handlers⟩ g (program g.cpu.pc e.config.maxBlockInsns) =
      none) (fuel : Nat) :
    run e handlers program (fuel + 1) g = (.failed (.violation .assertionFailed), g) := by
  simp only [run, quiet, possible, ran, Bool.false_eq_true, if_false]

/-- The fuel does not matter for an answer. -/
theorem run_unique {e : Engine} {program : UInt32 → Nat → List Insn} {g : GuestState} {n k : Nat}
    (hn : (run e handlers program n g).1 ≠ .outOfFuel)
    (hk : (run e handlers program k g).1 ≠ .outOfFuel) :
    run e handlers program n g = run e handlers program k g := by
  rw [← run_add hn k, ← run_add hk n, Nat.add_comm]

variable (indifferent : handlers.Indifferent) (choice : Choice) (e : Engine)
  (program : UInt32 → Nat → List Insn)
include indifferent

/-- While no event is pending, the dispatcher goes through a block in the same way whether or not
routines raise events. -/
theorem run_succ_raising {g : GuestState} (quiet : g.events.check = false) :
    (∃ result g', result.isNotice = true ∧ ∀ fuel,
      run e (handlers.raising choice) program (fuel + 1) g = (result, g') ∧
      run e handlers.silent program (fuel + 1) g.calm = (result, g'.calm)) ∨
    ∃ g', ∀ fuel,
      run e (handlers.raising choice) program (fuel + 1) g =
        run e (handlers.raising choice) program fuel g' ∧
      run e handlers.silent program (fuel + 1) g.calm =
        run e handlers.silent program fuel g'.calm := by
  have calm : g.calm.events.check = false := rfl
  cases possible : e.emissionFault? g.cpu.pc (program g.cpu.pc e.config.maxBlockInsns) with
  | some fault =>
    exact .inl ⟨.failed fault, g, rfl, fun fuel =>
      ⟨run_failed quiet possible fuel, run_failed calm possible fuel⟩⟩
  | none =>
    have same := Platform.runBlock_silent indifferent choice e.config g
      (program g.cpu.pc e.config.maxBlockInsns)
    cases ran : Platform.runBlock ⟨e.config, handlers.raising choice⟩ g
        (program g.cpu.pc e.config.maxBlockInsns) with
    | none =>
      rw [ran] at same
      exact .inl
        ⟨_, g, rfl,
          fun fuel => ⟨run_stuck quiet possible ran fuel, run_stuck calm possible same fuel⟩⟩
    | some done =>
      obtain ⟨g', c⟩ := done
      rw [ran] at same
      by_cases hc : c = .syscall
      · subst hc
        exact .inl ⟨_, g', rfl, fun fuel =>
          ⟨run_syscall quiet possible ran fuel, run_syscall calm possible same fuel⟩⟩
      · exact .inr
          ⟨g', fun fuel =>
            ⟨run_block quiet possible ran hc fuel, run_block calm possible same hc fuel⟩⟩

/-- Where routines raise events the dispatcher ends as where they raise none, or it is preempted on
the way there. -/
theorem run_raising_cases (n : Nat) (g : GuestState) :
    ((run e (handlers.raising choice) program n g).1 = .outOfFuel ∧
      (run e handlers.silent program n g.calm).1 = .outOfFuel) ∨
    (∃ result g', result.isNotice = true ∧
      run e (handlers.raising choice) program n g = (result, g') ∧
      run e handlers.silent program n g.calm = (result, g'.calm)) ∨
    ∃ g' j, run e (handlers.raising choice) program n g =
      (.finished (.preempted g'.events.bits), g') ∧
      Passes e handlers.silent program j g.calm g'.calm ∧ j ≤ n ∧
      (g.events.check = false → 0 < j) := by
  induction n generalizing g with
  | zero => exact .inl ⟨rfl, rfl⟩
  | succ n ih =>
    cases quiet : g.events.check with
    | true =>
      refine .inr
        (.inr ⟨g, 0, run_pending quiet n, fun fuel => ?_, Nat.zero_le _, fun h => by cases h⟩)
      rw [Nat.zero_add]
    | false =>
      obtain ⟨result, g', notice, same⟩ | ⟨g', same⟩ :=
        run_succ_raising indifferent choice e program quiet
      · exact .inr (.inl ⟨result, g', notice, same n⟩)
      · rw [(same n).1, (same n).2]
        obtain short | ended | ⟨g'', j, preempted, passes, le, -⟩ := ih g'
        · exact .inl short
        · exact .inr (.inl ended)
        · refine .inr (.inr ⟨g'', 1 + j, preempted, ?_, by omega, fun _ => by omega⟩)
          refine Passes.trans (fun fuel => ?_) passes
          rw [Nat.add_comm]
          exact (same fuel).2

end Reference

/-- A notice to the owner of a guest: how a run ended, what the owner sees then, and what it puts in
its place before the next run. -/
structure Exchange where
  result : RunResult
  seen : View
  answer : View

namespace Reference

/-- What the owner of a guest is told when the dispatcher is called again and again. -/
inductive Tells (e : Engine) (handlers : Handlers) (program : UInt32 → Nat → List Insn) :
    GuestState → List Exchange → Prop
  | nil (g : GuestState) : Tells e handlers program g []
  | cons {g g' : GuestState} {n : Nat} {result : RunResult} {answer : View} {rest : List Exchange}
      (ran : run e handlers program n g = (result, g')) (notice : result.isNotice = true)
      (tells : Tells e handlers program (g'.withView answer) rest) :
      Tells e handlers program g (⟨result, g'.view, answer⟩ :: rest)

theorem Passes.tells {e : Engine} {handlers : Handlers} {program : UInt32 → Nat → List Insn}
    {n : Nat} {g g' : GuestState} {exchanges : List Exchange} (h : Passes e handlers program n g g')
    (tells : Tells e handlers program g' exchanges) : Tells e handlers program g exchanges := by
  cases tells with
  | nil => exact .nil g
  | cons ran notice tells => exact .cons ((h _).trans ran) notice tells

end Reference

namespace Session

open Reference (Passes Tells)

variable {σ : Type} {s : Session σ} {t : Translator σ} {handlers : Handlers} {src : Nat → List Insn}
  {program : UInt32 → Nat → List Insn}

/-- The owner clears events. -/
def acknowledge (s : Session σ) (events : UInt32) : Session σ :=
  { s with guest := { s.guest with events := s.guest.events.clear events } }

/-- The owner puts registers and memory in place. -/
def reply (s : Session σ) (v : View) : Session σ := { s with guest := s.guest.withView v }

def calm (s : Session σ) : Session σ := { s with guest := s.guest.calm }

/-- The owner of a guest runs it again and again, each time with the next of the given routines. It
clears the events that have preempted a run, `k` times in all, and answers whatever else runs end
with. -/
inductive Hears (t : Translator σ) : (Nat → Handlers) → Nat → Session σ → List Exchange →
    Session σ → Prop
  | done (handlers : Nat → Handlers) (s : Session σ) : Hears t handlers 0 s [] s
  | preempted {handlers : Nat → Handlers} {k fuel : Nat} {s s₁ s' : Session σ} {events : UInt32}
      {exchanges : List Exchange}
      (ran : s.run t (handlers 0) fuel = (.finished (.preempted events), s₁))
      (rest : Hears t (fun n => handlers (n + 1)) k (s₁.acknowledge events) exchanges s') :
      Hears t handlers (k + 1) s exchanges s'
  | noticed {handlers : Nat → Handlers} {k fuel : Nat} {s s₁ s' : Session σ} {result : RunResult}
      {answer : View} {exchanges : List Exchange} (ran : s.run t (handlers 0) fuel = (result, s₁))
      (notice : result.isNotice = true)
      (rest : Hears t (fun n => handlers (n + 1)) k (s₁.reply answer) exchanges s') :
      Hears t handlers k s (⟨result, s₁.guest.view, answer⟩ :: exchanges) s'

/-- Events that have been cleared as they were reported are gone. -/
theorem guest_acknowledge (s : Session σ) :
    (s.acknowledge s.guest.events.bits).guest = s.guest.calm := by
  have none : s.guest.events.clear s.guest.events.bits = {} := by
    simp only [PreemptionWord.clear, UInt32.and_not_self]
  simp only [acknowledge, none]
  rfl

section Faithful

variable (pure : ∀ source pc n, (t.translate source pc n).1 = program pc n)
include pure

theorem Faithful.resolve (h : s.Faithful src program) :
    ∃ src', (s.resolve t).2.Faithful src' program ∧
      (s.resolve t).2.engine.frame = s.engine.frame := by
  obtain ⟨fault, s', failed, -⟩ | ⟨entry, s', src', resolve, resolved, faithful⟩ :=
    h.resolve_cases pure
  · cases found : s.engine.lookup s.guest.cpu.pc with
    | some id =>
      obtain ⟨entry, jumps, log, resolve, -⟩ := resolve_found h.made found (t := t)
      cases resolve.symm.trans failed
    | none =>
      obtain ⟨jumps, log, made, ⟨fault', -, -, resolve⟩ | ⟨entry, id, c, -, resolve, -⟩⟩ :=
        resolve_new h.made found (t := t)
      · rw [resolve]
        exact ⟨src, ⟨made, h.mirrors⟩, rfl⟩
      · cases resolve.symm.trans failed
  · rw [resolve]
    exact ⟨src', faithful, resolved.frame⟩

/-- A run works on blocks of the program and makes no others. -/
theorem Faithful.run (h : s.Faithful src program) (handlers : Handlers) (fuel : Nat) :
    ∃ src', (s.run t handlers fuel).2.Faithful src' program ∧
      (s.run t handlers fuel).2.engine.frame = s.engine.frame := by
  induction fuel generalizing s src with
  | zero => exact ⟨src, h, rfl⟩
  | succ fuel ih =>
    unfold Session.run
    split
    · exact ⟨src, h, rfl⟩
    · have resolved := h.resolve pure
      split
      · next heq =>
        rw [heq] at resolved
        exact resolved
      · next entry s₁ heq =>
        rw [heq] at resolved
        split
        · exact resolved
        · exact resolved
        · next code guest _ =>
          obtain ⟨src₁, ⟨made, mirrors⟩, frame⟩ := resolved
          dsimp only
          split
          · obtain ⟨src', faithful, frame'⟩ := ih (s := report { s₁ with guest } _) ⟨made, mirrors⟩
            exact ⟨src', faithful, frame'.trans frame⟩
          · exact ⟨src₁, ⟨made, mirrors⟩, frame⟩
          · exact ⟨src₁, ⟨made, mirrors⟩, frame⟩
          · obtain ⟨n, s₂, cleared, -, shrunk, made₂⟩ :=
              invalidateLine_cases (s := { s₁ with guest }) made
            rw [cleared]
            obtain ⟨src', faithful, frame'⟩ := ih ⟨made₂, shrunk.mirrors mirrors⟩
            exact ⟨src', faithful, frame'.trans (shrunk.frame.trans frame)⟩
          · exact ⟨src₁, ⟨made, mirrors⟩, frame⟩

end Faithful

/-- The session works on blocks of the program, with an engine that was created as `e` was. -/
structure Serves (s : Session σ) (e : Engine) (program : UInt32 → Nat → List Insn) : Prop where
  faithful : ∃ src, s.Faithful src program
  frame : s.engine.frame = e.frame

namespace Serves

variable {e : Engine} {result : RunResult} {s' : Session σ} {g : GuestState}

theorem withGuest (h : s.Serves e program) (g : GuestState) :
    Serves { s with guest := g } e program := by
  obtain ⟨src, made, mirrors⟩ := h.faithful
  exact ⟨⟨src, made, mirrors⟩, h.frame⟩

section Run

variable (h : s.Serves e program) (pure : ∀ source pc n, (t.translate source pc n).1 = program pc n)
  (covers : ∀ pc n, Covers handlers (program pc n)) (returns : result ≠ .outOfFuel)
include h pure covers returns

/-- A run that ends does so as the dispatcher without code, and can be followed by another. -/
theorem run_ends {fuel : Nat} (ran : s.run t handlers fuel = (result, s')) :
    s'.Serves e program ∧ ∃ n, Reference.run e handlers program n s.guest = (result, s'.guest) := by
  obtain ⟨src, faithful⟩ := h.faithful
  obtain ⟨src', faithful', frame⟩ := faithful.run pure handlers fuel
  rw [ran] at faithful' frame
  obtain ⟨n, ends⟩ := faithful.run_ends pure covers ran returns
  refine ⟨⟨⟨src', faithful'⟩, frame.trans h.frame⟩, n, ?_⟩
  rw [← Reference.run_of_frame h.frame]
  exact ends 0

theorem run_returns {n : Nat} (ends : Reference.run e handlers program n s.guest = (result, g)) :
    ∃ fuel s', s.run t handlers fuel = (result, s') ∧ s'.guest = g ∧ s'.Serves e program := by
  obtain ⟨src, faithful⟩ := h.faithful
  have answered : (Reference.run e handlers program n s.guest).1 ≠ .outOfFuel := by
    rw [ends]
    exact returns
  obtain ⟨fuel, done⟩ := faithful.run_returns pure covers (n := n) (by
    rw [Reference.run_of_frame h.frame]
    exact answered)
  obtain ⟨serves, k, ends'⟩ := h.run_ends pure covers (done 0) rfl
  have same := Reference.run_unique (by rw [ends']; exact done 0) answered
  rw [ends, ends'] at same
  obtain ⟨hresult, hguest⟩ := Prod.ext_iff.1 same
  exact ⟨fuel, _, Prod.ext hresult rfl, hguest, serves⟩

end Run

end Serves

section Dialogue

variable {e : Engine} {exchanges : List Exchange}
  (pure : ∀ source pc n, (t.translate source pc n).1 = program pc n)
include pure

/-- A session tells what the dispatcher without code tells, with no interruption. -/
theorem Serves.hears_tells (serves : s.Serves e program)
    (covers : ∀ pc n, Covers handlers (program pc n))
    (tells : Tells e handlers program s.guest exchanges) :
    ∃ s', s.Hears t (fun _ => handlers) 0 exchanges s' := by
  generalize start : s.guest = g at tells
  induction tells generalizing s with
  | nil => exact ⟨s, .done _ s⟩
  | cons ran notice _ ih =>
    subst start
    obtain ⟨fuel, s₁, ran', rfl, serves₁⟩ :=
      serves.run_returns pure covers (RunResult.ne_outOfFuel notice) ran
    obtain ⟨s', rest⟩ := ih (s := s₁.reply _) (serves₁.withGuest _) rfl
    exact ⟨s', .noticed ran' notice rest⟩

variable (indifferent : handlers.Indifferent) (covers : ∀ pc n, Covers handlers (program pc n))
include indifferent covers

/-- A run that ends gives the notice to which the dispatcher without code comes when no event is
raised, or is preempted on the way there. -/
theorem Serves.run_raising_ends {choice : Choice} {fuel : Nat} {result : RunResult} {s' : Session σ}
    (serves : s.Serves e program) (ran : s.run t (handlers.raising choice) fuel = (result, s'))
    (returns : result ≠ .outOfFuel) :
    s'.Serves e program ∧
      ((result.isNotice = true ∧
          ∃ n, Reference.run e handlers.silent program n s.guest.calm = (result, s'.guest.calm)) ∨
        result = .finished (.preempted s'.guest.events.bits) ∧
          ∃ n, Passes e handlers.silent program n s.guest.calm s'.guest.calm) := by
  obtain ⟨serves', n, ends⟩ :=
    serves.run_ends pure (fun pc n => (covers pc n).raising choice) returns ran
  refine ⟨serves', ?_⟩
  obtain ⟨short, -⟩ | ⟨_, _, notice, ended, same⟩ | ⟨_, j, preempted, passes, -⟩ :=
    Reference.run_raising_cases indifferent choice e program n s.guest
  · rw [ends] at short
    exact absurd short returns
  · obtain ⟨rfl, rfl⟩ := Prod.mk.inj (ends.symm.trans ended)
    exact .inl ⟨notice, n, same⟩
  · obtain ⟨rfl, rfl⟩ := Prod.mk.inj (ends.symm.trans preempted)
    exact .inr ⟨rfl, j, passes⟩

/-- A run gives the notice to which the dispatcher without code comes when no event is raised, or is
preempted with fewer blocks to go. -/
theorem Serves.run_raising_returns (choice : Choice) {n : Nat} {result : RunResult} {g : GuestState}
    (serves : s.Serves e program) (quiet : s.guest.events.check = false)
    (notice : result.isNotice = true)
    (ends : Reference.run e handlers.silent program n s.guest.calm = (result, g)) :
    ∃ fuel s', s'.Serves e program ∧
      ((s.run t (handlers.raising choice) fuel = (result, s') ∧ s'.guest.calm = g) ∨
        s.run t (handlers.raising choice) fuel = (.finished (.preempted s'.guest.events.bits), s') ∧
          ∃ m < n, Reference.run e handlers.silent program m s'.guest.calm = (result, g)) := by
  have covers' (pc : UInt32) (n : Nat) : Covers (handlers.raising choice) (program pc n) :=
    (covers pc n).raising choice
  obtain ⟨-, short⟩ | ⟨_, _, -, ended, same⟩ | ⟨_, j, preempted, passes, le, pos⟩ :=
    Reference.run_raising_cases indifferent choice e program n s.guest
  · rw [ends] at short
    exact absurd short (RunResult.ne_outOfFuel notice)
  · obtain ⟨rfl, rfl⟩ := Prod.mk.inj (ends.symm.trans same)
    obtain ⟨fuel, s', ran, rfl, serves'⟩ :=
      serves.run_returns pure covers' (RunResult.ne_outOfFuel notice) ended
    exact ⟨fuel, s', serves', .inl ⟨ran, rfl⟩⟩
  · obtain ⟨fuel, s', ran, rfl, serves'⟩ := serves.run_returns pure covers' (by rintro ⟨⟩) preempted
    have := pos quiet
    refine ⟨fuel, s', serves', .inr ⟨ran, n - j, by omega, ?_⟩⟩
    rw [← passes, Nat.add_sub_cancel' le]
    exact ends

/-- The dispatcher without code tells the same when no event is raised. -/
theorem Hears.tells (choices : Nat → Choice) {k : Nat} {s' : Session σ}
    (heard : s.Hears t (fun n => handlers.raising (choices n)) k exchanges s')
    (serves : s.Serves e program) : Tells e handlers.silent program s.guest.calm exchanges := by
  generalize schedule : (fun n => handlers.raising (choices n)) = routines at heard
  induction heard generalizing choices with
  | done => exact .nil _
  | preempted ran _ ih =>
    subst schedule
    obtain ⟨serves₁, ⟨notice, -⟩ | ⟨-, n, passes⟩⟩ :=
      serves.run_raising_ends pure indifferent covers ran (by rintro ⟨⟩)
    · cases notice
    · exact passes.tells (ih (fun n => choices (n + 1)) (serves₁.withGuest _) rfl)
  | @noticed _ _ _ _ s₁ _ _ answer rest ran notice _ ih =>
    subst schedule
    obtain ⟨serves₁, ⟨-, n, ends⟩ | ⟨rfl, -⟩⟩ :=
      serves.run_raising_ends pure indifferent covers ran (RunResult.ne_outOfFuel notice)
    · have told : Tells e handlers.silent program (s₁.guest.calm.withView answer) rest :=
        ih (fun n => choices (n + 1)) (serves₁.withGuest _) rfl
      exact (Tells.cons ends notice told :)
    · cases notice

/-- An owner that keeps on clearing events gets to the next notice. -/
theorem Serves.hears_notice {n : Nat} {g : GuestState} {result : RunResult} {answer : View}
    (notice : result.isNotice = true)
    (later : ∀ (choices : Nat → Choice) (s₁ : Session σ), s₁.Serves e program → s₁.guest.calm = g →
      ∃ k s', (s₁.reply answer).Hears t (fun n => handlers.raising (choices n)) k exchanges s')
    (choices : Nat → Choice) (serves : s.Serves e program) (quiet : s.guest.events.check = false)
    (ends : Reference.run e handlers.silent program n s.guest.calm = (result, g)) :
    ∃ k s', s.Hears t (fun n => handlers.raising (choices n)) k
      (⟨result, g.view, answer⟩ :: exchanges) s' := by
  induction n using Nat.strongRecOn generalizing s choices with
  | ind n ih =>
    obtain ⟨fuel, s₁, serves₁, ⟨ran, rfl⟩ | ⟨ran, m, less, ends₁⟩⟩ :=
      serves.run_raising_returns pure indifferent covers (choices 0) quiet notice ends
    · obtain ⟨k, s', rest⟩ := later (fun n => choices (n + 1)) s₁ serves₁ rfl
      exact ⟨k, s', .noticed ran notice rest⟩
    · have calm := guest_acknowledge s₁
      obtain ⟨k, s', rest⟩ :=
        ih m less (fun n => choices (n + 1)) (s := s₁.acknowledge s₁.guest.events.bits)
          (serves₁.withGuest _) (by rw [calm]; rfl) (by rw [calm]; exact ends₁)
      exact ⟨k + 1, s', .preempted ran rest⟩

/-- An owner that keeps on clearing events hears all that the dispatcher without code tells when no
event is raised. -/
theorem Serves.hears (choices : Nat → Choice) (serves : s.Serves e program)
    (tells : Tells e handlers.silent program s.guest.calm exchanges) :
    ∃ k s', s.Hears t (fun n => handlers.raising (choices n)) k exchanges s' := by
  generalize start : s.guest.calm = g at tells
  induction tells generalizing s choices with
  | nil => exact ⟨0, s, .done _ s⟩
  | @cons g g' n result answer rest ran notice _ ih =>
    subst start
    have later (choices : Nat → Choice) (s₁ : Session σ) (serves₁ : s₁.Serves e program)
        (same : s₁.guest.calm = g') :
        ∃ k s', (s₁.reply answer).Hears t (fun n => handlers.raising (choices n)) k rest s' := by
      subst same
      exact ih choices (serves₁.withGuest _) rfl
    cases quiet : s.guest.events.check with
    | false => exact hears_notice pure indifferent covers notice later choices serves quiet ran
    | true =>
      -- The first run ends at once, with the events that are pending already.
      have calm := guest_acknowledge s
      obtain ⟨k, s', rest⟩ :=
        hears_notice pure indifferent covers notice later (fun n => choices (n + 1))
          (s := s.acknowledge s.guest.events.bits) (serves.withGuest _) (by rw [calm]; rfl)
          (by rw [calm]; exact ran)
      exact ⟨k + 1, s', .preempted (run_pending quiet 0) rest⟩

end Dialogue

/-- Preemption does not show. Whatever events routines raise, an owner that clears them and runs the
guest again hears of the same system calls and errors, with the same registers and memory, as the
owner of a guest that raises none, whose runs are never preempted. -/
theorem preempt_resume_transparent (made : s.engine.Made src)
    (mirrors : s.engine.Mirrors src program)
    (pure : ∀ source pc n, (t.translate source pc n).1 = program pc n)
    (indifferent : handlers.Indifferent) (covers : ∀ pc n, Covers handlers (program pc n))
    (choices : Nat → Choice) (exchanges : List Exchange) :
    (∃ k s', s.Hears t (fun n => handlers.raising (choices n)) k exchanges s') ↔
      ∃ s', s.calm.Hears t (fun _ => handlers.silent) 0 exchanges s' := by
  have serves : s.Serves s.engine program := ⟨⟨src, made, mirrors⟩, rfl⟩
  constructor
  · rintro ⟨k, s', heard⟩
    have tells := Hears.tells pure indifferent covers choices heard serves
    exact (serves.withGuest _).hears_tells pure (fun pc n => (covers pc n).raising _) tells
  · rintro ⟨s', heard⟩
    have tells :=
      Hears.tells pure indifferent covers (fun _ _ _ g => g.events) heard (serves.withGuest _)
    exact serves.hears pure indifferent covers choices tells

/-- The registers behind the system call that follows the loop. -/
def loopEnd : Cpu :=
  { gpr := (Vector.replicate 32 0).setIfInBounds 3 5, xer := 9, pc := 0x110, icbiEa := 0x104 }

theorem loop_interruptions_unheard :
    (∃ src, loopSession.engine.Made src ∧ loopSession.engine.Mirrors src loopProgram) ∧
    Engine.notingHandlers.Indifferent ∧ (∀ pc n, Covers Engine.notingHandlers (loopProgram pc n)) ∧
    ∃ v k s', v.cpu = loopEnd ∧ 0 < k ∧
      loopSession.Hears ⟨fun source pc n => (loopProgram pc n, source)⟩
        (fun _ => Engine.notingHandlers.raising fun _ _ g => g.events.set 0x80) k
        [⟨.finished .systemCall, v, v⟩] s' := by
  obtain ⟨src, made⟩ := Engine.reachable_onePage.made
  have mirrors : Engine.onePage.Mirrors src loopProgram := by
    intro id b hb
    cases hb
  have indifferent : Engine.notingHandlers.Indifferent := by
    intro addr routine found word g events
    cases found
    rfl
  have covers (pc : UInt32) (n : Nat) : Covers Engine.notingHandlers (loopProgram pc n) :=
    fun _ _ _ _ _ => rfl
  refine ⟨⟨src, made, mirrors⟩, indifferent, covers, ?_⟩
  have serves : loopSession.Serves Engine.onePage loopProgram := ⟨⟨src, made, mirrors⟩, rfl⟩
  obtain ⟨g, ends, cpu⟩ :
      ∃ g, Reference.run Engine.onePage Engine.notingHandlers.silent loopProgram 4
      loopSession.calm.guest = (.finished .systemCall, g) ∧ g.cpu = loopEnd := ⟨_, rfl, by decide⟩
  have tells : Tells Engine.onePage Engine.notingHandlers.silent loopProgram loopSession.calm.guest
      [⟨.finished .systemCall, g.view, g.view⟩] := .cons ends rfl (.nil _)
  obtain ⟨k, s', heard⟩ := (preempt_resume_transparent (s := loopSession)
    (t := ⟨fun source pc n => (loopProgram pc n, source)⟩) made mirrors (fun _ _ _ => rfl)
    indifferent covers (fun _ _ _ g => g.events.set 0x80) _).2
    ((serves.withGuest _).hears_tells (fun _ _ _ => rfl)
      (fun pc n => (covers pc n).raising _) tells)
  refine ⟨g.view, k, s', cpu, Nat.pos_of_ne_zero ?_, heard⟩
  rintro rfl
  -- The routine raises an event in the first turn, so the first run gives no notice.
  obtain ⟨g₁, preempted⟩ : ∃ g₁, Reference.run Engine.onePage
      (Engine.notingHandlers.raising fun _ _ g => g.events.set 0x80) loopProgram 2
      loopSession.guest = (.finished (.preempted 0x80), g₁) := ⟨_, rfl⟩
  generalize g.view = v at heard
  cases heard with
  | noticed ran notice =>
    obtain ⟨-, n, noticed⟩ :=
      serves.run_ends (fun _ _ _ => rfl) (fun pc n => (covers pc n).raising _)
        (RunResult.ne_outOfFuel notice) ran
    have same := Reference.run_unique (by rw [noticed]; exact RunResult.ne_outOfFuel notice)
      (by rw [preempted]; rintro ⟨⟩)
    cases noticed.symm.trans (same.trans preempted)

end Session
end Dynarec
