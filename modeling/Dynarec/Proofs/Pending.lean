import Dynarec.Guest.Preemption
import Dynarec.Proofs.Latest

/-!
The preemption word under the calls of several parties, in whatever order they are made. Main
statement: an event is pending just if the latest call that touches it has raised it, so that no
call undoes what another does to other events.
-/
namespace Dynarec.PreemptionWord

/-- Event number `k` is one of the events, whether it has a name or not. -/
def has (events : UInt32) (k : Fin 32) : Bool := events.toBitVec.getLsbD k

def pending (w : PreemptionWord) (k : Fin 32) : Bool := has w.bits k

/-- A call that changes the word. -/
inductive Call where
  | set (events : UInt32)
  | clear (events : UInt32)
  | init (events : UInt32)
  deriving DecidableEq, Repr

namespace Call

def perform (w : PreemptionWord) : Call → PreemptionWord
  | .set events => w.set events
  | .clear events => w.clear events
  | .init events => w.init events

/-- The call decides whether the event is pending. -/
def touches (k : Fin 32) : Call → Bool
  | .set events | .clear events => has events k
  | .init _ => true

/-- The event is pending behind the call, if the call touches it. -/
def raises (k : Fin 32) : Call → Bool
  | .set _ => true
  | .clear _ => false
  | .init events => has events k

end Call

/-- A word that parties share, and the calls that each of them has still to make. -/
structure Shared (ι : Type) where
  word : PreemptionWord
  due : ι → List Call

variable {ι : Type} [DecidableEq ι]

/-- A party has made a call and has others to make. -/
def Shared.made (s : Shared ι) (i : ι) (c : Call) (rest : List Call) : Shared ι :=
  ⟨c.perform s.word, Function.update s.due i rest⟩

/-- Some party makes its next call. The call reads and writes the word at once. -/
inductive Step : Shared ι → ι × Call → Shared ι → Prop
  | call {s : Shared ι} {i : ι} {c : Call} {rest : List Call} : s.due i = c :: rest →
      Step s (i, c) (s.made i c rest)

/-- Parties make calls one after another. -/
inductive Run : Shared ι → List (ι × Call) → Shared ι → Prop
  | done {s : Shared ι} : Run s [] s
  | step {s s' s'' : Shared ι} {made : ι × Call} {trace : List (ι × Call)} :
    Step s made s' → Run s' trace s'' → Run s (made :: trace) s''

/-- The calls of one party. -/
def callsOf (i : ι) (trace : List (ι × Call)) : List Call := (trace.filter (·.1 = i)).map (·.2)

variable {w w' : PreemptionWord} {s s' : Shared ι} {i j : ι} {c : Call} {calls : List Call}
  {trace : List (ι × Call)}

section Events

variable {a b : UInt32} {k : Fin 32}

@[simp] theorem has_zero : has 0 k = false := by simp [has]

@[simp] theorem has_or : has (a ||| b) k = (has a k || has b k) := by simp [has]

@[simp] theorem has_and : has (a &&& b) k = (has a k && has b k) := by simp [has]

@[simp] theorem has_complement : has (~~~a) k = !has a k := by simp [has]

theorem ext_has (h : ∀ k, has a k = has b k) : a = b := by
  apply UInt32.toBitVec_inj.1
  refine BitVec.eq_of_getLsbD_eq fun k hk => ?_
  exact h ⟨k, hk⟩

theorem ext_pending (h : ∀ k, w.pending k = w'.pending k) : w = w' := by
  obtain ⟨bits⟩ := w
  obtain ⟨bits'⟩ := w'
  exact congrArg PreemptionWord.mk (ext_has h)

theorem check_iff : w.check = true ↔ ∃ k, w.pending k = true := by
  rw [check, bne_iff_ne, ne_eq, ← not_forall_not]
  refine not_congr ⟨fun zero k => ?_, fun quiet => ext_has fun k => ?_⟩
  · simp [pending, zero]
  · rw [has_zero]
    exact Bool.eq_false_iff.2 (quiet k)

theorem test_iff : w.test a = true ↔ ∀ k, has a k = true → w.pending k = true := by
  rw [test, beq_iff_eq]
  constructor
  · intro within k raised
    have both : has (w.bits &&& a) k = true := by rw [within, raised]
    rw [has_and, Bool.and_eq_true] at both
    exact both.1
  · intro each
    refine ext_has fun k => ?_
    rw [has_and]
    cases raised : has a k with
    | false => rw [Bool.and_false]
    | true => rw [Bool.and_true]; exact each k raised

end Events

section Step

/-- A call decides about the events that it touches and leaves the others. -/
theorem pending_perform {k : Fin 32} : (c.perform w).pending k = true ↔
    (c.touches k = true ∧ c.raises k = true) ∨ (¬ c.touches k = true ∧ w.pending k = true) := by
  cases c with
  | set events =>
    rw [Call.perform, set, pending, has_or, Call.touches]
    cases has events k <;> simp [Call.raises, pending]
  | clear events =>
    rw [Call.perform, clear, pending, has_and, has_complement, Call.touches]
    cases has events k <;> simp [Call.raises, pending]
  | init events => simp [Call.perform, init, pending, Call.touches, Call.raises]

theorem pending_foldl (calls : List Call) {k : Fin 32} :
    (calls.foldl Call.perform {}).pending k = true ↔
    LatestIs (fun c => c.touches k = true) (fun c => c.raises k = true) calls := by
  refine foldl_iff_latestIs (P := fun w : PreemptionWord => w.pending k = true) ?_
    (fun w c => ?_) calls
  · simp [pending]
  · exact pending_perform

/-- The word depends on the calls only through the order of those that touch each event. -/
theorem foldl_congr {calls calls' : List Call}
    (agree : ∀ k, calls.filter (Call.touches k) = calls'.filter (Call.touches k)) :
    calls.foldl Call.perform {} = calls'.foldl Call.perform ({} : PreemptionWord) := by
  refine ext_pending fun k => Bool.eq_iff_iff.2 ?_
  rw [pending_foldl, pending_foldl, latestIs_iff_getLast?, latestIs_iff_getLast?]
  simp only [Bool.decide_eq_true, agree k]

end Step

section Run

theorem due_made_self (s : Shared ι) (i : ι) (c : Call) (rest : List Call) :
    (s.made i c rest).due i = rest :=
  Function.update_self ..

theorem due_made_of_ne (s : Shared ι) (c : Call) (rest : List Call) (differ : i ≠ j) :
    (s.made i c rest).due j = s.due j :=
  Function.update_of_ne differ.symm ..

theorem callsOf_cons_self (i : ι) (c : Call) (trace : List (ι × Call)) :
    callsOf i ((i, c) :: trace) = c :: callsOf i trace := by
  simp [callsOf]

theorem callsOf_cons_of_ne (c : Call) (trace : List (ι × Call)) (differ : i ≠ j) :
    callsOf j ((i, c) :: trace) = callsOf j trace := by
  simp [callsOf, differ]

/-- One call more at the front of what parties do: it is the next that its party has to make. -/
theorem order_cons_iff {rest : List Call} (next : s.due i = c :: rest) :
    (∀ j, callsOf j ((i, c) :: trace) ++ s'.due j = s.due j) ↔
      ∀ j, callsOf j trace ++ s'.due j = (s.made i c rest).due j := by
  refine forall_congr' fun j => ?_
  by_cases same : i = j
  · subst same
    rw [callsOf_cons_self, next, due_made_self, List.cons_append, List.cons.injEq,
      eq_self_iff_true, true_and]
  · rw [callsOf_cons_of_ne c trace same, due_made_of_ne s c rest same]

/-- What parties do is what they have to do, each in its own order and all in any order, and the
word behind it is that of the calls one after another. -/
theorem run_iff : Run s trace s' ↔
    (∀ i, callsOf i trace ++ s'.due i = s.due i) ∧
      s'.word = (trace.map Prod.snd).foldl Call.perform s.word := by
  constructor
  · intro run
    induction run with
    | done => exact ⟨fun _ => rfl, rfl⟩
    | step first _ ih =>
      cases first with
      | call next => exact ⟨(order_cons_iff next).2 ih.1, ih.2⟩
  · rintro ⟨order, word⟩
    induction trace generalizing s with
    | nil =>
      obtain ⟨word', due'⟩ := s'
      obtain rfl : due' = s.due := funext order
      obtain rfl : word' = s.word := word
      exact .done
    | cons made trace ih =>
      obtain ⟨i, c⟩ := made
      have next : s.due i = c :: (callsOf i trace ++ s'.due i) := by
        rw [← order i, callsOf_cons_self, List.cons_append]
      exact .step (.call next) (ih ((order_cons_iff next).1 order) word)

end Run

/-- Parties share a word in which nothing is pending. Whatever the order in which they make their
calls, an event is pending just if the latest call that touches it was a set, or an init with it. So
orders in which each event is touched by the same calls one after another lead to the same word. The
word is not zero just if some event is pending, and events pass the test just if all of them are. -/
theorem events_kept_across_parties (programs : ι → List Call) :
    (∀ trace, (∀ i, callsOf i trace = programs i) ↔
      ∃ s, Run ⟨{}, programs⟩ trace s ∧ ∀ i, s.due i = []) ∧
    ∀ trace s, Run ⟨{}, programs⟩ trace s →
      (∀ k, s.word.pending k = true ↔
        LatestIs (fun c => c.touches k = true) (fun c => c.raises k = true) (trace.map Prod.snd)) ∧
      (∀ {κ : Type} [DecidableEq κ] (programs' : κ → List Call) (trace' : List (κ × Call))
        (s' : Shared κ), Run ⟨{}, programs'⟩ trace' s' →
        (∀ k, (trace.map Prod.snd).filter (Call.touches k) =
          (trace'.map Prod.snd).filter (Call.touches k)) →
        s'.word = s.word) ∧
      (s.word.check = true ↔ ∃ k, s.word.pending k = true) ∧
      ∀ events, s.word.test events = true ↔ ∀ k, has events k = true → s.word.pending k = true := by
  refine ⟨fun trace => ⟨fun order => ?_, ?_⟩, fun trace s run => ?_⟩
  · refine ⟨⟨(trace.map Prod.snd).foldl Call.perform {}, fun _ => []⟩,
      run_iff.2 ⟨fun i => ?_, rfl⟩, fun _ => rfl⟩
    rw [List.append_nil, order]
  · rintro ⟨s, run, finished⟩ i
    have order := (run_iff.1 run).1 i
    rwa [finished, List.append_nil] at order
  · have word := (run_iff.1 run).2
    refine ⟨fun k => ?_, fun programs' trace' s' run' agree => ?_, check_iff,
      fun events => test_iff⟩
    · rw [word, pending_foldl]
    · rw [word, (run_iff.1 run').2]
      exact (foldl_congr agree).symm

/-- One party raises an event and then two others, the last of them without a name, while another
acknowledges the first. -/
def raceCalls : Bool → List Call
  | true => [.set 0x10, .set 0x80000002]
  | false => [.clear 0x10]

/-- Whichever of the last two calls comes first, both have their effect. -/
theorem acknowledgement_keeps_others : ∃ s s',
    Run ⟨{}, raceCalls⟩ [(true, .set 0x10), (false, .clear 0x10), (true, .set 0x80000002)] s ∧
    Run ⟨{}, raceCalls⟩ [(true, .set 0x10), (true, .set 0x80000002), (false, .clear 0x10)] s' ∧
    s'.word = s.word ∧ s.word.pending 31 = true ∧ s.word.test 0x80000002 = true ∧
    s.word.pending 4 = false := by
  obtain ⟨complete, kept⟩ := events_kept_across_parties raceCalls
  obtain ⟨s, run, -⟩ :=
    (complete [(true, .set 0x10), (false, .clear 0x10), (true, .set 0x80000002)]).1 (by decide)
  obtain ⟨s', run', -⟩ :=
    (complete [(true, .set 0x10), (true, .set 0x80000002), (false, .clear 0x10)]).1 (by decide)
  obtain ⟨-, same, -, -⟩ := kept _ s run
  have word : s.word = ⟨0x80000002⟩ := (run_iff.1 run).2
  refine ⟨s, s', run, run', same raceCalls _ s' run' (by decide), ?_⟩
  rw [word]
  decide

end Dynarec.PreemptionWord
