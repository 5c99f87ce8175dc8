import Dynarec.Proofs.Roster

/-!
Runs without code: at each block boundary the block at the program counter is found in the roster or
added to it, and its instructions are carried out one by one. A run of an engine ends just where
this ends, and leaves the engine with the roster that this leaves.
-/
namespace Dynarec

namespace Platform

variable (config : Config) (handlers : Handlers) (chaining : Bool) (g : GuestState)

theorem step_chaining (i : Insn) : step ⟨{ config with directChaining := chaining }, handlers⟩ g i =
    step ⟨config, handlers⟩ g i := by
  unfold step
  cases i.op <;> rfl

/-- What instructions do does not depend on whether blocks are linked. -/
theorem runBlock_chaining (insns : List Insn) :
    runBlock ⟨{ config with directChaining := chaining }, handlers⟩ g insns =
      runBlock ⟨config, handlers⟩ g insns := by
  induction insns generalizing g with
  | nil => rfl
  | cons i rest ih => simp only [runBlock, step_chaining, ih]

end Platform

theorem Engine.Kin.runBlock {f e : Engine} (kin : f.Kin e) (handlers : Handlers) (g : GuestState)
    (insns : List Insn) :
    Platform.runBlock ⟨f.config, handlers⟩ g insns =
      Platform.runBlock ⟨e.config, handlers⟩ g insns := by
  rw [← Platform.runBlock_chaining f.config handlers false,
    ← Platform.runBlock_chaining e.config handlers false]
  exact congrArg (fun config => Platform.runBlock ⟨config, handlers⟩ g insns) kin.config

/-- A session without code: the roster of its engine, the instructions that each block was made
from, the guest and the source of instructions. -/
structure Outline (σ : Type) where
  roster : Roster
  sources : Nat → List Insn
  guest : GuestState
  source : σ

namespace Outline

variable {σ : Type}

/-- The block for the program counter, which is added if it has to be. -/
def resolve (f : Engine) (t : Translator σ) (o : Outline σ) : Except Fault BlockId × Outline σ :=
  match o.roster.find o.guest.cpu.pc with
  | some id => (.ok id, o)
  | none =>
    let (insns, source) := t.translate o.source o.guest.cpu.pc f.config.maxBlockInsns
    match o.roster.emit f o.guest.cpu.pc insns with
    | (.error fault, roster) => (.error fault, { o with roster, source })
    | (.ok id, roster) =>
      (.ok id, { o with roster, source, sources := Engine.noted o.sources id insns })

/-- Takes the blocks out of use that the cache line of the last invalidation touches. -/
def invalidateLine (o : Outline σ) : Outline σ :=
  let line := o.guest.cpu.icbiEa &&& ~~~(cacheLine - 1)
  { o with roster := o.roster.drop (o.roster.touched line (line.toNat + cacheLine.toNat)) }

/-- What comes behind a block that was left in the given way: the result of the run, or the next
block. -/
def leave (o : Outline σ) : Control → Option RunResult × Outline σ
  | .syscall => (some (.finished .systemCall), o)
  | .invalidate => (none, o.invalidateLine)
  | .next | .exit _ | .indirect => (none, o)

/-- Carries out one block. -/
def step (f : Engine) (t : Translator σ) (handlers : Handlers) (o : Outline σ) :
    Option RunResult × Outline σ :=
  if o.guest.events.check then (some (.finished (.preempted o.guest.events.bits)), o)
  else
    match o.resolve f t with
    | (.error fault, o) => (some (.failed fault), o)
    | (.ok id, o) =>
      match Platform.runBlock ⟨f.config, handlers⟩ o.guest (o.sources id.index) with
      | none => (some (.failed (.violation .assertionFailed)), o)
      | some (guest, c) => { o with guest }.leave c

/-- Block by block a run ends with a result. -/
inductive Ends (f : Engine) (t : Translator σ) (handlers : Handlers) :
    Option RunResult × Outline σ → RunResult → Outline σ → Prop
  | done (result : RunResult) (o : Outline σ) : Ends f t handlers (some result, o) result o
  | step {o o' : Outline σ} {result : RunResult}
      (h : Ends f t handlers (o.step f t handlers) result o') :
      Ends f t handlers (none, o) result o'

variable {f : Engine} {t : Translator σ} {handlers : Handlers} {o o₁ o' : Outline σ} {id : BlockId}
  {g : GuestState} {c : Control}

theorem Ends.unique {x : Option RunResult × Outline σ} {result result' : RunResult}
    {o'' : Outline σ} (h : Ends f t handlers x result o') (h' : Ends f t handlers x result' o'') :
    result = result' ∧ o' = o'' := by
  induction h with
  | done =>
    cases h'
    exact ⟨rfl, rfl⟩
  | step _ ih =>
    cases h' with
    | step h' => exact ih h'

theorem step_pending (pending : o.guest.events.check = true) :
    o.step f t handlers = (some (.finished (.preempted o.guest.events.bits)), o) := if_pos pending

theorem step_failed {fault : Fault} (quiet : o.guest.events.check = false)
    (resolve : o.resolve f t = (.error fault, o₁)) :
    o.step f t handlers = (some (.failed fault), o₁) := by
  simp only [step, quiet, resolve, Bool.false_eq_true, if_false]

theorem step_resolved (quiet : o.guest.events.check = false)
    (resolve : o.resolve f t = (.ok id, o₁))
    (ran : Platform.runBlock ⟨f.config, handlers⟩ o₁.guest (o₁.sources id.index) = some (g, c)) :
    o.step f t handlers = { o₁ with guest := g }.leave c := by
  simp only [step, quiet, resolve, ran, Bool.false_eq_true, if_false]

/-- A block is carried out alike before and behind its resolution. -/
theorem step_of_resolve (quiet : o.guest.events.check = false)
    (resolve : o.resolve f t = (.ok id, o₁)) (quiet₁ : o₁.guest.events.check = false)
    (again : o₁.resolve f t = (.ok id, o₁)) : o.step f t handlers = o₁.step f t handlers := by
  simp only [step, quiet, quiet₁, resolve, again, Bool.false_eq_true, if_false]

theorem leave_branch (branch : c.isBranch = true) : o.leave c = (none, o) := by
  cases c with
  | exit => rfl
  | indirect => rfl
  | next => cases branch
  | syscall => cases branch
  | invalidate => cases branch

end Outline

namespace Engine

/-- The engine has been made by operations, from blocks whose routines are there, and is kin to
`f`. -/
structure Tracked (f : Engine) (routines : Handlers) (e : Engine) (src : Nat → List Insn) :
    Prop where
  made : e.Made src
  equipped : e.Equipped src routines
  kin : f.Kin e

variable {f e c : Engine} {routines handlers : Handlers} {src : Nat → List Insn}

theorem Shrunk.tracked (h : e.Shrunk c) (made : c.Made src) (tracked : Tracked f routines e src) :
    Tracked f routines c src :=
  ⟨made, h.equipped tracked.equipped, (kin_of_frame h.frame).symm.trans tracked.kin⟩

theorem Equipped.mono (h : e.Equipped src routines)
    (provided : ∀ addr, (routines addr).isSome = true → (handlers addr).isSome = true) :
    e.Equipped src handlers := by
  intro id b hb valid i hi addr word op
  exact provided addr (h hb valid i hi addr word op)

end Engine

namespace Session

open Engine
open X86 (Machine Departs)

variable {σ : Type} {s s' : Session σ} {t : Translator σ}
  {routines handlers : Handlers} {f : Engine} {src : Nat → List Insn} {id : BlockId}
  {g : GuestState} {c : Control} {result : RunResult}

def outline (s : Session σ) (src : Nat → List Insn) : Outline σ :=
  ⟨s.engine.roster, src, s.guest, s.source⟩

theorem outline_resolve (f : Engine) (t : Translator σ) (src : Nat → List Insn)
    (indexed : s.engine.Indexed) (found : s.engine.lookup s.guest.cpu.pc = some id) :
    (s.outline src).resolve f t = (.ok id, s.outline src) := by
  have there : s.engine.roster.find s.guest.cpu.pc = some id :=
    (indexed.lookup_eq_find _).symm.trans found
  simp only [Outline.resolve, outline, there]

/-- A resident block is carried out as its instructions are. -/
theorem outline_step (tracked : Tracked f routines s.engine src)
    (quiet : s.guest.events.check = false) (found : s.engine.lookup s.guest.cpu.pc = some id)
    (ran : Platform.runBlock ⟨s.engine.config, handlers⟩ s.guest (src id.index) = some (g, c)) :
    (s.outline src).step f t handlers = (outline { s with guest := g } src).leave c :=
  Outline.step_resolved quiet (outline_resolve f t src tracked.made.resting.indexed found)
    ((tracked.kin.runBlock ..).trans ran)

theorem resolve_outline (tracked : Tracked f routines s.engine src) (t : Translator σ) :
    (∃ fault s₁, s.resolve t = (.error fault, s₁) ∧ Tracked f routines s₁.engine src ∧
      (s.outline src).resolve f t = (.error fault, s₁.outline src)) ∨
    ∃ entry id s₁ src₁, s.resolve t = (.ok entry, s₁) ∧ s.Resolved t src entry s₁ src₁ ∧
      s₁.engine.lookup s.guest.cpu.pc = some id ∧
      (s.outline src).resolve f t = (.ok id, s₁.outline src₁) := by
  have indexed := tracked.made.resting.indexed
  cases found : s.engine.lookup s.guest.cpu.pc with
  | some id =>
    obtain ⟨entry, jumps, log, resolve, resolved⟩ := resolve_found tracked.made found (t := t)
    refine .inr ⟨entry, id, _, src, resolve, resolved, ?_, outline_resolve f t src indexed found⟩
    rw [resolved.made.resting.indexed.lookup_eq_find, roster_withJumps,
      ← indexed.lookup_eq_find, found]
  | none =>
    have absent : s.engine.roster.find s.guest.cpu.pc = none :=
      (indexed.lookup_eq_find _).symm.trans found
    have asked : t.translate s.source s.guest.cpu.pc f.config.maxBlockInsns =
        t.translate s.source s.guest.cpu.pc s.engine.config.maxBlockInsns :=
      congrArg (fun config => t.translate s.source s.guest.cpu.pc config.maxBlockInsns)
        tracked.kin.config
    obtain ⟨jumps, log, made,
        ⟨fault, -, failed, resolve⟩ | ⟨entry, id, c, done, resolve, new, resolved⟩⟩ :=
      resolve_new tracked.made found (t := t)
    · refine .inl ⟨fault, _, resolve, ⟨made, tracked.equipped, tracked.kin⟩, ?_⟩
      have emit := made.resting.roster_emitBlock (f := f) tracked.kin (failed #[])
      rw [roster_withJumps, fetched] at emit
      simp only [Outline.resolve, outline, absent, asked, emit]
      rfl
    · refine .inr ⟨entry, id, _, _, resolve, resolved, new, ?_⟩
      have emit := made.resting.roster_emitBlock (f := f) tracked.kin (done #[])
      rw [roster_withJumps, fetched] at emit
      simp only [Outline.resolve, outline, absent, asked, emit]
      rfl

theorem invalidateLine_outline (tracked : Tracked f routines s.engine src) :
    ∃ n s₁, s.invalidateLine = (.ok n, s₁) ∧ Tracked f routines s₁.engine src ∧
      s₁.outline src = (s.outline src).invalidateLine := by
  obtain ⟨n, s₁, cleared, guest, shrunk, made⟩ := invalidateLine_cases tracked.made
  refine ⟨n, s₁, cleared, shrunk.tracked made tracked, ?_⟩
  let line := s.guest.cpu.icbiEa &&& ~~~(cacheLine - 1)
  have done :
      ((EngineM.invalidateRange line (line.toNat + cacheLine.toNat)).perform s.engine s.log).1 =
        (.ok n, s₁.engine) :=
    congrArg (fun x => (x.1, x.2.engine)) cleared
  have source : s.source = s₁.source := congrArg (·.2.source) cleared
  have roster := (tracked.made.resting.roster_invalidateRange done).2
  simp only [outline, Outline.invalidateLine, roster, guest, source]
  rfl

/-- The blocks that translated code goes through are carried out one by one. -/
theorem ends_of_strides (tracked : Tracked f routines s.engine src) {g' : GuestState}
    (strides : s.engine.Strides src handlers g g' c) (quiet : g.events.check = false)
    {o' : Outline σ}
    (rest : Outline.Ends f t handlers ((outline { s with guest := g' } src).leave c) result o') :
    Outline.Ends f t handlers (none, outline { s with guest := g } src) result o' := by
  induction strides with
  | @last g g' c id resident ran =>
    refine .step ?_
    rw [outline_step (s := { s with guest := g }) tracked quiet resident ran]
    exact rest
  | @cons g g₁ g' c₁ c id resident ran branch quiet₁ _ ih =>
    refine .step ?_
    rw [outline_step (s := { s with guest := g }) tracked quiet resident ran,
      Outline.leave_branch branch]
    exact ih quiet₁ rest

/-- Behind a block: if every further run ends as block by block, then so does this one. -/
theorem ends_of_resume (tracked : Tracked f routines s.engine src) {code : ExitCode} {fuel : Nat}
    (fits : ExitCode.Fits s.guest c code) (ran : s.resume t handlers fuel code = (result, s'))
    (later : ∀ {s₁ : Session σ} {src₁ : Nat → List Insn}, Tracked f routines s₁.engine src₁ →
      s₁.run t handlers fuel = (result, s') → ∃ src', Tracked f routines s'.engine src' ∧
        Outline.Ends f t handlers (none, s₁.outline src₁) result (s'.outline src')) :
    ∃ src', Tracked f routines s'.engine src' ∧
      Outline.Ends f t handlers ((s.outline src).leave c) result (s'.outline src') := by
  cases fits with
  | preempt branch pending =>
    cases ran
    refine ⟨src, tracked, ?_⟩
    rw [Outline.leave_branch branch]
    refine .step ?_
    rw [Outline.step_pending pending]
    exact .done ..
  | dispatch branch =>
    rw [Outline.leave_branch branch]
    exact @later (s.report (.dispatched s.guest.cpu.pc)) src tracked ran
  | syscall =>
    cases ran
    exact ⟨src, tracked, .done ..⟩
  | invalidate =>
    obtain ⟨n, s₁, cleared, tracked₁, outline₁⟩ := invalidateLine_outline tracked
    simp only [resume, cleared] at ran
    obtain ⟨src', tracked', ends⟩ := later tracked₁ ran
    rw [outline₁] at ends
    exact ⟨src', tracked', ends⟩

section Run

variable (covers : ∀ source pc n, Covers routines (t.translate source pc n).1)
  (provided : ∀ addr, (routines addr).isSome = true → (handlers addr).isSome = true)

section
include covers

theorem Resolved.tracked {entry : UInt64} {s₁ : Session σ} {src₁ : Nat → List Insn}
    (h : s.Resolved t src entry s₁ src₁) (tracked : Tracked f routines s.engine src) :
    Tracked f routines s₁.engine src₁ :=
  ⟨h.made, h.equipped covers tracked.equipped, (kin_of_frame h.frame).symm.trans tracked.kin⟩

/-- One block from the head of the dispatcher's loop: it is carried out in the session that has its
code. -/
theorem step_cases (handlers : Handlers) (tracked : Tracked f routines s.engine src)
    (quiet : s.guest.events.check = false) :
    (∃ fault s₁, s.resolve t = (.error fault, s₁) ∧ Tracked f routines s₁.engine src ∧
      (s.outline src).step f t handlers = (some (.failed fault), s₁.outline src)) ∨
    ∃ entry s₁ src₁, s.resolve t = (.ok entry, s₁) ∧ s.Resolved t src entry s₁ src₁ ∧
      Tracked f routines s₁.engine src₁ ∧
      (s.outline src).step f t handlers = (s₁.outline src₁).step f t handlers := by
  obtain ⟨fault, s₁, resolve, tracked₁, failed⟩ | ⟨entry, id, s₁, src₁, resolve, resolved,
      found, resolve'⟩ :=
    resolve_outline tracked t
  · exact .inl ⟨fault, s₁, resolve, tracked₁, Outline.step_failed quiet failed⟩
  · have tracked₁ := resolved.tracked covers tracked
    have again := outline_resolve f t src₁ tracked₁.made.resting.indexed (resolved.guest ▸ found)
    have quiet₁ : s₁.guest.events.check = false := resolved.guest ▸ quiet
    exact .inr ⟨entry, s₁, src₁, resolve, resolved, tracked₁,
      Outline.step_of_resolve quiet resolve' quiet₁ again⟩

include provided

/-- A run that ends ends as block by block. -/
theorem ends_of_run (tracked : Tracked f routines s.engine src) {fuel : Nat}
    (ran : s.run t handlers fuel = (result, s')) (returns : result ≠ .outOfFuel) :
    ∃ src', Tracked f routines s'.engine src' ∧
      Outline.Ends f t handlers (none, s.outline src) result (s'.outline src') := by
  induction fuel generalizing s src with
  | zero =>
    cases ran
    exact absurd rfl returns
  | succ fuel ih =>
    cases quiet : s.guest.events.check with
    | true =>
      cases (run_pending quiet fuel).symm.trans ran
      refine ⟨src, tracked, .step ?_⟩
      rw [Outline.step_pending quiet]
      exact .done ..
    | false =>
      obtain ⟨fault, s₁, resolve, tracked₁, failed⟩ | ⟨entry, s₁, src₁, resolve, resolved,
          tracked₁, same⟩ :=
        step_cases covers handlers tracked quiet
      · cases (run_failed quiet resolve fuel).symm.trans ran
        refine ⟨src, tracked₁, .step ?_⟩
        rw [failed]
        exact .done ..
      · obtain short | ⟨g, c, code, strides, fits, goes⟩ :=
          resolved.round_cases quiet resolve (tracked₁.equipped.mono provided) fuel
        · cases short.symm.trans ran
          exact absurd rfl returns
        · obtain ⟨src', tracked', rest⟩ :=
            ends_of_resume (s := { s₁ with guest := g }) tracked₁ fits
              (goes.symm.trans ran) fun tracked₂ ran₂ => ih tracked₂ ran₂
          refine ⟨src', tracked', .step ?_⟩
          rw [same]
          cases ends_of_strides tracked₁ strides (resolved.guest ▸ quiet) rest with
          | step ends => exact ends

end

/-- With enough fuel the run ends with the result, in a session whose outline is `o`. -/
def Lands (f : Engine) (routines : Handlers) (run : Nat → RunResult × Session σ)
    (result : RunResult) (o : Outline σ) : Prop :=
  ∃ s src enough, Tracked f routines s.engine src ∧ s.outline src = o ∧ ∀ fuel, enough ≤ fuel →
    run fuel = (result, s)

theorem Lands.of_run_eq {run run' : Nat → RunResult × Session σ} {o : Outline σ}
    (h : Lands f routines run' result o)
    (goes : ∃ enough, ∀ fuel, enough ≤ fuel → run (fuel + 1) = run' fuel) :
    Lands f routines run result o := by
  obtain ⟨s, src, enough, tracked, outline, ends⟩ := h
  obtain ⟨more, goes⟩ := goes
  refine ⟨s, src, enough + more + 1, tracked, outline, fun fuel le => ?_⟩
  obtain ⟨rest, rfl⟩ : ∃ rest, fuel = rest + 1 := ⟨fuel - 1, by omega⟩
  rw [goes rest (by omega), ends rest (by omega)]

theorem Lands.of_succ_eq {run : Nat → RunResult × Session σ} {s : Session σ}
    (tracked : Tracked f routines s.engine src) (ends : ∀ fuel, run (fuel + 1) = (result, s)) :
    Lands f routines run result (s.outline src) := by
  refine ⟨s, src, 1, tracked, rfl, fun fuel le => ?_⟩
  obtain ⟨rest, rfl⟩ : ∃ rest, fuel = rest + 1 := ⟨fuel - 1, by omega⟩
  exact ends rest

/-- If the outline is that of a session, then its run ends with the result. -/
def EndsAtHead (f : Engine) (t : Translator σ) (routines handlers : Handlers)
    (x : Option RunResult × Outline σ) (result : RunResult) (o' : Outline σ) : Prop :=
  ∀ {s : Session σ} {src : Nat → List Insn}, Tracked f routines s.engine src →
    x = (none, s.outline src) → Lands f routines (fun fuel => s.run t handlers fuel) result o'

/-- If the outline is that of a session whose code is about to run a block, then the code leaves,
and the run ends with the result. -/
def EndsInside (f : Engine) (t : Translator σ) (routines handlers : Handlers)
    (x : Option RunResult × Outline σ) (result : RunResult) (o' : Outline σ) : Prop :=
  ∀ {s : Session σ} {src : Nat → List Insn} {m : Machine}, Tracked f routines s.engine src →
    s.engine.Entering handlers m → x = (none, outline { s with guest := m.guest } src) →
    ∃ code g, Departs (s.engine.context handlers) m code g ∧
      Lands f routines (fun fuel => resume t handlers fuel { s with guest := g } code) result o'

theorem lands_resume (tracked : Tracked f routines s.engine src) {code : ExitCode} {o' : Outline σ}
    (fits : ExitCode.Fits s.guest c code)
    (ends : Outline.Ends f t handlers ((s.outline src).leave c) result o')
    (head : EndsAtHead f t routines handlers ((s.outline src).leave c) result o') :
    Lands f routines (fun fuel => s.resume t handlers fuel code) result o' := by
  cases fits with
  | preempt branch pending =>
    rw [Outline.leave_branch branch] at ends
    cases ends with
    | step ends =>
      rw [Outline.step_pending pending] at ends
      cases ends
      exact .of_succ_eq tracked fun _ => rfl
  | dispatch branch =>
    exact head (s := s.report (.dispatched s.guest.cpu.pc)) tracked (Outline.leave_branch branch)
  | syscall =>
    cases ends
    exact .of_succ_eq tracked fun _ => rfl
  | invalidate =>
    obtain ⟨n, s₁, cleared, tracked₁, outline₁⟩ := invalidateLine_outline tracked
    have lands := head tracked₁ (congrArg (Prod.mk none) outline₁.symm)
    simp only [resume, cleared]
    exact lands

include provided

/-- One block inside translated code. -/
theorem endsInside_step {o o' : Outline σ}
    (ends : Outline.Ends f t handlers (o.step f t handlers) result o')
    (head : EndsAtHead f t routines handlers (o.step f t handlers) result o')
    (inside : EndsInside f t routines handlers (o.step f t handlers) result o') :
    EndsInside f t routines handlers (none, o) result o' := by
  intro s src m tracked entering same
  obtain rfl := (Prod.mk.inj same).2
  have resting := tracked.made.resting
  obtain ⟨poised, ⟨r, framed⟩, quiet, id, b, hb, valid, entry, hip⟩ := entering
  have found := resting.indexed.lookup_eq_some.2 ⟨b, hb, valid, entry⟩
  obtain ⟨g, c, ran, next⟩ :=
    resting.step_block hb valid (tracked.equipped.mono provided hb valid) poised framed hip
  rw [outline_step (s := { s with guest := m.guest }) tracked quiet found ran] at ends head inside
  obtain ⟨code, fits, departs⟩ | ⟨branch, n, m', -, reaches, entering', rfl⟩ := next
  · exact ⟨code, g, departs, lands_resume (s := { s with guest := g }) tracked fits ends head⟩
  · obtain ⟨code, g, departs, lands⟩ := inside tracked entering' (Outline.leave_branch branch)
    exact ⟨code, g, departs.of_reaches reaches, lands⟩

include covers

/-- One block from the head of the dispatcher's loop. -/
theorem endsAtHead_step {o o' : Outline σ}
    (ends : Outline.Ends f t handlers (o.step f t handlers) result o')
    (head : EndsAtHead f t routines handlers (o.step f t handlers) result o')
    (inside : EndsInside f t routines handlers (o.step f t handlers) result o') :
    EndsAtHead f t routines handlers (none, o) result o' := by
  intro s src tracked same
  obtain rfl := (Prod.mk.inj same).2
  cases quiet : s.guest.events.check with
  | true =>
    rw [Outline.step_pending quiet] at ends
    cases ends
    exact .of_succ_eq tracked (run_pending quiet)
  | false =>
    obtain ⟨fault, s₁, resolve, tracked₁, failed⟩ | ⟨entry, s₁, src₁, resolve, resolved,
        tracked₁, same⟩ :=
      step_cases covers handlers tracked quiet
    · rw [failed] at ends
      cases ends
      exact .of_succ_eq tracked₁ (run_failed quiet resolve)
    · rw [same] at ends head inside
      obtain ⟨id, b, hb, valid, atPc, rfl⟩ := resolved.block
      obtain ⟨n, m, reaches, entering, guest⟩ :=
        resolved.made.resting.call_enters hb valid (resolved.guest ▸ atPc)
          (resolved.guest ▸ quiet) handlers
      obtain ⟨code, g, departs, lands⟩ :=
        endsInside_step provided ends head inside tracked₁ entering
          (by rw [guest])
      have calls : s.Calls t s₁ _ := ⟨quiet, _, resolve, rfl⟩
      exact lands.of_run_eq (calls.run_eq (departs.of_reaches reaches))

theorem endsAtHead_and_endsInside {x : Option RunResult × Outline σ} {o' : Outline σ}
    (ends : Outline.Ends f t handlers x result o') :
    EndsAtHead f t routines handlers x result o' ∧
      EndsInside f t routines handlers x result o' := by
  induction ends with
  | done result o =>
    refine ⟨?_, ?_⟩
    · intro s src _ same
      cases (Prod.mk.inj same).1
    · intro s src m _ _ same
      cases (Prod.mk.inj same).1
  | step ends ih =>
    exact ⟨endsAtHead_step covers provided ends ih.1 ih.2, endsInside_step provided ends ih.1 ih.2⟩

/-- A run ends where the run block by block ends. -/
theorem lands_of_ends (tracked : Tracked f routines s.engine src) {o' : Outline σ}
    (ends : Outline.Ends f t handlers (none, s.outline src) result o') :
    Lands f routines (fun fuel => s.run t handlers fuel) result o' :=
  (endsAtHead_and_endsInside covers provided ends).1 tracked rfl

end Run

end Session
end Dynarec
