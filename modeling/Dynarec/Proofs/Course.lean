import Dynarec.Proofs.Transparency

/-!
The course of a run: the sessions at the head of the dispatcher's loop, and the blocks that
translated code enters between two of them. A run that comes to such a point ends as it does from
there.
-/
namespace Dynarec

namespace Engine

open X86 (Machine)

variable {e : Engine} {src : Nat → List Insn} {handlers : Handlers} {m : Machine}
  {g g' : GuestState} {c : Control}

/-- Every routine that a resident block calls is there. -/
def Equipped (e : Engine) (src : Nat → List Insn) (handlers : Handlers) : Prop :=
  ∀ ⦃id b⦄, e.block? id = some b → b.isValid = true → Covers handlers (src id.index)

theorem Shrunk.equipped {c : Engine} (h : e.Shrunk c) (equipped : e.Equipped src handlers) :
    c.Equipped src handlers := by
  intro id b hb valid
  obtain ⟨b₀, hb₀, valid₀, -⟩ := h.resident hb valid
  exact equipped hb₀ valid₀

/-- From `g` the guest goes through resident blocks to `g'`, and the last of them is left in the
given way. -/
inductive Strides (e : Engine) (src : Nat → List Insn) (handlers : Handlers) :
    GuestState → GuestState → Control → Prop
  | last {g g' : GuestState} {c : Control} {id : BlockId} (resident : e.lookup g.cpu.pc = some id)
      (ran : Platform.runBlock ⟨e.config, handlers⟩ g (src id.index) = some (g', c)) :
      Strides e src handlers g g' c
  | cons {g g₁ g' : GuestState} {c₁ c : Control} {id : BlockId}
      (resident : e.lookup g.cpu.pc = some id)
      (ran : Platform.runBlock ⟨e.config, handlers⟩ g (src id.index) = some (g₁, c₁))
      (branch : c₁.isBranch = true) (quiet : g₁.events.check = false)
      (rest : Strides e src handlers g₁ g' c) : Strides e src handlers g g' c

theorem Indexed.lookup_eq_some (h : e.Indexed) {pc : UInt32} {id : BlockId} :
    e.lookup pc = some id ↔ ∃ b, e.block? id = some b ∧ b.isValid = true ∧ b.entry = pc := by
  rw [h.lookup, h.index]

/-- Translated code that is about to run a block goes through blocks until it leaves, and leaves
with a code that fits. -/
theorem Resting.run_strides (h : e.Resting src) (equipped : e.Equipped src handlers)
    (entering : e.Entering handlers m) (fuel : Nat) :
    X86.run (e.context handlers) fuel m = .outOfFuel ∨
      ∃ g c code, e.Strides src handlers m.guest g c ∧ ExitCode.Fits g c code ∧
        X86.run (e.context handlers) fuel m = .left code.code g := by
  induction fuel using Nat.strongRecOn generalizing m with
  | ind fuel ih =>
    obtain ⟨poised, ⟨r, framed⟩, -, id, b, hb, valid, entry, hip⟩ := entering
    have resident := h.indexed.lookup_eq_some.2 ⟨b, hb, valid, entry⟩
    obtain ⟨g, c, ran, ⟨code, fits, departs⟩ | ⟨branch, n, m', pos, reaches, entering', rfl⟩⟩ :=
      h.step_block hb valid (equipped hb valid) poised framed hip
    · rcases departs.run_cases fuel with short | left
      · exact .inl short
      · exact .inr ⟨g, c, code, .last resident ran, fits, left⟩
    · by_cases short : fuel ≤ n
      · exact .inl (reaches.run_short short)
      · obtain ⟨rest, rfl⟩ : ∃ rest, fuel = n + rest := ⟨fuel - n, by omega⟩
        rw [reaches.run_eq]
        rcases ih rest (by omega) entering' with short | ⟨g, c', code, strides, fits, left⟩
        · exact .inl short
        · exact .inr ⟨g, c', code, .cons resident ran branch entering'.quiet strides, fits, left⟩

end Engine

namespace Session

open X86 (Machine Departs)

variable {σ : Type} {s s₁ s₂ : Session σ} {t : Translator σ} {handlers : Handlers}
  {src : Nat → List Insn} {code : ExitCode} {g : GuestState} {m : Machine}

theorem run_pending (pending : s.guest.events.check = true) (fuel : Nat) :
    s.run t handlers (fuel + 1) = (.finished (.preempted s.guest.events.bits), s) := by
  simp only [run, pending, if_true]

theorem run_failed {fault : Fault} (quiet : s.guest.events.check = false)
    (resolve : s.resolve t = (.error fault, s₁)) (fuel : Nat) :
    s.run t handlers (fuel + 1) = (.failed fault, s₁) := by
  simp only [run, quiet, resolve, Bool.false_eq_true, if_false]

/-- The dispatcher finds or makes the code for the program counter, in `s'`, and calls it with the
machine in state `m`. -/
structure Calls (s : Session σ) (t : Translator σ) (s' : Session σ) (m : Machine) : Prop where
  quiet : s.guest.events.check = false
  resolved : ∃ entry, s.resolve t = (.ok entry, s') ∧
    m = X86.boot s'.engine.stubs.prologue entry s'.guest

/-- The sessions at the head of the dispatcher's loop that a run comes to. -/
inductive Heads (t : Translator σ) (handlers : Handlers) (s : Session σ) : Session σ → Prop
  | start : Heads t handlers s s
  | dispatched {s₁ s₂ : Session σ} {m : Machine} {g : GuestState} (h : Heads t handlers s s₁)
      (calls : s₁.Calls t s₂ m) (departs : Departs (s₂.engine.context handlers) m .dispatch g) :
      Heads t handlers s (({ s₂ with guest := g } : Session σ).report (.dispatched g.cpu.pc))
  | invalidated {s₁ s₂ s₃ : Session σ} {m : Machine} {g : GuestState} {n : Nat}
      (h : Heads t handlers s s₁) (calls : s₁.Calls t s₂ m)
      (departs : Departs (s₂.engine.context handlers) m .invalidate g)
      (cleared : ({ s₂ with guest := g } : Session σ).invalidateLine = (.ok n, s₃)) :
      Heads t handlers s s₃

/-- The run comes to a point in `s'` at which translated code is about to run a block, with the
machine in state `m`. -/
structure Enters (t : Translator σ) (handlers : Handlers) (s s' : Session σ) (m : Machine) :
    Prop where
  called : ∃ s₁ m₀ n, s.Heads t handlers s₁ ∧ s₁.Calls t s' m₀ ∧
    m₀.Reaches (s'.engine.context handlers) n m
  entering : s'.engine.Entering handlers m

/-- When the code that the dispatcher has called leaves, the run goes on as the exit code says. -/
theorem Calls.run_eq (h : s.Calls t s₁ m)
    (departs : Departs (s₁.engine.context handlers) m code g) :
    ∃ enough, ∀ fuel, enough ≤ fuel →
      s.run t handlers (fuel + 1) = resume t handlers fuel { s₁ with guest := g } code := by
  obtain ⟨quiet, entry, resolve, rfl⟩ := h
  obtain ⟨enough, left⟩ := departs.run_eq
  refine ⟨enough, fun fuel le => run_eq_resume quiet resolve ?_⟩
  obtain ⟨rest, rfl⟩ : ∃ rest, fuel = enough + rest := ⟨fuel - enough, by omega⟩
  exact left rest

/-- A run that comes to the head of the loop ends as it does from there. -/
theorem Heads.run_eq (h : s.Heads t handlers s₁) :
    ∃ used enough, ∀ fuel, enough ≤ fuel →
      s.run t handlers (used + fuel) = s₁.run t handlers fuel := by
  induction h with
  | start => exact ⟨0, 0, fun fuel _ => by rw [Nat.zero_add]⟩
  | dispatched _ calls departs ih =>
    obtain ⟨used, enough, passes⟩ := ih
    obtain ⟨more, goes⟩ := calls.run_eq departs
    refine ⟨used + 1, enough + more, fun fuel le => ?_⟩
    rw [Nat.add_assoc, Nat.add_comm 1, passes (fuel + 1) (by omega), goes fuel (by omega)]
    rfl
  | invalidated _ calls departs cleared ih =>
    obtain ⟨used, enough, passes⟩ := ih
    obtain ⟨more, goes⟩ := calls.run_eq departs
    refine ⟨used + 1, enough + more, fun fuel le => ?_⟩
    rw [Nat.add_assoc, Nat.add_comm 1, passes (fuel + 1) (by omega), goes fuel (by omega)]
    simp only [resume, cleared]

theorem Enters.run_eq (h : s.Enters t handlers s₁ m)
    (departs : Departs (s₁.engine.context handlers) m code g) :
    ∃ used enough, ∀ fuel, enough ≤ fuel →
      s.run t handlers (used + fuel) = resume t handlers fuel { s₁ with guest := g } code := by
  obtain ⟨s₀, m₀, n, heads, calls, reaches⟩ := h.called
  obtain ⟨used, enough, passes⟩ := heads.run_eq
  obtain ⟨more, goes⟩ := calls.run_eq (departs.of_reaches reaches)
  refine ⟨used + 1, enough + more, fun fuel le => ?_⟩
  rw [Nat.add_assoc, Nat.add_comm 1, passes (fuel + 1) (by omega), goes fuel (by omega)]

theorem Calls.made (h : s.Calls t s₁ m) (made : s.engine.Made src) :
    ∃ src₁, s₁.engine.Made src₁ := by
  obtain ⟨-, entry, resolve, -⟩ := h
  obtain ⟨fault, s', failed, -⟩ | ⟨entry', s', src', found, resolved⟩ := resolve_cases made (t := t)
  · exact absurd (failed.symm.trans resolve) nofun
  · cases found.symm.trans resolve
    exact ⟨src', resolved.made⟩

/-- Along a run the engine is always one that operations have made. -/
theorem Heads.made (h : s.Heads t handlers s₁) (made : s.engine.Made src) :
    ∃ src₁, s₁.engine.Made src₁ := by
  induction h with
  | start => exact ⟨src, made⟩
  | dispatched _ calls _ ih =>
    obtain ⟨src₁, made₁⟩ := ih
    exact calls.made made₁
  | @invalidated s₁ s₂ s₃ m g n _ calls _ cleared ih =>
    obtain ⟨src₁, made₁⟩ := ih
    obtain ⟨src₂, made₂⟩ := calls.made made₁
    obtain ⟨removed, s', done, -, -, made₃⟩ :=
      invalidateLine_cases (s := { s₂ with guest := g }) made₂
    cases done.symm.trans cleared
    exact ⟨src₂, made₃⟩

/-- A round of the dispatcher that has code to call: it runs out of fuel there, or goes on behind
the blocks that this has gone through. -/
theorem Resolved.round_cases {entry : UInt64} {src₁ : Nat → List Insn}
    (h : s.Resolved t src entry s₁ src₁) (quiet : s.guest.events.check = false)
    (resolve : s.resolve t = (.ok entry, s₁)) (equipped : s₁.engine.Equipped src₁ handlers)
    (fuel : Nat) :
    s.run t handlers (fuel + 1) = (.outOfFuel, s₁) ∨
      ∃ g c code, s₁.engine.Strides src₁ handlers s₁.guest g c ∧ ExitCode.Fits g c code ∧
        s.run t handlers (fuel + 1) = resume t handlers fuel { s₁ with guest := g } code := by
  obtain ⟨id, b, hb, valid, atPc, rfl⟩ := h.block
  have resting := h.made.resting
  obtain ⟨n, m, reaches, entering, guest⟩ :=
    resting.call_enters hb valid (h.guest ▸ atPc) (h.guest ▸ quiet) handlers
  by_cases short : fuel ≤ n
  · exact .inl (run_eq_outOfFuel quiet resolve (reaches.run_short short))
  · obtain ⟨rest, rfl⟩ : ∃ rest, fuel = n + rest := ⟨fuel - n, by omega⟩
    rcases resting.run_strides equipped entering rest with short | ⟨g, c, code, strides, fits, left⟩
    · exact .inl (run_eq_outOfFuel quiet resolve ((reaches.run_eq rest).trans short))
    · exact .inr ⟨g, c, code, guest ▸ strides, fits,
        run_eq_resume quiet resolve ((reaches.run_eq rest).trans left)⟩

section Round

variable (covers : ∀ source pc n, Covers handlers (t.translate source pc n).1)
include covers

theorem Resolved.equipped {entry : UInt64} {src₁ : Nat → List Insn}
    (h : s.Resolved t src entry s₁ src₁) (equipped : s.engine.Equipped src handlers) :
    s₁.engine.Equipped src₁ handlers := by
  intro id b hb valid
  obtain ⟨same, b₀, hb₀, valid₀, -⟩ | ⟨-, new⟩ := h.source hb valid
  · rw [same]
    exact equipped hb₀ valid₀
  · rw [new]
    exact covers _ _ _

/-- What one round of the dispatcher can do: return at once, fail, run out of fuel in translated
code, or go on behind the blocks that this has gone through. -/
theorem run_succ_cases (made : s.engine.Made src) (equipped : s.engine.Equipped src handlers)
    (fuel : Nat) :
    (s.guest.events.check = true ∧
      s.run t handlers (fuel + 1) = (.finished (.preempted s.guest.events.bits), s)) ∨
    s.guest.events.check = false ∧
      ((∃ fault s', s.resolve t = (.error fault, s') ∧
        s.run t handlers (fuel + 1) = (.failed fault, s')) ∨
      ∃ entry s₁ src₁, s.resolve t = (.ok entry, s₁) ∧ s.Resolved t src entry s₁ src₁ ∧
        s₁.engine.Equipped src₁ handlers ∧
        (s.run t handlers (fuel + 1) = (.outOfFuel, s₁) ∨
        ∃ g c code, s₁.engine.Strides src₁ handlers s₁.guest g c ∧ ExitCode.Fits g c code ∧
          s.run t handlers (fuel + 1) = resume t handlers fuel { s₁ with guest := g } code)) := by
  cases quiet : s.guest.events.check with
  | true => exact .inl ⟨rfl, run_pending quiet fuel⟩
  | false =>
    refine .inr ⟨rfl, ?_⟩
    obtain ⟨fault, s', resolve, -⟩ | ⟨entry, s₁, src₁, resolve, resolved⟩ :=
      resolve_cases made (t := t)
    · exact .inl ⟨fault, s', resolve, run_failed quiet resolve fuel⟩
    · have equipped₁ := resolved.equipped covers equipped
      exact .inr ⟨entry, s₁, src₁, resolve, resolved, equipped₁,
        resolved.round_cases quiet resolve equipped₁ fuel⟩

end Round

end Session
end Dynarec
