import Dynarec.Proofs.Course
import Dynarec.Proofs.Staleness

/-!
Preemption. Events are noticed when a run starts and at the end of every block, and then the run
ends before another instruction is carried out or asked for.
-/
namespace Dynarec

theorem PreemptionWord.bits_ne_zero {w : PreemptionWord} (h : w.check = true) : w.bits ≠ 0 := by
  rintro none
  rw [check, none] at h
  cases h

/-- Why a run ends behind a block that was left in the given way, with events pending. -/
def ExitReason.pending (g : GuestState) : Control → ExitReason
  | .syscall => .systemCall
  | .next | .exit _ | .indirect | .invalidate => .preempted g.events.bits

namespace Session

open X86 (Machine Departs)

variable {σ : Type} {s s₁ s' : Session σ} {t : Translator σ} {handlers : Handlers}
  {src : Nat → List Insn} {g : GuestState} {c : Control} {code : ExitCode}

/-- Behind a block with events pending: if the block has asked for an invalidation, the blocks that
the cache line touches have gone, so that no instruction of the line is left translated. Otherwise
nothing has changed. -/
def Halts (s : Session σ) (src : Nat → List Insn) : Control → Session σ → Prop
  | .invalidate, s' => ∃ n, s.invalidateLine = (.ok n, s') ∧
      s.engine.Swept (lineStart s.guest.cpu.icbiEa) ((lineStart s.guest.cpu.icbiEa).toNat + 32) n
        s'.engine ∧
      s'.engine.Untranslated src (lineStart s.guest.cpu.icbiEa)
        ((lineStart s.guest.cpu.icbiEa).toNat + 32)
  | _, s' => s' = s

theorem Halts.of_branch (h : c.isBranch = true) : s.Halts src c s := by
  cases c with
  | exit => rfl
  | indirect => rfl
  | next => cases h
  | syscall => cases h
  | invalidate => cases h

/-- The dispatcher ends the run behind a block that has left with events pending. -/
theorem resume_pending (t : Translator σ) (handlers : Handlers) (made : s.engine.Made src)
    (fits : ExitCode.Fits s.guest c code) (pending : s.guest.events.check = true) :
    ∃ s', s.Halts src c s' ∧ s'.guest = s.guest ∧ s'.source = s.source ∧ ∀ fuel,
      s.resume t handlers (fuel + 1) code = (.finished (.pending s.guest c), s') := by
  cases fits with
  | preempt branch =>
    refine ⟨s, .of_branch branch, rfl, rfl, fun fuel => ?_⟩
    cases c with
    | syscall => cases branch
    | _ => rfl
  | dispatch _ quiet =>
    rw [pending] at quiet
    cases quiet
  | syscall => exact ⟨s, rfl, rfl, rfl, fun fuel => rfl⟩
  | invalidate =>
    obtain ⟨n, s', done, guest, source, -, swept, untranslated⟩ := made.sweeps_line
    refine ⟨s', ⟨n, done, swept, untranslated⟩, guest, source, fun fuel => ?_⟩
    simp only [resume, done]
    rw [run_pending (guest ▸ pending), guest]
    rfl

/-- A run is preempted only while events are pending. -/
theorem pending_of_preempted (covers : ∀ source pc n, Covers handlers (t.translate source pc n).1)
    (made : s.engine.Made src) (equipped : s.engine.Equipped src handlers) {fuel : Nat} {w : UInt32}
    (ran : s.run t handlers fuel = (.finished (.preempted w), s')) :
    w ≠ 0 ∧ s'.guest.events.bits = w := by
  induction fuel generalizing s src with
  | zero => cases ran
  | succ fuel ih =>
    obtain ⟨pending, ends⟩ | ⟨-,
        ⟨fault, s₁, -, ends⟩ | ⟨entry, s₁, src₁, -, resolved, equipped₁, next⟩⟩ :=
      run_succ_cases covers made equipped fuel
    · cases ends.symm.trans ran
      exact ⟨PreemptionWord.bits_ne_zero pending, rfl⟩
    · cases ends.symm.trans ran
    · obtain ends | ⟨g, c, code, -, fits, goes⟩ := next
      · cases ends.symm.trans ran
      · rw [goes] at ran
        cases fits with
        | preempt _ pending =>
          cases ran
          exact ⟨PreemptionWord.bits_ne_zero pending, rfl⟩
        | dispatch => exact ih (s := report { s₁ with guest := g } _) resolved.made equipped₁ ran
        | syscall => cases ran
        | invalidate =>
          obtain ⟨n, s₂, cleared, -, shrunk, made₂⟩ :=
            invalidateLine_cases (s := { s₁ with guest := g }) resolved.made
          simp only [resume, cleared] at ran
          exact ih made₂ (shrunk.equipped equipped₁) ran

/-- Events that are pending when a run starts, or when the last instruction of a block has taken
effect, end the run there. It reports the word as it is, or the system call if that came last. An
invalidation that came last is carried out first: the blocks that its cache line touches go.
Otherwise a run is not preempted. -/
theorem preemption_at_next_boundary (made : s.engine.Made src)
    (equipped : s.engine.Equipped src handlers)
    (covers : ∀ source pc n, Covers handlers (t.translate source pc n).1) :
    (s.guest.events.check = true → ∀ fuel,
      s.run t handlers (fuel + 1) = (.finished (.preempted s.guest.events.bits), s)) ∧
    (∀ {s₁ : Session σ} {m : Machine} {id : BlockId} {src₁ : Nat → List Insn},
      s.Enters t handlers s₁ m →
      s₁.engine.lookup m.guest.cpu.pc = some id → s₁.engine.Made src₁ →
      Covers handlers (src₁ id.index) →
      ∃ g c, Platform.runBlock ⟨s₁.engine.config, handlers⟩ m.guest (src₁ id.index) = some (g, c) ∧
        (g.events.check = true → ∃ s' enough, Halts { s₁ with guest := g } src₁ c s' ∧
          s'.guest = g ∧ s'.source = s₁.source ∧
          ∀ fuel, s.run t handlers (enough + fuel) = (.finished (.pending g c), s'))) ∧
    ∀ {fuel : Nat} {w : UInt32} {s' : Session σ},
      s.run t handlers fuel = (.finished (.preempted w), s') →
        w ≠ 0 ∧ s'.guest.events.bits = w := by
  refine ⟨run_pending, ?_, pending_of_preempted covers made equipped⟩
  intro s₁ m id src₁ enters found made₁ covers₁
  obtain ⟨poised, ⟨r, framed⟩, -, id', b, hb, valid, entry, hip⟩ := enters.entering
  obtain rfl : id' = id :=
    Option.some.inj
      ((made₁.resting.indexed.lookup_eq_some.2 ⟨b, hb, valid, entry⟩).symm.trans found)
  obtain ⟨g, c, ran, next⟩ := made₁.resting.step_block hb valid covers₁ poised framed hip
  refine ⟨g, c, ran, fun pending => ?_⟩
  obtain ⟨code, fits, departs⟩ | ⟨-, n, m', -, -, entering, rfl⟩ := next
  · obtain ⟨s', halts, guest, source, ends⟩ :=
      resume_pending (s := { s₁ with guest := g }) t handlers made₁ fits pending
    obtain ⟨used, enough, goes⟩ := enters.run_eq departs
    refine ⟨s', used + (enough + 1), halts, guest, source, fun fuel => ?_⟩
    have split : used + (enough + 1) + fuel = used + (enough + fuel + 1) := by omega
    rw [split, goes _ (by omega), ends]
  · -- Control goes on in another block only while no event is pending.
    rw [entering.quiet] at pending
    cases pending

/-- A run of an engine without blocks enters the block that its translator gives first. -/
theorem exists_first_block (made : s.engine.Made src) (empty : ∀ id, s.engine.block? id = none)
    (quiet : s.guest.events.check = false)
    (possible : s.engine.emissionFault? s.guest.cpu.pc (s.fetched t) = none) (handlers : Handlers) :
    ∃ s₁ m id src₁, s.Enters t handlers s₁ m ∧ m.guest = s.guest ∧
      s₁.engine.config = s.engine.config ∧ s₁.engine.lookup s.guest.cpu.pc = some id ∧
      s₁.engine.Made src₁ ∧ src₁ id.index = s.fetched t := by
  obtain ⟨fault, _, -, -, -, failed⟩ | ⟨entry, s₁, src₁, resolve, resolved⟩ :=
    resolve_cases made (t := t)
  · rw [possible] at failed
    cases failed
  · obtain ⟨id, b, hb, valid, atPc, rfl⟩ := resolved.block
    obtain ⟨n, m, reaches, entering, guest⟩ := resolved.made.resting.call_enters hb valid
      (resolved.guest ▸ atPc) (resolved.guest ▸ quiet) handlers
    have enters : s.Enters t handlers s₁ m :=
      ⟨⟨s, _, n, .start, ⟨quiet, _, resolve, rfl⟩, reaches⟩, entering⟩
    have found := resolved.made.resting.indexed.lookup_eq_some.2 ⟨b, hb, valid, atPc⟩
    refine ⟨s₁, m, id, src₁, enters, guest.trans resolved.guest,
      Engine.config_of_frame resolved.frame, found, resolved.made, ?_⟩
    obtain ⟨-, b₀, hb₀, -⟩ | ⟨-, new⟩ := resolved.source hb valid
    · rw [empty] at hb₀
      cases hb₀
    · exact new

/-- Every routine raises an event of its own. -/
def raisingHandlers : Handlers := fun _ => some fun _ g => { g with events := g.events.set 0x80 }

/-- A block that invalidates the cache line in which it stands, behind a call. -/
def selfClearing : List Insn := [⟨0x100, .call 0x7000 9⟩, ⟨0x104, .icbi 0 3⟩]

/-- The third register holds an address in the line of the block. -/
def clearingSession : Session Unit where
  engine := Engine.onePage
  guest := { cpu := { gpr := (Vector.replicate 32 0).setIfInBounds 3 0x11f, pc := 0x100 } }
  source := ()

theorem preempted_behind_loop_and_invalidation :
    (∃ src, Engine.onePage.Made src ∧ Engine.onePage.Equipped src raisingHandlers) ∧
    (∀ pc n, Covers raisingHandlers (loopProgram pc n)) ∧ Covers raisingHandlers selfClearing ∧
    (∃ s' enough, s'.guest.cpu.pc = 0x100 ∧ s'.guest.cpu.ctr = 2 ∧ s'.guest.events.bits = 0x80 ∧
      ∀ fuel, loopSession.run ⟨fun source pc n => (loopProgram pc n, source)⟩ raisingHandlers
        (enough + fuel) = (.finished (.preempted 0x80), s')) ∧
    ∃ s' enough, s'.guest.cpu.pc = 0x108 ∧ s'.guest.cpu.icbiEa = 0x11f ∧
      s'.guest.events.bits = 0x80 ∧ s'.engine.lookup 0x100 = none ∧
      ∀ fuel, clearingSession.run ⟨fun source _ _ => (selfClearing, source)⟩ raisingHandlers
        (enough + fuel) = (.finished (.preempted 0x80), s') := by
  obtain ⟨src, made⟩ := Engine.reachable_onePage.made
  have equipped : Engine.onePage.Equipped src raisingHandlers := nofun
  have covers (insns : List Insn) : Covers raisingHandlers insns := fun _ _ _ _ _ => rfl
  refine ⟨⟨src, made, equipped⟩, fun pc n => covers _, covers _, ?_, ?_⟩
  · obtain ⟨s₁, m, id, src₁, enters, guest, config, found, made₁, source⟩ := exists_first_block
      (s := loopSession) (t := ⟨fun source pc n => (loopProgram pc n, source)⟩) made (fun _ => rfl)
      rfl rfl raisingHandlers
    obtain ⟨-, atBoundary, -⟩ := preemption_at_next_boundary (s := loopSession)
      (t := ⟨fun source pc n => (loopProgram pc n, source)⟩) made equipped fun _ _ _ => covers _
    obtain ⟨g, c, ran, ends⟩ := atBoundary enters (guest ▸ found) made₁ (covers _)
    obtain ⟨g', turn, pc, ctr, pending⟩ : ∃ g, Platform.runBlock
        ⟨Engine.onePage.config, raisingHandlers⟩ loopSession.guest Engine.countdown =
          some (g, .exit 0) ∧ g.cpu.pc = 0x100 ∧ g.cpu.ctr = 2 ∧ g.events = ⟨0x80⟩ :=
      ⟨_, rfl, by decide, by decide, by decide⟩
    rw [source, guest, config] at ran
    cases ran.symm.trans turn
    obtain ⟨s', enough, -, rfl, -, run⟩ := ends (by rw [pending]; rfl)
    refine ⟨s', enough, pc, ctr, by rw [pending], fun fuel => ?_⟩
    rw [run, ExitReason.pending, pending]
  · obtain ⟨s₁, m, id, src₁, enters, guest, config, found, made₁, source⟩ := exists_first_block
      (s := clearingSession) (t := ⟨fun source _ _ => (selfClearing, source)⟩) made (fun _ => rfl)
      rfl rfl raisingHandlers
    obtain ⟨-, atBoundary, -⟩ := preemption_at_next_boundary (s := clearingSession)
      (t := ⟨fun source _ _ => (selfClearing, source)⟩) made equipped fun _ _ _ => covers _
    obtain ⟨g, c, ran, ends⟩ := atBoundary enters (guest ▸ found) made₁ (covers _)
    obtain ⟨g', turn, pc, ea, pending⟩ : ∃ g, Platform.runBlock
        ⟨Engine.onePage.config, raisingHandlers⟩ clearingSession.guest selfClearing =
          some (g, .invalidate) ∧ g.cpu.pc = 0x108 ∧ g.cpu.icbiEa = 0x11f ∧ g.events = ⟨0x80⟩ :=
      ⟨_, rfl, by decide, by decide, by decide⟩
    rw [source, guest, config] at ran
    cases ran.symm.trans turn
    obtain ⟨s', enough, ⟨n, -, ⟨victims, -, -, mem, withdrawn⟩, -⟩, rfl, -, run⟩ :=
      ends (by rw [pending]; rfl)
    -- The block overlaps the line from `0x100` to `0x120`, so it is among those that go.
    obtain ⟨b, hb, valid, entry⟩ := made₁.resting.indexed.lookup_eq_some.1 found
    obtain ⟨last, hlast, stop⟩ := made₁.resting.exists_last hb
    rw [source] at hlast
    obtain rfl : ⟨0x104, .icbi 0 3⟩ = last := Option.some.inj hlast
    have gone : id ∈ victims := by
      refine (mem id).2 ⟨b, hb, valid, .inl ?_⟩
      rw [entry, stop, ea]
      decide
    have missed := withdrawn.missed hb gone
    rw [entry] at missed
    refine ⟨s', enough, pc, ea, by rw [pending], missed, fun fuel => ?_⟩
    rw [run, ExitReason.pending, pending]

end Session
end Dynarec
