import Dynarec.Proofs.Reachability

/-!
Running the code of a block. It does what the block's instructions do one by one, and leaves through
the exit that belongs to where the guest goes on.
-/
namespace Dynarec

theorem Platform.runBlock_ne_next {x : Platform} {g g' : GuestState} {insns : List Insn}
    {c : Control} (h : x.runBlock g insns = some (g', c)) : c ≠ .next := by
  induction insns generalizing g with
  | nil => cases h
  | cons i rest ih =>
    rw [runBlock] at h
    split at h
    · split at h
      · cases h
        rintro ⟨⟩
      · exact ih h
    · next done =>
      rintro rfl
      exact done g' h

theorem CodeBuffer.offsetOf?_eq_some {b : CodeBuffer} {offset : Nat}
    (mapped : b.base + b.capacity < 2 ^ 64) (inside : offset < b.capacity) :
    b.offsetOf? (.ofNat (b.base + offset)) = some offset := by
  have word : b.base + offset < UInt64.size := by
    rw [UInt64.size]
    omega
  have hnat : (UInt64.ofNat (b.base + offset)).toNat = b.base + offset :=
    UInt64.toNat_ofNat_of_lt' word
  rw [offsetOf?, hnat, if_pos (by omega)]
  congr 1
  omega

/-- The stub that leaves translated code with the given exit code. -/
def Stubs.exit (s : Stubs) : ExitCode → Nat
  | .dispatch => s.dispatch
  | .preempt => s.preempt
  | .syscall => s.syscall
  | .invalidate => s.invalidate

/-- Control at offset `p` leaves translated code with an exit code and does not touch the guest. -/
def X86.Leaves (cx : Context) (p : Nat) (code : ExitCode) : Prop :=
  ∀ (m : Machine) (r : Regs), m.ip = p → m.stack = frameOf r →
    ∃ n m', m.Reaches cx n m' ∧ m'.step cx = some (.leave code.code m.guest)

namespace Engine

open X86 (Goes Leaves)

/-- Where control goes on when block `b` has been left in the given way and the guest is in state
`g`: in the block at the program counter, if the exit is linked to it or the jump cache knows it,
and otherwise in a stub. -/
inductive GoesOn (e : Engine) (b : Block) (g : GuestState) : Control → Nat → Prop
  | preemptedExit {k : Nat} {x : ExitSlot} (pending : g.events.check = true)
      (exit : b.exits[k]? = some x) (target : x.target = g.cpu.pc) :
      GoesOn e b g (.exit k) e.stubs.preempt
  | preempted (pending : g.events.check = true) : GoesOn e b g .indirect e.stubs.preempt
  | linked {k : Nat} {x : ExitSlot} {id : BlockId} {next : Block} (quiet : g.events.check = false)
      (exit : b.exits[k]? = some x) (target : x.target = g.cpu.pc) (link : x.linked = some id)
      (stored : e.block? id = some next) (valid : next.isValid = true)
      (entry : next.entry = g.cpu.pc) : GoesOn e b g (.exit k) next.hostOffset
  | unlinked {k : Nat} {x : ExitSlot} (quiet : g.events.check = false) (exit : b.exits[k]? = some x)
      (target : x.target = g.cpu.pc) (link : x.linked = none) :
      GoesOn e b g (.exit k) e.stubs.dispatch
  | hit {id : BlockId} {next : Block} (quiet : g.events.check = false)
      (found : e.cache.jumps.lookup g.cpu.pc = some id) (stored : e.block? id = some next)
      (valid : next.isValid = true) (entry : next.entry = g.cpu.pc) :
      GoesOn e b g .indirect next.hostOffset
  | miss (quiet : g.events.check = false) (absent : e.cache.jumps.lookup g.cpu.pc = none) :
      GoesOn e b g .indirect e.stubs.dispatch
  | syscall : GoesOn e b g .syscall e.stubs.syscall
  | invalidate : GoesOn e b g .invalidate e.stubs.invalidate

variable {e : Engine} {src : Nat → List Insn} {id : BlockId} {b : Block} {p : Plan} {g : GuestState}

theorem Placed.offset_lt (h : e.Placed src) (hb : e.block? id = some b) :
    b.hostOffset < e.buffer.capacity := by
  obtain ⟨p, follows⟩ := h.follows hb
  have := (h.translates follows).positive
  have size : b.hostSize = stepsSize p.steps := follows.size
  have := h.stop_le hb
  have := h.cursor_le
  omega

/-- An exit that the code can leave through leads on. -/
theorem Resting.goesOn_exit (h : e.Resting src) (hb : e.block? id = some b)
    (valid : b.isValid = true) (follows : b.Follows e (src id.index) p) (cx : X86.Context) {k : Nat}
    (target : (PlanStep.allExits b.hostOffset p.steps)[k]?.map (·.target) = some g.cpu.pc) :
    ∃ q, e.GoesOn b g (.exit k) q ∧ Lands e cx (b.wiring e p.steps) g (.exit k) q := by
  obtain ⟨x, hx, target⟩ : ∃ x, b.exits[k]? = some x ∧ x.target = g.cpu.pc := by
    rw [← follows.exits, List.getElem?_map, Option.map_map] at target
    exact Option.map_eq_some_iff.1 target
  cases pending : g.events.check with
  | true => exact ⟨_, .preemptedExit pending hx target, .exitPreempted pending⟩
  | false =>
    have lands : (b.wiring e p.steps).lands k = e.landing x.linked := by
      simp only [Block.wiring, hx, Option.bind_some]
    refine ⟨_, ?_, .exit pending⟩
    rw [lands]
    cases link : x.linked with
    | none => exact .unlinked pending hx target link
    | some d =>
      obtain ⟨-, next, stored, validNext, entry⟩ := h.target_of_linked ⟨b, hb, valid, hx⟩ link
      have landing : e.landing (some d) = next.hostOffset := by
        rw [landing, Option.bind_some, stored, Option.map_some, Option.getD_some]
      rw [landing]
      exact .linked pending hx target link stored validNext (entry.trans target)

/-- An indirect branch leads on. The probe of the jump cache finds what the cache holds. -/
theorem Resting.goesOn_indirect (h : e.Resting src) (w : Wiring) (handlers : Handlers) :
    ∃ q, e.GoesOn b g .indirect q ∧ Lands e (e.context handlers) w g .indirect q := by
  cases pending : g.events.check with
  | true => exact ⟨_, .preempted pending, .indirectPreempted pending⟩
  | false =>
    cases found : e.cache.jumps.lookup g.cpu.pc with
    | none =>
      refine ⟨_, .miss pending found, .miss pending fun l line tag => ?_⟩
      exact absurd (found.symm.trans (JumpCache.lookup_eq_some.2 ⟨l, line, tag, rfl⟩)) nofun
    | some d =>
      obtain ⟨l, line, tag, rfl⟩ := JumpCache.lookup_eq_some.1 found
      obtain ⟨-, next, stored, valid, entry, host⟩ := h.indexed.line line
      refine ⟨_, .hit pending found stored valid (entry.trans tag), .hit pending line tag ?_⟩
      rw [host]
      exact CodeBuffer.offsetOf?_eq_some h.placed.hosted.mapped (h.placed.offset_lt stored)

/-- Running the code of a resident block is running its instructions, from any value of the program
counter. -/
theorem Resting.goes_block (h : e.Resting src) (hb : e.block? id = some b)
    (valid : b.isValid = true) {handlers : Handlers} (covers : Covers handlers (src id.index))
    (g : GuestState) :
    ∃ g' c q, Platform.runBlock ⟨e.config, handlers⟩ g (src id.index) = some (g', c) ∧
      e.GoesOn b g' c q ∧ Goes (e.context handlers) b.hostOffset g q g' := by
  obtain ⟨p, follows⟩ := h.placed.follows hb
  have translates := h.placed.translates follows
  obtain ⟨g', c, ran, target, goes⟩ := translates.performs handlers covers g
  obtain ⟨q, goesOn, lands⟩ :
      ∃ q, e.GoesOn b g' c q ∧ Lands e (e.context handlers) (b.wiring e p.steps) g' c q := by
    cases c with
    | next => exact absurd rfl (Platform.runBlock_ne_next ran)
    | syscall => exact ⟨_, .syscall, .syscall⟩
    | invalidate => exact ⟨_, .invalidate, .invalidate⟩
    | indirect => exact h.goesOn_indirect _ handlers
    | exit k => exact h.goesOn_exit hb valid follows _ (target k rfl _)
  have room : b.hostOffset + stepsSize p.steps ≤ e.buffer.capacity := by
    have := h.placed.stop_le hb
    have := h.placed.cursor_le
    have size : b.hostSize = stepsSize p.steps := follows.size
    omega
  have wiring := h.placed.wiring_of hb follows
  refine ⟨g', c, q, ran, goesOn, ?_⟩
  exact goes (e.context handlers) (b.wiring e p.steps) b.hostOffset g.cpu.pc q rfl
    ⟨rfl, rfl, rfl, wiring⟩ rfl (h.placed.behind_stubs hb) room (h.coded.code hb follows) lands

theorem Resting.leaves (h : e.Resting src) (handlers : Handlers) (code : ExitCode) :
    Leaves (e.context handlers) (e.stubs.exit code) code := by
  intro m r hip hstack
  have offset : e.stubs.exit code = X86.exitStubOf code := by
    rw [h.placed.hosted.stubs]
    cases code <;> rfl
  exact X86.leaves h.coded.stubs code (hip.trans offset) hstack

/-- The code of a new block has the effect of its instructions one by one, up to the first that ends
a block. Control then goes on in the block or the stub for where the guest goes on, and each stub
leaves with its own exit code. -/
theorem Reachable.emitted_code_runs (h : e.Reachable) {pc : UInt32} {insns : List Insn}
    {log : Array Event} {e' : Engine}
    (emitted : ((EngineM.emitBlock pc insns).perform e log).1 = (.ok id, e')) {handlers : Handlers}
    (covers : Covers handlers insns) (g : GuestState) :
    (∃ b g' c q, e'.cache.get id = .ok b ∧ b.isValid = true ∧ b.entry = pc ∧
      Platform.runBlock ⟨e.config, handlers⟩ g insns = some (g', c) ∧
      e'.GoesOn b g' c q ∧ Goes (e'.context handlers) b.hostOffset g q g') ∧
    ∀ code, Leaves (e'.context handlers) (e'.stubs.exit code) code := by
  obtain ⟨src, made⟩ := h.made
  obtain ⟨fault, -, yields⟩ | ⟨-, id', c, yields, emission⟩ :=
    made.resting.yields_emitBlock pc insns
  · exact absurd ((yields log).symm.trans emitted) nofun
  · cases (yields log).symm.trans emitted
    obtain ⟨b, hb, valid, entry⟩ := emission.block
    have covers' : Covers handlers (noted src id insns id.index) := noted_self.symm ▸ covers
    obtain ⟨g', c, q, ran, goesOn, goes⟩ := emission.resting.goes_block hb valid covers' g
    rw [noted_self, config_of_frame emission.frame] at ran
    exact ⟨⟨b, g', c, q, get_eq_ok.2 hb, valid, entry, ran, goesOn, goes⟩,
      emission.resting.leaves handlers⟩

/-- An engine with a buffer of one page. -/
def onePage : Engine := fresh 4096 4096 { codeBufferSize := 4096 }

theorem reachable_onePage : onePage.Reachable := by
  have created : create 4096 X86.registry { codeBufferSize := 4096 } = .ok onePage := rfl
  exact .create created

/-- The engine with one block. -/
theorem exists_emitted (pc : UInt32) (insns : List Insn)
    (possible : onePage.emissionFault? pc insns = none) :
    ∃ src id e, e.Made (noted src id insns) ∧ onePage.Emitted src pc insns id e := by
  obtain ⟨src, made⟩ := reachable_onePage.made
  obtain ⟨fault, failed, -⟩ | ⟨-, id, e, yields, emitted⟩ := made.resting.yields_emitBlock pc insns
  · exact absurd (possible.symm.trans failed) nofun
  · exact ⟨src, id, e, made.emitBlock (yields #[]), emitted⟩

/-- A loop: a load of a constant, a call of a routine, and a branch back while the count lasts. -/
def countdown : List Insn :=
  [⟨0x100, .li 3 5⟩, ⟨0x104, .call 0x7000 9⟩, ⟨0x108, .bc .decCtrNonZero 0x100⟩]

/-- Every routine notes the instruction word and its own address. -/
def notingHandlers : Handlers := fun _ => some fun word g =>
  { g with cpu := (g.cpu.set .xer word).set .icbiEa g.cpu.pc }

/-- The engine with the loop as its only block. -/
theorem exists_countdown : ∃ src id e,
    ((EngineM.emitBlock 0x100 countdown).perform onePage #[]).1 = (.ok id, e) ∧ e.Reachable ∧
      onePage.Emitted src 0x100 countdown id e := by
  obtain ⟨src, made⟩ := reachable_onePage.made
  have possible : onePage.emissionFault? 0x100 countdown = none := rfl
  obtain ⟨fault, failed, -⟩ | ⟨-, id, e, yields, emitted⟩ :=
    made.resting.yields_emitBlock 0x100 countdown
  · exact absurd (possible.symm.trans failed) nofun
  · have reachable := reachable_onePage.emitBlock 0x100 countdown #[]
    rw [yields #[]] at reachable
    exact ⟨src, id, e, yields #[], reachable, emitted⟩

theorem countdown_code_runs : ∃ id e', onePage.Reachable ∧
    ((EngineM.emitBlock 0x100 countdown).perform onePage #[]).1 = (.ok id, e') ∧
    Covers notingHandlers countdown ∧
    ∃ b g' q, e'.cache.get id = .ok b ∧
      g'.cpu = { gpr := (Vector.replicate 32 0).setIfInBounds 3 5,
                 xer := 9, ctr := 1, pc := 0x100, icbiEa := 0x104 } ∧
      e'.GoesOn b g' (.exit 0) q ∧
      Goes (e'.context notingHandlers) b.hostOffset { cpu := { ctr := 2 } } q g' := by
  obtain ⟨-, id, e', emitted, -, -⟩ := exists_countdown
  have covers : Covers notingHandlers countdown := fun _ _ _ _ _ => rfl
  refine ⟨id, e', reachable_onePage, emitted, covers, ?_⟩
  obtain ⟨⟨b, g', c, q, get, -, -, ran, goesOn, goes⟩, -⟩ :=
    reachable_onePage.emitted_code_runs emitted covers { cpu := { ctr := 2 } }
  cases ran
  exact ⟨b, _, q, get, by decide, goesOn, goes⟩

end Engine
end Dynarec
