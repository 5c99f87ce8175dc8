import Dynarec.Proofs.BlockExecution
import Dynarec.Proofs.Conversation
import Dynarec.Proofs.History

/-!
A flush makes an engine new. What is left of its past are the counters, so from then on it answers
like an engine that has just been created.
-/
namespace Dynarec

theorem Stats.zero_plus (d : Stats) : Stats.plus {} d = d := by
  simp only [Stats.plus, Nat.zero_add]

/-- A buffer that holds the given bytes and no more. -/
theorem CodeBuffer.Holds.bytes_eq {b : CodeBuffer} {xs : List UInt8} (h : b.Holds 0 xs)
    (all : b.cursor = xs.length) : b.bytes = xs.toArray := by
  apply Array.ext_getElem?
  intro i
  have right : xs.toArray[i]? = xs[i]? := List.getElem?_toArray
  rw [right]
  by_cases inside : i < xs.length
  · simpa using h i inside
  · have behind : b.bytes[i]? = none := by
      rw [cursor] at all
      exact Array.getElem?_eq_none (by omega)
    rw [behind, List.getElem?_eq_none (by omega)]

namespace Engine

open Traced

variable {e c : Engine} {src : Nat → List Insn} {pc : UInt32} {insns : List Insn} {id : BlockId}

/-- Without its blocks an engine is as it was created, up to its counters. -/
theorem Emptied.eq_advance (h : e.Emptied c) (resting : e.Resting src) {e₀ : Engine}
    (created : create e.buffer.base X86.registry e.config = .ok e₀) (frame : e.frame = e₀.frame) :
    c = e₀.advance { e.stats with flushes := e.stats.flushes + 1 } := by
  have placed := resting.placed
  have hosted := placed.hosted
  have stubs : c.buffer.bytes = X86.stubBytes.toArray := by
    refine CodeBuffer.Holds.bytes_eq (h.resting placed resting.coded src).coded.stubs ?_
    rw [h.cursor placed, X86.length_stubBytes]
  have capacity := capacity_of_frame frame
  obtain ⟨room, rfl, -⟩ := create_inv created
  have buffer : c.buffer = (fresh e.buffer.base room e.config).buffer := by
    have start := (codeStart_of_frame h.frame).trans hosted.codeStart
    have base := base_of_frame h.frame
    have size := (capacity_of_frame h.frame).trans capacity
    cases hc : c.buffer with
    | mk base' capacity' bytes codeStart =>
      rw [hc] at stubs start base size
      cases stubs
      cases start
      cases base
      cases size
      rfl
  subst h
  show Engine.mk e.registry e.config e.buffer.flush { codeBase := e.cache.codeBase }
    .empty e.stubs _ =
    Engine.mk X86.registry e.config (fresh e.buffer.base room e.config).buffer
      { codeBase := e.buffer.base } .empty X86.stubOffsets (Stats.plus {} _)
  rw [Stats.zero_plus, ← buffer, hosted.registry, hosted.stubs, placed.codeBase]

/-- In an engine without blocks every block that fits at all fits. -/
theorem Emission.restart {e₁ : Engine} {p : Plan} {d : Draft}
    (h : e.Emission src pc insns e₁ p d c) :
    Yields (EngineM.emitBlock pc insns) e₁ (.ok e₁.nextId) c := by
  have fits : p.size ≤ e₁.buffer.remaining := by
    have := h.vacated.room
    rw [CodeBuffer.remaining]
    omega
  have room := h.vacated.resting.indexed.yields_makeRoom_free h.drafted.usable fits h.vacated.absent
  intro log
  rw [EngineM.perform_emitBlock h.drafted.planned]
  exact room.bind h.yields_emitRoomy log

/-- An emission that counts a flush has emptied the engine and started again. -/
theorem Emission.emptied_of_flushes {e₁ : Engine} {p : Plan} {d : Draft}
    (h : e.Emission src pc insns e₁ p d c) (flushed : c.stats.flushes ≠ e.stats.flushes) :
    e.Emptied e₁ := by
  have same : c.stats.flushes = e₁.stats.flushes := h.relinked.flushes
  cases h.cleared with
  | free => exact absurd same flushed
  | replaced _ _ _ removed => exact absurd (same.trans removed.flushes) flushed
  | flushed _ emptied => exact emptied

/-- Behind a flush, and behind an emission that had to flush, an engine answers like a new one of
the same configuration and at the same place, or like that one behind the same emission. -/
theorem Reachable.flush_renews (h : e.Reachable) :
    ∃ e₀, Engine.create e.buffer.base X86.registry e.config = .ok e₀ ∧
      (∃ c, (∀ log, (EngineM.invalidateAll.perform e log).1 = (.ok (), c)) ∧
        c.Mimics e₀ { e.stats with flushes := e.stats.flushes + 1 }) ∧
      ∀ {pc : UInt32} {insns : List Insn} {log : Array Event} {id : BlockId} {c : Engine},
        ((EngineM.emitBlock pc insns).perform e log).1 = (.ok id, c) →
        c.stats.flushes ≠ e.stats.flushes →
        ∃ c₀, ((EngineM.emitBlock pc insns).perform e₀ log).1 = (.ok id, c₀) ∧
          c.Mimics c₀ { e.stats with flushes := e.stats.flushes + 1 } := by
  obtain ⟨src, made⟩ := h.made
  obtain ⟨e₀, created, frame⟩ := made.origin
  refine ⟨e₀, created, ?_, ?_⟩
  · obtain ⟨c, yields, emptied⟩ := yields_invalidateAll (e := e)
    refine ⟨c, yields, ?_⟩
    rw [emptied.eq_advance made.resting created frame]
    exact mimics_advance e₀ _
  · intro pc insns log id c done flushed
    obtain ⟨fault, -, failed⟩ | ⟨-, p, planned, usable⟩ := emitBlock_fails_or_fits e pc insns
    · cases (failed log).symm.trans done
    · obtain ⟨e₁, d, c', emission⟩ := made.resting.exists_emission planned usable
      cases (emission.yields planned log).symm.trans done
      obtain rfl := (emission.emptied_of_flushes flushed).eq_advance made.resting created frame
      obtain ⟨c₀, done₀, rfl⟩ :=
        (EngineM.advance_emitBlock _ pc insns).outcome.1 (emission.restart log)
      exact ⟨c₀, done₀, mimics_advance c₀ _⟩

/-- Comparisons, whose code takes more than half of a page. -/
def heavy (pc : UInt32) : List Insn := List.replicate 40 ⟨pc, .cmpw 0 3 4⟩

theorem exists_heavy : (∃ p, onePage.plan 0x100 (heavy 0x100) = .ok p ∧ p.size = 2632) ∧
    ∃ p, onePage.plan 0x200 (heavy 0x200) = .ok p ∧ p.size = 2632 := by
  have size {pc : UInt32} (h : (onePage.plan pc (heavy pc)).toOption.map Plan.size = some 2632) :
      ∃ p, onePage.plan pc (heavy pc) = .ok p ∧ p.size = 2632 := by
    cases planned : onePage.plan pc (heavy pc) with
    | error fault =>
      rw [planned] at h
      cases h
    | ok p =>
      rw [planned] at h
      exact ⟨p, rfl, Option.some.inj h⟩
  exact ⟨size (by decide +kernel), size (by decide +kernel)⟩

/-- The second block does not fit beside the first, so its emission makes the engine new. -/
theorem heavy_block_renews : ∃ (e c c₀ : Engine) (id : BlockId), e.Reachable ∧
    ((EngineM.emitBlock 0x200 (heavy 0x200)).perform e #[]).1 = (.ok id, c) ∧
    c.stats.flushes ≠ e.stats.flushes ∧
    ((EngineM.emitBlock 0x200 (heavy 0x200)).perform onePage #[]).1 = (.ok id, c₀) ∧
    c.Mimics c₀ { e.stats with flushes := e.stats.flushes + 1 } := by
  obtain ⟨⟨p, planned, size⟩, p', planned', size'⟩ := exists_heavy
  obtain ⟨src, made⟩ := reachable_onePage.made
  have usable : onePage.buffer.usable = 4008 := rfl
  obtain ⟨e₁, d, e, first⟩ := made.resting.exists_emission planned (by omega)
  have reachable := reachable_onePage.emitBlock 0x100 (heavy 0x100) #[]
  rw [first.yields planned #[]] at reachable
  have frame : e.frame = onePage.frame := first.emitted.frame
  have cursor : e.buffer.cursor = e₁.buffer.cursor + 2632 := by
    rw [first.relinked.cursor, ← size]
    exact first.drafted.cursor first.vacated.resting.placed.hosted
  have full : ¬ p'.size ≤ e.buffer.remaining := by
    have := capacity_of_frame frame
    have capacity : onePage.buffer.capacity = 4096 := rfl
    rw [CodeBuffer.remaining]
    omega
  have usable' : p'.size ≤ e.buffer.usable := by
    rw [CodeBuffer.usable, capacity_of_frame frame, codeStart_of_frame frame]
    show p'.size ≤ onePage.buffer.usable
    omega
  have planned₂ := (plan_of_frame frame 0x200 (heavy 0x200)).trans planned'
  obtain ⟨e₂, d', c, second⟩ := first.resting.exists_emission planned₂ usable'
  have flushed : c.stats.flushes ≠ e.stats.flushes := by
    have same : c.stats.flushes = e₂.stats.flushes := second.relinked.flushes
    cases second.cleared with
    | free fits => exact absurd fits full
    | replaced fits => exact absurd fits full
    | flushed _ emptied =>
      rw [same, emptied]
      exact Nat.succ_ne_self _
  have done := second.yields planned₂ #[]
  obtain ⟨e₀, created, -, renews⟩ := reachable.flush_renews
  obtain ⟨c₀, done₀, mimics⟩ := renews done flushed
  rw [base_of_frame frame, config_of_frame frame] at created
  cases created
  exact ⟨e, c, c₀, _, reachable, done, flushed, done₀, mimics⟩

end Engine
end Dynarec
