import Dynarec.Proofs.Invalidation
import Dynarec.Proofs.Planning

/-!
Stale translations: what invalidating a range means for the instructions of a block. A block knows
its first address and the end of its last instruction, and between the two stand all its
instructions as long as they do not run past the top of the address space.
-/
namespace Dynarec

/-- The instructions stand one behind the other from `pc` on. Addresses wrap around. -/
def Sequential : UInt32 → List Insn → Prop
  | _, [] => True
  | pc, i :: rest => i.pc = pc ∧ Sequential (pc + 4) rest

instance Sequential.decidable :
    (pc : UInt32) → (insns : List Insn) → Decidable (Sequential pc insns)
  | _, [] => .isTrue trivial
  | pc, i :: rest =>
    have := Sequential.decidable (pc + 4) rest
    inferInstanceAs (Decidable (i.pc = pc ∧ Sequential (pc + 4) rest))

/-- The last of the instructions from `pc` on does not start past the top of the address space. -/
def Unwrapped (pc : UInt32) (insns : List Insn) : Prop := pc.toNat + 4 * insns.length < 2 ^ 32 + 4

instance (pc : UInt32) (insns : List Insn) : Decidable (Unwrapped pc insns) :=
  inferInstanceAs (Decidable (_ < _))

/-- An instruction stands in the guest range. -/
def Hits (insns : List Insn) (start : UInt32) (stop : Nat) : Prop :=
  ∃ i ∈ insns, start.toNat ≤ i.pc.toNat ∧ i.pc.toNat < stop

instance (insns : List Insn) (start : UInt32) (stop : Nat) : Decidable (Hits insns start stop) :=
  inferInstanceAs (Decidable (∃ i ∈ insns, _ ∧ _))

section Sequential

variable {pc : UInt32} {insns : List Insn} {last : Insn}

theorem Sequential.toNat_pc (h : Sequential pc insns) {n : Nat} {i : Insn}
    (hi : insns[n]? = some i) : i.pc.toNat = (pc.toNat + 4 * n) % 2 ^ 32 := by
  induction insns generalizing pc n with
  | nil => cases hi
  | cons j rest ih =>
    obtain ⟨head, tail⟩ := h
    cases n with
    | zero =>
      cases hi
      have := pc.toNat_lt
      rw [head]
      omega
    | succ n =>
      have behind := ih tail hi
      rw [UInt32.toNat_add] at behind
      simp only [UInt32.reduceToNat] at behind
      omega

theorem Sequential.pc_last (h : Sequential pc insns) (hlast : insns.getLast? = some last) :
    0 < insns.length ∧ last.pc.toNat = (pc.toNat + 4 * (insns.length - 1)) % 2 ^ 32 := by
  rw [List.getLast?_eq_getElem?] at hlast
  have inside := (List.getElem?_eq_some_iff.1 hlast).1
  exact ⟨by omega, h.toNat_pc hlast⟩

/-- Instructions that do not wrap around stand between the first address and the end of the last. -/
theorem Sequential.overlaps (h : Sequential pc insns) (unwrapped : Unwrapped pc insns)
    (hlast : insns.getLast? = some last) {start : UInt32} {stop : Nat}
    (hits : Hits insns start stop) : pc.toNat < stop ∧ start.toNat < last.pc.toNat + 4 := by
  obtain ⟨i, hi, low, high⟩ := hits
  obtain ⟨n, hn⟩ := List.getElem?_of_mem hi
  have place := h.toNat_pc hn
  have inside := (List.getElem?_eq_some_iff.1 hn).1
  obtain ⟨positive, final⟩ := h.pc_last hlast
  unfold Unwrapped at unwrapped
  omega

/-- Wrapped instructions have one that neither the range from the first address to the end of the
last nor a place where the block goes on covers. -/
theorem Sequential.exists_missed (h : Sequential pc insns) (wrapped : ¬ Unwrapped pc insns)
    (short : insns.length < 2 ^ 30) (hlast : insns.getLast? = some last) :
    ∃ i ∈ insns, ¬ (pc.toNat ≤ i.pc.toNat ∧ i.pc.toNat < last.pc.toNat + 4) ∧
      i.pc ∉ last.leavesTo := by
  obtain ⟨positive, final⟩ := h.pc_last hlast
  have below := pc.toNat_lt
  unfold Unwrapped at wrapped
  have next : last.next.toNat = last.pc.toNat + 4 := by
    rw [Insn.next, UInt32.toNat_add]
    simp only [UInt32.reduceToNat]
    omega
  obtain ⟨t, goals⟩ := last.exists_leavesTo
  obtain ⟨first, rest, rfl⟩ := List.exists_cons_of_length_pos positive
  -- The first instruction is missed unless the block branches back to it, and then the last one is.
  by_cases back : pc ∈ last.leavesTo
  · refine ⟨last, List.mem_of_getLast? hlast, by omega, fun self => ?_⟩
    have ne : last.pc ≠ pc := fun same => by
      have := congrArg UInt32.toNat same
      omega
    have skip : last.pc ≠ last.next := fun same => by
      have := congrArg UInt32.toNat same
      omega
    have behind : pc ≠ last.next := fun same => by
      have := congrArg UInt32.toNat same
      omega
    rcases goals _ self with same | same
    · rcases goals _ back with same' | same'
      · exact ne (same.trans same'.symm)
      · exact behind same'
    · exact skip same
  · refine ⟨first, List.mem_cons_self, ?_, h.1.symm ▸ back⟩
    rw [h.1]
    omega

end Sequential

/-- Where the guest cache line of an address starts. -/
def lineStart (addr : UInt32) : UInt32 := addr &&& ~~~31

theorem X86.size_pos_of_lookup {key : TemplateKey} {t : Template}
    (h : X86.Templates.lookup key = some t) : 0 < t.size := by
  unfold X86.Templates.lookup at h
  split at h <;> cases h <;> decide

namespace Engine

open Traced

variable {e : Engine} {src : Nat → List Insn} {id : BlockId} {b : Block}
  {start : UInt32} {stop : Nat}

/-- Invalidating the range takes the block out of use, and its address no longer leads to it. -/
def Retires (e : Engine) (start : UInt32) (stop : Nat) (id : BlockId) : Prop :=
  ∀ log, ∃ n e' b, ((EngineM.invalidateRange start stop).perform e log).1 = (.ok n, e') ∧
    e'.block? id = some b ∧ b.isValid = false ∧ e'.lookup b.entry ≠ some id

theorem Resting.retires_iff (h : e.Resting src) (hb : e.block? id = some b)
    (valid : b.isValid = true) : e.Retires start stop id ↔ touches b start stop = true := by
  obtain ⟨c, yields, removed⟩ := h.yields_invalidateRange start stop
  constructor
  · intro retires
    obtain ⟨n, e', b', done, hb', invalid, -⟩ := retires #[]
    obtain rfl : c = e' := (Prod.mk.inj ((yields #[]).symm.trans done)).2
    by_contra untouched
    have stays : id ∉ e.cache.affectedBy start stop := fun hid => by
      obtain ⟨b₀, hb₀, -, hit⟩ := h.placed.mem_affectedBy.1 hid
      obtain rfl := Option.some.inj (hb.symm.trans hb₀)
      exact untouched hit
    obtain rfl := Option.some.inj ((removed.block hb).symm.trans hb')
    rw [Surgery.isValid_block, valid, Bool.and_true] at invalid
    exact stays (of_decide_eq_true (by simpa [Surgery.removal] using invalid))
  · intro hit log
    have hid := h.placed.mem_affectedBy.2 ⟨b, hb, valid, hit⟩
    obtain ⟨b', hb', state⟩ := removed.state_removed hb hid
    refine ⟨_, c, b', yields log, hb', by rw [Block.isValid, state], ?_⟩
    rw [removed.lookup_removed h]
    intro found
    exact (of_decide_eq_true (Option.filter_eq_some_iff.1 found).2) hid

section Stored

variable (h : e.Resting src) (hb : e.block? id = some b)
include h hb

/-- A block ends behind its last instruction. -/
theorem Resting.exists_last : ∃ last, (basicBlock (src id.index)).getLast? = some last ∧
    b.stop = last.pc.toNat + 4 := by
  obtain ⟨p, follows⟩ := h.placed.follows hb
  obtain ⟨last, hlast, stop⟩ := exists_last_of_plan follows.planned
  exact ⟨last, hlast, follows.stop.trans stop⟩

theorem Resting.target_mem_leavesTo {last : Insn}
    (hlast : (basicBlock (src id.index)).getLast? = some last) {x : ExitSlot} (hx : x ∈ b.exits) :
    x.target ∈ last.leavesTo := by
  obtain ⟨p, follows⟩ := h.placed.follows hb
  have bare : x.bare ∈ PlanStep.allExits b.hostOffset p.steps :=
    follows.exits ▸ List.mem_map_of_mem hx
  have goal : x.bare.target ∈ last.leavesTo :=
    PlanStep.Drawn.target_mem (drawn_of_plan follows.planned hlast) bare
  exact goal

/-- The code buffer is too small for a block that takes up the whole address space. -/
theorem Resting.length_basicBlock_lt : (basicBlock (src id.index)).length < 2 ^ 30 := by
  obtain ⟨p, follows⟩ := h.placed.follows hb
  have hosted := h.placed.hosted
  have full {key : TemplateKey} {t : Template} (found : e.registry.lookup key = some t) :
      0 < t.size := by
    rw [hosted.registry] at found
    exact X86.size_pos_of_lookup found
  have := length_le_size_of_plan full follows.planned
  have usable := follows.usable
  have := hosted.reach
  have : X86.stubsSize = 88 := rfl
  rw [CodeBuffer.usable, hosted.codeStart] at usable
  omega

theorem Resting.touches_of_hits (sequential : Sequential b.entry (basicBlock (src id.index)))
    (unwrapped : Unwrapped b.entry (basicBlock (src id.index)))
    (hits : Hits (basicBlock (src id.index)) start stop) : touches b start stop = true := by
  obtain ⟨last, hlast, hstop⟩ := h.exists_last hb
  rw [touches_iff, hstop]
  exact .inl (sequential.overlaps unwrapped hlast hits)

/-- A wrapped block has an instruction that it can lose without being touched. -/
theorem Resting.exists_untouched (sequential : Sequential b.entry (basicBlock (src id.index)))
    (wrapped : ¬ Unwrapped b.entry (basicBlock (src id.index))) :
    ∃ i ∈ basicBlock (src id.index), touches b i.pc (i.pc.toNat + 1) = false := by
  obtain ⟨last, hlast, hstop⟩ := h.exists_last hb
  obtain ⟨i, hi, apart, aside⟩ := sequential.exists_missed wrapped (h.length_basicBlock_lt hb) hlast
  refine ⟨i, hi, Bool.eq_false_iff.2 fun hit => ?_⟩
  rw [touches_iff, hstop] at hit
  rcases hit with ⟨low, high⟩ | ⟨x, hx, low, high⟩
  · exact apart ⟨by omega, high⟩
  · have low := UInt32.le_iff_toNat_le.1 low
    have same : x.target = i.pc := UInt32.toNat_inj.1 (by omega)
    exact aside (same ▸ h.target_mem_leavesTo hb hlast hx)

end Stored

/-- No instruction in the range belongs to a resident block whose instructions stand in a row and do
not wrap around. -/
def Untranslated (e : Engine) (src : Nat → List Insn) (start : UInt32) (stop : Nat) : Prop :=
  ∀ id b, e.block? id = some b → b.isValid = true →
    Sequential b.entry (basicBlock (src id.index)) → Unwrapped b.entry (basicBlock (src id.index)) →
    ¬ Hits (basicBlock (src id.index)) start stop

theorem Operated.untranslated {c : Engine} (resting : e.Resting src)
    (h : e.Operated src
      (.removal e (e.cache.affectedBy start stop) (e.cache.affectedBy start stop)) c) :
    c.Untranslated src start stop := by
  intro id b hb valid sequential unwrapped hits
  have rest := h.resting resting
  have hit := rest.touches_of_hits hb sequential unwrapped hits
  have hid := rest.placed.mem_affectedBy.2 ⟨b, hb, valid, hit⟩
  rw [h.affectedBy_eq_nil resting] at hid
  cases hid

/-- What an invalidation asks for: the line of its address is swept, and nothing else happens. -/
theorem Made.sweeps_line {σ : Type} {s : Session σ} (h : s.engine.Made src) :
    ∃ n s', s.invalidateLine = (.ok n, s') ∧ s'.guest = s.guest ∧ s'.source = s.source ∧
      s'.engine.Made src ∧
      s.engine.Swept (lineStart s.guest.cpu.icbiEa) ((lineStart s.guest.cpu.icbiEa).toNat + 32) n
        s'.engine ∧
      s'.engine.Untranslated src (lineStart s.guest.cpu.icbiEa)
        ((lineStart s.guest.cpu.icbiEa).toNat + 32) := by
  have start : s.guest.cpu.icbiEa &&& ~~~(cacheLine - 1) = lineStart s.guest.cpu.icbiEa := rfl
  obtain ⟨s', done, guest, source, made, removed⟩ := Session.invalidateLine_removes h start rfl
  exact ⟨_, s', done, guest, source, made, removed.swept h.resting, removed.untranslated h.resting⟩

/-- Invalidation is complete for blocks that do not wrap around, and for them alone: each range with
an instruction of the block in it takes the block out of use. So behind the invalidation of a cache
line no such block has an instruction in the line. -/
theorem Made.retires_on_every_hit_iff (h : e.Made src) :
    (∀ id b, e.block? id = some b → b.isValid = true →
      Sequential b.entry (basicBlock (src id.index)) →
      ((∀ start stop, start.toNat < stop → stop ≤ 2 ^ 32 →
        Hits (basicBlock (src id.index)) start stop →
        e.Retires start stop id) ↔ Unwrapped b.entry (basicBlock (src id.index)))) ∧
    ∀ (σ : Type) (s : Session σ), s.engine = e → ∃ n s', s.invalidateLine = (.ok n, s') ∧
      s'.engine.Made src ∧ ∀ id b, s'.engine.block? id = some b → b.isValid = true →
        Sequential b.entry (basicBlock (src id.index)) →
        Unwrapped b.entry (basicBlock (src id.index)) →
        ¬ Hits (basicBlock (src id.index)) (lineStart s.guest.cpu.icbiEa)
          ((lineStart s.guest.cpu.icbiEa).toNat + 32) := by
  have resting := h.resting
  constructor
  · intro id b hb valid sequential
    constructor
    · intro complete
      by_contra wrapped
      obtain ⟨i, hi, missed⟩ := resting.exists_untouched hb sequential wrapped
      have below := i.pc.toNat_lt
      have retired :=
        complete i.pc (i.pc.toNat + 1) (by omega) (by omega) ⟨i, hi, by omega, by omega⟩
      rw [resting.retires_iff hb valid, missed] at retired
      cases retired
    · intro unwrapped start stop _ _ hits
      exact (resting.retires_iff hb valid).2 (resting.touches_of_hits hb sequential unwrapped hits)
  · rintro σ s rfl
    obtain ⟨n, s', done, -, -, made, -, untranslated⟩ := h.sweeps_line
    exact ⟨n, s', done, made, untranslated⟩

/-- A block that starts in the last word of the address space and ends in the first. -/
def wrapping : List Insn := [⟨0xfffffffc, .li 3 1⟩, ⟨0, .sc⟩]

theorem countdown_retired_with_its_line :
    ∃ (e : Engine) (src : Nat → List Insn) (id : BlockId) (b : Block),
    e.Made src ∧ e.block? id = some b ∧ b.isValid = true ∧ basicBlock (src id.index) = countdown ∧
    Sequential b.entry countdown ∧ Hits countdown 0x104 0x105 ∧ e.Retires 0x104 0x105 id ∧
    ∃ n s', Session.invalidateLine ⟨e, #[], { cpu := { icbiEa := 0x11f } }, ()⟩ = (.ok n, s') ∧
      ∀ b, s'.engine.block? id = some b → b.entry = 0x100 → b.isValid = false := by
  obtain ⟨src, id, e, made, emitted⟩ := exists_emitted 0x100 countdown rfl
  obtain ⟨b, hb, valid, entry⟩ := emitted.block
  have source : basicBlock (noted src id countdown id.index) = countdown := by rw [noted_self]; rfl
  have sequential : Sequential 0x100 countdown := by decide
  have unwrapped : Unwrapped 0x100 countdown := by decide
  obtain ⟨complete, lines⟩ := made.retires_on_every_hit_iff
  have retires := (complete id b hb valid (by rw [source, entry]; exact sequential)).2
    (by rw [source, entry]; exact unwrapped)
  obtain ⟨n, s', line, -, clean⟩ := lines Unit ⟨e, #[], { cpu := { icbiEa := 0x11f } }, ()⟩ rfl
  refine ⟨e, _, id, b, made, hb, valid, source, entry ▸ sequential, by decide, ?_, n, s', line, ?_⟩
  · exact retires 0x104 0x105 (by decide) (by decide) (by rw [source]; decide)
  · intro b' hb' entry'
    by_contra stays
    refine clean id b' hb' (Bool.not_eq_false _ ▸ stays) ?_ ?_ ?_
    · rw [source, entry']
      exact sequential
    · rw [source, entry']
      exact unwrapped
    · rw [source]
      show Hits countdown (lineStart 0x11f) ((lineStart 0x11f).toNat + 32)
      decide

theorem wrapping_survives :
    ∃ (e : Engine) (src : Nat → List Insn) (id : BlockId) (b : Block), e.Made src ∧
    e.block? id = some b ∧ b.isValid = true ∧ Sequential b.entry (basicBlock (src id.index)) ∧
    Hits (basicBlock (src id.index)) 0 4 ∧ ¬ e.Retires 0 4 id := by
  obtain ⟨src, id, e, made, emitted⟩ := exists_emitted 0xfffffffc wrapping rfl
  obtain ⟨b, hb, valid, entry⟩ := emitted.block
  have source : basicBlock (noted src id wrapping id.index) = wrapping := by rw [noted_self]; rfl
  have sequential : Sequential 0xfffffffc wrapping := by decide
  refine ⟨e, _, id, b, made, hb, valid, by rw [source, entry]; exact sequential,
    by rw [source]; decide, ?_⟩
  obtain ⟨last, hlast, stop⟩ := made.resting.exists_last hb
  rw [source] at hlast
  obtain rfl : ⟨0, .sc⟩ = last := Option.some.inj hlast
  have exits (x : ExitSlot) (hx : x ∈ b.exits) : False := by
    have := made.resting.target_mem_leavesTo hb (source.symm ▸ hlast) hx
    cases this
  rw [made.resting.retires_iff hb valid, touches_iff, entry]
  rintro (⟨low, -⟩ | ⟨x, hx, -⟩)
  · exact absurd low (by decide)
  · exact exits x hx

end Engine
end Dynarec
