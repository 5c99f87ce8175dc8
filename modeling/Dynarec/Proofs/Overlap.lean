import Dynarec.Proofs.Staleness

/-!
When a guest range overlaps a block. The test compares each end with the other range's start, which
is exact for ranges that hold an address. An empty range passes it too when it lies strictly inside
the block, and invalidating such a range takes the block out of use.
-/
namespace Dynarec

/-- The guest range from `start` up to `stop`. -/
def InRange (start : UInt32) (stop : Nat) (addr : UInt32) : Prop := start ≤ addr ∧ addr.toNat < stop

theorem InRange.lt {start addr : UInt32} {stop : Nat} (h : InRange start stop addr) :
    start.toNat < stop :=
  Nat.lt_of_le_of_lt (UInt32.le_iff_toNat_le.1 h.1) h.2

namespace Block

variable {b : Block} {start : UInt32} {stop : Nat}

/-- The addresses of a block. The entry is one of them even if the block ends below it. -/
def Spans (b : Block) (addr : UInt32) : Prop := addr = b.entry ∨ InRange b.entry b.stop addr

/-- The range is empty, and both its ends lie strictly inside the block. -/
def Encloses (b : Block) (start : UInt32) (stop : Nat) : Prop :=
  b.entry.toNat < stop ∧ stop ≤ start.toNat ∧ start.toNat < b.stop

theorem intersects_iff :
    b.intersects start stop = true ↔ b.entry.toNat < stop ∧ start.toNat < b.stop := by
  simp [intersects]

theorem Encloses.intersects (h : b.Encloses start stop) : b.intersects start stop = true :=
  intersects_iff.2 ⟨h.1, h.2.2⟩

theorem intersects_of_shared {addr : UInt32} (mine : InRange b.entry b.stop addr)
    (theirs : InRange start stop addr) : b.intersects start stop = true := by
  have above := UInt32.le_iff_toNat_le.1 mine.1
  have behind := UInt32.le_iff_toNat_le.1 theirs.1
  exact intersects_iff.2 ⟨Nat.lt_of_le_of_lt above theirs.2, Nat.lt_of_le_of_lt behind mine.2⟩

/-- The later of the two starts is shared. -/
theorem exists_shared (h : b.intersects start stop = true) (full : start.toNat < stop)
    (straight : b.entry.toNat < b.stop) :
    ∃ addr, InRange b.entry b.stop addr ∧ InRange start stop addr := by
  obtain ⟨low, high⟩ := intersects_iff.1 h
  rcases Nat.le_total b.entry.toNat start.toNat with le | le
  · exact ⟨start, ⟨UInt32.le_iff_toNat_le.2 le, high⟩, UInt32.le_refl _, full⟩
  · exact ⟨b.entry, ⟨UInt32.le_refl _, straight⟩, UInt32.le_iff_toNat_le.2 le, low⟩

theorem exists_spans (h : b.intersects start stop = true) (full : start.toNat < stop) :
    ∃ addr, b.Spans addr ∧ InRange start stop addr := by
  by_cases straight : b.entry.toNat < b.stop
  · obtain ⟨addr, mine, theirs⟩ := exists_shared h full straight
    exact ⟨addr, .inr mine, theirs⟩
  · -- A range that starts below the end of a wrapped block starts below its entry.
    obtain ⟨low, high⟩ := intersects_iff.1 h
    exact ⟨b.entry, .inl rfl, UInt32.le_iff_toNat_le.2 (by omega), low⟩

/-- The test is exact but for empty ranges strictly inside the block. -/
theorem intersects_exact_iff (straight : b.entry.toNat < b.stop) :
    (b.intersects start stop = true ↔
      ∃ addr, InRange b.entry b.stop addr ∧ InRange start stop addr) ↔
      ¬ b.Encloses start stop := by
  constructor
  · intro agrees enclosed
    obtain ⟨addr, -, theirs⟩ := agrees.1 enclosed.intersects
    have := theirs.lt
    have := enclosed.2.1
    omega
  · intro apart
    constructor
    · intro hit
      obtain ⟨low, high⟩ := intersects_iff.1 hit
      refine exists_shared hit ?_ straight
      by_contra empty
      exact apart ⟨low, by omega, high⟩
    · rintro ⟨addr, mine, theirs⟩
      exact intersects_of_shared mine theirs

end Block

namespace Engine

open Traced

variable {e : Engine} {b : Block} {start : UInt32} {stop : Nat}

theorem touches_cases (hit : touches b start stop = true) :
    (∃ addr, b.Spans addr ∧ InRange start stop addr) ∨
      (∃ x ∈ b.exits, InRange start stop x.target) ∨ b.Encloses start stop := by
  rcases touches_iff.1 hit with ⟨low, high⟩ | inside
  · by_cases full : start.toNat < stop
    · exact .inl (Block.exists_spans (Block.intersects_iff.2 ⟨low, high⟩) full)
    · exact .inr (.inr ⟨low, Nat.not_lt.1 full, high⟩)
  · exact .inr (.inl inside)

theorem touches_of_encloses (h : b.Encloses start stop) : touches b start stop = true :=
  touches_iff.2 (.inl ⟨h.1, h.2.2⟩)

theorem encloses_of_touches (hit : touches b start stop = true) (empty : stop ≤ start.toNat) :
    b.Encloses start stop := by
  rcases touches_cases hit with ⟨addr, -, inside⟩ | ⟨x, -, inside⟩ | enclosed
  · exact absurd inside.lt (Nat.not_lt.2 empty)
  · exact absurd inside.lt (Nat.not_lt.2 empty)
  · exact enclosed

/-- The overlap test holds exactly if an address is shared, and invalidating a range takes only
blocks out of use that share an address with it or go on inside it, in both cases but for an empty
range strictly inside the block. So an empty range leaves the engine as it is if and only if no
block encloses it. -/
theorem Reachable.overlap_exact_unless_enclosed (h : e.Reachable) (start : UInt32) (stop : Nat) :
    (∀ b : Block, b.entry.toNat < b.stop →
      ((b.intersects start stop = true ↔
        ∃ addr, InRange b.entry b.stop addr ∧ InRange start stop addr) ↔
        ¬ b.Encloses start stop)) ∧
    (∀ id b, e.block? id = some b → b.isValid = true →
      (e.Retires start stop id → (∃ addr, b.Spans addr ∧ InRange start stop addr) ∨
        (∃ x ∈ b.exits, InRange start stop x.target) ∨ b.Encloses start stop) ∧
      (b.Encloses start stop → e.Retires start stop id)) ∧
    (stop ≤ start.toNat →
      ((∀ log, (EngineM.invalidateRange start stop).perform e log = ((.ok 0, e), log)) ↔
        ∀ id b, e.block? id = some b → b.isValid = true → ¬ b.Encloses start stop)) := by
  obtain ⟨src, made⟩ := h.made
  have resting := made.resting
  refine ⟨fun b straight => Block.intersects_exact_iff straight, fun id b hb valid => ?_,
    fun empty => ?_⟩
  · have retires : e.Retires start stop id ↔ touches b start stop = true :=
      resting.retires_iff hb valid
    exact ⟨fun gone => touches_cases (retires.1 gone),
      fun enclosed => retires.2 (touches_of_encloses enclosed)⟩
  · constructor
    · intro nothing id b hb valid enclosed
      obtain ⟨n, e', b', done, hb', invalid, -⟩ :=
        (resting.retires_iff hb valid).2 (touches_of_encloses enclosed) #[]
      rw [nothing #[]] at done
      obtain ⟨-, rfl⟩ := Prod.mk.inj done
      obtain rfl := Option.some.inj (hb.symm.trans hb')
      rw [valid] at invalid
      cases invalid
    · intro apart
      refine perform_invalidateRange_of_nil ?_
      rw [List.eq_nil_iff_forall_not_mem]
      intro id hid
      obtain ⟨b, hb, valid, hit⟩ := resting.placed.mem_affectedBy.1 hid
      exact apart id b hb valid (encloses_of_touches hit empty)

/-- The range that starts and stops where the block ends does not reach it. -/
theorem countdown_outlives_range_behind_it :
    ∃ (e : Engine) (id : BlockId) (b : Block), e.Reachable ∧
    e.block? id = some b ∧ b.isValid = true ∧ b.entry = 0x100 ∧ b.stop = 0x10c ∧
    b.intersects 0x10b 0x10c = true ∧ b.intersects 0x10c 0x10c = false ∧
    (EngineM.invalidateRange 0x10c 0x10c).perform e #[] = ((.ok 0, e), #[]) := by
  obtain ⟨src, id, e, -, reachable, emitted⟩ := exists_countdown
  obtain ⟨b, hb, valid, entry, hstop, -⟩ := countdown_block emitted
  have straight : b.entry.toNat < b.stop := by rw [entry, hstop]; decide
  have full : ¬ b.Encloses 0x10b 0x10c := fun enclosed => absurd enclosed.2.1 (by decide)
  have behind : ¬ b.Encloses 0x10c 0x10c :=
    fun enclosed => absurd (hstop ▸ enclosed.2.2) (by decide)
  refine ⟨e, id, b, reachable, hb, valid, entry, hstop, ?_, ?_, ?_⟩
  · refine (((reachable.overlap_exact_unless_enclosed 0x10b 0x10c).1 b straight).2 full).2
      ⟨0x10b, ?_, ?_⟩
    · rw [entry, hstop]
      exact ⟨by decide, by decide⟩
    · exact ⟨by decide, by decide⟩
  · refine Bool.eq_false_iff.2 fun hit => ?_
    obtain ⟨addr, -, inside⟩ :=
      (((reachable.overlap_exact_unless_enclosed 0x10c 0x10c).1 b straight).2 behind).1 hit
    exact absurd inside.lt (by decide)
  · refine ((reachable.overlap_exact_unless_enclosed 0x10c 0x10c).2.2 (by decide)).2 ?_ #[]
    intro d c hc hvalid
    obtain rfl := eq_countdown emitted hc hvalid
    obtain rfl := Option.some.inj (hb.symm.trans hc)
    exact behind

/-- A range that stops before it starts takes the block around it out of use. -/
theorem countdown_lost_to_empty_range : ∃ (e : Engine) (id : BlockId) (b : Block), e.Reachable ∧
    e.block? id = some b ∧ b.isValid = true ∧ b.entry.toNat < b.stop ∧
    b.intersects 0x108 0x104 = true ∧ (∀ addr, ¬ InRange 0x108 0x104 addr) ∧
    e.Retires 0x108 0x104 id := by
  obtain ⟨src, id, e, -, reachable, emitted⟩ := exists_countdown
  obtain ⟨b, hb, valid, entry, hstop, -⟩ := countdown_block emitted
  have enclosed : b.Encloses 0x108 0x104 := by
    unfold Block.Encloses
    rw [entry, hstop]
    decide
  obtain ⟨_, made⟩ := reachable.made
  refine ⟨e, id, b, reachable, hb, valid, by rw [entry, hstop]; decide, enclosed.intersects, ?_, ?_⟩
  · exact fun addr inside => absurd inside.lt (by decide)
  · exact (made.resting.retires_iff hb valid).2 (touches_of_encloses enclosed)

end Engine
end Dynarec
