import Dynarec.Config
import Dynarec.Proofs.Imprint

/-!
Branch fields in a mapped buffer, of any width. Main statement: pointing a field at an offset fails
or makes it land there, whether it is done by offset or by filling the slot that the field belongs
to.
-/
namespace Dynarec

open Traced

namespace CodeBuffer

variable {b b' : CodeBuffer} {P : Nat → Prop} {site : BranchSite} {target : Nat}

theorem map_limits {base size : Nat} (h : map base size = .ok b) :
    b.capacity < mappingLimit ∧ b.base + b.capacity < wordBound := by
  unfold map at h
  split at h
  · cases h
  · obtain ⟨sum, -, h⟩ := bind_eq_ok.1 h
    dsimp only at h
    split at h
    · cases h
    · next fits =>
      cases h
      exact ⟨Nat.lt_of_not_le fun large => fits (.inl large),
        Nat.lt_of_not_le fun large => fits (.inr large)⟩

/-- The buffer lies in memory that could be mapped, with its cursor inside. -/
structure Mapped (b : CodeBuffer) : Prop where
  mapping : ∃ size, map b.base size = .ok { base := b.base, capacity := b.capacity }
  cursor_le : b.cursor ≤ b.capacity

theorem Mapped.bounded (h : b.Mapped) : b.Bounded := by
  obtain ⟨size, mapped⟩ := h.mapping
  exact ⟨h.cursor_le, (map_limits mapped).2⟩

theorem Mapped.capacity_lt (h : b.Mapped) : b.capacity < 2 ^ 63 := by
  obtain ⟨size, mapped⟩ := h.mapping
  exact Nat.lt_trans (map_limits mapped).1 (by decide)

theorem Amended.has (h : b.Amended P b') (has : b.Has site) : b'.Has site := by
  refine ⟨?_, ?_⟩
  · rw [h.frame]
    exact has.anchor_le
  · rw [h.cursor]
    exact has.stop_le

/-- A field that has been made to lead to an offset is read as landing there. -/
theorem Mapped.branchTarget (h : b.Mapped) (has : b.Has site) (target_le : target ≤ b.capacity)
    (amended : b.Amended P b') (leads : b'.Leads site target) :
    b'.branchTarget site = .ok (target : Int) := by
  have capacity : b'.capacity = b.capacity := by rw [amended.frame]
  exact leads.branchTarget_eq_ok (amended.bounded h.bounded) (capacity ▸ h.capacity_lt)
    (amended.has has) (capacity ▸ target_le)

/-- Only the field changes when it is pointed elsewhere. -/
theorem amended_point (b : CodeBuffer) (site : BranchSite) (target : Nat) :
    b.Amended (fun n => site.start ≤ n ∧ n < site.stop) (b.point site target) :=
  ⟨rfl, cursor_point .., fun _ outside => getElem?_point (by omega)⟩

end CodeBuffer

/-- In a buffer of the largest size that is configured, a field of 32 bits spans every distance. -/
theorem BranchSite.spans_of_capacity {site : BranchSite} {capacity target : Nat}
    (wide : site.width = .w32) (small : capacity ≤ maxCodeBufferSize)
    (anchor_le : site.anchor ≤ capacity) (target_le : target ≤ capacity) : site.Spans target := by
  unfold maxCodeBufferSize at small
  rw [Spans, wide]
  constructor <;> simp only [Width.modulus] <;> omega

/-- An operation on something that holds a code buffer points a branch field at an offset, if the
field can hold the distance: then the field is read as landing there, and no other byte changes.
Otherwise it reports an error and changes nothing. -/
structure Steers {σ : Type} (x : Traced σ Unit) (buffer : σ → CodeBuffer) (s : σ)
    (site : BranchSite) (target : Nat) : Prop where
  lands : site.Spans target → ∃ s', Yields x s (.ok ()) s' ∧
    (buffer s').branchTarget site = .ok (target : Int) ∧
    (buffer s).Amended (fun n => site.start ≤ n ∧ n < site.stop) (buffer s')
  stays : ¬ site.Spans target → ∃ cause, Yields x s (.error (.error cause)) s

theorem CodeBuffer.steers_relink {b : CodeBuffer} {site : BranchSite} {target : Nat}
    (mapped : b.Mapped) (has : b.Has site) (target_le : target ≤ b.capacity) :
    Steers (relink site target) id b site target where
  lands spans := by
    have amended := b.amended_point site target
    exact ⟨_, yields_relink mapped.bounded has target_le spans,
      mapped.branchTarget has target_le amended (leads_point spans has.stop_le), amended⟩
  stays short := ⟨_, yields_relink_error mapped.bounded has target_le short⟩

namespace Placement

variable {p : Placement} {k target : Nat} {site : BranchSite} {s : Slot}

/-- The slot has a bit in the record, and has not been filled or may be filled again. -/
def Open (p : Placement) (k : Nat) : Prop :=
  k < 32 ∧ ∃ s, p.copy.template.slots[k]? = some s ∧
    (s.kind.isForward = true ∨ p.copy.filled.getLsbD k = false)

theorem steers_fill (mapped : p.buffer.Mapped) (has : p.buffer.Has site)
    (target_le : target ≤ p.buffer.capacity) (hsite : p.copy.branchSite k = .ok site)
    (free : p.Open k) (regions : RegionBases) :
    Steers (fill regions k (.ofNat (p.buffer.base + target))) (·.buffer) p site target := by
  obtain ⟨few, s, slot, free⟩ := free
  obtain ⟨s', slot', start, width, anchor, hanchor, kind⟩ := CodeBuffer.branchSite_inv hsite
  cases slot.symm.trans (Instance.slot_eq_ok.1 slot')
  have anchor_le := has.anchor_le
  have stop_le := has.stop_le
  have stands : s.Stands p.buffer p.copy.offset := by
    refine ⟨?_, ?_⟩
    · rw [Slot.stop, ← width, ← Nat.add_assoc, ← start]
      exact stop_le
    · rw [hanchor] at anchor_le
      rcases kind with kind | kind <;> rw [kind] <;> exact anchor_le
  have accepts :
      s.Accepts regions (p.buffer.base + p.copy.offset) (.ofNat (p.buffer.base + target)) ↔
      site.Spans target := by
    have distance : ((UInt64.ofNat (p.buffer.base + target)).toNat : Int) -
        (p.buffer.base + p.copy.offset + anchor.toNat : Nat) = target - site.anchor := by
      rw [mapped.bounded.toNat_ofNat target_le, hanchor]
      omega
    rw [Slot.Accepts, BranchSite.Spans, ← distance]
    rcases kind with kind | kind <;> rw [kind]
  rcases fill_free mapped.bounded slot few free stands regions (.ofNat (p.buffer.base + target))
    with ⟨taken, b, written, yields⟩ | ⟨refused, cause, yields⟩
  · refine ⟨fun _ => ⟨_, yields, ?_⟩, fun short => absurd (accepts.1 taken) short⟩
    have filled := CodeBuffer.fill_eq_ok_iff.2 ⟨s, slot, few, free, written, rfl⟩
    have leads := (CodeBuffer.leads_of_fill mapped.bounded hsite target_le filled).2
    have amended : p.buffer.Amended (fun n => site.start ≤ n ∧ n < site.stop) b := by
      refine (CodeBuffer.amended_of_writeSlot written).mono fun n hn => ?_
      rcases Slot.cells_cases hn with ⟨low, high⟩ | ⟨w, selector, canonical, -⟩
      · rw [BranchSite.stop, start, width]
        exact ⟨low, high⟩
      · rcases kind with kind | kind <;> cases kind.symm.trans canonical
    exact ⟨mapped.branchTarget has target_le amended leads, amended⟩
  · exact ⟨fun spans => absurd (accepts.2 spans) refused, fun _ => ⟨cause, yields⟩⟩

end Placement

namespace CodeBuffer

variable {b : CodeBuffer} {site : BranchSite} {target : Nat}

/-- A branch field that has been written, of any width and measured from any offset of the buffer,
can be pointed at the offsets whose distance it can hold and at no others. It then lands there and
the rest of the buffer stays. So does a field that is filled as a slot of a copy. Where no buffer is
larger than configured, a field of 32 bits goes everywhere. -/
theorem branches_land_where_pointed (mapped : b.Mapped) (has : b.Has site)
    (target_le : target ≤ b.capacity) :
    (site.Spans target ↔ -2 ^ (site.width.bits - 1) ≤ (target - site.anchor : Int) ∧
      (target - site.anchor : Int) < 2 ^ (site.width.bits - 1)) ∧
    Steers (relink site target) id b site target ∧
    (∀ (p : Placement) (k : Nat) (regions : RegionBases), p.buffer = b →
      p.copy.branchSite k = .ok site → p.Open k →
      Steers (Placement.fill regions k (.ofNat (b.base + target))) (·.buffer) p site target) ∧
    (b.capacity ≤ maxCodeBufferSize → site.width = .w32 →
      ∃ b', Yields (relink site target) b (.ok ()) b') := by
  have steers := steers_relink mapped has target_le
  refine ⟨site.width.fits_iff _, steers, ?_, ?_⟩
  · rintro p k regions rfl hsite free
    exact Placement.steers_fill mapped has target_le hsite free regions
  · intro small wide
    obtain ⟨b', yields, -⟩ :=
      steers.lands (BranchSite.spans_of_capacity wide small has.anchor_le target_le)
    exact ⟨b', yields⟩

/-- A short jump behind three other bytes. -/
def jumpCopy : Placement where
  copy := { offset := 3,
            template := { name := "jump", code := [0xEB, 0], slots := [⟨1, .relative .w8 2⟩] } }
  buffer := { base := 0x10000, capacity := 4096, bytes := #[0x90, 0x90, 0x90, 0xEB, 0] }

def jumpSite : BranchSite := { start := 4, anchor := 5, width := .w8 }

theorem mapped_jump : jumpCopy.buffer.Mapped where
  mapping := ⟨4096, by simp [map, jumpCopy, addSizes, pageSize, mappingLimit, wordBound, bind,
    Except.bind, pure, Except.pure]⟩
  cursor_le := by decide

theorem has_jump : jumpCopy.buffer.Has jumpSite := ⟨by decide, by decide⟩

/-- The jump goes back to the start of the buffer, and cannot go to its end. -/
theorem jump_lands_at_start :
    jumpCopy.buffer.Mapped ∧ jumpCopy.buffer.Has jumpSite ∧
      (∃ b, Yields (relink jumpSite 0) jumpCopy.buffer (.ok ()) b ∧
        b.branchTarget jumpSite = .ok 0) ∧
      (∃ p, Yields (Placement.fill {} 0 0x10000) jumpCopy (.ok ()) p ∧
        p.buffer.branchTarget jumpSite = .ok 0) ∧
      ∃ cause, Yields (relink jumpSite 4096) jumpCopy.buffer (.error (.error cause))
        jumpCopy.buffer := by
  obtain ⟨-, back, filled, -⟩ := branches_land_where_pointed mapped_jump has_jump (Nat.zero_le _)
  obtain ⟨-, far, -, -⟩ := branches_land_where_pointed mapped_jump has_jump (Nat.le_refl _)
  obtain ⟨b, yields, lands, -⟩ := back.lands (by decide)
  have steers := filled jumpCopy 0 {} rfl rfl ⟨by decide, _, rfl, .inr (by decide)⟩
  obtain ⟨p, yields', lands', -⟩ := steers.lands (by decide)
  exact ⟨mapped_jump, has_jump, ⟨b, yields, lands⟩, ⟨p, yields', lands'⟩, far.stays (by decide)⟩

end CodeBuffer
end Dynarec
