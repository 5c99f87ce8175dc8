import Dynarec.Proofs.Imprint

/-!
Slots for addresses in a data region. Main statement: the address that fills a slot is read back
from the field and the selector byte, and a slot that cannot be filled leaves everything as it was.
-/
namespace Dynarec

/-- An address slot whose selector byte lies in code of some size and outside the field, with proper
codes. -/
structure Slot.Regional (s : Slot) (size : Nat) (w : Width) (selector : RegionSelector) : Prop where
  kind : s.kind = .canonical w selector
  inside : selector.offset.toNat < size
  outside : selector.offset.toNat < s.offset.toNat ∨ s.stop ≤ selector.offset.toNat
  proper : selector.Proper

namespace Placement

open Traced

variable {p : Placement} {regions : RegionBases} {k : Nat} {s : Slot} {w : Width}
  {selector : RegionSelector} {target : UInt64} {b : CodeBuffer}

/-- A slot that shows an address is read as that address. -/
theorem canonicalAddress_of_shows {i : Instance} {old : CodeBuffer}
    (slot : i.template.slots[k]? = some s) (kind : s.kind = .canonical w selector)
    (proper : selector.Proper) (shows' : b.Shows regions old i.offset s target) :
    b.canonicalAddress? regions i k = .ok (some target) := by
  rw [CodeBuffer.Shows, kind] at shows'
  obtain ⟨raw, region, byte, field, -, sum, -, selected⟩ := shows'
  refine bind_eq_ok.2 ⟨s, Instance.slot_eq_ok.2 slot, ?_⟩
  rw [kind]
  refine bind_eq_ok.2 ⟨_, selected, ?_⟩
  rw [proper.decode_select]
  refine bind_eq_ok.2 ⟨raw, field, ?_⟩
  rw [RegionBases.base_add_ofInt sum]
  rfl

theorem shows_of_writeSlot (housed : p.Housed)
    (regional : s.Regional p.copy.template.size w selector)
    (written : p.buffer.writeSlot regions p.copy.offset s target = .ok b) :
    b.Shows regions p.buffer p.copy.offset s target := by
  have clear : s.Clear := by
    intro w' selector' kind
    cases regional.kind.symm.trans kind
    exact regional.outside
  obtain ⟨field, extra⟩ := (CodeBuffer.stands_of_writeSlot housed.bounded written).1
  have confined : s.Confined (p.buffer.cursor - p.copy.offset) := by
    refine ⟨by omega, ?_⟩
    rw [regional.kind] at extra ⊢
    dsimp only at extra ⊢
    omega
  exact (CodeBuffer.carries_of_writeSlot housed.bounded clear written).shows
    (CodeBuffer.amended_of_writeSlot written) housed.bounded confined (by omega)

/-- The slot is free, its field has been written, and a region is near enough to the address. -/
def Admits (p : Placement) (regions : RegionBases) (k : Nat) (s : Slot) (w : Width)
    (target : UInt64) : Prop :=
  k < 32 ∧ p.copy.filled.getLsbD k = false ∧ p.copy.offset + s.stop ≤ p.buffer.cursor ∧
    (w.Fits (target.toNat - regions.a.toNat) ∨ w.Fits (target.toNat - regions.b.toNat))

theorem not_exposed_of_regional (housed : p.Housed)
    (regional : s.Regional p.copy.template.size w selector) : ¬ p.Exposed s := by
  rintro ⟨w', selector', kind, short⟩
  cases regional.kind.symm.trans kind
  exact absurd (housed.selector_lt regional.inside) (Nat.not_lt.2 short)

/-- A slot that admits the address is written and recorded. -/
theorem fill_of_admits (housed : p.Housed) (slot : p.copy.template.slots[k]? = some s)
    (regional : s.Regional p.copy.template.size w selector)
    (admits : p.Admits regions k s w target) :
    ∃ b, p.buffer.writeSlot regions p.copy.offset s target = .ok b ∧
      Yields (fill regions k target) p (.ok ())
        ⟨{ p.copy with filled := p.copy.filled ||| BitVec.twoPow 32 k }, b⟩ := by
  obtain ⟨few, free, field, near⟩ := admits
  have stands : s.Stands p.buffer p.copy.offset := by
    refine ⟨field, ?_⟩
    rw [regional.kind]
    exact housed.selector_lt regional.inside
  rcases fill_free housed.bounded slot few (.inr free) stands regions target
    with ⟨-, filled⟩ | ⟨refuses, -⟩
  · exact filled
  · refine absurd ?_ refuses
    rw [Slot.Accepts, regional.kind]
    exact RegionBases.canonical_eq_ok.2 near

/-- Only a slot that admits the address is ever filled with it. -/
theorem admits_of_fill {i : Instance} (housed : p.Housed)
    (slot : p.copy.template.slots[k]? = some s) (kind : s.kind = .canonical w selector)
    (filled : p.buffer.fill regions p.copy k target = .ok (i, b)) :
    p.Admits regions k s w target := by
  obtain ⟨s', slot', few, free, written, -⟩ := CodeBuffer.fill_eq_ok_iff.1 filled
  cases slot.symm.trans slot'
  obtain ⟨stands, accepts⟩ := CodeBuffer.stands_of_writeSlot housed.bounded written
  rw [Slot.Accepts, kind] at accepts
  rw [kind] at free
  exact ⟨few, free.resolve_left Bool.false_ne_true, stands.1, RegionBases.canonical_eq_ok.1 accepts⟩

/-- An address is the distance from region A if the width holds it, else the one from region B if
the width holds that, and is refused otherwise. An address slot is filled if it admits the address:
then the address is read back, the selector byte keeps its bits outside the mask, and no byte
outside field and selector changes. Otherwise everything stays as it was. -/
theorem canonical_addresses_round_trip :
    (∀ (regions : RegionBases) (target : UInt64) (w : Width) (d : Int),
      (w.Fits d ↔ -2 ^ (w.bits - 1) ≤ d ∧ d < 2 ^ (w.bits - 1)) ∧
      (regions.canonical target w = .ok (.a, d) ↔ d = target.toNat - regions.a.toNat ∧ w.Fits d) ∧
      (regions.canonical target w = .ok (.b, d) ↔
        ¬ w.Fits (target.toNat - regions.a.toNat) ∧ d = target.toNat - regions.b.toNat ∧ w.Fits d) ∧
      (regions.canonical target w = .error (.error (.regionsNotColocated target w)) ↔
        ¬ w.Fits (target.toNat - regions.a.toNat) ∧ ¬ w.Fits (target.toNat - regions.b.toNat))) ∧
    ∀ (p : Placement) (k : Nat) (s : Slot) (w : Width) (selector : RegionSelector), p.Housed →
      p.copy.template.slots[k]? = some s → s.Regional p.copy.template.size w selector →
      ∀ (regions : RegionBases) (target : UInt64),
        (p.Admits regions k s w target →
          ∃ p' old new, Yields (fill regions k target) p (.ok ()) p' ∧
          p'.buffer.canonicalAddress? regions p'.copy k = .ok (some target) ∧
          p.buffer.readByte (p.copy.offset + selector.offset.toNat) = .ok old ∧
          p'.buffer.readByte (p.copy.offset + selector.offset.toNat) = .ok new ∧
          new &&& ~~~selector.mask = old &&& ~~~selector.mask ∧
          p.buffer.Amended
            (fun n => (p.copy.offset + s.offset.toNat ≤ n ∧ n < p.copy.offset + s.stop) ∨
            n = p.copy.offset + selector.offset.toNat) p'.buffer) ∧
        (¬ p.Admits regions k s w target →
          ∃ fault, Yields (fill regions k target) p (.error fault) p) := by
  refine ⟨fun regions target w d =>
    ⟨w.fits_iff d, RegionBases.canonical_eq_a, RegionBases.canonical_eq_b,
    RegionBases.canonical_eq_far⟩, ?_⟩
  intro p k s w selector housed slot regional regions target
  refine ⟨fun admits => ?_, fun refuses => ?_⟩
  · obtain ⟨b, written, yields⟩ := fill_of_admits housed slot regional admits
    have shown := shows_of_writeSlot housed regional written
    have address :=
      canonicalAddress_of_shows
        (i := { p.copy with filled := p.copy.filled ||| BitVec.twoPow 32 k }) slot
        regional.kind regional.proper shown
    rw [CodeBuffer.Shows, regional.kind] at shown
    obtain ⟨-, region, old, -, -, -, before, after⟩ := shown
    refine ⟨_, old, _, yields, address, before, after, ?_,
      (CodeBuffer.amended_of_writeSlot written).mono fun n hn => ?_⟩
    · rw [← regional.proper.bits_eq, selector.select_bits]
    · rcases Slot.cells_cases hn with ⟨low, high⟩ | ⟨w', selector', kind, rfl⟩
      · exact .inl ⟨low, by rwa [Slot.stop, ← Nat.add_assoc]⟩
      · cases regional.kind.symm.trans kind
        exact .inr rfl
  · have whole : ∀ s', p.copy.template.slots[k]? = some s' →
        ¬ p.Exposed s' ∧ (s'.kind.isForward = true → k < 32) := by
      intro s' slot'
      cases slot.symm.trans slot'
      refine ⟨not_exposed_of_regional housed regional, fun forward => ?_⟩
      rw [regional.kind] at forward
      cases forward
    rcases fill_or_keep housed.bounded whole regions target with ⟨i, b, filled, -⟩ | failed
    · exact absurd (admits_of_fill housed slot regional.kind filled) refuses
    · exact failed

/-- A load, with its base register named by the low bits of the second byte. -/
def loadTemplate : Template where
  name := "load"
  code := [0x8B, 0x80, 0, 0, 0, 0]
  slots := [.canonical32 2 ⟨1, 7, 6, 7⟩]

def loadStart : Placement where
  copy := { offset := 1, template := loadTemplate }
  buffer := { base := 0x10000, capacity := 4096, bytes := (0xC3 :: loadTemplate.code).toArray }

theorem housed_load : loadStart.Housed := ⟨⟨by decide, by decide⟩, by decide⟩

theorem regional_load :
    (Slot.canonical32 2 ⟨1, 7, 6, 7⟩).Regional loadTemplate.size .w32 ⟨1, 7, 6, 7⟩ where
  kind := rfl
  inside := by decide
  outside := .inl (by decide)
  proper := ⟨fun r => by cases r <;> rfl, by decide⟩

/-- An address below region B is read back, and one between the regions is refused. -/
theorem load_address_round_trip :
    loadStart.Housed ∧
      (Slot.canonical32 2 ⟨1, 7, 6, 7⟩).Regional loadTemplate.size .w32 ⟨1, 7, 6, 7⟩ ∧
      (∃ p, Yields (fill ⟨0x20000, 0x700000000⟩ 0 0x6FFFFFFF0) loadStart (.ok ()) p ∧
        p.buffer.canonicalAddress? ⟨0x20000, 0x700000000⟩ p.copy 0 = .ok (some 0x6FFFFFFF0)) ∧
      ∃ fault, Yields (fill ⟨0x20000, 0x700000000⟩ 0 0x90000000) loadStart (.error fault)
        loadStart := by
  have law := canonical_addresses_round_trip.2 loadStart 0 _ _ _ housed_load rfl regional_load
    ⟨0x20000, 0x700000000⟩
  obtain ⟨p, -, -, yields, address, -⟩ :=
    (law 0x6FFFFFFF0).1 ⟨by decide, by decide, by decide, .inr (by decide)⟩
  refine ⟨housed_load, regional_load, ⟨p, yields, address⟩, (law 0x90000000).2 ?_⟩
  rintro ⟨-, -, -, near | near⟩
  · exact absurd near (by decide)
  · exact absurd near (by decide)

end Placement
end Dynarec
