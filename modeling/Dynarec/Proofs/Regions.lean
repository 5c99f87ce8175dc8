import Dynarec.Relocation
import Dynarec.Proofs.Bytes

/-!
Host addresses as a data region and a signed distance from its base, and the byte that names the
region.
-/
namespace Dynarec

/-- A signed number of a width, by its bits. -/
theorem Width.fits_iff (w : Width) (d : Int) :
    w.Fits d ↔ -2 ^ (w.bits - 1) ≤ d ∧ d < 2 ^ (w.bits - 1) := by
  unfold Fits
  cases w <;> norm_num [modulus, bits, bytes] <;> omega

theorem Width.toNat_truncate (w : Width) (v : UInt64) :
    (w.truncate v).toNat = v.toNat % w.modulus :=
  UInt64.toNat_ofNat_of_lt' (Nat.lt_of_le_of_lt (Nat.mod_le _ _) v.toNat_lt)

theorem Width.truncate_w64 (v : UInt64) : w64.truncate v = v := by
  apply UInt64.toNat.inj
  rw [toNat_truncate]
  exact Nat.mod_eq_of_lt v.toNat_lt

theorem Width.decode_encode (w : Width) (v : UInt64) : decode (w.encode v) = w.truncate v := by
  apply UInt64.toNat.inj
  rw [toNat_decode_encode, toNat_truncate]

theorem Width.signExtend_truncate {w : Width} {d : Int} (h : w.Fits d) :
    w.signExtend (w.truncate (.ofInt d)) = d := by
  rw [← decode_encode, signExtend_decode_encode h]

namespace RegionBases

variable {r : RegionBases} {target : UInt64} {w : Width} {d : Int}

theorem canonical_eq_a :
    r.canonical target w = .ok (.a, d) ↔ d = target.toNat - r.a.toNat ∧ w.Fits d := by
  unfold canonical
  dsimp only
  split
  · next fits =>
    constructor
    · rintro ⟨⟩
      exact ⟨rfl, fits⟩
    · rintro ⟨rfl, -⟩
      rfl
  · next far =>
    constructor
    · intro h
      split at h <;> cases h
    · rintro ⟨rfl, fits⟩
      exact absurd fits far

theorem canonical_eq_b : r.canonical target w = .ok (.b, d) ↔
    ¬ w.Fits (target.toNat - r.a.toNat) ∧ d = target.toNat - r.b.toNat ∧ w.Fits d := by
  unfold canonical
  dsimp only
  split
  · next near =>
    constructor
    · rintro ⟨⟩
    · rintro ⟨far, -⟩
      exact absurd near far
  · next far =>
    split
    · next fits =>
      constructor
      · rintro ⟨⟩
        exact ⟨far, rfl, fits⟩
      · rintro ⟨-, rfl, -⟩
        rfl
    · next far' =>
      constructor
      · rintro ⟨⟩
      · rintro ⟨-, rfl, fits⟩
        exact absurd fits far'

theorem canonical_eq_far : r.canonical target w = .error (.error (.regionsNotColocated target w)) ↔
    ¬ w.Fits (target.toNat - r.a.toNat) ∧ ¬ w.Fits (target.toNat - r.b.toNat) := by
  unfold canonical
  dsimp only
  split
  · next near => simp [near]
  · next far =>
    split
    · next near => simp [near]
    · next far' => simp [far, far']

theorem canonical_eq_ok : (∃ x, r.canonical target w = .ok x) ↔
    w.Fits (target.toNat - r.a.toNat) ∨ w.Fits (target.toNat - r.b.toNat) := by
  constructor
  · rintro ⟨⟨region, d⟩, h⟩
    cases region with
    | a =>
      obtain ⟨rfl, fits⟩ := canonical_eq_a.1 h
      exact .inl fits
    | b =>
      obtain ⟨-, rfl, fits⟩ := canonical_eq_b.1 h
      exact .inr fits
  · intro near
    by_cases nearA : w.Fits (target.toNat - r.a.toNat)
    · exact ⟨_, canonical_eq_a.2 ⟨rfl, nearA⟩⟩
    · exact ⟨_, canonical_eq_b.2 ⟨nearA, rfl, near.resolve_left nearA⟩⟩

/-- Failing to find a region is an error. -/
theorem canonical_eq_error {fault : Fault} (h : r.canonical target w = .error fault) :
    fault = .error (.regionsNotColocated target w) := by
  have far : ¬ ∃ x, r.canonical target w = .ok x := by simp [h]
  rw [canonical_eq_ok, not_or, ← canonical_eq_far, h] at far
  exact Except.error.inj far

/-- The distance leads from the base of the region to the address. -/
theorem canonical_inv {region : Region} (h : r.canonical target w = .ok (region, d)) :
    w.Fits d ∧ ((r.base region).toNat : Int) + d = target.toNat := by
  cases region with
  | a =>
    obtain ⟨rfl, fits⟩ := canonical_eq_a.1 h
    exact ⟨fits, add_sub_cancel ..⟩
  | b =>
    obtain ⟨-, rfl, fits⟩ := canonical_eq_b.1 h
    exact ⟨fits, add_sub_cancel ..⟩

/-- The base of the region and the distance, as host words, give the address. -/
theorem base_add_ofInt {region : Region} (h : ((r.base region).toNat : Int) + d = target.toNat) :
    r.base region + UInt64.ofInt d = target := by
  apply UInt64.toNat.inj
  have word := Width.toNat_ofInt d
  have bound := target.toNat_lt
  rw [UInt64.toNat_add]
  omega

end RegionBases

namespace RegionSelector

variable {s : RegionSelector}

/-- The bits of a selector byte that naming a region may change. -/
def bits (s : RegionSelector) : UInt8 := s.mask ||| s.regionA ||| s.regionB

/-- Two codes that differ, with no bit outside the mask. -/
structure Proper (s : RegionSelector) : Prop where
  masked : ∀ r, s.code r &&& ~~~s.mask = 0
  distinct : s.regionA ≠ s.regionB

theorem select_bits (s : RegionSelector) (byte : UInt8) (r : Region) :
    s.select byte r &&& ~~~s.bits = byte &&& ~~~s.bits := by
  apply UInt8.toBitVec_inj.1
  ext i hi
  cases r <;> simp only [select, bits, code] <;> simp <;>
    cases s.mask.toBitVec[i] <;> cases s.regionA.toBitVec[i] <;>
      cases s.regionB.toBitVec[i] <;> simp

/-- A code within the mask has no bit that the mask has not. -/
theorem Proper.code_le_mask (h : s.Proper) (r : Region) {i : Nat} (hi : i < 8) :
    (s.code r).toBitVec[i] = true → s.mask.toBitVec[i] = true := by
  intro bit
  have masked := congrArg (fun b : UInt8 => b.toBitVec[i]) (h.masked r)
  simpa [bit] using masked

theorem Proper.bits_eq (h : s.Proper) : s.bits = s.mask := by
  apply UInt8.toBitVec_inj.1
  ext i hi
  have fromA := h.code_le_mask .a hi
  have fromB := h.code_le_mask .b hi
  simp only [code] at fromA fromB
  simp only [bits, UInt8.toBitVec_or, BitVec.getElem_or]
  grind

theorem Proper.select_and_mask (h : s.Proper) (byte : UInt8) (r : Region) :
    s.select byte r &&& s.mask = s.code r := by
  apply UInt8.toBitVec_inj.1
  ext i hi
  have within := h.code_le_mask r hi
  simp only [select, UInt8.toBitVec_and, UInt8.toBitVec_or, UInt8.toBitVec_not, BitVec.getElem_and,
    BitVec.getElem_or, BitVec.getElem_not]
  grind

/-- A byte that has been pointed at a region names it. -/
theorem Proper.decode_select (h : s.Proper) (byte : UInt8) (r : Region) :
    s.decode (s.select byte r) = some r := by
  rw [decode, h.select_and_mask]
  cases r with
  | a => exact if_pos rfl
  | b =>
    rw [code, if_neg h.distinct.symm]
    exact if_pos rfl

end RegionSelector

end Dynarec
