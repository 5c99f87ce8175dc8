import Dynarec.HostWord
import Dynarec.Proofs.Imprint

/-!
Field arithmetic at every width. What the host computes in words is what a field holds by
definition, without a violation on the way. Main statement: fitting, truncation and sign extension
are consistent with each other, and with what is read from a field that has been written.
-/
namespace Dynarec

namespace Width

variable {w : Width}

theorem modulus_eq (w : Width) : w.modulus = 2 ^ w.bits := by cases w <;> rfl

section Computed

/-- Below the whole word the limits are computed, and are those of the width. -/
theorem fitsWord_narrow (narrow : w ≠ .w64) (v : Int64) : ∃ low high : Int64,
    2 * low.toInt = -w.modulus ∧ 2 * high.toInt = w.modulus ∧
      w.fitsWord v = .ok (decide (low ≤ v) && decide (v < high)) := by
  cases w with
  | w8 => exact ⟨-0x80, 0x80, rfl, rfl, rfl⟩
  | w16 => exact ⟨-0x8000, 0x8000, rfl, rfl, rfl⟩
  | w32 => exact ⟨-0x80000000, 0x80000000, rfl, rfl, rfl⟩
  | w64 => exact absurd rfl narrow

theorem fits_w64 (v : Int64) : w64.Fits v.toInt := by
  have := v.toInt_lt
  have := v.le_toInt
  constructor <;> simp only [modulus] <;> omega

theorem fitsWord_eq (w : Width) (v : Int64) : w.fitsWord v = .ok (decide (w.Fits v.toInt)) := by
  by_cases wide : w = .w64
  · subst wide
    rw [decide_eq_true (fits_w64 v)]
    rfl
  · obtain ⟨low, high, hlow, hhigh, computed⟩ := fitsWord_narrow wide v
    have limits : (low ≤ v ∧ v < high) ↔ w.Fits v.toInt := by
      rw [Int64.le_iff_toInt_le, Int64.lt_iff_toInt_lt, Fits, ← hlow, ← hhigh]
      omega
    rw [computed, ← Bool.decide_and, decide_eq_decide.2 limits]

theorem truncateWord_narrow (narrow : w ≠ .w64) (v : UInt64) : ∃ mask : UInt64,
    mask.toNat = 2 ^ w.bits - 1 ∧ w.truncateWord v = .ok (v &&& mask) := by
  cases w with
  | w8 => exact ⟨0xFF, rfl, rfl⟩
  | w16 => exact ⟨0xFFFF, rfl, rfl⟩
  | w32 => exact ⟨0xFFFFFFFF, rfl, rfl⟩
  | w64 => exact absurd rfl narrow

theorem truncateWord_eq (w : Width) (v : UInt64) : w.truncateWord v = .ok (w.truncate v) := by
  by_cases wide : w = .w64
  · subst wide
    exact congrArg Except.ok (truncate_w64 v).symm
  · obtain ⟨mask, hmask, computed⟩ := truncateWord_narrow wide v
    rw [computed]
    refine congrArg Except.ok (UInt64.toNat.inj ?_)
    rw [toNat_truncate, UInt64.toNat_and, hmask, Nat.and_two_pow_sub_one_eq_mod, modulus_eq]

/-- The shift up drops what the field does not keep, and the shift down brings copies of the field's
sign. -/
theorem toInt_shifts (w : Width) (v : BitVec 64) :
    ((v <<< (64 - w.bits)).sshiftRight (64 - w.bits)).toInt = Int.bmod v.toNat w.modulus := by
  have := v.isLt
  rw [BitVec.toInt_sshiftRight, BitVec.toInt_shiftLeft, Int.shiftRight_eq_div_pow, Nat.shiftLeft_eq]
  cases w <;> simp only [modulus, bits, bytes, Int.bmod] <;> norm_num <;> omega

theorem signExtendWord_eq (w : Width) (v : UInt64) :
    ∃ s, w.signExtendWord v = .ok s ∧ s.toInt = w.signExtend v := by
  refine ⟨.ofBitVec ((v.toBitVec <<< (64 - w.bits)).sshiftRight (64 - w.bits)), ?_,
    toInt_shifts w v.toBitVec⟩
  cases w <;> rfl

end Computed

section Laws

theorem fits_signExtend (w : Width) (v : UInt64) : w.Fits (w.signExtend v) := by
  unfold Fits signExtend
  cases w <;> simp only [modulus, Int.bmod] <;> omega

/-- The signed values of a width are those that survive truncation. -/
theorem fits_iff_signExtend_truncate {d : Int} :
    w.Fits d ↔ w.signExtend (w.truncate (.ofInt d)) = d := by
  constructor
  · exact signExtend_truncate
  · intro same
    exact same ▸ w.fits_signExtend _

theorem truncate_signExtend (w : Width) (v : UInt64) :
    w.truncate (.ofInt (w.signExtend v)) = w.truncate v := by
  apply UInt64.toNat.inj
  have word := toNat_ofInt (w.signExtend v)
  rw [toNat_truncate, toNat_truncate]
  unfold signExtend at word ⊢
  cases w <;> simp only [modulus, Int.bmod] at word ⊢ <;> omega

theorem ofInt_toInt (v : Int64) : UInt64.ofInt v.toInt = v.toUInt64 := by
  apply UInt64.toNat.inj
  have word := toNat_ofInt v.toInt
  have signed : v.toInt = Int.bmod v.toUInt64.toNat (2 ^ 64) := BitVec.toInt_eq_toNat_bmod _
  have := v.toUInt64.toNat_lt
  simp only [Int.bmod] at signed
  omega

end Laws

end Width

namespace CodeBuffer

variable {b : CodeBuffer} {p : Nat} {w : Width}

/-- What is read from a field that has been written, with the rest of the buffer as it was. -/
theorem Bounded.readField_writeField (bounded : b.Bounded) (room : p + w.bytes ≤ b.cursor)
    (u : UInt64) :
    ∃ b', b.writeField p w u = .ok b' ∧ b'.readField p w = .ok (w.truncate u) ∧
      b.Amended (fun n => p ≤ n ∧ n < p + w.bytes) b' := by
  have length := w.length_encode u
  have written : b.writeField p w u = .ok { b with bytes := writeAt b.bytes p (w.encode u) } :=
    patch_eq_ok (by rwa [length]) bounded.cursor_lt
  have amended : b.Amended (fun n => p ≤ n ∧ n < p + w.bytes)
      { b with bytes := writeAt b.bytes p (w.encode u) } :=
    amended_of_patch written fun n low high => ⟨low, by rwa [length] at high⟩
  refine ⟨_, written, ?_, amended⟩
  refine readField_eq_ok (amended.bounded bounded) ?_ (holds_of_patch written)
  rw [amended.cursor]
  exact room

end CodeBuffer

namespace Width

/-- At every width the host computes without a violation, in words of 64 bits, whether a signed word
fits, the low bits of a word and their signed value. A signed word fits just if its low bits have it
as their signed value, and a signed value has the low bits that it was made from. In every buffer, a
field that has been written is read as the low bits of what was written, and no byte outside the
field changes. -/
theorem field_arithmetic_consistent (w : Width) (v : Int64) (u : UInt64) :
    (w.fitsWord v = .ok (decide (w.Fits v.toInt)) ∧ w.truncateWord u = .ok (w.truncate u) ∧
      ∃ s, w.signExtendWord u = .ok s ∧ s.toInt = w.signExtend u) ∧
    (∃ low s, w.truncateWord v.toUInt64 = .ok low ∧ w.signExtendWord low = .ok s ∧
      w.fitsWord v = .ok (decide (s = v))) ∧
    (∃ s low, w.signExtendWord u = .ok s ∧ w.truncateWord s.toUInt64 = .ok low ∧
      w.truncateWord u = .ok low) ∧
    ∀ (b : CodeBuffer) (p : Nat), b.Bounded → p + w.bytes ≤ b.cursor →
      ∃ b' low, b.writeField p w u = .ok b' ∧ w.truncateWord u = .ok low ∧
        b'.readField p w = .ok low ∧ b.Amended (fun n => p ≤ n ∧ n < p + w.bytes) b' := by
  refine ⟨⟨w.fitsWord_eq v, w.truncateWord_eq u, w.signExtendWord_eq u⟩, ?_, ?_,
    fun b p bounded room => ?_⟩
  · obtain ⟨s, extended, value⟩ := w.signExtendWord_eq (w.truncate v.toUInt64)
    refine ⟨_, s, w.truncateWord_eq _, extended, ?_⟩
    have same : w.Fits v.toInt ↔ s = v := by
      rw [fits_iff_signExtend_truncate, ofInt_toInt, ← value, Int64.toInt_inj]
    rw [fitsWord_eq, decide_eq_decide.2 same]
  · obtain ⟨s, extended, value⟩ := w.signExtendWord_eq u
    refine ⟨s, _, extended, ?_, w.truncateWord_eq u⟩
    rw [truncateWord_eq, ← ofInt_toInt, value, truncate_signExtend]
  · obtain ⟨b', written, read, amended⟩ := bounded.readField_writeField room u
    exact ⟨b', _, written, w.truncateWord_eq u, read, amended⟩

/-- Four bytes in a page. -/
def fourBytes : CodeBuffer := { base := 0x10000, capacity := 4096, bytes := #[1, 2, 3, 4] }

/-- The least signed value of two bytes, in a field between two others. -/
theorem least_half_word_between_bytes :
    fourBytes.Bounded ∧ 1 + w16.bytes ≤ fourBytes.cursor ∧ w16.fitsWord (-0x8000) = .ok true ∧
      w16.fitsWord (-0x8001) = .ok false ∧
      ∃ b, fourBytes.writeField 1 .w16 0xFFFFFFFFFFFF8000 = .ok b ∧
        b.readField 1 .w16 = .ok 0x8000 ∧ b.bytes[0]? = some 1 ∧ b.bytes[3]? = some 4 := by
  have bounded : fourBytes.Bounded := ⟨by decide, by decide⟩
  have room : 1 + w16.bytes ≤ fourBytes.cursor := by decide
  obtain ⟨⟨fits, -⟩, -, -, fields⟩ := field_arithmetic_consistent .w16 (-0x8000) 0xFFFFFFFFFFFF8000
  obtain ⟨⟨beyond, -⟩, -⟩ := field_arithmetic_consistent .w16 (-0x8001) 0
  obtain ⟨b, low, written, kept, read, amended⟩ := fields fourBytes 1 bounded room
  have value : low = 0x8000 := (Except.ok.inj kept).symm
  subst value
  refine ⟨bounded, room, fits, beyond, b, written, read, ?_, ?_⟩
  · exact amended.outside 0 (by decide)
  · exact amended.outside 3 (by decide)

end Width
end Dynarec
