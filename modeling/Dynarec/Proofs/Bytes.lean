import Dynarec.CodeBuffer
import Mathlib

/-! Fields as byte lists, and what a code buffer holds at an offset. -/
namespace Dynarec

/-- A byte list in which the bytes from a position on are others. -/
def overwrite (code : List UInt8) (pos : Nat) (data : List UInt8) : List UInt8 :=
  code.take pos ++ data ++ code.drop (pos + data.length)

variable {code pre post data : List UInt8} {pos : Nat}

@[simp] theorem length_overwrite (room : pos + data.length ≤ code.length) :
    (overwrite code pos data).length = code.length := by
  simp [overwrite]
  omega

/-- Bytes that are overwritten come from the data, and all others stay. -/
theorem getElem?_overwrite (room : pos + data.length ≤ code.length) (i : Nat) :
    (overwrite code pos data)[i]? =
      if i < pos then code[i]? else if i < pos + data.length then data[i - pos]? else code[i]? := by
  have hpos : (code.take pos).length = pos := by simp; omega
  unfold overwrite
  split
  · next h =>
      rw [List.append_assoc, List.getElem?_append_left (by omega), List.getElem?_take_of_lt h]
  · next h =>
    rw [List.append_assoc, List.getElem?_append_right (by omega), hpos]
    split
    · rw [List.getElem?_append_left (by omega)]
    · rw [List.getElem?_append_right (by omega), List.getElem?_drop]
      congr 1
      omega

/-- To overwrite within a part is to overwrite the part. -/
theorem overwrite_append (room : pos + data.length ≤ code.length) :
    overwrite (pre ++ code ++ post) (pre.length + pos) data =
      pre ++ overwrite code pos data ++ post := by
  have hdrop : (pre ++ (code ++ post)).drop (pre.length + pos + data.length) =
      code.drop (pos + data.length) ++ post := by
    rw [Nat.add_assoc, List.drop_append]
    simp only [Nat.add_sub_cancel_left, List.drop_append]
    rw [List.drop_eq_nil_of_le (by omega), List.nil_append,
      show pos + data.length - code.length = 0 by omega, List.drop_zero]
  have htake : (pre ++ (code ++ post)).take (pre.length + pos) = pre ++ code.take pos := by
    rw [List.take_append, List.take_of_length_le (by omega), Nat.add_sub_cancel_left,
      List.take_append_of_le_length (by omega)]
  simp only [overwrite, List.append_assoc] at *
  rw [hdrop, ← List.append_assoc, htake]
  simp

theorem toList_writeAt (bytes : Array UInt8) (room : pos + data.length ≤ bytes.size) :
    (writeAt bytes pos data).toList = overwrite bytes.toList pos data := by
  apply List.ext_getElem?
  intro i
  rw [getElem?_overwrite (by simpa using room), Array.getElem?_toList]
  split
  · rw [getElem?_writeAt_of_outside _ _ (by omega), Array.getElem?_toList]
  · split
    · have h := @getElem?_writeAt_add bytes pos (i - pos) data (by omega) room
      rwa [show pos + (i - pos) = i by omega] at h
    · rw [getElem?_writeAt_of_outside _ _ (by omega), Array.getElem?_toList]

namespace Width

theorem modulus_bytes (w : Width) : LittleEndian.modulus w.bytes = w.modulus := by cases w <;> rfl

/-- What is encoded in a width is decoded modulo the width. -/
theorem toNat_decode_encode (w : Width) (v : UInt64) :
    (decode (w.encode v)).toNat = v.toNat % w.modulus := by
  have hlt : v.toNat % w.modulus < UInt64.size := Nat.lt_of_le_of_lt (Nat.mod_le _ _) v.toNat_lt
  rw [decode, encode, LittleEndian.value_bytes, modulus_bytes, UInt64.toNat_ofNat_of_lt' hlt]

theorem toNat_ofInt (d : Int) : ((UInt64.ofInt d).toNat : Int) = d % 0x10000000000000000 := by
  rw [UInt64.ofInt, UInt64.toNat_ofNat', Int.natCast_emod, Int.toNat_of_nonneg (by omega)]
  simp

theorem ofInt_natCast (n : Nat) : UInt64.ofInt n = UInt64.ofNat n := by
  apply UInt64.toNat.inj
  have h := toNat_ofInt n
  rw [UInt64.toNat_ofNat']
  omega

/-- A signed number that fits a field is read back as it was written. -/
theorem signExtend_decode_encode {w : Width} {d : Int} (h : w.Fits d) :
    w.signExtend (decode (w.encode (UInt64.ofInt d))) = d := by
  rw [signExtend, toNat_decode_encode, Int.natCast_emod, toNat_ofInt]
  unfold Fits at h
  cases w <;> simp only [modulus] at h ⊢ <;> simp only [Int.bmod] <;> omega

end Width

/-- The host word that an instruction takes a field of 32 bits for when it extends the sign. -/
def signed32 (v : UInt64) : UInt64 :=
  UInt64.ofInt (Width.w32.signExtend (Width.decode (Width.w32.encode v)))

/-- A distance that fits in 32 bits survives being cut off and extended with its sign. -/
theorem signed32_ofInt {d : Int} (h : Width.w32.Fits d) :
    signed32 (UInt64.ofInt d) = UInt64.ofInt d := by
  rw [signed32, Width.signExtend_decode_encode h]

theorem signed32_ofNat {n : Nat} (h : n < 0x80000000) :
    signed32 (UInt64.ofNat n) = UInt64.ofNat n := by
  have fits : Width.w32.Fits n := by
    constructor <;> simp only [Width.modulus] <;> omega
  rw [← Width.ofInt_natCast, signed32_ofInt fits]

/-- Extending the sign keeps the low half. -/
@[simp] theorem toUInt32_signed32 (v : UInt64) : (signed32 v).toUInt32 = v.toUInt32 := by
  apply UInt32.toNat.inj
  have h := Width.toNat_ofInt (Width.w32.signExtend (Width.decode (Width.w32.encode v)))
  rw [Width.signExtend, Width.toNat_decode_encode] at h
  simp only [UInt64.toNat_toUInt32, signed32, Width.signExtend, Width.toNat_decode_encode]
  simp only [Width.modulus, Int.bmod] at *
  omega

namespace CodeBuffer

variable {b b' : CodeBuffer} {p : Nat} {xs ys : List UInt8}

/-- The bytes from an offset on are the given ones. -/
def Holds (b : CodeBuffer) (p : Nat) (xs : List UInt8) : Prop :=
  ∀ k, k < xs.length → b.bytes[p + k]? = xs[k]?

theorem holds_nil (b : CodeBuffer) (p : Nat) : b.Holds p [] := by
  intro k hk
  simp at hk

theorem holds_append : b.Holds p (xs ++ ys) ↔ b.Holds p xs ∧ b.Holds (p + xs.length) ys := by
  constructor
  · intro h
    constructor
    · intro k hk
      rw [h k (by simp; omega), List.getElem?_append_left hk]
    · intro k hk
      have := h (xs.length + k) (by simp; omega)
      rwa [List.getElem?_append_right (by omega), Nat.add_sub_cancel_left, ← Nat.add_assoc] at this
  · rintro ⟨hx, hy⟩ k hk
    rw [List.length_append] at hk
    by_cases h : k < xs.length
    · rw [hx k h, List.getElem?_append_left h]
    · have := hy (k - xs.length) (by omega)
      rwa [show p + xs.length + (k - xs.length) = p + k by omega,
        ← List.getElem?_append_right (by omega)] at this

/-- What a buffer holds depends on the bytes at that place only. -/
theorem Holds.congr (h : b.Holds p xs)
    (same : ∀ i, p ≤ i → i < p + xs.length → b'.bytes[i]? = b.bytes[i]?) : b'.Holds p xs := by
  intro k hk
  rw [same (p + k) (by omega) (by omega), h k hk]

theorem holds_of_toList (h : b.bytes.toList = xs ++ ys) : b.Holds xs.length ys := by
  intro k _
  rw [← Array.getElem?_toList, h, List.getElem?_append_right (by omega), Nat.add_sub_cancel_left]

/-- The buffer with more bytes behind the cursor. -/
def extend (b : CodeBuffer) (xs : List UInt8) : CodeBuffer :=
  { b with bytes := b.bytes ++ xs.toArray }

@[simp] theorem base_extend : (b.extend xs).base = b.base := rfl

@[simp] theorem capacity_extend : (b.extend xs).capacity = b.capacity := rfl

@[simp] theorem codeStart_extend : (b.extend xs).codeStart = b.codeStart := rfl

@[simp] theorem cursor_extend : (b.extend xs).cursor = b.cursor + xs.length := by
  simp [extend, cursor]

@[simp] theorem extend_extend : (b.extend xs).extend ys = b.extend (xs ++ ys) := by
  simp [extend]

theorem toList_extend : (b.extend xs).bytes.toList = b.bytes.toList ++ xs := by simp [extend]

/-- Code that is added behind the cursor changes nothing before it. -/
theorem getElem?_extend {i : Nat} (h : i < b.cursor) : (b.extend xs).bytes[i]? = b.bytes[i]? := by
  simp only [extend]
  exact Array.getElem?_append_left h

theorem holds_extend : (b.extend xs).Holds b.cursor xs := by
  have h := holds_of_toList (b := b.extend xs) toList_extend
  rwa [Array.length_toList] at h

end CodeBuffer
end Dynarec
