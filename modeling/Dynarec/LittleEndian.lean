/-! Numbers as byte lists, least significant byte first. -/
namespace Dynarec.LittleEndian

/-- The low `n` bytes of `v`. -/
def bytes : Nat → Nat → List UInt8
  | 0, _ => []
  | n + 1, v => v.toUInt8 :: bytes n (v / 256)

/-- The number that a byte list stands for. -/
def value : List UInt8 → Nat
  | [] => 0
  | b :: bs => b.toNat + 256 * value bs

@[simp] theorem length_bytes (n v : Nat) : (bytes n v).length = n := by
  induction n generalizing v with
  | zero => rfl
  | succ n ih => simp [bytes, ih]

/-- How many numbers `n` bytes can hold. -/
def modulus : Nat → Nat
  | 0 => 1
  | n + 1 => 256 * modulus n

/-- Reading back what was written gives the number modulo the field. -/
theorem value_bytes (n v : Nat) : value (bytes n v) = v % modulus n := by
  induction n generalizing v with
  | zero => simp [bytes, value, modulus, Nat.mod_one]
  | succ n ih =>
    have low : v.toUInt8.toNat = v % 256 := by simp
    rw [bytes, value, ih, low, modulus, Nat.mod_mul]

theorem value_lt (bs : List UInt8) : value bs < modulus bs.length := by
  induction bs with
  | nil => simp [value, modulus]
  | cons b bs ih =>
    have hb : b.toNat < 256 := b.toNat_lt
    simp only [value, List.length_cons, modulus]
    omega

end Dynarec.LittleEndian
