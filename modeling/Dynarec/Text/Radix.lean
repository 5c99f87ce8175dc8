/-! Numbers written in base sixteen and two, as diagnostics show addresses and slot masks. -/
namespace Dynarec.Text

def digits (base n : Nat) : String := String.ofList (Nat.toDigits base n)

/-- Base sixteen behind its mark, without leading zeros. -/
def hex (n : Nat) : String := "0x" ++ digits 16 n

/-- Base sixteen behind its mark, with at least `width` digits. -/
def paddedHex (width n : Nat) : String :=
  let ds := Nat.toDigits 16 n
  "0x" ++ String.ofList (List.replicate (width - ds.length) '0' ++ ds)

/-- Base two behind its mark, without leading zeros. -/
def binary (n : Nat) : String := "0b" ++ digits 2 n

end Dynarec.Text
