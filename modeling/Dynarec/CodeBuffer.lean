import Dynarec.Fault

/-!
The arena that holds all host code. Code is appended at a cursor and patched in place; bytes below
the code start survive a flush.
-/
namespace Dynarec

/-- A mapped buffer. Only the bytes below the cursor are kept, so the cursor is their number. -/
structure CodeBuffer where
  /-- Host address of the first byte. -/
  base : Nat
  capacity : Nat
  bytes : Array UInt8 := #[]
  codeStart : Nat := 0
  deriving DecidableEq, Repr

/-- Whether reserved room was there or had to be made. -/
inductive Reservation where
  | ready
  | flushed
  deriving DecidableEq, Repr

/-- Overwrites the bytes from a position on. -/
def writeAt (bytes : Array UInt8) (pos : Nat) : List UInt8 → Array UInt8
  | [] => bytes
  | b :: bs => writeAt (bytes.setIfInBounds pos b) (pos + 1) bs

@[simp] theorem size_writeAt (bytes : Array UInt8) (pos : Nat) (bs : List UInt8) :
    (writeAt bytes pos bs).size = bytes.size := by
  induction bs generalizing bytes pos with
  | nil => rfl
  | cons b bs ih => simp [writeAt, ih]

theorem getElem?_writeAt_of_outside (bytes : Array UInt8) {pos i : Nat} (bs : List UInt8)
    (h : i < pos ∨ pos + bs.length ≤ i) : (writeAt bytes pos bs)[i]? = bytes[i]? := by
  induction bs generalizing bytes pos with
  | nil => rfl
  | cons b bs ih =>
    rw [List.length_cons] at h
    rw [writeAt, ih _ (by omega), Array.getElem?_setIfInBounds_ne (by omega)]

theorem getElem?_writeAt_add (bytes : Array UInt8) {pos k : Nat} {bs : List UInt8}
    (hk : k < bs.length) (room : pos + bs.length ≤ bytes.size) :
    (writeAt bytes pos bs)[pos + k]? = bs[k]? := by
  induction bs generalizing bytes pos k with
  | nil => simp at hk
  | cons b bs ih =>
    rw [List.length_cons] at hk room
    cases k with
    | zero =>
      have here : pos < bytes.size := by omega
      rw [writeAt, getElem?_writeAt_of_outside _ _ (by omega)]
      simp [here]
    | succ k =>
      have next := @ih (bytes.setIfInBounds pos b) (pos + 1) k (by omega)
        (by rw [Array.size_setIfInBounds]; omega)
      rw [writeAt, show pos + (k + 1) = pos + 1 + k by omega, next, List.getElem?_cons_succ]

namespace CodeBuffer

def pageSize : Nat := 4096

/-- Mappings of this size and more are refused. -/
def mappingLimit : Nat := 0x1000000000000000

/-- Maps a buffer of at least `size` bytes, in whole pages, at host address `base`. -/
def map (base size : Nat) : Except Fault CodeBuffer := do
  if size = 0 then throw (.error (.invalidConfig .zeroMapping))
  let capacity := ((← addSizes size pageSize) - 1) / pageSize * pageSize
  if capacity ≥ mappingLimit ∨ base + capacity ≥ wordBound then throw (.error .mappingFailed)
  return { base, capacity }

/-- Where the next byte goes. -/
def cursor (b : CodeBuffer) : Nat := b.bytes.size

def remaining (b : CodeBuffer) : Nat := b.capacity - b.cursor

/-- The largest block that can ever be written. -/
def usable (b : CodeBuffer) : Nat := b.capacity - b.codeStart

/-- Freezes what has been written so far below the flush point. -/
def setCodeStart (b : CodeBuffer) : CodeBuffer := { b with codeStart := b.cursor }

/-- Host address of an offset, up to and including the end of the buffer. -/
def addrAt (b : CodeBuffer) (offset : Nat) : Except Fault UInt64 := do
  demand (offset ≤ b.capacity) .assertionFailed
  return UInt64.ofNat (b.base + offset)

/-- Offset of a host address inside the buffer. -/
def offsetOf? (b : CodeBuffer) (addr : UInt64) : Option Nat :=
  if b.base ≤ addr.toNat ∧ addr.toNat < b.base + b.capacity then some (addr.toNat - b.base)
  else none

/-- Drops everything from an offset on. -/
def truncate (b : CodeBuffer) (offset : Nat) : CodeBuffer :=
  { b with bytes := b.bytes.take offset }

/-- Drops every block. -/
def flush (b : CodeBuffer) : CodeBuffer := b.truncate b.codeStart

/-- Drops everything written after an offset. -/
def rewind (b : CodeBuffer) (offset : Nat) : Except Fault CodeBuffer := do
  demand (b.codeStart ≤ offset ∧ offset ≤ b.cursor) .assertionFailed
  return b.truncate offset

/-- Makes room for `n` bytes in a row, flushing when they do not fit. -/
def reserve (b : CodeBuffer) (n : Nat) : Except Fault (Reservation × CodeBuffer) :=
  if n > b.usable then .error (.error (.blockTooLarge n b.usable))
  else if n ≤ b.remaining then .ok (.ready, b)
  else .ok (.flushed, b.flush)

/-- Writes at the cursor. The new bytes start at the old cursor. -/
def append (b : CodeBuffer) (data : List UInt8) : Except Fault CodeBuffer := do
  demand (data.length ≤ b.remaining) (.bufferOverflow data.length b.cursor)
  return { b with bytes := b.bytes.appendList data }

/-- Overwrites bytes that have been written before. -/
def patch (b : CodeBuffer) (offset : Nat) (data : List UInt8) : Except Fault CodeBuffer := do
  demand ((← addSizes offset data.length) ≤ b.cursor) .patchPastCursor
  return { b with bytes := writeAt b.bytes offset data }

/-- The bytes from `offset` to `offset + length`. -/
def read (b : CodeBuffer) (offset length : Nat) : Except Fault (List UInt8) := do
  demand ((← addSizes offset length) ≤ b.cursor) .readPastCursor
  return (b.bytes.extract offset (offset + length)).toList

def readByte (b : CodeBuffer) (offset : Nat) : Except Fault UInt8 :=
  return ((← b.read offset 1).headD 0)

/-- Makes a range visible to instruction fetch, which needs the range to lie in the buffer and no
work on this host. -/
def sync (b : CodeBuffer) (offset length : Nat) : Except Fault Unit := do
  demand ((← addSizes offset length) ≤ b.capacity) .assertionFailed

def writeField (b : CodeBuffer) (offset : Nat) (width : Width) (v : UInt64) :
    Except Fault CodeBuffer :=
  b.patch offset (width.encode v)

def readField (b : CodeBuffer) (offset : Nat) (width : Width) : Except Fault UInt64 :=
  return Width.decode (← b.read offset width.bytes)

end CodeBuffer
end Dynarec
