import Dynarec.Proofs.Creation
import Dynarec.Proofs.Imprint

/-!
Calls of routines of the host, by a displacement or by an absolute address. The form is chosen
before the place of the call is known. Main statement: it can be written at every place of the
buffer, and calls the routine from there.
-/
namespace Dynarec

open X86 (Context Goes)
open X86.Templates

variable {handler : UInt64} {opcode : UInt32}

theorem Width.truncate_toUInt64 (v : UInt32) : w32.truncate v.toUInt64 = v.toUInt64 := by
  apply UInt64.toNat.inj
  rw [toNat_truncate, UInt32.toNat_toUInt64]
  exact Nat.mod_eq_of_lt v.toNat_lt

/-- From an offset on stands a call of a routine with a word: what its fields read as, and what it
does. -/
structure CodeBuffer.Calls (b : CodeBuffer) (p : Nat) (t : Template) (handler : UInt64)
    (opcode : UInt32) : Prop where
  word : b.readField (p + 4) .w32 = .ok opcode.toUInt64
  direct : t = callDirect → ∃ raw, b.readField (p + 9) .w32 = .ok raw ∧
    (b.base + (p + 13) : Int) + Width.w32.signExtend raw = handler.toNat
  absolute : t = callAbsolute → b.readField (p + 10) .w64 = .ok handler
  runs : ∀ (cx : Context) (routine : Handler) (g : GuestState), cx.code.base = b.base →
    (∀ n, p ≤ n → n < p + t.size → cx.code.bytes[n]? = b.bytes[n]?) →
    cx.handlers handler = some routine → Goes cx p g (p + t.size) (routine opcode g)

namespace CodeBuffer

variable {b : CodeBuffer} {w : Wiring} {p k : Nat}

theorem calls_callDirect (bounded : b.Bounded) (inside : p + 13 ≤ b.cursor) (base : w.base = b.base)
    (fits : Width.w32.Fits (handler.toNat - (w.base + p + 13 : Nat)))
    (holds : b.Holds p (w.code p k (.place callDirect [.word opcode, .handler handler]))) :
    b.Calls p callDirect handler opcode := by
  have bytes :
      b.Holds p ([0x48, 0x89, 0xEF, 0xBE] ++ (Width.w32.encode opcode.toUInt64 ++ ([0xE8] ++
      Width.w32.encode (.ofInt (handler.toNat - (w.base + p + 13 : Nat)))))) := by
    have listed := X86.code_callDirect opcode.toUInt64 fits ▸ holds
    simpa [X86.Coded.movRdi, X86.Coded.movEsi, X86.Coded.callRel] using listed
  obtain ⟨-, bytes⟩ := holds_append.1 bytes
  obtain ⟨word, bytes⟩ := holds_append.1 bytes
  obtain ⟨-, distance⟩ := holds_append.1 bytes
  refine ⟨?_, fun _ => ⟨_, readField_eq_ok bounded inside distance, ?_⟩,
    fun same => absurd same (by decide), ?_⟩
  · have read := readField_eq_ok bounded (show p + 4 + 4 ≤ b.cursor by omega) word
    rwa [Width.truncate_toUInt64] at read
  · rw [Width.signExtend_truncate fits, base]
    omega
  · intro cx routine g same kept found
    refine X86.goes_callDirect opcode (base.trans same.symm) found fits
      (holds.congr fun n low high => kept n low ?_)
    exact high

theorem calls_callAbsolute (bounded : b.Bounded) (inside : p + 20 ≤ b.cursor)
    (holds : b.Holds p (w.code p k (.place callAbsolute [.word opcode, .handler handler]))) :
    b.Calls p callAbsolute handler opcode := by
  have bytes :
      b.Holds p ([0x48, 0x89, 0xEF, 0xBE] ++ (Width.w32.encode opcode.toUInt64 ++ ([0x48, 0xB8] ++
      (Width.w64.encode handler ++ [0xFF, 0xD0])))) := by
    have listed := X86.code_callAbsolute w p k opcode.toUInt64 handler ▸ holds
    simpa [X86.Coded.movRdi, X86.Coded.movEsi, X86.Coded.movRax, X86.Coded.callRax] using listed
  obtain ⟨-, bytes⟩ := holds_append.1 bytes
  obtain ⟨word, bytes⟩ := holds_append.1 bytes
  obtain ⟨-, bytes⟩ := holds_append.1 bytes
  obtain ⟨address, -⟩ := holds_append.1 bytes
  refine ⟨?_, fun same => absurd same (by decide), fun _ => ?_, ?_⟩
  · have read := readField_eq_ok bounded (show p + 4 + 4 ≤ b.cursor by omega) word
    rwa [Width.truncate_toUInt64] at read
  · have read := readField_eq_ok bounded (show p + 10 + 8 ≤ b.cursor by omega) address
    rwa [Width.truncate_w64] at read
  · intro cx routine g _ kept found
    exact X86.goes_callAbsolute opcode found (holds.congr fun n low high => kept n low high)

end CodeBuffer

variable {e e' : Engine}

/-- The values of a call lead neither to a stub nor out of the block. -/
theorem plain_callValues {v : SlotValue} (h : v ∈ [SlotValue.word opcode, .handler handler]) :
    (∀ o, v ≠ .stub o) ∧ v.isExit = false := by
  rcases List.mem_pair.1 h with rfl | rfl
  · exact ⟨fun o same => (by cases same), rfl⟩
  · exact ⟨fun o same => (by cases same), rfl⟩

theorem suits_callStep (e e' : Engine) (handler : UInt64) (opcode : UInt32) {p : Nat}
    (room : p + (callStep e handler opcode).size ≤ e.buffer.capacity) :
    (e'.wiring e.buffer.base none).Suits e.buffer.capacity p 0 (callStep e handler opcode) := by
  have branch (t : Template) :
      ∀ q ∈ t.slots.zip [SlotValue.word opcode, .handler handler], q.2.isExit → q.1.IsBranch := by
    intro q hq leaves
    rw [(plain_callValues (List.of_mem_zip hq).2).2] at leaves
    cases leaves
  unfold callStep at room ⊢
  split at room
  · next near =>
    rw [if_pos near]
    refine ⟨by decide, by decide, ⟨fun _ _ => trivial, ?_, trivial⟩,
      fun o ho => absurd rfl ((plain_callValues ho).1 o), branch _⟩
    rintro _ ⟨⟩
    exact e.fits_near near room
  · next far =>
    rw [if_neg far]
    exact ⟨by decide, by decide, ⟨fun _ _ => trivial, fun _ _ => trivial, trivial⟩,
      fun o ho => absurd rfl ((plain_callValues ho).1 o), branch _⟩

theorem Engine.isNear_iff :
    e.isNear handler = true ↔ ∀ n ∈ [e.buffer.base, e.buffer.base + e.buffer.capacity],
    -2 ^ 31 ≤ (handler.toNat - n : Int) ∧ (handler.toNat - n : Int) < 2 ^ 31 := by
  rw [isNear, decide_eq_true_iff, Width.fits_iff, Width.fits_iff]
  simp [Width.bits, Width.bytes]

/-- A call is written at the cursor of a buffer that has room for it and lies where the planned one
does. -/
theorem Draft.write_callStep {d : Draft} (base : d.buffer.base = e.buffer.base)
    (bounded : d.buffer.Bounded) (capacity : d.buffer.capacity = e.buffer.capacity)
    (dispatch : e'.stubs.dispatch ≤ d.buffer.capacity)
    (room : d.buffer.cursor + (callStep e handler opcode).size ≤ d.buffer.capacity) :
    ∃ d', d.write e' (callStep e handler opcode) = .ok d' ∧ d.buffer.Grown d'.buffer ∧
      d'.buffer.cursor = d.buffer.cursor + (callStep e handler opcode).size ∧
      d'.buffer.Holds d.buffer.cursor
        ((e'.wiring e.buffer.base none).code d.buffer.cursor 0 (callStep e handler opcode)) := by
  have suits := suits_callStep e e' handler opcode (capacity ▸ room)
  rw [← base, ← capacity] at suits
  rw [← base]
  have length := Wiring.length_code suits
  refine ⟨_, write_place bounded room dispatch suits, ?_, cursor_placed suits,
    CodeBuffer.holds_extend⟩
  refine CodeBuffer.grown_extend ?_
  rw [← length] at room
  exact room

/-- A call of a routine is planned as the program counter and a call, which is direct if both ends
of the buffer reach the routine. Wherever the call is written in the buffer then, by whatever
engine, this succeeds, and the call goes from there to the routine with the given word. -/
theorem Engine.calls_reach_their_handler (x86 : e.registry = X86.registry)
    (mapped : e.buffer.base + e.buffer.capacity < wordBound) (pc : UInt32) (handler : UInt64)
    (opcode : UInt32) :
    ∃ t, e.planCall pc handler opcode =
      .ok [storeStep .pc pc, .place t [.word opcode, .handler handler]] ∧
      (t = callDirect ∨ t = callAbsolute) ∧
      (t = callDirect ↔ ∀ n ∈ [e.buffer.base, e.buffer.base + e.buffer.capacity],
        -2 ^ 31 ≤ (handler.toNat - n : Int) ∧ (handler.toNat - n : Int) < 2 ^ 31) ∧
      ∀ (e' : Engine) (d : Draft), d.buffer.base = e.buffer.base →
        d.buffer.capacity = e.buffer.capacity →
        e'.stubs.dispatch ≤ d.buffer.capacity → d.buffer.cursor + t.size ≤ d.buffer.capacity →
        ∃ d', d.write e' (.place t [.word opcode, .handler handler]) = .ok d' ∧
          d'.buffer.cursor = d.buffer.cursor + t.size ∧ d.buffer.Grown d'.buffer ∧
          d'.buffer.Calls d.buffer.cursor t handler opcode := by
  refine ⟨if e.isNear handler then callDirect else callAbsolute, planCall_eq x86 pc, ?_, ?_, ?_⟩
  · split
    · exact .inl rfl
    · exact .inr rfl
  · rw [← isNear_iff]
    split
    · next near => exact ⟨fun _ => near, fun _ => rfl⟩
    · next far => exact ⟨fun same => absurd same (by decide), fun near => absurd near far⟩
  · intro e' d base capacity dispatch room
    have bounded : d.buffer.Bounded := ⟨by omega, by omega⟩
    obtain ⟨d', written, grown, cursor, holds⟩ :=
      Draft.write_callStep base bounded capacity dispatch room
    refine ⟨d', written, cursor, grown, ?_⟩
    unfold callStep at cursor holds
    split at holds
    · next near =>
      rw [if_pos near] at cursor room ⊢
      refine CodeBuffer.calls_callDirect (grown.bounded bounded)
        (Nat.le_of_eq cursor.symm) ?_ ?_ holds
      · rw [grown.base, base]
        rfl
      · exact e.fits_near near (capacity ▸ room)
    · next far =>
      rw [if_neg far] at cursor ⊢
      exact CodeBuffer.calls_callAbsolute (grown.bounded bounded) (Nat.le_of_eq cursor.symm) holds

/-- A block that has room for a direct call and nothing else. -/
def lastDraft : Draft where
  buffer := { base := 0x80000000, capacity := 4096, bytes := Array.replicate 4083 0x90 }

/-- The end of the buffer just reaches a routine 2 GiB below it, and a call from there is direct.
The byte before that routine is too far. -/
theorem call_reaches_from_end :
    (Engine.fresh 0x80000000 4096 {}).registry = X86.registry ∧
      (∃ d,
        lastDraft.write (.fresh 0x80000000 4096 {})
          (.place callDirect [.word 0x7C0002A6, .handler 0x1000]) = .ok d ∧
        d.buffer.Calls 4083 callDirect 0x1000 0x7C0002A6) ∧
      (Engine.fresh 0x80000000 4096 {}).planCall 0x2000 0xFFF 0x7C0002A6 =
        .ok [storeStep .pc 0x2000, .place callAbsolute [.word 0x7C0002A6, .handler 0xFFF]] := by
  have cursor : lastDraft.buffer.cursor = 4083 := Array.size_replicate
  obtain ⟨t, -, -, direct, writes⟩ :=
    Engine.calls_reach_their_handler (e := .fresh 0x80000000 4096 {}) rfl (by decide) 0x2000
      0x1000 0x7C0002A6
  obtain rfl := direct.2 (by decide)
  obtain ⟨d, written, -, -, calls⟩ :=
    writes (.fresh 0x80000000 4096 {}) lastDraft rfl rfl (by decide)
      (by rw [cursor]; decide)
  obtain ⟨t, planned, form, direct, -⟩ :=
    Engine.calls_reach_their_handler (e := .fresh 0x80000000 4096 {}) rfl (by decide) 0x2000
      0xFFF 0x7C0002A6
  obtain rfl := form.resolve_left fun near => absurd (direct.1 near) (by decide)
  rw [cursor] at calls
  exact ⟨rfl, ⟨d, written, calls⟩, planned⟩

end Dynarec
