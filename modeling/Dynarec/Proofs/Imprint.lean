import Dynarec.Placement
import Dynarec.Proofs.Confinement
import Dynarec.Proofs.Regions

/-!
What filling one slot does to a buffer: which bytes it may change, what the field reads as
afterwards, and that a failure leaves everything as it was.
-/
namespace Dynarec

/-- An operation has one outcome. -/
theorem Traced.Yields.unique {σ α : Type} {x : Traced σ α} {s s' s'' : σ} {o o' : Except Fault α}
    (h : Yields x s o s') (h' : Yields x s o' s'') : o = o' ∧ s' = s'' :=
  Prod.mk.inj ((h #[]).symm.trans (h' #[]))

theorem Traced.yields_lift_error {σ α β : Type} {s : σ} {y : Except Fault α} {f : α → Traced σ β}
    {fault : Fault} (h : y = .error fault) : Yields (liftM y >>= f) s (.error fault) s := by
  subst h
  exact (yields_lift _).bind_error

variable {fault : Fault}

theorem addSizes_eq_error {m n : Nat} (h : addSizes m n = .error fault) :
    wordBound ≤ m + n ∧ fault = .violation .arithmeticOverflow := by
  unfold addSizes at h
  split at h
  · cases h
  · next large =>
    cases h
    exact ⟨Nat.le_of_not_lt large, rfl⟩

theorem demand_eq_error {condition : Prop} [Decidable condition] {cause : Violation}
    (h : demand condition cause = .error fault) : ¬ condition ∧ fault = .violation cause := by
  unfold demand at h
  split at h
  · cases h
  · next failed =>
    cases h
    exact ⟨failed, rfl⟩

namespace Instance

variable {i : Instance} {k : Nat} {s : Slot}

theorem slot_eq_ok : i.slot k = .ok s ↔ i.template.slots[k]? = some s := by
  unfold slot
  cases i.template.slots[k]? <;> simp [breach]

/-- A slot may be filled if it is a forward branch or has not been filled before. -/
theorem checkFree_eq (i : Instance) (k : Nat) (s : Slot) : i.checkFree k s =
    if s.kind.isForward then .ok () else if 32 ≤ k then breach .arithmeticOverflow
    else if i.filled.getLsbD k then breach (.filledTwice k i.template.name i.offset)
      else .ok () := by
  unfold checkFree isFilled demand
  by_cases few : k < 32
  · rw [if_pos few, if_neg (Nat.not_le.2 few)]
    rfl
  · rw [if_neg few, if_pos (Nat.le_of_not_lt few)]
    rfl

theorem checkFree_eq_ok :
    i.checkFree k s = .ok () ↔ s.kind.isForward = true ∨ k < 32 ∧ i.filled.getLsbD k = false := by
  rw [checkFree_eq]
  split
  · next forward => simp [forward]
  · next single =>
    split
    · next many => simp [single, breach, Nat.not_lt.2 many]
    · next few =>
      split
      · next filled => simp [single, breach, filled]
      · next free => simpa [single, Nat.lt_of_not_le few] using free

theorem markFilled_eq_error {fault : Fault} (h : i.markFilled k = .error fault) :
    32 ≤ k ∧ fault = .violation .arithmeticOverflow := by
  rcases bind_eq_error.1 h with h | ⟨_, -, h⟩
  · obtain ⟨many, rfl⟩ := demand_eq_error h
    exact ⟨Nat.le_of_not_lt many, rfl⟩
  · cases h

/-- There are bits for 32 slots. -/
theorem markFilled_eq_ok {i' : Instance} :
    i.markFilled k = .ok i' ↔
      k < 32 ∧ i' = { i with filled := i.filled ||| BitVec.twoPow 32 k } := by
  rw [markFilled, bind_eq_ok]
  constructor
  · rintro ⟨_, few, h⟩
    exact ⟨demand_eq_ok.1 few, (Except.ok.inj h).symm⟩
  · rintro ⟨few, rfl⟩
    exact ⟨(), demand_eq_ok.2 few, rfl⟩

theorem checkFree_bind {α : Type} (i : Instance) (k : Nat) (s : Slot) (x : Except Fault α) :
    (i.checkFree k s >>= fun _ => x) = (if s.kind.isForward then x else do
      if ← i.isFilled k then
        breach (.filledTwice k i.template.name i.offset)
        x
      else x) := by
  unfold checkFree
  split
  · rfl
  · cases i.isFilled k with
    | error => rfl
    | ok filled => cases filled <;> rfl

end Instance

namespace CodeBuffer

variable {b b' : CodeBuffer} {offset : Nat} {data : List UInt8} {fault : Fault}

/-- Filling is a check, a write and a note in the record of filled slots. -/
theorem fill_eq (b : CodeBuffer) (regions : RegionBases) (i : Instance) (k : Nat) (v : UInt64) :
    b.fill regions i k v = do
      let s ← i.slot k
      i.checkFree k s
      let b' ← b.writeSlot regions i.offset s v
      return (← i.markFilled k, b') := by
  unfold fill
  refine bind_congr fun s => ?_
  rw [Instance.checkFree_bind]
  unfold writeSlot
  cases hk : s.kind <;> simp only [bind_assoc]

/-- A slot can be filled if it is there, has a bit in the record and is free, and what it writes can
be written. -/
theorem fill_eq_ok_iff {regions : RegionBases} {i i' : Instance} {k : Nat} {v : UInt64} :
    b.fill regions i k v = .ok (i', b') ↔ ∃ s, i.template.slots[k]? = some s ∧ k < 32 ∧
      (s.kind.isForward = true ∨ i.filled.getLsbD k = false) ∧
      b.writeSlot regions i.offset s v = .ok b' ∧
      i' = { i with filled := i.filled ||| BitVec.twoPow 32 k } := by
  rw [fill_eq]
  constructor
  · intro h
    obtain ⟨s, slot, h⟩ := bind_eq_ok.1 h
    obtain ⟨_, free, h⟩ := bind_eq_ok.1 h
    obtain ⟨c, written, h⟩ := bind_eq_ok.1 h
    obtain ⟨j, mark, h⟩ := bind_eq_ok.1 h
    obtain ⟨few, rfl⟩ := Instance.markFilled_eq_ok.1 mark
    cases h
    exact ⟨s, Instance.slot_eq_ok.1 slot, few,
      (Instance.checkFree_eq_ok.1 free).imp_right And.right, written, rfl⟩
  · rintro ⟨s, slot, few, free, written, rfl⟩
    refine bind_eq_ok.2
      ⟨s, Instance.slot_eq_ok.2 slot, bind_eq_ok.2 ⟨(), ?_, bind_eq_ok.2 ⟨b', written, ?_⟩⟩⟩
    · exact Instance.checkFree_eq_ok.2 (free.imp_right fun h => ⟨few, h⟩)
    · exact bind_eq_ok.2 ⟨_, Instance.markFilled_eq_ok.2 ⟨few, rfl⟩, rfl⟩

/-- A patch fails if it goes past the cursor. -/
theorem patch_eq_error (bound : b.cursor < wordBound) (h : b.patch offset data = .error fault) :
    b.cursor < offset + data.length ∧ ∃ cause, fault = .violation cause := by
  rcases bind_eq_error.1 h with h | ⟨sum, hsum, h⟩
  · obtain ⟨large, rfl⟩ := addSizes_eq_error h
    exact ⟨by omega, _, rfl⟩
  · obtain rfl := (addSizes_eq_ok.1 hsum).2
    rcases bind_eq_error.1 h with h | ⟨_, -, h⟩
    · obtain ⟨failed, rfl⟩ := demand_eq_error h
      exact ⟨Nat.lt_of_not_le failed, _, rfl⟩
    · cases h

/-- A read fails if it goes past the cursor. -/
theorem readByte_eq_error (bound : b.cursor < wordBound) (h : b.readByte offset = .error fault) :
    b.cursor ≤ offset ∧ ∃ cause, fault = .violation cause := by
  unfold readByte read at h
  rcases bind_eq_error.1 h with h | ⟨_, -, h⟩
  · rcases bind_eq_error.1 h with h | ⟨sum, hsum, h⟩
    · obtain ⟨large, rfl⟩ := addSizes_eq_error h
      exact ⟨by omega, _, rfl⟩
    · obtain rfl := (addSizes_eq_ok.1 hsum).2
      rcases bind_eq_error.1 h with h | ⟨_, -, h⟩
      · obtain ⟨failed, rfl⟩ := demand_eq_error h
        exact ⟨by omega, _, rfl⟩
      · cases h
  · cases h

theorem readByte_inv {byte : UInt8} (h : b.readByte offset = .ok byte) :
    offset < b.cursor ∧ b.bytes[offset]? = some byte := by
  obtain ⟨bytes, h, head⟩ := bind_eq_ok.1 h
  obtain ⟨sum, hsum, h⟩ := bind_eq_ok.1 h
  obtain rfl := (addSizes_eq_ok.1 hsum).2
  obtain ⟨_, inside, h⟩ := bind_eq_ok.1 h
  have here : offset < b.bytes.size := demand_eq_ok.1 inside
  cases h
  cases head
  refine ⟨here, ?_⟩
  simp [List.headD_eq_head?_getD, List.head?_eq_getElem?, here]

end CodeBuffer

namespace Placement

open Traced

variable {p p' : Placement} {regions : RegionBases} {k offset : Nat} {v : UInt64} {s : Slot}
  {data : List UInt8} {x : Traced Placement Unit} {y : Except Fault CodeBuffer} {torn : Prop}

/-- In place the operation does what the function's value says: a success leaves the new buffer, and
a failure leaves everything as it was, unless a contract is broken half way. -/
def Enacts (x : Traced Placement Unit) (p : Placement) (y : Except Fault CodeBuffer) (torn : Prop) :
    Prop :=
  (∃ b, y = .ok b ∧ Yields x p (.ok ()) { p with buffer := b }) ∨
    ∃ fault p', y = .error fault ∧ Yields x p (.error fault) p' ∧
      (p' = p ∨ (∃ cause, fault = .violation cause) ∧ torn)

/-- A computation in front of both is enacted as it is. -/
theorem Enacts.lift {α : Type} {y : Except Fault α} {f : α → Traced Placement Unit}
    {g : α → Except Fault CodeBuffer} (next : ∀ a, y = .ok a → Enacts (f a) p (g a) torn) :
    Enacts (liftM y >>= f) p (y >>= g) torn := by
  cases hy : y with
  | error fault => exact .inr ⟨fault, p, rfl, yields_lift_error rfl, .inl rfl⟩
  | ok a =>
    rcases next a hy with ⟨b, hb, yields⟩ | ⟨fault, p', hfault, yields, left⟩
    · exact .inl ⟨b, hb, (yields_lift_ok rfl).bind yields⟩
    · exact .inr ⟨fault, p', hfault, (yields_lift_ok rfl).bind yields, left⟩

theorem enacts_patch (p : Placement) (offset : Nat) (data : List UInt8) (torn : Prop) :
    Enacts (patch offset data) p (p.buffer.patch offset data) torn := by
  cases h : p.buffer.patch offset data with
  | ok b => exact .inl ⟨b, rfl, yields_get.bind ((yields_lift_ok h).bind (yields_set _))⟩
  | error fault => exact .inr ⟨fault, p, rfl, yields_get.bind (yields_lift_error h), .inl rfl⟩

/-- The selector byte of the slot has not been written. -/
def Exposed (p : Placement) (s : Slot) : Prop :=
  ∃ w selector, s.kind = .canonical w selector ∧
    p.buffer.cursor ≤ p.copy.offset + selector.offset.toNat

/-- Writing a slot step by step comes to what writing it at once does, and if it fails midway only
an exposed slot can have been torn. -/
theorem enacts_writeSlot (p : Placement) (regions : RegionBases) (s : Slot) (v : UInt64)
    (bound : p.buffer.cursor < wordBound) :
    Enacts (writeSlot regions s v) p (p.buffer.writeSlot regions p.copy.offset s v)
      (p.Exposed s) := by
  have entered {y : Except Fault CodeBuffer} {f : Placement → Traced Placement Unit}
      (h : Enacts (f p) p y (p.Exposed s)) : Enacts (get >>= f) p y (p.Exposed s) := by
    rcases h with ⟨b, hb, yields⟩ | ⟨fault, p', hfault, yields, left⟩
    · exact .inl ⟨b, hb, yields_get.bind yields⟩
    · exact .inr ⟨fault, p', hfault, yields_get.bind yields, left⟩
  refine entered ?_
  unfold CodeBuffer.writeSlot
  cases hk : s.kind with
  | immediate width => exact enacts_patch ..
  | relative width anchor | forward width anchor =>
    exact .lift fun origin _ => .lift fun distance _ => enacts_patch ..
  | canonical width selector =>
    refine .lift fun r _ => ?_
    obtain ⟨region, distance⟩ := r
    rcases enacts_patch p (p.copy.offset + s.offset.toNat) (width.encode (UInt64.ofInt distance))
        (p.Exposed s) with
      ⟨b, written, first⟩ | ⟨fault, p', failed, first, left⟩
    · have same : b.cursor = p.buffer.cursor := by
        obtain ⟨-, rfl⟩ := CodeBuffer.patch_inv written
        exact size_writeAt ..
      simp only [CodeBuffer.writeField, written]
      cases hbyte : b.readByte (p.copy.offset + selector.offset.toNat) with
      | error fault =>
        obtain ⟨short, violated⟩ := CodeBuffer.readByte_eq_error (same ▸ bound) hbyte
        refine .inr ⟨fault, { p with buffer := b }, by simp [hbyte, bind, Except.bind],
          first.bind (yields_get.bind (yields_lift_error hbyte)),
          .inr ⟨violated, width, selector, hk, same ▸ short⟩⟩
      | ok byte =>
        have inside := (CodeBuffer.readByte_inv hbyte).1
        rcases enacts_patch { p with buffer := b } (p.copy.offset + selector.offset.toNat)
          [selector.select byte region] False
            with ⟨b', written', second⟩ | ⟨fault, p', failed, -, -⟩
        · exact .inl ⟨b', by simp [hbyte, bind, Except.bind, written'],
            first.bind (yields_get.bind ((yields_lift_ok hbyte).bind second))⟩
        · have := (CodeBuffer.patch_eq_error (same ▸ bound) failed).1
          rw [List.length_singleton] at this
          exact absurd this (Nat.not_lt.2 inside)
    · exact .inr ⟨fault, p', by simp [CodeBuffer.writeField, failed, bind, Except.bind],
        first.bind_error, left⟩

/-- Filling in place succeeds, or fails, as the function does. A failure leaves everything as it
was, unless it is a broken contract of a slot that has no byte for its selector or no bit in the
record. -/
theorem fill_cases (p : Placement) (regions : RegionBases) (k : Nat) (v : UInt64)
    (bound : p.buffer.cursor < wordBound) :
    (∃ i b, p.buffer.fill regions p.copy k v = .ok (i, b) ∧
      Yields (fill regions k v) p (.ok ()) ⟨i, b⟩) ∨
    ∃ fault p', p.buffer.fill regions p.copy k v = .error fault ∧
      Yields (fill regions k v) p (.error fault) p' ∧
        (p' = p ∨ (∃ cause, fault = .violation cause) ∧ ∃ s, p.copy.template.slots[k]? = some s ∧
          (p.Exposed s ∨ s.kind.isForward = true ∧ 32 ≤ k)) := by
  rw [CodeBuffer.fill_eq]
  cases hslot : p.copy.slot k with
  | error fault => exact .inr ⟨fault, p, rfl, yields_get.bind (yields_lift_error hslot), .inl rfl⟩
  | ok s =>
    have found := Instance.slot_eq_ok.1 hslot
    cases hfree : p.copy.checkFree k s with
    | error fault =>
      exact .inr ⟨fault, p, by simp [hfree, bind, Except.bind],
        yields_get.bind ((yields_lift_ok hslot).bind (yields_lift_error hfree)), .inl rfl⟩
    | ok _ =>
      have begun {o : Except Fault Unit} {p' : Placement}
          (h : Yields (writeSlot regions s v >>= fun _ => record k) p o p') :
          Yields (fill regions k v) p o p' :=
        yields_get.bind ((yields_lift_ok hslot).bind ((yields_lift_ok hfree).bind h))
      rcases enacts_writeSlot p regions s v bound
        with ⟨b, written, yields⟩ | ⟨fault, p', failed, yields, left⟩
      · cases hmark : p.copy.markFilled k with
        | ok i =>
          refine .inl ⟨i, b, by simp [hfree, written, bind, Except.bind, pure, Except.pure], ?_⟩
          exact begun
            (yields.bind (yields_get.bind ((yields_lift_ok hmark).bind (yields_modify _))))
        | error fault =>
          obtain ⟨many, rfl⟩ := Instance.markFilled_eq_error hmark
          have forward :=
            (Instance.checkFree_eq_ok.1 hfree).resolve_right fun few => Nat.not_le.2 few.1 many
          refine .inr ⟨_, { p with buffer := b }, by simp [hfree, written, bind, Except.bind],
            begun (yields.bind (yields_get.bind (yields_lift_error hmark))),
            .inr ⟨⟨_, rfl⟩, s, found, ?_⟩⟩
          exact .inr ⟨forward, many⟩
      · refine .inr
          ⟨fault, p', by simp [hfree, failed, bind, Except.bind], begun yields.bind_error, ?_⟩
        exact left.imp_right fun torn => ⟨torn.1, s, found, .inl torn.2⟩

end Placement

namespace Slot

variable {s : Slot} {offset n : Nat}

/-- The bytes of the code that filling may change: the field, and the selector byte of an address in
a data region. -/
def footprint (s : Slot) : List Nat :=
  List.range' s.offset.toNat s.width.bytes ++
    match s.kind with
    | .canonical _ selector => [selector.offset.toNat]
    | _ => []

/-- The same bytes in a copy that starts at an offset of the buffer. -/
def cells (s : Slot) (offset : Nat) : List Nat := s.footprint.map (offset + ·)

theorem field_mem_cells (low : offset + s.offset.toNat ≤ n)
    (high : n < offset + s.offset.toNat + s.width.bytes) : n ∈ s.cells offset := by
  refine List.mem_map.2 ⟨n - offset, List.mem_append_left _ (List.mem_range'_1.2 ?_), by omega⟩
  omega

theorem selector_mem_cells {w : Width} {selector : RegionSelector}
    (h : s.kind = .canonical w selector) : offset + selector.offset.toNat ∈ s.cells offset := by
  refine List.mem_map.2 ⟨selector.offset.toNat, List.mem_append_right _ ?_, rfl⟩
  rw [h]
  exact List.mem_singleton.2 rfl

/-- The bytes of a slot are its field and, if it has one, its selector. -/
theorem cells_cases (h : n ∈ s.cells offset) :
    (offset + s.offset.toNat ≤ n ∧ n < offset + s.offset.toNat + s.width.bytes) ∨
      ∃ w selector, s.kind = .canonical w selector ∧ n = offset + selector.offset.toNat := by
  obtain ⟨m, hm, rfl⟩ := List.mem_map.1 h
  rcases List.mem_append.1 hm with field | extra
  · rw [List.mem_range'_1] at field
    exact .inl (by omega)
  · cases hk : s.kind with
    | canonical w selector =>
      rw [hk] at extra
      exact .inr ⟨w, selector, rfl, by rw [List.mem_singleton.1 extra]⟩
    | immediate | relative | forward =>
      rw [hk] at extra
      exact absurd extra List.not_mem_nil

/-- The selector byte, if there is one, lies outside the field. -/
def Clear (s : Slot) : Prop :=
  ∀ w selector, s.kind = .canonical w selector →
    selector.offset.toNat < s.offset.toNat ∨ s.stop ≤ selector.offset.toNat

/-- The field of a slot stands clear of its selector if no byte counts twice. -/
theorem clear_of_nodup (h : s.footprint.Nodup) : s.Clear := by
  intro w selector hk
  by_contra inside
  refine (List.nodup_append.1 h).2.2 selector.offset.toNat (List.mem_range'_1.2 ?_)
    selector.offset.toNat ?_ rfl
  · rw [stop] at inside
    omega
  · rw [hk]
    exact List.mem_singleton.2 rfl

/-- The number that goes into the field of a copy at host address `origin` for a value that it can
hold. -/
def word? (s : Slot) (regions : RegionBases) (origin : Nat) (v : UInt64) : Option UInt64 :=
  match s.kind with
  | .immediate _ => some v
  | .relative w anchor | .forward w anchor =>
    if w.Fits (v.toNat - (origin + anchor.toNat : Nat)) then
      some (.ofInt (v.toNat - (origin + anchor.toNat : Nat)))
    else none
  | .canonical w _ =>
    match regions.canonical v w with
    | .ok (_, distance) => some (.ofInt distance)
    | .error _ => none

/-- The field of the slot in a copy at `offset` has been written before, and what else filling needs
lies in the buffer. -/
def Stands (s : Slot) (b : CodeBuffer) (offset : Nat) : Prop :=
  offset + s.stop ≤ b.cursor ∧
    match s.kind with
    | .immediate _ => True
    | .relative _ anchor | .forward _ anchor => offset + anchor.toNat ≤ b.capacity
    | .canonical _ selector => offset + selector.offset.toNat < b.cursor

end Slot

namespace CodeBuffer

variable {b b' b'' old : CodeBuffer} {P : Nat → Prop} {regions : RegionBases} {offset : Nat}
  {data : List UInt8} {s : Slot} {v : UInt64}

/-- The buffers differ at most in the bytes at some offsets. -/
structure Amended (b : CodeBuffer) (P : Nat → Prop) (b' : CodeBuffer) : Prop where
  frame : b' = { b with bytes := b'.bytes }
  cursor : b'.cursor = b.cursor
  outside : ∀ n, ¬ P n → b'.bytes[n]? = b.bytes[n]?

theorem Amended.refl (b : CodeBuffer) (P : Nat → Prop) : b.Amended P b := ⟨rfl, rfl, fun _ _ => rfl⟩

/-- Changes to the same places make one change. -/
theorem Amended.trans (h : b.Amended P b') (h' : b'.Amended P b'') : b.Amended P b'' where
  frame := by rw [h'.frame, h.frame]
  cursor := h'.cursor.trans h.cursor
  outside n hn := (h'.outside n hn).trans (h.outside n hn)

theorem Amended.mono {Q : Nat → Prop} (h : b.Amended P b') (imp : ∀ n, P n → Q n) :
    b.Amended Q b' :=
  ⟨h.frame, h.cursor, fun n hn => h.outside n fun hp => hn (imp n hp)⟩

/-- A buffer that is amended keeps its bounds. -/
theorem Amended.bounded (h : b.Amended P b') (bounded : b.Bounded) : b'.Bounded := by
  refine ⟨?_, ?_⟩
  · rw [h.cursor, h.frame]
    exact bounded.cursor_le
  · rw [h.frame]
    exact bounded.mapped

theorem amended_of_patch (h : b.patch offset data = .ok b')
    (covered : ∀ n, offset ≤ n → n < offset + data.length → P n) : b.Amended P b' := by
  obtain ⟨-, rfl⟩ := patch_inv h
  refine ⟨rfl, size_writeAt .., fun n outside => getElem?_writeAt_of_outside _ _ ?_⟩
  by_contra inside
  exact outside (covered n (by omega) (by omega))

theorem holds_of_patch (h : b.patch offset data = .ok b') : b'.Holds offset data := by
  obtain ⟨room, rfl⟩ := patch_inv h
  exact fun k hk => getElem?_writeAt_add _ hk room

/-- A slot of a copy at `offset` has a value: the field holds its word, and the selector byte of an
address in a data region names the region. In buffer `old` the slot was empty. -/
structure Carries (b : CodeBuffer) (regions : RegionBases) (old : CodeBuffer) (offset : Nat)
    (s : Slot) (v : UInt64) : Prop where
  field : ∃ u, s.word? regions (old.base + offset) v = some u ∧
    b.Holds (offset + s.offset.toNat) (s.width.encode u)
  selector : ∀ {w selector region distance}, s.kind = .canonical w selector →
    regions.canonical v w = .ok (region, distance) → b.bytes[offset + selector.offset.toNat]? =
      old.bytes[offset + selector.offset.toNat]?.map (selector.select · region)

/-- Writing a slot amends the bytes of the slot. -/
theorem amended_of_writeSlot (h : b.writeSlot regions offset s v = .ok b') :
    b.Amended (· ∈ s.cells offset) b' := by
  have field {w : Width} {u : UInt64} {c : CodeBuffer} (hw : s.width = w)
      (h : b.writeField (offset + s.offset.toNat) w u = .ok c) :
      b.Amended (· ∈ s.cells offset) c := by
    refine amended_of_patch h fun n low high => Slot.field_mem_cells low ?_
    rwa [Width.length_encode, ← hw] at high
  unfold writeSlot at h
  cases hk : s.kind with
  | immediate w =>
    rw [hk] at h
    exact field (by rw [Slot.width, hk]; rfl) h
  | relative w anchor | forward w anchor =>
    rw [hk] at h
    obtain ⟨origin, -, h⟩ := bind_eq_ok.1 h
    obtain ⟨distance, -, h⟩ := bind_eq_ok.1 h
    exact field (by rw [Slot.width, hk]; rfl) h
  | canonical w selector =>
    rw [hk] at h
    obtain ⟨⟨region, distance⟩, -, h⟩ := bind_eq_ok.1 h
    obtain ⟨c, written, h⟩ := bind_eq_ok.1 h
    obtain ⟨byte, -, h⟩ := bind_eq_ok.1 h
    refine (field (by rw [Slot.width, hk]; rfl) written).trans
      (amended_of_patch h fun n low high => ?_)
    rw [List.length_singleton] at high
    rw [show n = offset + selector.offset.toNat by omega]
    exact Slot.selector_mem_cells hk

/-- A slot that has been written carries its value. -/
theorem carries_of_writeSlot (bounded : b.Bounded) (clear : s.Clear)
    (h : b.writeSlot regions offset s v = .ok b') : b'.Carries regions b offset s v := by
  unfold writeSlot at h
  cases hk : s.kind with
  | immediate w =>
    rw [hk] at h
    refine ⟨⟨v, by rw [Slot.word?, hk], ?_⟩, fun hk' => by cases hk.symm.trans hk'⟩
    rw [Slot.width, hk]
    exact holds_of_patch h
  | relative w anchor | forward w anchor =>
    rw [hk] at h
    obtain ⟨origin, haddr, h⟩ := bind_eq_ok.1 h
    obtain ⟨distance, hdistance, h⟩ := bind_eq_ok.1 h
    obtain ⟨anchor_le, rfl⟩ := addrAt_inv haddr
    obtain ⟨rfl, fits⟩ := displacement_inv hdistance
    rw [bounded.toNat_ofNat anchor_le, ← Nat.add_assoc] at fits h
    refine ⟨⟨_, by rw [Slot.word?, hk]; exact if_pos fits, ?_⟩,
      fun hk' => by cases hk.symm.trans hk'⟩
    rw [Slot.width, hk]
    exact holds_of_patch h
  | canonical w selector =>
    rw [hk] at h
    obtain ⟨⟨region, distance⟩, hcanonical, h⟩ := bind_eq_ok.1 h
    obtain ⟨c, written, h⟩ := bind_eq_ok.1 h
    obtain ⟨byte, hbyte, h⟩ := bind_eq_ok.1 h
    have outside := clear w selector hk
    rw [Slot.stop, Slot.width, hk] at outside
    change _ ∨ s.offset.toNat + w.bytes ≤ _ at outside
    refine ⟨⟨.ofInt distance, by rw [Slot.word?, hk]; simp [hcanonical], ?_⟩,
      fun hk' hcanonical' => ?_⟩
    · rw [Slot.width, hk]
      refine (holds_of_patch written).congr fun n low high => ?_
      rw [Width.length_encode] at high
      refine (amended_of_patch (P := (· = offset + selector.offset.toNat)) h fun n low high =>
        ?_).outside n (by omega)
      rw [List.length_singleton] at high
      omega
    · cases hk.symm.trans hk'
      cases hcanonical.symm.trans hcanonical'
      have before :
          c.bytes[offset + selector.offset.toNat]? = b.bytes[offset + selector.offset.toNat]? := by
        obtain ⟨-, rfl⟩ := patch_inv written
        refine getElem?_writeAt_of_outside _ _ ?_
        rw [Width.length_encode]
        omega
      rw [← before, (readByte_inv hbyte).2]
      exact holds_of_patch h 0 Nat.one_pos

/-- A field is read back as its width has cut it off. -/
theorem readField_eq_ok {p : Nat} {w : Width} {u : UInt64} (bounded : b.Bounded)
    (inside : p + w.bytes ≤ b.cursor) (holds : b.Holds p (w.encode u)) :
    b.readField p w = .ok (w.truncate u) := by
  have hread := read_eq_ok bounded (by rwa [Width.length_encode]) holds
  rw [Width.length_encode] at hread
  rw [readField, hread]
  exact congrArg Except.ok (Width.decode_encode w u)

theorem readByte_eq_ok {p : Nat} {byte : UInt8} (bounded : b.Bounded)
    (here : b.bytes[p]? = some byte) : b.readByte p = .ok byte := by
  have inside : p < b.cursor := (Array.getElem?_eq_some_iff.1 here).1
  have holds : b.Holds p [byte] := fun k hk => by
    rw [List.length_singleton] at hk
    obtain rfl : k = 0 := by omega
    exact here
  have hread := read_eq_ok bounded inside holds
  rw [List.length_singleton] at hread
  rw [readByte, hread]
  rfl

/-- Where the slot stands right it can be written, unless it cannot hold the value; that is an
error. -/
theorem writeSlot_cases (bounded : b.Bounded) (stands : s.Stands b offset) (regions : RegionBases)
    (v : UInt64) :
    (s.Accepts regions (b.base + offset) v ∧ ∃ b', b.writeSlot regions offset s v = .ok b') ∨
      (¬ s.Accepts regions (b.base + offset) v ∧
        ∃ cause, b.writeSlot regions offset s v = .error (.error cause)) := by
  obtain ⟨field, extra⟩ := stands
  have bound := bounded.cursor_lt
  have written (u : UInt64) : b.writeField (offset + s.offset.toNat) s.kind.width u = .ok
      { b with bytes := writeAt b.bytes (offset + s.offset.toNat) (s.kind.width.encode u) } := by
    refine patch_eq_ok ?_ bound
    rw [Width.length_encode, Nat.add_assoc]
    exact field
  unfold writeSlot Slot.Accepts
  cases hk : s.kind with
  | immediate w =>
    rw [hk] at written
    exact .inl ⟨trivial, _, written v⟩
  | relative w anchor | forward w anchor =>
    rw [hk] at written extra
    have distance : displacement (.ofNat (b.base + (offset + anchor.toNat))) v w =
        if w.Fits (v.toNat - (b.base + offset + anchor.toNat : Nat)) then
          .ok (v.toNat - (b.base + offset + anchor.toNat : Nat))
        else .error
          (.error (.displacementOutOfRange (.ofNat (b.base + (offset + anchor.toNat))) v w)) := by
      simp only [displacement, bounded.toNat_ofNat extra, Nat.add_assoc]
    by_cases fits : w.Fits (v.toNat - (b.base + offset + anchor.toNat : Nat))
    · rw [if_pos fits] at distance
      exact .inl
        ⟨fits, _, bind_eq_ok.2 ⟨_, addrAt_eq_ok extra, bind_eq_ok.2 ⟨_, distance, written _⟩⟩⟩
    · rw [if_neg fits] at distance
      exact .inr
        ⟨fits, _, bind_eq_error.2 (.inr ⟨_, addrAt_eq_ok extra, bind_eq_error.2 (.inl distance)⟩)⟩
  | canonical w selector =>
    rw [hk] at written extra
    cases hcanonical : regions.canonical v w with
    | error fault =>
      obtain rfl := RegionBases.canonical_eq_error hcanonical
      exact .inr ⟨by simp [hcanonical], _, bind_eq_error.2 (.inl hcanonical)⟩
    | ok r =>
      obtain ⟨region, distance⟩ := r
      let c : CodeBuffer :=
        { b with bytes := writeAt b.bytes (offset + s.offset.toNat) (w.encode (.ofInt distance)) }
      have size : c.cursor = b.cursor := size_writeAt ..
      have bounded' : c.Bounded := ⟨size ▸ bounded.cursor_le, bounded.mapped⟩
      have inside : offset + selector.offset.toNat < c.cursor := Nat.lt_of_lt_of_eq extra size.symm
      obtain ⟨byte, here⟩ : ∃ byte, c.bytes[offset + selector.offset.toNat]? = some byte :=
        ⟨_, Array.getElem?_eq_getElem inside⟩
      exact .inl ⟨⟨_, hcanonical⟩, _, bind_eq_ok.2 ⟨_, hcanonical, bind_eq_ok.2 ⟨c, written _,
        bind_eq_ok.2 ⟨byte, readByte_eq_ok bounded' here, patch_eq_ok inside (size ▸ bound)⟩⟩⟩⟩

/-- Only a slot that stands right and can hold the value is ever written. -/
theorem stands_of_writeSlot (bounded : b.Bounded) (h : b.writeSlot regions offset s v = .ok b') :
    s.Stands b offset ∧ s.Accepts regions (b.base + offset) v := by
  have field {u : UInt64} {c : CodeBuffer}
      (h : b.writeField (offset + s.offset.toNat) s.kind.width u = .ok c) :
      offset + s.stop ≤ b.cursor ∧ c.cursor = b.cursor := by
    obtain ⟨room, rfl⟩ := patch_inv h
    rw [Width.length_encode, Nat.add_assoc] at room
    exact ⟨room, size_writeAt ..⟩
  unfold writeSlot at h
  unfold Slot.Stands Slot.Accepts
  cases hk : s.kind with
  | immediate w =>
    rw [hk] at h field
    exact ⟨⟨(field h).1, trivial⟩, trivial⟩
  | relative w anchor | forward w anchor =>
    rw [hk] at h field
    obtain ⟨origin, haddr, h⟩ := bind_eq_ok.1 h
    obtain ⟨distance, hdistance, h⟩ := bind_eq_ok.1 h
    obtain ⟨anchor_le, rfl⟩ := addrAt_inv haddr
    obtain ⟨rfl, fits⟩ := displacement_inv hdistance
    rw [bounded.toNat_ofNat anchor_le, ← Nat.add_assoc] at fits
    exact ⟨⟨(field h).1, anchor_le⟩, fits⟩
  | canonical w selector =>
    rw [hk] at h field
    obtain ⟨r, hcanonical, h⟩ := bind_eq_ok.1 h
    obtain ⟨c, written, h⟩ := bind_eq_ok.1 h
    obtain ⟨byte, hbyte, -⟩ := bind_eq_ok.1 h
    exact ⟨⟨(field written).1, (field written).2 ▸ (readByte_inv hbyte).1⟩, r, hcanonical⟩

/-- Bytes of other slots do not matter. -/
theorem Carries.congr (h : b.Carries regions old offset s v)
    (same : ∀ n ∈ s.cells offset, b'.bytes[n]? = b.bytes[n]?) :
    b'.Carries regions old offset s v := by
  obtain ⟨u, word, holds⟩ := h.field
  refine ⟨⟨u, word, holds.congr fun n low high => same n (Slot.field_mem_cells low ?_)⟩,
    fun hk hcanonical => ?_⟩
  · rwa [Width.length_encode] at high
  · exact (same _ (Slot.selector_mem_cells hk)).trans (h.selector hk hcanonical)

/-- Of the buffer before the slot was filled only the selector byte matters. -/
theorem Carries.of_old {old' : CodeBuffer} (h : b.Carries regions old offset s v)
    (base : old'.base = old.base)
    (same : ∀ w selector, s.kind = .canonical w selector →
      old'.bytes[offset + selector.offset.toNat]? = old.bytes[offset + selector.offset.toNat]?) :
    b.Carries regions old' offset s v := by
  refine ⟨by rw [base]; exact h.field, fun hk hcanonical => ?_⟩
  rw [same _ _ hk]
  exact h.selector hk hcanonical

/-- The value of a slot determines its bytes. -/
theorem Carries.unique (h : b.Carries regions old offset s v)
    (h' : b'.Carries regions old offset s v) {n : Nat} (hn : n ∈ s.cells offset) :
    b'.bytes[n]? = b.bytes[n]? := by
  obtain ⟨u, word, holds⟩ := h.field
  rcases Slot.cells_cases hn with ⟨low, high⟩ | ⟨w, selector, hk, rfl⟩
  · obtain ⟨u', word', holds'⟩ := h'.field
    obtain rfl := Option.some.inj (word.symm.trans word')
    obtain ⟨m, rfl⟩ := Nat.exists_eq_add_of_le low
    have hm : m < (s.width.encode u).length := by rw [Width.length_encode]; omega
    rw [holds m hm, holds' m hm]
  · cases hcanonical : regions.canonical v w with
    | error fault => simp [Slot.word?, hk, hcanonical] at word
    | ok r => rw [h.selector hk hcanonical, h'.selector hk hcanonical]

end CodeBuffer

namespace Placement

open Traced

variable {p : Placement} {regions : RegionBases} {k : Nat} {v : UInt64} {s : Slot}

/-- The code of the copy lies in the part of the buffer that has been written. -/
structure Housed (p : Placement) : Prop where
  bounded : p.buffer.Bounded
  stop_le : p.copy.stop ≤ p.buffer.cursor

/-- A slot with a byte for its selector and a bit in the record is filled, or everything stays as it
was. -/
theorem fill_or_keep (bounded : p.buffer.Bounded)
    (whole : ∀ s, p.copy.template.slots[k]? = some s →
      ¬ p.Exposed s ∧ (s.kind.isForward = true → k < 32))
    (regions : RegionBases) (v : UInt64) :
    (∃ i b, p.buffer.fill regions p.copy k v = .ok (i, b) ∧
      Yields (fill regions k v) p (.ok ()) ⟨i, b⟩) ∨
      ∃ fault, Yields (fill regions k v) p (.error fault) p := by
  rcases fill_cases p regions k v bounded.cursor_lt with filled | ⟨fault, p', -, yields, left⟩
  · exact .inl filled
  · rcases left with rfl | ⟨-, s, slot, exposed | ⟨forward, many⟩⟩
    · exact .inr ⟨fault, yields⟩
    · exact absurd exposed (whole s slot).1
    · exact absurd many (Nat.not_le.2 ((whole s slot).2 forward))

theorem Housed.selector_lt {n : Nat} (h : p.Housed) (inside : n < p.copy.template.size) :
    p.copy.offset + n < p.buffer.cursor :=
  Nat.lt_of_lt_of_le (Nat.add_lt_add_left inside _) h.stop_le

/-- The slots of a copy that has been written in full cannot be torn. -/
theorem Housed.not_exposed (h : p.Housed) (confined : s.Confined p.copy.template.size) :
    ¬ p.Exposed s := by
  rintro ⟨w, selector, kind, short⟩
  have inside := confined.2
  rw [kind] at inside
  exact Nat.not_lt.2 short (h.selector_lt inside)

/-- A free slot that stands right is filled, or refuses the value with an error. -/
theorem fill_free (bounded : p.buffer.Bounded) (slot : p.copy.template.slots[k]? = some s)
    (few : k < 32) (free : s.kind.isForward = true ∨ p.copy.filled.getLsbD k = false)
    (stands : s.Stands p.buffer p.copy.offset) (regions : RegionBases) (v : UInt64) :
    (s.Accepts regions (p.buffer.base + p.copy.offset) v ∧
      ∃ b, p.buffer.writeSlot regions p.copy.offset s v = .ok b ∧
        Yields (fill regions k v) p (.ok ())
          ⟨{ p.copy with filled := p.copy.filled ||| BitVec.twoPow 32 k }, b⟩) ∨
    (¬ s.Accepts regions (p.buffer.base + p.copy.offset) v ∧
      ∃ cause, Yields (fill regions k v) p (.error (.error cause)) p) := by
  rcases CodeBuffer.writeSlot_cases bounded stands regions v
    with ⟨accepts, b, written⟩ | ⟨refuses, cause, failed⟩
  · have filled := CodeBuffer.fill_eq_ok_iff.2 ⟨s, slot, few, free, written, rfl⟩
    rcases fill_cases p regions k v bounded.cursor_lt
      with ⟨i, b', same, yields⟩ | ⟨fault, p', failed, -, -⟩
    · cases filled.symm.trans same
      exact .inl ⟨accepts, b, written, yields⟩
    · cases filled.symm.trans failed
  · have hfree := Instance.checkFree_eq_ok.2 (free.imp_right fun h => ⟨few, h⟩)
    have refused : p.buffer.fill regions p.copy k v = .error (.error cause) := by
      rw [CodeBuffer.fill_eq]
      exact bind_eq_error.2 (.inr ⟨s, Instance.slot_eq_ok.2 slot,
        bind_eq_error.2 (.inr ⟨(), hfree, bind_eq_error.2 (.inl failed)⟩)⟩)
    rcases fill_cases p regions k v bounded.cursor_lt
      with ⟨i, b', filled, -⟩ | ⟨fault, p', same, yields, left⟩
    · cases refused.symm.trans filled
    · cases refused.symm.trans same
      rcases left with rfl | ⟨⟨cause, violation⟩, -⟩
      · exact .inr ⟨refuses, _, yields⟩
      · cases violation

/-- A slot other than a forward branch is filled once. -/
theorem fill_twice (slot : p.copy.template.slots[k]? = some s) (few : k < 32)
    (once : s.kind.isForward = false) (filled : p.copy.filled.getLsbD k = true)
    (regions : RegionBases) (v : UInt64) :
    Yields (fill regions k v) p
      (.error (.violation (.filledTwice k p.copy.template.name p.copy.offset))) p := by
  refine yields_get.bind ((yields_lift_ok (Instance.slot_eq_ok.2 slot)).bind (yields_lift_error ?_))
  rw [Instance.checkFree_eq, if_neg (by simp [once]), if_neg (Nat.not_le.2 few), if_pos filled]
  rfl

end Placement

namespace CodeBuffer

variable {b old : CodeBuffer} {P : Nat → Prop} {regions : RegionBases} {offset : Nat}
  {s : Slot} {v : UInt64}

/-- What the slot of a copy reads as is the value: a constant cut to the width, a host address at a
distance from the anchor, or one at a distance from the base of the region that the selector byte
names. -/
def Shows (b : CodeBuffer) (regions : RegionBases) (old : CodeBuffer) (offset : Nat) (s : Slot)
    (v : UInt64) : Prop :=
  match s.kind with
  | .immediate w => b.readField (offset + s.offset.toNat) w = .ok (w.truncate v)
  | .relative w anchor | .forward w anchor =>
    ∃ raw, b.readField (offset + s.offset.toNat) w = .ok raw ∧
      (b.base + (offset + anchor.toNat) : Int) + w.signExtend raw = v.toNat
  | .canonical w selector => ∃ raw region byte, b.readField (offset + s.offset.toNat) w = .ok raw ∧
      regions.canonical v w = .ok (region, w.signExtend raw) ∧
      ((regions.base region).toNat : Int) + w.signExtend raw = v.toNat ∧
      old.readByte (offset + selector.offset.toNat) = .ok byte ∧
      b.readByte (offset + selector.offset.toNat) = .ok (selector.select byte region)

/-- What a slot carries is what decoding it shows. -/
theorem Carries.shows {size : Nat} (h : b.Carries regions old offset s v)
    (amended : old.Amended P b) (bounded : old.Bounded) (confined : s.Confined size)
    (room : offset + size ≤ old.cursor) : b.Shows regions old offset s v := by
  obtain ⟨field, extra⟩ := confined
  obtain ⟨u, word, holds⟩ := h.field
  have bounded' := amended.bounded bounded
  have base : b.base = old.base := by rw [amended.frame]
  have read : b.readField (offset + s.offset.toNat) s.width = .ok (s.width.truncate u) := by
    refine readField_eq_ok bounded' ?_ holds
    rw [Slot.stop] at field
    rw [amended.cursor]
    omega
  unfold Shows
  rw [Slot.word?] at word
  rw [Slot.width] at read
  cases hk : s.kind with
  | immediate w =>
    rw [hk] at word read
    cases word
    exact read
  | relative w anchor | forward w anchor =>
    rw [hk] at word read
    obtain ⟨fits, word⟩ := Option.ite_none_right_eq_some.1 word
    cases word
    rw [SlotKind.width] at read
    refine ⟨_, read, ?_⟩
    rw [Width.signExtend_truncate fits, base]
    omega
  | canonical w selector =>
    rw [hk] at word read extra
    have inside : offset + selector.offset.toNat < old.bytes.size :=
      Nat.lt_of_lt_of_le (Nat.add_lt_add_left extra _) room
    have before := Array.getElem?_eq_getElem inside
    cases hcanonical : regions.canonical v w with
    | error fault => simp [hcanonical] at word
    | ok r =>
      obtain ⟨region, distance⟩ := r
      obtain rfl : .ofInt distance = u := by simpa [hcanonical] using word
      obtain ⟨fits, hsum⟩ := RegionBases.canonical_inv hcanonical
      have hselector := h.selector hk hcanonical
      rw [before] at hselector
      rw [SlotKind.width] at read
      refine ⟨_, region, _, read, ?_, ?_, readByte_eq_ok bounded before,
        readByte_eq_ok bounded' hselector⟩
      · rw [Width.signExtend_truncate fits, hcanonical]
      · rw [Width.signExtend_truncate fits, hsum]

end CodeBuffer
end Dynarec
