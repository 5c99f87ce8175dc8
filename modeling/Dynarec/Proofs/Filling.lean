import Dynarec.Proofs.Bytes
import Dynarec.Relocation

/-! Filled slots: what filling a slot writes into the copy of its template, and when it succeeds. -/
namespace Dynarec

theorem bind_eq_ok {α β : Type} {x : Except Fault α} {f : α → Except Fault β} {r : β} :
    x >>= f = .ok r ↔ ∃ a, x = .ok a ∧ f a = .ok r := by
  cases x with
  | error => simp [bind, Except.bind]
  | ok a => simp [bind, Except.bind]

theorem bind_eq_error {α β : Type} {x : Except Fault α} {f : α → Except Fault β} {fault : Fault} :
    x >>= f = .error fault ↔ x = .error fault ∨ ∃ a, x = .ok a ∧ f a = .error fault := by
  cases x with
  | error => simp [bind, Except.bind]
  | ok a => simp [bind, Except.bind]

namespace Slot

/-- The field, and whatever else filling touches or measures from, lies in code of the given
size. -/
def InRange (s : Slot) (size : Nat) : Prop :=
  s.stop ≤ size ∧
    match s.kind with
    | .immediate _ => True
    | .relative _ anchor | .forward _ anchor => anchor.toNat ≤ size
    | .canonical _ selector => selector.offset.toNat < size

instance (s : Slot) (size : Nat) : Decidable (s.InRange size) := by
  unfold InRange
  cases s.kind <;> exact inferInstance

/-- The field can hold what `value` becomes in a copy at host address `origin`. -/
def Accepts (s : Slot) (regions : RegionBases) (origin : Nat) (value : UInt64) : Prop :=
  match s.kind with
  | .immediate _ => True
  | .relative w anchor | .forward w anchor => w.Fits (value.toNat - (origin + anchor.toNat : Nat))
  | .canonical w _ => ∃ r, regions.canonical value w = .ok r

/-- The code of a copy at host address `origin` after the slot has been filled. -/
def fillIn (s : Slot) (regions : RegionBases) (origin : Nat) (value : UInt64)
    (code : List UInt8) : List UInt8 :=
  match s.kind with
  | .immediate w => overwrite code s.offset.toNat (w.encode value)
  | .relative w anchor | .forward w anchor =>
    overwrite code s.offset.toNat
      (w.encode (UInt64.ofInt (value.toNat - (origin + anchor.toNat : Nat))))
  | .canonical w selector =>
    match regions.canonical value w with
    | .ok (region, distance) =>
      let code := overwrite code s.offset.toNat (w.encode (UInt64.ofInt distance))
      overwrite code selector.offset.toNat
        [selector.select (code[selector.offset.toNat]?.getD 0) region]
    | .error _ => code

theorem length_fillIn {s : Slot} {code : List UInt8} (h : s.InRange code.length)
    (regions : RegionBases) (origin : Nat) (value : UInt64) :
    (s.fillIn regions origin value code).length = code.length := by
  obtain ⟨field, extra⟩ := h
  unfold stop width at field
  unfold fillIn
  cases hk : s.kind with
  | immediate w | relative w anchor | forward w anchor =>
    simp only [hk, SlotKind.width] at field ⊢
    exact length_overwrite (by simpa using field)
  | canonical w selector =>
    simp only [hk, SlotKind.width] at field extra ⊢
    split
    · next region distance _ =>
      have inner : (overwrite code s.offset.toNat (w.encode (UInt64.ofInt distance))).length =
          code.length := length_overwrite (by simpa using field)
      rw [length_overwrite (by simp [inner]; omega), inner]
    · rfl

end Slot

/-- What has been written lies in the buffer, and the buffer lies in the host's address space. -/
structure CodeBuffer.Bounded (b : CodeBuffer) : Prop where
  cursor_le : b.cursor ≤ b.capacity
  mapped : b.base + b.capacity < wordBound

/-- What lies in the buffer can be made visible to instruction fetch. -/
theorem CodeBuffer.Bounded.sync_eq_ok {b : CodeBuffer} {offset length : Nat} (h : b.Bounded)
    (inside : offset + length ≤ b.capacity) : b.sync offset length = .ok () := by
  have mapped := h.mapped
  have sum : addSizes offset length = .ok (offset + length) := by
    rw [addSizes, if_pos (by omega)]
  rw [sync, sum]
  exact if_pos inside

/-- The buffer consists of a copy's code and what stands before and behind it. -/
structure Instance.Sits (i : Instance) (b : CodeBuffer) (pre code post : List UInt8) : Prop where
  bytes : b.bytes.toList = pre ++ code ++ post
  start : pre.length = i.offset
  size : code.length = i.template.size

variable {b : CodeBuffer} {i : Instance} {offset : Nat} {data pre code post : List UInt8}

theorem Instance.Sits.cursor_eq (h : i.Sits b pre code post) :
    b.cursor = i.offset + i.template.size + post.length := by
  have := congrArg List.length h.bytes
  simp only [Array.length_toList, List.length_append] at this
  rw [CodeBuffer.cursor, this, h.start, h.size]

theorem Instance.Sits.getElem? (h : i.Sits b pre code post) (inside : offset < i.template.size) :
    b.bytes[i.offset + offset]? = code[offset]? := by
  rw [← Array.getElem?_toList, h.bytes, ← h.start, List.append_assoc,
    List.getElem?_append_right (by omega), Nat.add_sub_cancel_left,
    List.getElem?_append_left (by rw [h.size]; omega)]

namespace CodeBuffer

theorem Bounded.cursor_lt (h : b.Bounded) : b.cursor < wordBound := by
  have := h.cursor_le
  have := h.mapped
  omega

theorem Bounded.toNat_ofNat (h : b.Bounded) (le : offset ≤ b.capacity) :
    (UInt64.ofNat (b.base + offset)).toNat = b.base + offset := by
  have hlt : b.base + offset < 2 ^ 64 := by
    have := h.mapped
    unfold wordBound at this
    omega
  exact UInt64.toNat_ofNat_of_lt' hlt

theorem patch_eq_ok (room : offset + data.length ≤ b.cursor) (bound : b.cursor < wordBound) :
    b.patch offset data = .ok { b with bytes := writeAt b.bytes offset data } := by
  have hsum : offset + data.length < wordBound := by omega
  simp [patch, addSizes, demand, hsum, room, bind, Except.bind, pure, Except.pure]

theorem addrAt_eq_ok (h : offset ≤ b.capacity) :
    b.addrAt offset = .ok (UInt64.ofNat (b.base + offset)) := by
  simp [addrAt, demand, h, bind, Except.bind, pure, Except.pure]

/-- Patching a copy changes its code and nothing else. -/
theorem patch_copy (bounded : b.Bounded) (sits : i.Sits b pre code post)
    (room : offset + data.length ≤ i.template.size) :
    b.patch (i.offset + offset) data =
      .ok { b with bytes := (pre ++ overwrite code offset data ++ post).toArray } := by
  have hc := sits.cursor_eq
  have hcap := bounded.cursor_le
  have hmap := bounded.mapped
  have hroom : i.offset + offset + data.length ≤ b.bytes.size := by unfold cursor at hc; omega
  rw [patch_eq_ok (by unfold cursor; omega) (by omega)]
  congr 2
  apply Array.toList_inj.1
  rw [toList_writeAt _ hroom, sits.bytes, ← sits.start, overwrite_append (by rw [sits.size]; omega)]

theorem readByte_copy (bounded : b.Bounded) (sits : i.Sits b pre code post)
    (inside : offset < i.template.size) :
    b.readByte (i.offset + offset) = .ok (code[offset]?.getD 0) := by
  have hc := sits.cursor_eq
  have hcap := bounded.cursor_le
  have hmap := bounded.mapped
  have hsum : i.offset + offset + 1 < wordBound := by omega
  have hin : i.offset + offset + 1 ≤ b.cursor := by omega
  have hbyte := sits.getElem? inside
  rw [← Array.getElem?_toList] at hbyte
  simp [readByte, read, addSizes, demand, hsum, hin, bind, Except.bind, pure, Except.pure,
    List.headD_eq_head?_getD, List.head?_eq_getElem?, ← hbyte]

theorem displacement_eq_ok {value : UInt64} {w : Width} (bounded : b.Bounded)
    (le : offset ≤ b.capacity) (fits : w.Fits (value.toNat - (b.base + offset : Nat))) :
    displacement (UInt64.ofNat (b.base + offset)) value w =
      .ok (value.toNat - (b.base + offset : Nat)) := by
  simp only [displacement, bounded.toNat_ofNat le]
  rw [if_pos fits]

/-- Filling a free slot with a value that it accepts rewrites the copy as `fillIn` says. -/
theorem fill_eq_ok {regions : RegionBases} {k : Nat} {s : Slot} {value : UInt64}
    (bounded : b.Bounded) (sits : i.Sits b pre code post)
    (slot : i.template.slots[k]? = some s) (few : k < 32)
    (free : s.kind.isForward = true ∨ i.filled.getLsbD k = false)
    (inRange : s.InRange i.template.size)
    (accepts : s.Accepts regions (b.base + i.offset) value) :
    b.fill regions i k value =
      .ok ({ i with filled := i.filled ||| BitVec.twoPow 32 k },
        { b with bytes :=
            (pre ++ s.fillIn regions (b.base + i.offset) value code ++ post).toArray }) := by
  have hslot : i.slot k = .ok s := by simp [Instance.slot, slot]
  have hfilled : i.isFilled k = .ok (i.filled.getLsbD k) := by
    simp [Instance.isFilled, demand, few, bind, Except.bind, pure, Except.pure]
  have hmark : i.markFilled k = .ok { i with filled := i.filled ||| BitVec.twoPow 32 k } := by
    simp [Instance.markFilled, demand, few, bind, Except.bind, pure, Except.pure]
  have hcap := bounded.cursor_le
  have hc := sits.cursor_eq
  obtain ⟨field, extra⟩ := inRange
  unfold Slot.stop Slot.width at field
  unfold fill Slot.fillIn
  unfold Slot.Accepts at accepts
  cases hk : s.kind with
  | immediate w =>
    simp only [hk, SlotKind.isForward, SlotKind.width] at field free ⊢
    have hfree : i.filled.getLsbD k = false := by simpa using free
    simp only [hslot, hk, hfilled, hfree, hmark, bind, Except.bind, writeField]
    rw [patch_copy bounded sits (by simpa using field)]
    simp [pure, Except.pure]
  | relative w anchor | forward w anchor =>
    simp only [hk, SlotKind.isForward, SlotKind.width] at field free extra accepts ⊢
    have hanchor : i.offset + anchor.toNat ≤ b.capacity := by omega
    have hdist : displacement (UInt64.ofNat (b.base + (i.offset + anchor.toNat))) value w =
        .ok (value.toNat - (b.base + i.offset + anchor.toNat : Nat)) := by
      rw [displacement_eq_ok bounded hanchor (by rw [← Nat.add_assoc]; exact accepts),
        Nat.add_assoc]
    simp only [hslot, hk, hfilled, hmark, addrAt_eq_ok hanchor, hdist, bind,
      Except.bind, writeField]
    rw [patch_copy bounded sits (by simpa using field)]
    simp_all [pure, Except.pure]
  | canonical w selector =>
    simp only [hk, SlotKind.isForward, SlotKind.width] at field free extra accepts ⊢
    obtain ⟨⟨region, distance⟩, hcan⟩ := accepts
    have hfree : i.filled.getLsbD k = false := by simpa using free
    have room : s.offset.toNat + (w.encode (UInt64.ofInt distance)).length ≤ i.template.size := by
      simpa using field
    simp only [hslot, hk, hfilled, hfree, hmark, hcan, bind, Except.bind, writeField]
    rw [patch_copy bounded sits room]
    have sits' : i.Sits
        { b with bytes := (pre ++ overwrite code s.offset.toNat
          (w.encode (UInt64.ofInt distance)) ++ post).toArray }
        pre (overwrite code s.offset.toNat (w.encode (UInt64.ofInt distance))) post :=
      ⟨by simp, sits.start, by rw [length_overwrite (by rw [sits.size]; exact room), sits.size]⟩
    have bounded' : CodeBuffer.Bounded { b with bytes := (pre ++ overwrite code s.offset.toNat
        (w.encode (UInt64.ofInt distance)) ++ post).toArray } :=
      ⟨by rw [sits'.cursor_eq, ← hc]; exact hcap, bounded.mapped⟩
    simp only [readByte_copy bounded' sits' extra]
    rw [patch_copy bounded' sits' (by simp only [List.length_singleton]; omega)]
    simp [pure, Except.pure]

end CodeBuffer

section Sequence

variable {regions : RegionBases} {origin : Nat} {slots : List Slot} {values : List (Option UInt64)}

/-- The code after slots have been filled in order. A slot without a value is left as it is. -/
def fillSlots (regions : RegionBases) (origin : Nat) :
    List Slot → List (Option UInt64) → List UInt8 → List UInt8
  | s :: slots, some v :: values, code =>
    fillSlots regions origin slots values (s.fillIn regions origin v code)
  | _ :: slots, none :: values, code => fillSlots regions origin slots values code
  | _, _, code => code

/-- There is one value for each slot, and the slots accept those that are given. -/
def AcceptAll (regions : RegionBases) (origin : Nat) : List Slot → List (Option UInt64) → Prop
  | [], [] => True
  | s :: slots, v :: values =>
    (∀ r, v = some r → s.Accepts regions origin r) ∧ AcceptAll regions origin slots values
  | _, _ => False

/-- The record of filled slots after slots from number `k` on have been filled. -/
def fillMask (mask : BitVec 32) (k : Nat) : List (Option UInt64) → BitVec 32
  | [] => mask
  | some _ :: values => fillMask (mask ||| BitVec.twoPow 32 k) (k + 1) values
  | none :: values => fillMask mask (k + 1) values

theorem length_fillSlots (inRange : ∀ s ∈ slots, s.InRange code.length) :
    (fillSlots regions origin slots values code).length = code.length := by
  induction slots generalizing values code with
  | nil => cases values <;> rfl
  | cons s slots ih =>
    cases values with
    | nil => rfl
    | cons v values =>
      cases v with
      | none => exact ih fun s hs => inRange s (List.mem_cons_of_mem _ hs)
      | some v =>
        have here := Slot.length_fillIn (inRange s List.mem_cons_self) regions origin v
        rw [fillSlots, ih, here]
        intro t ht
        rw [here]
        exact inRange t (List.mem_cons_of_mem _ ht)

theorem fillSlots_append_single (s : Slot) (v : Option UInt64) (code : List UInt8)
    (count : slots.length = values.length) :
    fillSlots regions origin (slots ++ [s]) (values ++ [v]) code =
      fillSlots regions origin [s] [v] (fillSlots regions origin slots values code) := by
  induction slots generalizing values code with
  | nil =>
    obtain rfl : values = [] := List.length_eq_zero_iff.1 count.symm
    rfl
  | cons t slots ih =>
    cases values with
    | nil => simp at count
    | cons u values =>
      have hcount : slots.length = values.length := by simpa using count
      cases u <;> exact ih _ hcount

theorem fillMask_append_single (mask : BitVec 32) (k : Nat) (r : UInt64) :
    fillMask mask k (values ++ [some r]) =
      fillMask mask k (values ++ [none]) ||| BitVec.twoPow 32 (k + values.length) := by
  induction values generalizing mask k with
  | nil => rfl
  | cons v values ih =>
    cases v <;>
      simp only [List.cons_append, fillMask, ih, List.length_cons, Nat.add_assoc, Nat.add_comm 1]

theorem AcceptAll.length_eq (h : AcceptAll regions origin slots values) :
    slots.length = values.length := by
  induction slots generalizing values with
  | nil => cases values with
    | nil => rfl
    | cons => exact h.elim
  | cons s slots ih => cases values with
    | nil => exact h.elim
    | cons v values => simp [ih h.2]

theorem AcceptAll.append_single {s : Slot} {v : Option UInt64}
    (h : AcceptAll regions origin (slots ++ [s]) (values ++ [v])) :
    slots.length = values.length ∧ ∀ r, v = some r → s.Accepts regions origin r := by
  induction slots generalizing values with
  | nil =>
    cases values with
    | nil => exact ⟨rfl, h.1⟩
    | cons u values =>
      have := AcceptAll.length_eq h
      simp at this
  | cons t slots ih =>
    cases values with
    | nil =>
      have := AcceptAll.length_eq h
      simp at this
    | cons u values =>
      obtain ⟨count, last⟩ := ih h.2
      exact ⟨by simp [count], last⟩

theorem getLsbD_fillMask (mask : BitVec 32) (k : Nat) (values : List (Option UInt64)) {j : Nat}
    (hj : j < 32) : (fillMask mask k values).getLsbD j =
      (mask.getLsbD j || (decide (k ≤ j) && (values[j - k]?.join).isSome)) := by
  induction values generalizing mask k with
  | nil => simp [fillMask]
  | cons v values ih =>
    by_cases here : j = k
    · subst here
      cases v with
      | none =>
        have later : ¬ j + 1 ≤ j := Nat.not_succ_le_self j
        rw [fillMask, ih]
        simp [later]
      | some v => rw [fillMask, ih]; simp [hj]
    · have hbit : (mask ||| BitVec.twoPow 32 k).getLsbD j = mask.getLsbD j := by
        simp [BitVec.getLsbD_twoPow]
        omega
      have hnext : (decide (k + 1 ≤ j) && (values[j - (k + 1)]?.join).isSome) =
          (decide (k ≤ j) && ((v :: values)[j - k]?.join).isSome) := by
        by_cases hk : k < j
        · rw [show j - k = j - (k + 1) + 1 by omega, List.getElem?_cons_succ]
          simp [show k + 1 ≤ j from hk, Nat.le_of_lt hk]
        · simp [show ¬ k + 1 ≤ j by omega, show ¬ k ≤ j by omega]
      cases v with
      | none => rw [fillMask, ih, hnext]
      | some v => rw [fillMask, ih, hbit, hnext]

/-- The check passes when there is a bit for each slot. -/
theorem Instance.checkFilled_eq_ok {i : Instance} (few : i.template.slots.length ≤ 32) :
    i.checkFilled = .ok () ↔ ∀ k < i.template.slots.length, i.filled.getLsbD k = true := by
  have bit {k : Nat} (hk : k < 32) :
      (BitVec.ofNat 32 (1 <<< i.template.slots.length - 1)).getLsbD k =
        decide (k < i.template.slots.length) := by
    rw [BitVec.getLsbD_ofNat, Nat.one_shiftLeft, Nat.testBit_two_pow_sub_one]
    simp [hk]
  have reduced : i.checkFilled = .ok () ↔
      i.filled &&& BitVec.ofNat 32 (1 <<< i.template.slots.length - 1) =
      BitVec.ofNat 32 (1 <<< i.template.slots.length - 1) := by
    simp only [checkFilled, Template.slotMask, demand, if_pos few, bind, Except.bind,
      pure, Except.pure]
    split <;> simp_all [breach]
  rw [reduced]
  constructor
  · intro h k hk
    have := congrArg (·.getLsbD k) h
    simpa [bit (Nat.lt_of_lt_of_le hk few), hk] using this
  · intro h
    apply BitVec.eq_of_getLsbD_eq
    intro k hk
    rw [BitVec.getLsbD_and, bit hk]
    by_cases here : k < i.template.slots.length
    · rw [h k here, Bool.true_and]
    · rw [decide_eq_false here, Bool.and_false]

/-- A copy all of whose slots have values passes the check. -/
theorem checkFilled_fillMask {t : Template} {offset : Nat} (few : t.slots.length ≤ 32)
    (count : t.slots.length = values.length) (all : ∀ v ∈ values, v.isSome) :
    Instance.checkFilled ⟨offset, t, fillMask 0 0 values⟩ = .ok () := by
  refine (Instance.checkFilled_eq_ok few).2 fun j hj => ?_
  have hv : j < values.length := count ▸ hj
  have := all values[j] (List.getElem_mem hv)
  rw [getLsbD_fillMask _ _ _ (Nat.lt_of_lt_of_le hj few)]
  simp [List.getElem?_eq_getElem hv, this]

end Sequence
end Dynarec
