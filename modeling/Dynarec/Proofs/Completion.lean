import Dynarec.Proofs.Canonical

/-!
Copies whose slots are filled by calls in any order, some of which fail. Main statement: a slot is
filled once unless it is a forward branch, a failed call changes nothing, and what the calls leave
depends on the last value of each slot alone.
-/
namespace Dynarec

/-- At most 32 slots, whose fields and selector bytes lie in the code and do not meet. -/
structure Template.Separate (t : Template) : Prop where
  few : t.slots.length ≤ 32
  inside : ∀ s ∈ t.slots, ∀ n ∈ s.footprint, n < t.size
  apart : (t.slots.flatMap Slot.footprint).Nodup

namespace Template.Separate

variable {t : Template} {s s' : Slot} {j k n offset : Nat}

theorem confined (h : t.Separate) (hs : t.slots[k]? = some s) : s.Confined t.size := by
  have inside := h.inside s (List.mem_of_getElem? hs)
  refine ⟨?_, ?_⟩
  · have last := inside (s.stop - 1) (List.mem_append_left _ (List.mem_range'_1.2 ?_))
    · omega
    · have := s.width.bytes_pos
      rw [Slot.stop]
      omega
  · cases hk : s.kind with
    | canonical w selector =>
      refine inside _ (List.mem_append_right _ ?_)
      rw [hk]
      exact List.mem_singleton.2 rfl
    | immediate | relative | forward => trivial

theorem clear (h : t.Separate) (hs : t.slots[k]? = some s) : s.Clear :=
  Slot.clear_of_nodup ((List.nodup_flatMap.1 h.apart).1 s (List.mem_of_getElem? hs))

/-- The bytes of two slots do not meet. -/
theorem not_mem_cells (h : t.Separate) (hs : t.slots[j]? = some s) (hs' : t.slots[k]? = some s')
    (ne : j ≠ k) (mem : n ∈ s.cells offset) : n ∉ s'.cells offset := by
  have pairwise := (List.nodup_flatMap.1 h.apart).2
  rw [List.pairwise_iff_getElem] at pairwise
  obtain ⟨hj, rfl⟩ := List.getElem?_eq_some_iff.1 hs
  obtain ⟨hk, rfl⟩ := List.getElem?_eq_some_iff.1 hs'
  obtain ⟨m, hm, rfl⟩ := List.mem_map.1 mem
  intro mem'
  obtain ⟨m', hm', same⟩ := List.mem_map.1 mem'
  obtain rfl : m' = m := Nat.add_left_cancel same
  rcases Nat.lt_or_gt_of_ne ne with lt | gt
  · exact pairwise j k hj hk lt hm hm'
  · exact pairwise k j hk hj gt hm' hm

end Template.Separate

namespace Placement

open Traced

/-- A call, with what it came to. -/
structure Call where
  slot : Nat
  value : UInt64
  outcome : Except Fault Unit

/-- Calls on one copy, each on what the one before it has left, whatever that came to. -/
inductive Served (regions : RegionBases) (p₀ : Placement) : List Call → Placement → Prop
  | start : Served regions p₀ [] p₀
  | call {calls : List Call} {p p' : Placement} {k : Nat} {v : UInt64} {outcome : Except Fault Unit}
      (before : Served regions p₀ calls p) (filled : Yields (fill regions k v) p outcome p') :
      Served regions p₀ (calls ++ [⟨k, v, outcome⟩]) p'

/-- Some call has filled the slot. -/
def Succeeded (calls : List Call) (k : Nat) : Prop := ∃ c ∈ calls, c.slot = k ∧ c.outcome = .ok ()

/-- The value of the last call that has filled the slot. -/
def lastValue (calls : List Call) (k : Nat) : Option UInt64 :=
  (calls.filter fun c => c.slot = k ∧ c.outcome.isOk).getLast?.map (·.value)

variable {regions : RegionBases} {p₀ p p' : Placement} {calls calls' : List Call}
  {k : Nat} {v : UInt64}

theorem lastValue_ok (calls : List Call) (k : Nat) (v : UInt64) :
    lastValue (calls ++ [⟨k, v, .ok ()⟩]) = Function.update (lastValue calls) k (some v) := by
  funext j
  by_cases h : k = j
  · subst h
    simp [lastValue, Except.isOk, Except.toBool]
  · rw [Function.update_of_ne (Ne.symm h)]
    simp [lastValue, h]

theorem lastValue_error (calls : List Call) (k : Nat) (v : UInt64) (fault : Fault) :
    lastValue (calls ++ [⟨k, v, .error fault⟩]) = lastValue calls := by
  funext j
  simp [lastValue, Except.isOk, Except.toBool]

theorem succeeded_iff : Succeeded calls k ↔ (lastValue calls k).isSome = true := by
  have isOk {o : Except Fault Unit} : o.isOk = true ↔ o = .ok () := by
    cases o <;> simp [Except.isOk, Except.toBool]
  rw [← not_iff_not, Bool.not_eq_true, Option.isSome_eq_false_iff,
    Option.isNone_iff_eq_none, lastValue, Option.map_eq_none_iff, List.getLast?_eq_none_iff,
    List.filter_eq_nil_iff]
  simp [Succeeded, isOk]

/-- No slot of the copy has been filled. -/
structure Fresh (p : Placement) : Prop extends p.Housed where
  filled : p.copy.filled = 0

theorem fresh_of_place {b b' : CodeBuffer} {t : Template} {i : Instance} (bounded : b.Bounded)
    (h : b.place t = .ok (i, b')) : Fresh ⟨i, b'⟩ := by
  obtain ⟨rfl, rfl, grown⟩ := CodeBuffer.place_inv bounded h
  refine ⟨⟨grown.bounded bounded, ?_⟩, rfl⟩
  rw [CodeBuffer.cursor_extend]
  exact Nat.le_refl _

/-- The offset belongs to a slot that has been filled. -/
def Stained (p₀ : Placement) (last : Nat → Option UInt64) (n : Nat) : Prop :=
  ∃ k s, p₀.copy.template.slots[k]? = some s ∧ (last k).isSome = true ∧ n ∈ s.cells p₀.copy.offset

/-- What calls that have filled slots with some values have made of a copy. -/
structure Imprinted (regions : RegionBases) (p₀ : Placement) (last : Nat → Option UInt64)
    (p : Placement) : Prop where
  copy : p.copy = { p₀.copy with filled := p.copy.filled }
  filled : ∀ k < 32, p.copy.filled.getLsbD k = (last k).isSome
  known : ∀ k, (last k).isSome = true → k < p₀.copy.template.slots.length
  buffer : p₀.buffer.Amended (p₀.Stained last) p.buffer
  carried : ∀ k s v, p₀.copy.template.slots[k]? = some s → last k = some v →
    p.buffer.Carries regions p₀.buffer p₀.copy.offset s v

namespace Imprinted

variable {last : Nat → Option UInt64} {s : Slot}

theorem start (fresh : p₀.Fresh) : Imprinted regions p₀ (fun _ => none) p₀ where
  copy := rfl
  filled k _ := by simp [fresh.filled]
  known k h := absurd h (by simp)
  buffer := .refl ..
  carried k s v _ h := absurd h (by simp)

theorem template (h : Imprinted regions p₀ last p) : p.copy.template = p₀.copy.template := by
  rw [h.copy]

theorem offset (h : Imprinted regions p₀ last p) : p.copy.offset = p₀.copy.offset := by rw [h.copy]

theorem bounded (h : Imprinted regions p₀ last p) (fresh : p₀.Fresh) : p.buffer.Bounded :=
  h.buffer.bounded fresh.bounded

/-- A slot that is filled keeps what the others hold. -/
theorem fill_ok {i : Instance} {b : CodeBuffer} (h : Imprinted regions p₀ last p) (fresh : p₀.Fresh)
    (separate : p₀.copy.template.Separate)
    (filled : p.buffer.fill regions p.copy k v = .ok (i, b)) :
    Imprinted regions p₀ (Function.update last k (some v)) ⟨i, b⟩ := by
  obtain ⟨s, slot, few, free, written, rfl⟩ := CodeBuffer.fill_eq_ok_iff.1 filled
  rw [h.template] at slot
  rw [h.offset] at written
  have edited := CodeBuffer.amended_of_writeSlot written
  have stains {n : Nat} (hn : p₀.Stained last n) :
      p₀.Stained (Function.update last k (some v)) n := by
    obtain ⟨j, s', slot', some', hn⟩ := hn
    refine ⟨j, s', slot', ?_, hn⟩
    by_cases hj : j = k
    · rw [hj, Function.update_self]
      rfl
    · rwa [Function.update_of_ne hj]
  refine ⟨?_, fun j hj => ?_, fun j hj => ?_, ?_, fun j s' v' slot' last' => ?_⟩
  · rw [h.copy]
  · by_cases same : j = k
    · subst same
      simp [hj]
    · rw [Function.update_of_ne same, ← h.filled j hj]
      simp [BitVec.getLsbD_twoPow]
      omega
  · by_cases same : j = k
    · exact same ▸ (List.getElem?_eq_some_iff.1 slot).1
    · rw [Function.update_of_ne same] at hj
      exact h.known j hj
  · refine (h.buffer.mono fun n hn => stains hn).trans
      (edited.mono fun n hn => ⟨k, s, slot, ?_, hn⟩)
    rw [Function.update_self]
    rfl
  · by_cases same : j = k
    · subst same
      obtain rfl := Option.some.inj (slot.symm.trans slot')
      rw [Function.update_self] at last'
      obtain rfl := Option.some.inj last'
      have carries :=
        CodeBuffer.carries_of_writeSlot (h.bounded fresh) (separate.clear slot) written
      refine carries.of_old (by rw [h.buffer.frame]) fun w selector hk =>
        (h.buffer.outside _ ?_).symm
      -- The selector byte is as it was at first: no other slot has it, and its own is filled now.
      rintro ⟨j', s', slot', some', mem⟩
      by_cases other : j' = j
      · have empty := free.resolve_left (by rw [hk]; exact Bool.false_ne_true)
        rw [h.filled j few, ← other, some'] at empty
        cases empty
      · exact separate.not_mem_cells slot' slot other mem (Slot.selector_mem_cells hk)
    · rw [Function.update_of_ne same] at last'
      refine (h.carried j s' v' slot' last').congr fun n hn => edited.outside n ?_
      exact separate.not_mem_cells slot' slot same hn

/-- A call fills its slot, or fails and leaves everything as it was. -/
theorem call (h : Imprinted regions p₀ last p) (fresh : p₀.Fresh)
    (separate : p₀.copy.template.Separate) (k : Nat) (v : UInt64) :
    (∃ p', Yields (fill regions k v) p (.ok ()) p' ∧
      Imprinted regions p₀ (Function.update last k (some v)) p') ∨
      ∃ fault, Yields (fill regions k v) p (.error fault) p := by
  have housed : p.Housed := by
    refine ⟨h.bounded fresh, ?_⟩
    rw [h.copy, h.buffer.cursor]
    exact fresh.stop_le
  have whole : ∀ s, p.copy.template.slots[k]? = some s →
      ¬ p.Exposed s ∧ (s.kind.isForward = true → k < 32) := by
    intro s slot
    rw [h.template] at slot
    refine ⟨housed.not_exposed (h.template ▸ separate.confined slot), fun _ => ?_⟩
    exact Nat.lt_of_lt_of_le (List.getElem?_eq_some_iff.1 slot).1 separate.few
  rcases fill_or_keep housed.bounded whole regions v with ⟨i, b, filled, yields⟩ | failed
  · exact .inl ⟨_, yields, h.fill_ok fresh separate filled⟩
  · exact .inr failed

/-- What calls have made of a copy is determined by the last values of its slots. -/
theorem unique (h : Imprinted regions p₀ last p) (h' : Imprinted regions p₀ last p') : p' = p := by
  have masks : p'.copy.filled = p.copy.filled :=
    BitVec.eq_of_getLsbD_eq fun k hk => (h'.filled k hk).trans (h.filled k hk).symm
  have copies : p'.copy = p.copy := by rw [h'.copy, masks, ← h.copy]
  have bytes : p'.buffer.bytes = p.buffer.bytes := by
    refine Array.ext_getElem? fun n => ?_
    by_cases stained : p₀.Stained last n
    · obtain ⟨k, s, slot, some', mem⟩ := stained
      obtain ⟨v, hv⟩ := Option.isSome_iff_exists.1 some'
      exact (h.carried k s v slot hv).unique (h'.carried k s v slot hv) mem
    · rw [h.buffer.outside n stained, h'.buffer.outside n stained]
  have buffers : p'.buffer = p.buffer := by rw [h'.buffer.frame, bytes, ← h.buffer.frame]
  cases p
  cases p'
  exact Placement.mk.injEq .. ▸ ⟨copies, buffers⟩

end Imprinted

theorem Served.imprinted (h : Served regions p₀ calls p) (fresh : p₀.Fresh)
    (separate : p₀.copy.template.Separate) : Imprinted regions p₀ (lastValue calls) p := by
  induction h with
  | start => exact .start fresh
  | @call calls p p' k v outcome _ filled ih =>
    rcases ih.call fresh separate k v with ⟨p'', yields, imprinted⟩ | ⟨fault, yields⟩
    · obtain ⟨rfl, rfl⟩ := filled.unique yields
      rw [lastValue_ok]
      exact imprinted
    · obtain ⟨rfl, rfl⟩ := filled.unique yields
      rw [lastValue_error]
      exact ih

theorem Imprinted.stands {last : Nat → Option UInt64} {s : Slot} (h : Imprinted regions p₀ last p)
    (stands : s.Stands p₀.buffer p₀.copy.offset) : s.Stands p.buffer p.copy.offset := by
  have cursor := h.buffer.cursor
  have capacity : p.buffer.capacity = p₀.buffer.capacity := by rw [h.buffer.frame]
  unfold Slot.Stands at stands ⊢
  rw [h.offset, cursor, capacity]
  exact stands

theorem Imprinted.selector_kept {last : Nat → Option UInt64} {s : Slot} {w : Width}
    {selector : RegionSelector} {old new : UInt8} (h : Imprinted regions p₀ last p)
    (separate : p₀.copy.template.Separate) (slot : p₀.copy.template.slots[k]? = some s)
    (kind : s.kind = .canonical w selector)
    (before : p₀.buffer.bytes[p₀.copy.offset + selector.offset.toNat]? = some old)
    (after : p.buffer.bytes[p₀.copy.offset + selector.offset.toNat]? = some new) :
    new &&& ~~~selector.bits = old &&& ~~~selector.bits := by
  cases hv : last k with
  | none =>
    have same := h.buffer.outside (p₀.copy.offset + selector.offset.toNat) ?_
    · rw [before, after] at same
      rw [Option.some.inj same]
    · rintro ⟨j, s', slot', some', mem⟩
      by_cases other : j = k
      · rw [other, hv] at some'
        cases some'
      · exact separate.not_mem_cells slot' slot other mem (Slot.selector_mem_cells kind)
  | some v =>
    have carries := h.carried k s v slot hv
    obtain ⟨u, word, -⟩ := carries.field
    cases hcanonical : regions.canonical v w with
    | error fault => simp [Slot.word?, kind, hcanonical] at word
    | ok r =>
      have selected := carries.selector kind hcanonical
      rw [before, after] at selected
      rw [Option.some.inj selected]
      exact selector.select_bits old r.1

/-- Slots are filled in any order. A slot that is no forward branch is filled once, and calling
again breaks a contract. Every call comes to something, and one that fails changes nothing; a free
slot takes the values that it can hold and no others. The check passes when every slot has been
filled. What the calls leave depends on the last value of each slot only; a slot reads as that
value, and nothing else has changed, neither in the copy nor around it. -/
theorem slots_filled_in_any_order (fresh : p₀.Fresh) (separate : p₀.copy.template.Separate)
    (served : Served regions p₀ calls p) :
    (∀ k s v, p₀.copy.template.slots[k]? = some s → s.kind.isForward = false → Succeeded calls k →
      Yields (fill regions k v) p
        (.error (.violation (.filledTwice k p₀.copy.template.name p₀.copy.offset))) p) ∧
    (∀ k v, ∃ outcome p', Yields (fill regions k v) p outcome p' ∧ (outcome ≠ .ok () → p' = p)) ∧
    (∀ k s v, p₀.copy.template.slots[k]? = some s →
      (s.kind.isForward = true ∨ ¬ Succeeded calls k) → s.Stands p₀.buffer p₀.copy.offset →
      (s.Accepts regions (p₀.buffer.base + p₀.copy.offset) v ∧
        ∃ p', Yields (fill regions k v) p (.ok ()) p') ∨
      (¬ s.Accepts regions (p₀.buffer.base + p₀.copy.offset) v ∧
        ∃ cause, Yields (fill regions k v) p (.error (.error cause)) p)) ∧
    (p.copy.checkFilled = .ok () ↔ ∀ k < p₀.copy.template.slots.length, Succeeded calls k) ∧
    (∀ calls' p', Served regions p₀ calls' p' → (∀ k, lastValue calls' k = lastValue calls k) →
      p' = p) ∧
    (∀ k s v, p₀.copy.template.slots[k]? = some s → lastValue calls k = some v →
      p.buffer.Shows regions p₀.buffer p₀.copy.offset s v) ∧
    p₀.buffer.Amended (fun n => ∃ s ∈ p₀.copy.template.slots, n ∈ s.cells p₀.copy.offset) p.buffer ∧
    (∀ s ∈ p₀.copy.template.slots, ∀ w selector old new, s.kind = .canonical w selector →
      p₀.buffer.bytes[p₀.copy.offset + selector.offset.toNat]? = some old →
      p.buffer.bytes[p₀.copy.offset + selector.offset.toNat]? = some new →
      new &&& ~~~selector.bits = old &&& ~~~selector.bits) := by
  have h := served.imprinted fresh separate
  have few {k : Nat} {s : Slot} (slot : p₀.copy.template.slots[k]? = some s) : k < 32 :=
    Nat.lt_of_lt_of_le (List.getElem?_eq_some_iff.1 slot).1 separate.few
  refine ⟨?_, ?_, ?_, ?_, ?_, ?_, ?_, ?_⟩
  · intro k s v slot once succeeded
    have twice := fill_twice (h.template ▸ slot) (few slot) once
      ((h.filled k (few slot)).trans (succeeded_iff.1 succeeded)) regions v
    rwa [h.template, h.offset] at twice
  · intro k v
    rcases h.call fresh separate k v with ⟨p', yields, -⟩ | ⟨fault, yields⟩
    · exact ⟨_, p', yields, fun failed => absurd rfl failed⟩
    · exact ⟨_, p, yields, fun _ => rfl⟩
  · intro k s v slot free stands
    have free' : s.kind.isForward = true ∨ p.copy.filled.getLsbD k = false := by
      rw [h.filled k (few slot), ← Bool.not_eq_true, ← succeeded_iff]
      exact free
    have verdict :=
      fill_free (h.bounded fresh) (h.template ▸ slot) (few slot) free' (h.stands stands) regions v
    have base : p.buffer.base = p₀.buffer.base := by rw [h.buffer.frame]
    rw [base, h.offset] at verdict
    rcases verdict with ⟨accepts, b, -, yields⟩ | refused
    · exact .inl ⟨accepts, _, yields⟩
    · exact .inr refused
  · rw [Instance.checkFilled_eq_ok (h.template ▸ separate.few), h.template]
    refine forall₂_congr fun k hk => ?_
    rw [h.filled k (Nat.lt_of_lt_of_le hk separate.few), succeeded_iff]
  · intro calls' p' served' same
    have h' := served'.imprinted fresh separate
    rw [funext same] at h'
    exact h.unique h'
  · intro k s v slot hv
    exact (h.carried k s v slot hv).shows h.buffer fresh.bounded
      (separate.confined slot) fresh.stop_le
  · refine h.buffer.mono ?_
    rintro n ⟨k, s, slot, -, mem⟩
    exact ⟨s, List.mem_of_getElem? slot, mem⟩
  · intro s hs w selector old new kind before after
    obtain ⟨k, slot⟩ := List.getElem?_of_mem hs
    exact h.selector_kept separate slot kind before after

/-- Code with one slot of each kind. -/
def mixedTemplate : Template where
  name := "mixed"
  code := [0xB0, 0, 0x8B, 0x80, 0, 0, 0, 0, 0xE8, 0, 0, 0, 0, 0xEB, 0]
  slots :=
    [.immediate 1 .w8, .canonical32 4 ⟨3, 7, 6, 7⟩, ⟨9, .relative .w32 13⟩, ⟨14, .forward .w8 15⟩]

def mixedRegions : RegionBases := { a := 0x20000, b := 0x700000000 }

def mixedStart : Placement where
  copy := { offset := 1, template := mixedTemplate }
  buffer := { base := 0x10000, capacity := 4096, bytes := (0xC3 :: mixedTemplate.code).toArray }

/-- The forward branch is filled twice, and two calls fail. -/
def mixedCalls : List Call :=
  [⟨3, 0x10000, .ok ()⟩, ⟨1, 0x90000000, .error (.error (.regionsNotColocated 0x90000000 .w32))⟩,
    ⟨0, 0x1FE, .ok ()⟩, ⟨1, 0x700000010, .ok ()⟩, ⟨3, 0x10020, .ok ()⟩, ⟨2, 0x10100, .ok ()⟩,
    ⟨0, 7, .error (.violation (.filledTwice 0 "mixed" 1))⟩]

def mixedFilled : Placement where
  copy := { offset := 1, template := mixedTemplate, filled := 15 }
  buffer :=
    { base := 0x10000
      capacity := 4096
      bytes := #[0xC3, 0xB0, 0xFE, 0x8B, 0x87, 0x10, 0, 0, 0, 0xE8, 0xF2, 0, 0, 0, 0xEB, 0x10] }

theorem fresh_mixed : mixedStart.Fresh := by
  have bounded : CodeBuffer.Bounded { base := 0x10000, capacity := 4096, bytes := #[0xC3] } :=
    ⟨by decide, by decide⟩
  exact fresh_of_place (t := mixedTemplate) bounded rfl

theorem separate_mixed : mixedTemplate.Separate where
  few := by decide
  inside := by decide
  apart := by decide

theorem served_mixed : Served mixedRegions mixedStart mixedCalls mixedFilled := by
  have s0 : Served mixedRegions mixedStart [] mixedStart := .start
  have s1 := s0.call (k := 3) (v := 0x10000) (fun _ => rfl)
  have s2 := s1.call (k := 1) (v := 0x90000000) (fun _ => rfl)
  have s3 := s2.call (k := 0) (v := 0x1FE) (fun _ => rfl)
  have s4 := s3.call (k := 1) (v := 0x700000010) (fun _ => rfl)
  have s5 := s4.call (k := 3) (v := 0x10020) (fun _ => rfl)
  have s6 := s5.call (k := 2) (v := 0x10100) (fun _ => rfl)
  exact s6.call (k := 0) (v := 7) (fun _ => rfl)

/-- Seven calls fill four slots, and any calls with the same last values leave the same bytes. -/
theorem mixed_slots_filled :
    mixedStart.Fresh ∧ mixedTemplate.Separate ∧
      Served mixedRegions mixedStart mixedCalls mixedFilled ∧
      mixedFilled.copy.checkFilled = .ok () ∧
      (∀ v, Yields (fill mixedRegions 0 v) mixedFilled
        (.error (.violation (.filledTwice 0 "mixed" 1))) mixedFilled) ∧
      ∀ calls p, Served mixedRegions mixedStart calls p →
        (∀ k, lastValue calls k = lastValue mixedCalls k) → p = mixedFilled := by
  obtain ⟨twice, -, -, complete, same, -, -, -⟩ :=
    slots_filled_in_any_order fresh_mixed separate_mixed served_mixed
  refine ⟨fresh_mixed, separate_mixed, served_mixed, complete.2 ?_, ?_, same⟩
  · have last : ∀ k < 4, (lastValue mixedCalls k).isSome = true := by decide
    exact fun k hk => succeeded_iff.2 (last k hk)
  · exact fun v => twice 0 _ v rfl rfl (succeeded_iff.2 (by decide))

end Placement
end Dynarec
