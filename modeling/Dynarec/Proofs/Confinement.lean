import Dynarec.Proofs.Planning
import Dynarec.Proofs.Steering

/-!
Writing over any table. When the templates keep their holes inside their code, a block is written
behind the code that is there, its exits lead to the dispatch stub, and nothing that is filled later
touches their fields.
-/
namespace Dynarec

/-- A demand is met exactly if its condition holds. -/
theorem demand_eq_ok {condition : Prop} [Decidable condition] {cause : Violation} {u : Unit} :
    demand condition cause = .ok u ↔ condition := by
  unfold demand
  split <;> simp_all [breach]

theorem addSizes_eq_ok {m n sum : Nat} :
    addSizes m n = .ok sum ↔ m + n < wordBound ∧ sum = m + n := by
  unfold addSizes
  split
  · next small => simp [small, eq_comm]
  · next large => simp [large, breach]

/-- A fold that succeeds keeps what every round keeps. -/
theorem foldlM_keeps {α β : Type} {f : β → α → Except Fault β} {I : β → Prop} {xs : List α}
    {s s' : β} (start : I s) (round : ∀ x ∈ xs, ∀ s s', I s → f s x = .ok s' → I s')
    (h : xs.foldlM f s = .ok s') : I s' := by
  induction xs generalizing s with
  | nil =>
    cases h
    exact start
  | cons x xs ih =>
    rw [List.foldlM_cons] at h
    obtain ⟨s₁, first, h⟩ := bind_eq_ok.1 h
    obtain ⟨head, tail⟩ := List.forall_mem_cons.1 round
    exact ih (head s s₁ start first) tail h

/-- The field, and the selector byte if there is one, lie in code of the given size. -/
def Slot.Confined (s : Slot) (size : Nat) : Prop :=
  s.stop ≤ size ∧
    match s.kind with
    | .canonical _ selector => selector.offset.toNat < size
    | _ => True

/-- All that filling a slot may touch lies in the code of its template. -/
def Template.Confined (t : Template) : Prop := ∀ s ∈ t.slots, s.Confined t.size

def Registry.Confined (r : Registry) : Prop := ∀ key t, r.lookup key = some t → t.Confined

namespace CodeBuffer

variable {b b' b'' : CodeBuffer} {regions : RegionBases} {i i' : Instance}
  {k start stop offset : Nat} {v : UInt64} {s : Slot} {data : List UInt8}

/-- The buffers differ at most in the bytes from `start` to `stop`. -/
structure Edited (b : CodeBuffer) (start stop : Nat) (b' : CodeBuffer) : Prop where
  frame : b' = { b with bytes := b'.bytes }
  cursor : b'.cursor = b.cursor
  outside : ∀ n, n < start ∨ stop ≤ n → b'.bytes[n]? = b.bytes[n]?

theorem Edited.refl (b : CodeBuffer) (start stop : Nat) : b.Edited start stop b :=
  ⟨rfl, rfl, fun _ _ => rfl⟩

/-- Edits of the same bytes make one edit. -/
theorem Edited.trans (h : b.Edited start stop b') (h' : b'.Edited start stop b'') :
    b.Edited start stop b'' where
  frame := by rw [h'.frame, h.frame]
  cursor := h'.cursor.trans h.cursor
  outside n hn := (h'.outside n hn).trans (h.outside n hn)

/-- A patch that succeeds lies in what has been written. -/
theorem patch_inv (h : b.patch offset data = .ok b') :
    offset + data.length ≤ b.cursor ∧ b' = { b with bytes := writeAt b.bytes offset data } := by
  obtain ⟨_, hsum, h⟩ := bind_eq_ok.1 h
  obtain rfl := (addSizes_eq_ok.1 hsum).2
  obtain ⟨_, room, h⟩ := bind_eq_ok.1 h
  exact ⟨demand_eq_ok.1 room, (Except.ok.inj h).symm⟩

/-- A patch edits the bytes that it covers. -/
theorem edited_of_patch (h : b.patch offset data = .ok b') (low : start ≤ offset)
    (high : offset + data.length ≤ stop) : b.Edited start stop b' := by
  obtain ⟨-, rfl⟩ := patch_inv h
  refine ⟨rfl, size_writeAt .., fun n outside => getElem?_writeAt_of_outside _ _ ?_⟩
  omega

/-- Fills a slot of a copy at `offset`, and keeps no record of it. -/
def writeSlot (b : CodeBuffer) (regions : RegionBases) (offset : Nat) (s : Slot) (v : UInt64) :
    Except Fault CodeBuffer :=
  match s.kind with
  | .immediate width => b.writeField (offset + s.offset.toNat) width v
  | .relative width anchor | .forward width anchor => do
    let distance ← displacement (← b.addrAt (offset + anchor.toNat)) v width
    b.writeField (offset + s.offset.toNat) width (UInt64.ofInt distance)
  | .canonical width selector => do
    let (region, distance) ← regions.canonical v width
    let b ← b.writeField (offset + s.offset.toNat) width (UInt64.ofInt distance)
    let selectorAt := offset + selector.offset.toNat
    b.patch selectorAt [selector.select (← b.readByte selectorAt) region]

/-- Filling a slot writes it, and leaves the copy in its place. -/
theorem fill_inv (h : b.fill regions i k v = .ok (i', b')) : ∃ s, i.slot k = .ok s ∧
    b.writeSlot regions i.offset s v = .ok b' ∧ i'.offset = i.offset ∧
      i'.template = i.template := by
  obtain ⟨s, slot, h⟩ := bind_eq_ok.1 h
  have unguarded {x : Except Fault (Instance × CodeBuffer)} (h : (if s.kind.isForward then x else do
      if ← i.isFilled k then
        breach (.filledTwice k i.template.name i.offset)
        x
      else x) = .ok (i', b')) : x = .ok (i', b') := by
    split at h
    · exact h
    · obtain ⟨_, -, h⟩ := bind_eq_ok.1 h
      split at h
      · cases h
      · exact h
  replace h := unguarded h
  have marked {c : CodeBuffer} (h : (do return (← i.markFilled k, c)) = .ok (i', b')) :
      c = b' ∧ i'.offset = i.offset ∧ i'.template = i.template := by
    obtain ⟨i₁, mark, h⟩ := bind_eq_ok.1 h
    obtain ⟨_, -, mark⟩ := bind_eq_ok.1 mark
    cases mark
    cases h
    exact ⟨rfl, rfl, rfl⟩
  refine ⟨s, slot, ?_⟩
  unfold writeSlot
  cases hk : s.kind with
  | immediate width =>
    simp only [hk] at h
    obtain ⟨c, written, h⟩ := bind_eq_ok.1 h
    obtain ⟨rfl, same⟩ := marked h
    exact ⟨written, same⟩
  | relative width anchor | forward width anchor =>
    simp only [hk] at h
    obtain ⟨origin, haddr, h⟩ := bind_eq_ok.1 h
    obtain ⟨distance, hdistance, h⟩ := bind_eq_ok.1 h
    obtain ⟨c, written, h⟩ := bind_eq_ok.1 h
    obtain ⟨rfl, same⟩ := marked h
    exact ⟨bind_eq_ok.2 ⟨origin, haddr, bind_eq_ok.2 ⟨distance, hdistance, written⟩⟩, same⟩
  | canonical width selector =>
    simp only [hk] at h
    obtain ⟨⟨region, distance⟩, hcanonical, h⟩ := bind_eq_ok.1 h
    obtain ⟨c₁, field, h⟩ := bind_eq_ok.1 h
    obtain ⟨byte, hbyte, h⟩ := bind_eq_ok.1 h
    obtain ⟨c, written, h⟩ := bind_eq_ok.1 h
    obtain ⟨rfl, same⟩ := marked h
    exact ⟨bind_eq_ok.2
      ⟨_, hcanonical, bind_eq_ok.2 ⟨c₁, field, bind_eq_ok.2 ⟨byte, hbyte, written⟩⟩⟩, same⟩

/-- A slot that is confined to its template is written inside the copy. -/
theorem edited_of_writeSlot {size : Nat} (h : b.writeSlot regions offset s v = .ok b')
    (confined : s.Confined size) : b.Edited offset (offset + size) b' := by
  obtain ⟨field, extra⟩ := confined
  have inside {width : Width} (hwidth : s.kind.width = width) (w : UInt64) :
      offset + s.offset.toNat + (width.encode w).length ≤ offset + size := by
    rw [Slot.stop, Slot.width, hwidth] at field
    rw [Width.length_encode]
    omega
  unfold writeSlot at h
  cases hk : s.kind with
  | immediate width =>
    simp only [hk] at h
    exact edited_of_patch h (by omega) (inside (by rw [hk]; rfl) v)
  | relative width anchor | forward width anchor =>
    simp only [hk] at h
    obtain ⟨origin, -, h⟩ := bind_eq_ok.1 h
    obtain ⟨distance, -, h⟩ := bind_eq_ok.1 h
    exact edited_of_patch h (by omega) (inside (by rw [hk]; rfl) _)
  | canonical width selector =>
    simp only [hk] at h extra
    obtain ⟨⟨region, distance⟩, -, h⟩ := bind_eq_ok.1 h
    obtain ⟨c₁, field, h⟩ := bind_eq_ok.1 h
    obtain ⟨byte, -, h⟩ := bind_eq_ok.1 h
    refine (edited_of_patch field (by omega) (inside (by rw [hk]; rfl) _)).trans
      (edited_of_patch h (by omega) ?_)
    rw [List.length_singleton]
    omega

theorem slot_mem (h : i.slot k = .ok s) : s ∈ i.template.slots := by
  unfold Instance.slot at h
  split at h
  · next found =>
    cases h
    exact List.mem_of_getElem? found
  · cases h

/-- The field of a branch is the slot of its copy. -/
theorem branchSite_inv {site : BranchSite} (h : i.branchSite k = .ok site) : ∃ s, i.slot k = .ok s ∧
    site.start = i.offset + s.offset.toNat ∧ site.width = s.width ∧
    ∃ anchor : UInt16, site.anchor = i.offset + anchor.toNat ∧
      (s.kind = .forward site.width anchor ∨ s.kind = .relative site.width anchor) := by
  obtain ⟨s, slot, h⟩ := bind_eq_ok.1 h
  refine ⟨s, slot, ?_⟩
  cases hk : s.kind with
  | forward width anchor | relative width anchor =>
    simp only [hk] at h
    cases h
    simp [Slot.width, hk, SlotKind.width]
  | immediate | canonical =>
    simp only [hk] at h
    cases h

/-- Host addresses are given for offsets in the buffer only. -/
theorem addrAt_inv {addr : UInt64} (h : b.addrAt offset = .ok addr) :
    offset ≤ b.capacity ∧ addr = .ofNat (b.base + offset) := by
  obtain ⟨_, inside, h⟩ := bind_eq_ok.1 h
  exact ⟨demand_eq_ok.1 inside, (Except.ok.inj h).symm⟩

/-- A displacement is the distance, if the width can hold it. -/
theorem displacement_inv {origin target : UInt64} {w : Width} {distance : Int}
    (h : displacement origin target w = .ok distance) :
    distance = target.toNat - origin.toNat ∧ w.Fits distance := by
  unfold displacement at h
  dsimp only at h
  split at h
  · next fits =>
    cases h
    exact ⟨rfl, fits⟩
  · cases h

/-- A branch field that has been filled with an address in the buffer leads there. -/
theorem leads_of_fill {site : BranchSite} {target : Nat} (bounded : b.Bounded)
    (hsite : i.branchSite k = .ok site) (target_le : target ≤ b.capacity)
    (h : b.fill regions i k (.ofNat (b.base + target)) = .ok (i', b')) :
    b.Has site ∧ b'.Leads site target := by
  obtain ⟨s, slot, start, width, anchor, hanchor, hkind⟩ := branchSite_inv hsite
  obtain ⟨s', slot', h, -, -⟩ := fill_inv h
  obtain rfl := Except.ok.inj (slot.symm.trans slot')
  have measured : (do
      let distance ← displacement (← b.addrAt site.anchor) (.ofNat (b.base + target)) site.width
      b.writeField site.start site.width (UInt64.ofInt distance)) = .ok b' := by
    rw [hanchor, start]
    rcases hkind with hkind | hkind
    · rwa [writeSlot, hkind] at h
    · rwa [writeSlot, hkind] at h
  obtain ⟨origin, haddr, measured⟩ := bind_eq_ok.1 measured
  obtain ⟨distance, hdistance, written⟩ := bind_eq_ok.1 measured
  obtain ⟨anchor_le, rfl⟩ := addrAt_inv haddr
  obtain ⟨rfl, fits⟩ := displacement_inv hdistance
  rw [bounded.toNat_ofNat anchor_le, bounded.toNat_ofNat target_le] at fits written
  have distance : (((b.base + target : Nat) : Int) - (b.base + site.anchor : Nat)) =
      target - site.anchor := by
    omega
  rw [distance] at fits written
  obtain ⟨inside, rfl⟩ := patch_inv written
  rw [Width.length_encode] at inside
  exact ⟨⟨anchor_le, inside⟩, leads_point fits inside⟩

/-- The buffer has more code behind the cursor, and what was there before is as it was. -/
structure Grown (b b' : CodeBuffer) : Prop where
  frame : b' = { b with bytes := b'.bytes }
  cursor_le : b.cursor ≤ b'.cursor
  room : b'.cursor ≤ b.capacity
  kept : ∀ n, n < b.cursor → b'.bytes[n]? = b.bytes[n]?

theorem Grown.refl (h : b.cursor ≤ b.capacity) : b.Grown b :=
  ⟨rfl, Nat.le_refl _, h, fun _ _ => rfl⟩

theorem Grown.base (h : b.Grown b') : b'.base = b.base := by rw [h.frame]

theorem Grown.capacity (h : b.Grown b') : b'.capacity = b.capacity := by rw [h.frame]

/-- Growth stays in the buffer. -/
theorem Grown.bounded (h : b.Grown b') (bounded : b.Bounded) : b'.Bounded := by
  refine ⟨?_, ?_⟩
  · rw [h.capacity]
    exact h.room
  · rw [h.base, h.capacity]
    exact bounded.mapped

theorem Grown.trans (h : b.Grown b') (h' : b'.Grown b'') : b.Grown b'' where
  frame := by rw [h'.frame, h.frame]
  cursor_le := Nat.le_trans h.cursor_le h'.cursor_le
  room := h.capacity ▸ h'.room
  kept n hn := (h'.kept n (Nat.lt_of_lt_of_le hn h.cursor_le)).trans (h.kept n hn)

/-- To edit what is new does not touch what was there. -/
theorem Grown.edited (h : b.Grown b') (edit : b'.Edited start stop b'') (low : b.cursor ≤ start) :
    b.Grown b'' where
  frame := by rw [edit.frame, h.frame]
  cursor_le := edit.cursor ▸ h.cursor_le
  room := edit.cursor ▸ h.room
  kept n hn := (edit.outside n (.inl (by omega))).trans (h.kept n hn)

/-- What is appended fits behind the cursor. -/
theorem append_inv (bounded : b.Bounded) (h : b.append data = .ok b') :
    b' = b.extend data ∧ b.cursor + data.length ≤ b.capacity := by
  obtain ⟨_, room, h⟩ := bind_eq_ok.1 h
  have fits : data.length ≤ b.remaining := demand_eq_ok.1 room
  have := bounded.cursor_le
  have same : b.bytes.appendList data = b.bytes ++ data.toArray := Array.toList_inj.1 (by simp)
  refine ⟨?_, ?_⟩
  · rw [extend, ← same]
    exact (Except.ok.inj h).symm
  · unfold remaining at fits
    omega

theorem grown_extend (room : b.cursor + data.length ≤ b.capacity) : b.Grown (b.extend data) where
  frame := rfl
  cursor_le := by rw [cursor_extend]; omega
  room := by rw [cursor_extend]; exact room
  kept _ hn := getElem?_extend hn

/-- A copy of a template starts at the cursor. -/
theorem place_inv {t : Template} (bounded : b.Bounded) (h : b.place t = .ok (i, b')) :
    i = { offset := b.cursor, template := t } ∧ b' = b.extend t.code ∧ b.Grown b' := by
  obtain ⟨b₁, appended, h⟩ := bind_eq_ok.1 h
  cases h
  obtain ⟨rfl, room⟩ := append_inv bounded appended
  exact ⟨rfl, rfl, grown_extend room⟩

/-- A template that is placed and filled grows the buffer, as long as its slots are confined to
it. -/
theorem placeFilled_inv {t : Template} {values : List UInt64} (confined : t.Confined)
    (bounded : b.Bounded) (h : b.placeFilled regions t values = .ok (offset, b')) :
    offset = b.cursor ∧ b.Grown b' := by
  obtain ⟨⟨i, b₁⟩, placed, h⟩ := bind_eq_ok.1 h
  obtain ⟨⟨i', b₂⟩, filled, h⟩ := bind_eq_ok.1 h
  obtain ⟨_, -, h⟩ := bind_eq_ok.1 h
  cases h
  obtain ⟨rfl, -, grown⟩ := place_inv bounded placed
  have kept : (i'.offset = b.cursor ∧ i'.template = t) ∧ b.Grown b' := by
    refine foldlM_keeps (I := fun p : Instance × CodeBuffer =>
      (p.1.offset = b.cursor ∧ p.1.template = t) ∧ b.Grown p.2) ⟨⟨rfl, rfl⟩, grown⟩ ?_ filled
    rintro ⟨v, k⟩ - ⟨i₁, b₁⟩ ⟨i₂, b₂⟩ ⟨⟨offset, template⟩, grown⟩ next
    obtain ⟨s, slot, written, offset', template'⟩ := fill_inv next
    have edited := edited_of_writeSlot written (confined s (template ▸ slot_mem slot))
    exact ⟨⟨offset'.trans offset, template'.trans template⟩,
      grown.edited edited (Nat.le_of_eq offset.symm)⟩
  exact ⟨kept.1.1, kept.2⟩

end CodeBuffer

/-- The stubs of a table whose templates are confined are written behind the code that is there. -/
theorem Stubs.write_inv {r : Registry} {regions : RegionBases} {b b' : CodeBuffer} {stubs : Stubs}
    (confined : r.Confined) (bounded : b.Bounded) (h : Stubs.write r regions b = .ok (stubs, b')) :
    stubs.dispatch ≤ b.capacity ∧ b.Grown b' := by
  have placed {key : TemplateKey} {t : Template} {values : List UInt64} {offset : Nat}
      {c c' : CodeBuffer} (grown : b.Grown c) (found : r.get key = .ok t)
      (h : c.placeFilled regions t values = .ok (offset, c')) : offset = c.cursor ∧ b.Grown c' :=
    (CodeBuffer.placeFilled_inv (confined key t (Registry.get_eq_ok.1 found))
      (grown.bounded bounded) h).imp_right grown.trans
  obtain ⟨t₀, found₀, h⟩ := bind_eq_ok.1 h
  obtain ⟨⟨prologue, b₁⟩, placed₁, h⟩ := bind_eq_ok.1 h
  obtain ⟨-, grown₁⟩ := placed (.refl bounded.cursor_le) found₀ placed₁
  obtain ⟨t₁, found₁, h⟩ := bind_eq_ok.1 h
  obtain ⟨⟨epilogue, b₂⟩, placed₂, h⟩ := bind_eq_ok.1 h
  obtain ⟨-, grown₂⟩ := placed grown₁ found₁ placed₂
  obtain ⟨wayOut, -, h⟩ := bind_eq_ok.1 h
  obtain ⟨t₂, found₂, h⟩ := bind_eq_ok.1 h
  obtain ⟨⟨dispatch, b₃⟩, placed₃, h⟩ := bind_eq_ok.1 h
  obtain ⟨rfl, grown₃⟩ := placed grown₂ found₂ placed₃
  obtain ⟨⟨preempt, b₄⟩, placed₄, h⟩ := bind_eq_ok.1 h
  obtain ⟨-, grown₄⟩ := placed grown₃ found₂ placed₄
  obtain ⟨⟨syscall, b₅⟩, placed₅, h⟩ := bind_eq_ok.1 h
  obtain ⟨-, grown₅⟩ := placed grown₄ found₂ placed₅
  obtain ⟨⟨invalidate, b₆⟩, placed₆, h⟩ := bind_eq_ok.1 h
  obtain ⟨-, grown₆⟩ := placed grown₅ found₂ placed₆
  cases h
  exact ⟨grown₂.room, grown₆⟩

namespace Draft

variable {e : Engine} {d d' d'' : Draft} {i i' i'' : Instance} {k : Nat} {v : SlotValue}

/-- Slots of the copy `i` have been filled, and none of them is an exit. -/
structure Filled (d : Draft) (i : Instance) (d' : Draft) (i' : Instance) : Prop where
  buffer : d.buffer.Edited i.offset i.stop d'.buffer
  exits : d'.exits = d.exits
  instances : d'.instances = d.instances
  forward : ∀ q ∈ d'.forward, q ∈ d.forward ∨ q.1 = d.instances.size
  offset : i'.offset = i.offset
  template : i'.template = i.template

theorem Filled.refl (d : Draft) (i : Instance) : d.Filled i d i :=
  ⟨.refl .., rfl, rfl, fun _ hq => .inl hq, rfl, rfl⟩

/-- The slots of a copy can be filled one after the other. -/
theorem Filled.trans (h : d.Filled i d' i') (h' : d'.Filled i' d'' i'') : d.Filled i d'' i'' where
  buffer := by
    have edit := h'.buffer
    rw [Instance.stop, h.offset, h.template] at edit
    exact h.buffer.trans edit
  exits := h'.exits.trans h.exits
  instances := h'.instances.trans h.instances
  forward q hq := by
    rcases h'.forward q hq with hq | hq
    · exact h.forward q hq
    · exact .inr (hq.trans (by rw [h.instances]))
  offset := h'.offset.trans h.offset
  template := h'.template.trans h.template

/-- To fill a slot of a confined template changes no other part of the draft. -/
theorem filled_of_fill {w : UInt64} (confined : i.template.Confined)
    (h : fillValue.fill e i k d w = .ok (d', i')) : d.Filled i d' i' := by
  obtain ⟨⟨i₁, b⟩, filled, h⟩ := bind_eq_ok.1 h
  obtain ⟨s, slot, written, offset, template⟩ := CodeBuffer.fill_inv filled
  cases h
  have edited := CodeBuffer.edited_of_writeSlot written (confined s (CodeBuffer.slot_mem slot))
  exact ⟨edited, rfl, rfl, fun _ hq => .inl hq, offset, template⟩

/-- Values that are not exits add no exit to the draft. -/
theorem filled_of_fillValue (confined : i.template.Confined) (closed : v.isExit = false)
    (h : d.fillValue e i k v = .ok (d', i')) : d.Filled i d' i' := by
  cases v with
  | imm v | host v => exact filled_of_fill confined h
  | handler addr =>
    obtain ⟨s, -, h⟩ := bind_eq_ok.1 h
    obtain ⟨buffer, exits, instances, forward, offset, template⟩ := filled_of_fill confined h
    exact ⟨buffer, exits, instances, forward, offset, template⟩
  | stub offset =>
    obtain ⟨addr, -, h⟩ := bind_eq_ok.1 h
    exact filled_of_fill confined h
  | fallthrough =>
    cases h
    refine ⟨.refl .., rfl, rfl, fun q hq => ?_, rfl, rfl⟩
    rcases List.mem_append.1 hq with hq | hq
    · exact .inl hq
    · exact .inr (by rw [List.mem_singleton.1 hq])
  | exit target => cases closed

/-- The values of a template without an exit are filled in. -/
theorem filled_of_foldlM {values : List SlotValue} (confined : i.template.Confined)
    (closed : values.any SlotValue.isExit = false)
    (h : values.zipIdx.foldlM (fun (d, i) (v, k) => d.fillValue e i k v) (d, i) = .ok (d', i')) :
    d.Filled i d' i' := by
  refine foldlM_keeps (I := fun p => d.Filled i p.1 p.2) (.refl d i) ?_ h
  rintro ⟨v, k⟩ hv ⟨d₁, i₁⟩ ⟨d₂, i₂⟩ filled next
  have inner : v.isExit = false := by
    have := List.any_eq_false.1 closed v (List.fst_mem_of_mem_zipIdx hv)
    simpa using this
  have confined₁ : i₁.template.Confined := by
    rw [filled.template]
    exact confined
  exact filled.trans (filled_of_fillValue confined₁ inner next)

variable {b : CodeBuffer} {x : ExitSlot} {t : Template} {values : List SlotValue}

/-- The exit stands behind `start` and leads to the dispatch stub. -/
structure Unlinked (e : Engine) (b : CodeBuffer) (start : Nat) (x : ExitSlot) : Prop where
  linked : x.linked = none
  start_le : start ≤ x.site.start
  has : b.Has x.site
  leads : b.Leads x.site e.stubs.dispatch

/-- An exit leads to the dispatch stub still when code has been added behind it. -/
theorem Unlinked.grown {b' : CodeBuffer} {start : Nat} (h : Unlinked e b start x)
    (grown : b.Grown b') : Unlinked e b' start x where
  linked := h.linked
  start_le := h.start_le
  has := ⟨grown.capacity ▸ h.has.anchor_le, Nat.le_trans h.has.stop_le grown.cursor_le⟩
  leads := h.leads.congr fun n _ high => grown.kept n (Nat.lt_of_lt_of_le high h.has.stop_le)

/-- The copy stands behind `start`, all that filling it may touch is its own code, and the fields of
exits stand elsewhere. -/
structure Aside (d : Draft) (start : Nat) (i : Instance) : Prop where
  confined : i.template.Confined
  start_le : start ≤ i.offset
  stop_le : i.stop ≤ d.buffer.cursor
  apart : ∀ x ∈ d.exits, x.site.stop ≤ i.offset ∨ i.stop ≤ x.site.start

/-- What holds of a draft behind the code of `b` while it is being written. -/
structure Orderly (e : Engine) (b : CodeBuffer) (d : Draft) : Prop where
  grown : b.Grown d.buffer
  exits : ∀ x ∈ d.exits, Unlinked e d.buffer b.cursor x
  apart : d.exits.Pairwise fun x y => x.site.stop ≤ y.site.start
  forward : ∀ q ∈ d.forward, ∃ i, d.instances[q.1]? = some i ∧ d.Aside b.cursor i

theorem orderly_new (h : b.cursor ≤ b.capacity) : Orderly e b { buffer := b } :=
  ⟨.refl h, nofun, .nil, nofun⟩

/-- What the writing of a template consists of. -/
theorem write_place_inv (bounded : d.buffer.Bounded) (h : write e d (.place t values) = .ok d') :
    ∃ d₁ i₁, d.buffer.Grown (d.buffer.extend t.code) ∧
      values.zipIdx.foldlM (fun (d, i) (v, k) => d.fillValue e i k v)
        ({ d with buffer := d.buffer.extend t.code },
          { offset := d.buffer.cursor, template := t }) = .ok (d₁, i₁) ∧
      d' = { d₁ with instances := d₁.instances.push i₁ } := by
  obtain ⟨⟨i, b⟩, placed, h⟩ := bind_eq_ok.1 h
  obtain ⟨rfl, rfl, grown⟩ := CodeBuffer.place_inv bounded placed
  obtain ⟨⟨d₁, i₁⟩, filled, h⟩ := bind_eq_ok.1 h
  cases h
  exact ⟨d₁, i₁, grown, filled, rfl⟩

/-- The exits of a draft stay clear of a copy as long as new ones are added behind it. -/
theorem Aside.congr {start : Nat} (h : d.Aside start i) (offset : i'.offset = i.offset)
    (template : i'.template = i.template) (cursor : d.buffer.cursor ≤ d'.buffer.cursor)
    (exits : ∀ x ∈ d'.exits, x ∈ d.exits ∨ d.buffer.cursor ≤ x.site.start) : d'.Aside start i' := by
  have stop : i'.stop = i.stop := by rw [Instance.stop, Instance.stop, offset, template]
  have stop_le := h.stop_le
  refine ⟨template ▸ h.confined, offset ▸ h.start_le, by omega, fun x hx => ?_⟩
  rw [offset, stop]
  rcases exits x hx with old | behind
  · exact h.apart x old
  · exact .inr (by omega)

/-- A template without an exit keeps the draft in order. -/
theorem Orderly.inner (h : Orderly e b d) (bounded : b.Bounded) (confined : t.Confined)
    (closed : values.any SlotValue.isExit = false)
    (written : write e d (.place t values) = .ok d') : Orderly e b d' := by
  obtain ⟨d₁, i₁, extended, filled, rfl⟩ := write_place_inv (h.grown.bounded bounded) written
  have filled :=
    filled_of_foldlM (i := { offset := d.buffer.cursor, template := t }) confined closed filled
  have grown : d.buffer.Grown d₁.buffer := extended.edited filled.buffer (Nat.le_refl _)
  have exits : d₁.exits = d.exits := filled.exits
  refine ⟨h.grown.trans grown, fun x hx => ?_, ?_, fun q hq => ?_⟩
  · exact (h.exits x (exits ▸ hx)).grown grown
  · show d₁.exits.Pairwise _
    rw [exits]
    exact h.apart
  · have instances : d₁.instances = d.instances := filled.instances
    show ∃ i, (d₁.instances.push i₁)[q.1]? = some i ∧ _
    rw [instances]
    rcases filled.forward q hq with old | new
    · obtain ⟨i, hi, aside⟩ := h.forward q old
      have inside : q.1 < d.instances.size := (Array.getElem?_eq_some_iff.1 hi).1
      refine ⟨i, ?_, aside.congr rfl rfl grown.cursor_le fun x hx => .inl (exits ▸ hx)⟩
      rw [Array.getElem?_push, if_neg (by omega), hi]
    · have size : q.1 = d.instances.size := new
      have template : i₁.template = t := filled.template
      have offset : i₁.offset = d.buffer.cursor := filled.offset
      refine ⟨i₁, by rw [size, Array.getElem?_push_size], template ▸ confined, ?_, ?_,
        fun x hx => .inl ?_⟩
      · rw [offset]
        exact h.grown.cursor_le
      · show i₁.stop ≤ d₁.buffer.cursor
        have cursor : d₁.buffer.cursor = (d.buffer.extend t.code).cursor := filled.buffer.cursor
        rw [cursor, CodeBuffer.cursor_extend, Instance.stop, offset, template]
        exact Nat.le_refl _
      · rw [offset]
        exact (h.exits x (exits ▸ hx)).has.stop_le

/-- The template of an exit adds one exit, which leads to the dispatch stub. -/
theorem Orderly.exit {target : UInt32} (h : Orderly e b d) (bounded : b.Bounded)
    (confined : t.Confined) (written : write e d (.place t [.exit target]) = .ok d') :
    Orderly e b d' := by
  obtain ⟨d₁, i₁, extended, filled, rfl⟩ := write_place_inv (h.grown.bounded bounded) written
  obtain ⟨⟨d₂, i₂⟩, filled, last⟩ := bind_eq_ok.1 filled
  cases last
  obtain ⟨site, hsite, filled⟩ := bind_eq_ok.1 filled
  obtain ⟨addr, haddr, filled⟩ := bind_eq_ok.1 filled
  obtain ⟨⟨i₂, b₁⟩, filled, last⟩ := bind_eq_ok.1 filled
  cases last
  obtain ⟨dispatch_le, rfl⟩ := CodeBuffer.addrAt_inv haddr
  have bounded₁ := (h.grown.trans extended).bounded bounded
  obtain ⟨has, leads⟩ := CodeBuffer.leads_of_fill bounded₁ hsite dispatch_le filled
  obtain ⟨s, slot, start, -⟩ := CodeBuffer.branchSite_inv hsite
  obtain ⟨s', slot', written, -, -⟩ := CodeBuffer.fill_inv filled
  have edited := CodeBuffer.edited_of_writeSlot written (confined s' (CodeBuffer.slot_mem slot'))
  have grown : d.buffer.Grown b₁ := extended.edited edited (Nat.le_refl _)
  have behind : d.buffer.cursor ≤ site.start := by
    rw [start]
    exact Nat.le_add_right _ _
  refine ⟨h.grown.trans grown, fun x hx => ?_, ?_, fun q hq => ?_⟩
  · rcases List.mem_append.1 hx with old | new
    · exact (h.exits x old).grown grown
    · obtain rfl := List.mem_singleton.1 new
      refine ⟨rfl, Nat.le_trans h.grown.cursor_le behind, ⟨?_, ?_⟩, leads⟩
      · exact (extended.edited edited (Nat.le_refl _)).capacity ▸ extended.capacity ▸ has.anchor_le
      · exact edited.cursor ▸ has.stop_le
  · refine List.pairwise_append.2 ⟨h.apart, List.pairwise_singleton _ _, fun x hx y hy => ?_⟩
    obtain rfl := List.mem_singleton.1 hy
    exact Nat.le_trans (h.exits x hx).has.stop_le behind
  · obtain ⟨i, hi, aside⟩ := h.forward q hq
    have inside : q.1 < d.instances.size := (Array.getElem?_eq_some_iff.1 hi).1
    refine ⟨i, ?_, aside.congr rfl rfl grown.cursor_le fun x hx => ?_⟩
    · show (d.instances.push _)[q.1]? = some i
      rw [Array.getElem?_push, if_neg (by omega), hi]
    · rcases List.mem_append.1 hx with old | new
      · exact .inl old
      · rw [List.mem_singleton.1 new]
        exact .inr behind

/-- A slot that has waited lies in a copy apart from all exits. -/
theorem Orderly.fillForward {n : Nat} (h : Orderly e b d) (hq : (n, k) ∈ d.forward)
    (written : d.fillForward e n k = .ok d') : Orderly e b d' ∧ d'.forward = d.forward := by
  obtain ⟨i, hi, aside⟩ := h.forward (n, k) hq
  have hi : d.instances[n]? = some i := hi
  unfold Draft.fillForward at written
  split at written
  · next offset j _ hj =>
    obtain rfl := Option.some.inj (hi.symm.trans hj)
    obtain ⟨addr, -, written⟩ := bind_eq_ok.1 written
    obtain ⟨⟨i', b'⟩, filled, written⟩ := bind_eq_ok.1 written
    cases written
    obtain ⟨s, slot, field, offset, template⟩ := CodeBuffer.fill_inv filled
    have edited :=
      CodeBuffer.edited_of_writeSlot field (aside.confined s (CodeBuffer.slot_mem slot))
    have edited : d.buffer.Edited i.offset i.stop b' := edited
    have grown : b.Grown b' := h.grown.edited edited aside.start_le
    have cursor : d.buffer.cursor = b'.cursor := edited.cursor.symm
    refine ⟨⟨grown, fun x hx => ?_, h.apart, fun q hq => ?_⟩, rfl⟩
    · obtain ⟨linked, start_le, has, leads⟩ := h.exits x hx
      have apart := aside.apart x hx
      refine ⟨linked, start_le, ⟨?_, cursor ▸ has.stop_le⟩,
        leads.congr fun n low high => edited.outside n ?_⟩
      · rw [grown.capacity, ← h.grown.capacity]
        exact has.anchor_le
      · omega
    · obtain ⟨j, hj, aside'⟩ := h.forward q hq
      show ∃ j, (d.instances.setIfInBounds n i')[q.1]? = some j ∧ _
      by_cases same : n = q.1
      · subst same
        have inside := (Array.getElem?_eq_some_iff.1 hi).1
        refine ⟨i', by simp [inside],
          aside.congr offset template (Nat.le_of_eq cursor) fun x hx => .inl hx⟩
      · refine ⟨j, ?_, aside'.congr rfl rfl (Nat.le_of_eq cursor) fun x hx => .inl hx⟩
        rw [Array.getElem?_setIfInBounds_ne same, hj]
  · cases written
  · cases written

theorem Orderly.label (h : Orderly e b d) (fallthrough : Option Nat) :
    Orderly e b { d with fallthrough } where
  grown := h.grown
  exits := h.exits
  apart := h.apart
  forward q hq := by
    obtain ⟨i, hi, aside⟩ := h.forward q hq
    exact ⟨i, hi, aside.congr rfl rfl (Nat.le_refl _) fun _ hx => .inl hx⟩

/-- A step that comes from a confined table keeps the draft in order. -/
theorem Orderly.write {r : Registry} {goals : List UInt32} {s : PlanStep} (h : Orderly e b d)
    (bounded : b.Bounded) (confined : r.Confined) (drawn : s.Drawn r goals)
    (written : d.write e s = .ok d') : Orderly e b d' := by
  cases drawn with
  | inner found counted closed => exact h.inner bounded (confined _ _ found) closed written
  | exit found counted goal => exact h.exit bounded (confined _ _ found) written
  | fallthrough =>
    cases written
    exact h.label _

/-- A plan over a table whose templates are confined is written in good order. -/
theorem orderly_of_ofPlan {r : Registry} {goals : List UInt32} {p : Plan} (confined : r.Confined)
    (bounded : b.Bounded) (drawn : ∀ s ∈ p.steps, s.Drawn r goals) (h : ofPlan e b p = .ok d) :
    Orderly e b d := by
  obtain ⟨d₁, written, h⟩ := bind_eq_ok.1 h
  obtain ⟨d₂, filled, h⟩ := bind_eq_ok.1 h
  obtain ⟨_, -, h⟩ := bind_eq_ok.1 h
  cases h
  have orderly : Orderly e b d₁ := foldlM_keeps (orderly_new bounded.cursor_le)
    (fun s hs _ _ h next => h.write bounded confined (drawn s hs) next) written
  have waiting : Orderly e b d ∧ d.forward = d₁.forward := by
    refine foldlM_keeps (I := fun d => Orderly e b d ∧ d.forward = d₁.forward)
      ⟨orderly, rfl⟩ ?_ filled
    rintro ⟨n, k⟩ hq d₂ d₃ ⟨h, forward⟩ next
    obtain ⟨h', same⟩ := h.fillForward (forward ▸ hq) next
    exact ⟨h', same.trans forward⟩
  exact waiting.1

end Draft
end Dynarec
