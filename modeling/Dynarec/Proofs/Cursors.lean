import Dynarec.Arena
import Dynarec.Proofs.Imprint

/-!
The code buffer under any calls of its owner. The code start stays at or below the cursor and the
cursor within the capacity, room that has been granted is there, and each byte below the cursor is
the one that was put there last.
-/
namespace Dynarec.CodeBuffer

open Traced

variable {b b' b'' : CodeBuffer} {c : Call} {data : List UInt8} {n offset p : Nat}
  {past : List (CodeBuffer × Call)} {outcome : Except Fault Answer}

namespace Call

/-- The byte that a call on `b` puts at a position. -/
def writes (b : CodeBuffer) (p : Nat) : Call → Option UInt8
  | .append data => if b.cursor ≤ p then data[p - b.cursor]? else none
  | .patch offset data => if offset ≤ p then data[p - offset]? else none
  | _ => none

/-- The call overwrites the byte at a position. -/
def Patches (p : Nat) (c : Call) : Prop :=
  ∃ offset data, c = .patch offset data ∧ offset ≤ p ∧ p < offset + data.length

/-- The call writes bytes, and moves the cursor only past those that it adds. -/
def isWrite : Call → Bool
  | .append _ | .patch _ _ => true
  | _ => false

/-- How many bytes a call adds. -/
def added : Call → Nat
  | .append data => data.length
  | _ => 0

theorem writes_of_not_isWrite (quiet : c.isWrite = false) : c.writes b p = none := by
  cases c with
  | append data => cases quiet
  | patch offset data => cases quiet
  | _ => rfl

theorem writes_eq_none (below : p < b.cursor) (unpatched : ¬ c.Patches p) :
    c.writes b p = none := by
  cases c with
  | append data => exact if_neg (Nat.not_le.2 below)
  | patch offset data =>
    by_cases behind : offset ≤ p
    · rw [writes, if_pos behind]
      refine List.getElem?_eq_none
        (Nat.not_lt.1 fun inside => unpatched ⟨offset, data, rfl, behind, ?_⟩)
      omega
    · exact if_neg behind
  | _ => rfl

end Call

/-- From `b` on, calls are made one after another and none of them breaks the contract of the
buffer. The latest comes first, each with the buffer that it found. -/
inductive Undergoes (b : CodeBuffer) : List (CodeBuffer × Call) → CodeBuffer → Prop
  | nothing : Undergoes b [] b
  | call {past : List (CodeBuffer × Call)} {b' b'' : CodeBuffer} {c : Call}
      {outcome : Except Fault Answer} :
    Undergoes b past b' → Yields c.perform b' outcome b'' → (∀ v, outcome ≠ .error (.violation v)) →
      Undergoes b ((b', c) :: past) b''

/-- The byte that was put at a position last. -/
def lastWritten (p : Nat) (past : List (CodeBuffer × Call)) : Option UInt8 :=
  past.findSome? fun made => made.2.writes made.1 p

/-- The bytes that calls have added. -/
def added (past : List (CodeBuffer × Call)) : Nat := (past.map (·.2.added)).sum

/-- The cursors stand in order. -/
structure Ordered (b : CodeBuffer) : Prop where
  start_le : b.codeStart ≤ b.cursor
  cursor_le : b.cursor ≤ b.capacity

/-- Everything that a call can do to a buffer. -/
inductive Effect (b : CodeBuffer) : Call → CodeBuffer → Prop
  | extended {data : List UInt8} : b.cursor + data.length ≤ b.capacity →
      Effect b (.append data) (b.extend data)
  | overwritten {offset : Nat} {data : List UInt8} : offset + data.length ≤ b.cursor →
    Effect b (.patch offset data) { b with bytes := writeAt b.bytes offset data }
  | cut {c : Call} {n : Nat} : c.isWrite = false → b.codeStart ≤ n → n ≤ b.cursor →
      Effect b c (b.truncate n)
  | frozen : Effect b .setCodeStart b.setCodeStart

section Truncate

theorem cursor_truncate (h : n ≤ b.cursor) : (b.truncate n).cursor = n := by
  simp only [cursor, truncate, Array.size_extract] at h ⊢
  omega

theorem truncate_cursor (b : CodeBuffer) : b.truncate b.cursor = b := by
  simp [truncate, cursor]

theorem getElem?_truncate (h : p < n) : (b.truncate n).bytes[p]? = b.bytes[p]? := by
  simp only [truncate, Array.getElem?_extract]
  split
  · rw [Nat.zero_add]
  · exact (Array.getElem?_eq_none_iff.2 (by omega)).symm

end Truncate

section Performed

theorem yields_append (room : b.cursor + data.length ≤ b.capacity) :
    Yields (Call.append data).perform b (.ok (.written b.cursor)) (b.extend data) := by
  have same : b.bytes.appendList data = b.bytes ++ data.toArray := Array.toList_inj.1 (by simp)
  have fits : data.length ≤ b.remaining := by
    unfold remaining
    omega
  have appended : b.append data = .ok (b.extend data) := by
    rw [extend, ← same, append, (demand_eq_ok (u := ())).2 fits]
    rfl
  exact yields_get.bind ((yields_lift_ok appended).bind ((yields_set _).bind (yields_pure _)))

theorem yields_append_beyond (ordered : b.Ordered) (full : b.capacity < b.cursor + data.length) :
    Yields (Call.append data).perform b (.error (.violation (.bufferOverflow data.length b.cursor)))
      b := by
  have unfit : ¬ data.length ≤ b.remaining := by
    have := ordered.cursor_le
    unfold remaining
    omega
  have refused : b.append data = .error (.violation (.bufferOverflow data.length b.cursor)) := by
    simp [append, demand, unfit, breach, bind, Except.bind]
  exact yields_get.bind (yields_lift_error refused)

theorem yields_patch (written : b.patch offset data = .ok b') :
    Yields (Call.patch offset data).perform b (.ok .done) b' :=
  yields_get.bind ((yields_lift_ok written).bind ((yields_set _).bind (yields_pure _)))

theorem yields_rewind (low : b.codeStart ≤ n) (high : n ≤ b.cursor) :
    Yields (Call.rewind n).perform b (.ok .done) (b.truncate n) := by
  have cut : b.rewind n = .ok (b.truncate n) := by
    rw [rewind, (demand_eq_ok (u := ())).2 ⟨low, high⟩]
    rfl
  exact yields_get.bind ((yields_lift_ok cut).bind ((yields_set _).bind (yields_pure _)))

theorem yields_reserve_refused (large : b.usable < n) :
    Yields (Call.reserve n).perform b (.error (.error (.blockTooLarge n b.usable))) b :=
  yields_get.bind (yields_lift_error (if_pos large))

theorem yields_reserve_ready (small : n ≤ b.usable) (fits : n ≤ b.remaining) :
    Yields (Call.reserve n).perform b (.ok (.room .ready)) b := by
  have reserved : b.reserve n = .ok (.ready, b) := by
    rw [reserve, if_neg (Nat.not_lt.2 small), if_pos fits]
  exact yields_get.bind ((yields_lift_ok reserved).bind ((yields_set _).bind (yields_pure _)))

theorem yields_reserve_flushed (small : n ≤ b.usable) (full : ¬ n ≤ b.remaining) :
    Yields (Call.reserve n).perform b (.ok (.room .flushed)) b.flush := by
  have reserved : b.reserve n = .ok (.flushed, b.flush) := by
    rw [reserve, if_neg (Nat.not_lt.2 small), if_neg full]
  exact yields_get.bind ((yields_lift_ok reserved).bind ((yields_set _).bind (yields_pure _)))

/-- Every call that does not break the contract has one of the effects. -/
theorem Effect.of_yields (ordered : b.Ordered) (h : Yields c.perform b outcome b')
    (fair : ∀ v, outcome ≠ .error (.violation v)) : b.Effect c b' := by
  have same {o : Except Fault Answer} {b₁ : CodeBuffer} (h' : Yields c.perform b o b₁) :
      outcome = o ∧ b' = b₁ :=
    h.unique h'
  have start_le := ordered.start_le
  cases c with
  | append data =>
    by_cases room : b.cursor + data.length ≤ b.capacity
    · obtain ⟨-, rfl⟩ := same (yields_append room)
      exact .extended room
    · exact absurd (same (yields_append_beyond ordered (Nat.not_le.1 room))).1 (fair _)
  | patch offset data =>
    cases written : b.patch offset data with
    | ok b₁ =>
      obtain ⟨-, rfl⟩ := same (yields_patch written)
      obtain ⟨room, rfl⟩ := patch_inv written
      exact .overwritten room
    | error fault =>
      have failed := (same (yields_get.bind (yields_lift_error written))).1
      rcases bind_eq_error.1 written with beyond | ⟨sum, -, rest⟩
      · rw [(addSizes_eq_error beyond).2] at failed
        exact absurd failed (fair _)
      · rcases bind_eq_error.1 rest with past | ⟨-, -, none⟩
        · rw [(demand_eq_error past).2] at failed
          exact absurd failed (fair _)
        · cases none
  | reserve n =>
    have kept : b.Effect (.reserve n) b := by
      have cut : b.Effect (.reserve n) (b.truncate b.cursor) := .cut rfl start_le (Nat.le_refl _)
      rwa [truncate_cursor] at cut
    by_cases small : n ≤ b.usable
    · by_cases fits : n ≤ b.remaining
      · obtain ⟨-, rfl⟩ := same (yields_reserve_ready small fits)
        exact kept
      · obtain ⟨-, rfl⟩ := same (yields_reserve_flushed small fits)
        exact .cut rfl (Nat.le_refl _) start_le
    · obtain ⟨-, rfl⟩ := same (yields_reserve_refused (Nat.not_le.1 small))
      exact kept
  | flush =>
    obtain ⟨-, rfl⟩ := same ((yields_modify _).bind (yields_pure _))
    exact .cut rfl (Nat.le_refl _) start_le
  | rewind n =>
    by_cases inside : b.codeStart ≤ n ∧ n ≤ b.cursor
    · obtain ⟨-, rfl⟩ := same (yields_rewind inside.1 inside.2)
      exact .cut rfl inside.1 inside.2
    · have refused : b.rewind n = .error (.violation .assertionFailed) := by
        simp [rewind, demand, inside, breach, bind, Except.bind]
      exact absurd (same (yields_get.bind (yields_lift_error refused))).1 (fair _)
  | setCodeStart =>
    obtain ⟨-, rfl⟩ := same ((yields_modify _).bind (yields_pure _))
    exact .frozen

end Performed

section Effect

variable (h : b.Effect c b')
include h

theorem Effect.capacity : b'.capacity = b.capacity := by
  cases h <;> rfl

theorem Effect.ordered (ordered : b.Ordered) : b'.Ordered := by
  have start_le := ordered.start_le
  have cursor_le := ordered.cursor_le
  cases h with
  | extended room =>
    refine ⟨?_, ?_⟩
    · rw [cursor_extend]
      exact Nat.le_trans start_le (Nat.le_add_right _ _)
    · rw [cursor_extend]
      exact room
  | @overwritten offset data room =>
    have cursor : CodeBuffer.cursor { b with bytes := writeAt b.bytes offset data } = b.cursor :=
      size_writeAt ..
    exact ⟨by rw [cursor]; exact start_le, by rw [cursor]; exact cursor_le⟩
  | cut quiet low high =>
    have cursor := cursor_truncate high
    exact ⟨by rw [cursor]; exact low, by rw [cursor]; exact Nat.le_trans high cursor_le⟩
  | frozen => exact ⟨Nat.le_refl _, cursor_le⟩

/-- The code start never moves back. -/
theorem Effect.codeStart_le (ordered : b.Ordered) : b.codeStart ≤ b'.codeStart := by
  cases h with
  | extended room => exact Nat.le_refl _
  | overwritten room => exact Nat.le_refl _
  | cut quiet low high => exact Nat.le_refl _
  | frozen => exact ordered.start_le

/-- A byte that is below the cursor afterwards was put there by the call, or stood there before. -/
theorem Effect.byte (below : p < b'.cursor) : b'.bytes[p]? = (c.writes b p).or b.bytes[p]? := by
  cases h with
  | @extended data room =>
    rw [cursor_extend] at below
    by_cases old : p < b.cursor
    · rw [getElem?_extend old, Call.writes, if_neg (Nat.not_le.2 old), Option.none_or]
    · have place : b.cursor + (p - b.cursor) = p := by omega
      have inside : p - b.cursor < data.length := by omega
      have new := holds_extend (b := b) (p - b.cursor) inside
      rw [place] at new
      rw [new, Call.writes, if_pos (Nat.not_lt.1 old), List.getElem?_eq_getElem inside,
        Option.some_or]
  | @overwritten offset data room =>
    have old : p < b.cursor := lt_of_lt_of_eq below (size_writeAt ..)
    by_cases hit : offset ≤ p ∧ p < offset + data.length
    · have place : offset + (p - offset) = p := by omega
      have inside : p - offset < data.length := by omega
      have new := getElem?_writeAt_add b.bytes inside room
      rw [place] at new
      rw [new, Call.writes, if_pos hit.1, List.getElem?_eq_getElem inside, Option.some_or]
    · have unpatched : ¬ (Call.patch offset data).Patches p := by
        rintro ⟨_, _, same, inside⟩
        cases same
        exact hit inside
      rw [Call.writes_eq_none old unpatched, Option.none_or]
      exact getElem?_writeAt_of_outside _ _ (by omega)
  | cut quiet low high =>
    rw [cursor_truncate high] at below
    rw [getElem?_truncate below, Call.writes_of_not_isWrite quiet, Option.none_or]
  | frozen => rfl

/-- Below the code start only a patch changes a byte. -/
theorem Effect.frozen_byte (ordered : b.Ordered) (low : p < b.codeStart)
    (unpatched : ¬ c.Patches p) : b'.bytes[p]? = b.bytes[p]? := by
  have ordered' := h.ordered ordered
  have below : p < b'.cursor :=
    Nat.lt_of_lt_of_le low (Nat.le_trans (h.codeStart_le ordered) ordered'.start_le)
  have old := Nat.lt_of_lt_of_le low ordered.start_le
  rw [h.byte below, Call.writes_eq_none old unpatched, Option.none_or]

/-- Writing calls move the cursor past what they add and nowhere else. -/
theorem Effect.cursor_of_isWrite (write : c.isWrite = true) : b'.cursor = b.cursor + c.added := by
  cases h with
  | extended room => exact cursor_extend
  | overwritten room => exact size_writeAt ..
  | cut quiet low high =>
    rw [quiet] at write
    cases write
  | frozen => cases write

end Effect

section Undergoes

theorem Undergoes.ordered (h : b.Undergoes past b') (ordered : b.Ordered) : b'.Ordered := by
  induction h with
  | nothing => exact ordered
  | call _ yields fair ih => exact (Effect.of_yields ih yields fair).ordered ih

theorem Undergoes.capacity (h : b.Undergoes past b') (ordered : b.Ordered) :
    b'.capacity = b.capacity := by
  induction h with
  | nothing => rfl
  | call run yields fair ih =>
    exact (Effect.of_yields (run.ordered ordered) yields fair).capacity.trans ih

theorem Undergoes.codeStart_le (h : b.Undergoes past b') (ordered : b.Ordered) :
    b.codeStart ≤ b'.codeStart := by
  induction h with
  | nothing => exact Nat.le_refl _
  | call run yields fair ih =>
    have between := run.ordered ordered
    exact Nat.le_trans ih ((Effect.of_yields between yields fair).codeStart_le between)

/-- A byte below the cursor is the one that was put there last, or has stood there from the
beginning. -/
theorem Undergoes.byte (h : b.Undergoes past b') (ordered : b.Ordered) (below : p < b'.cursor) :
    b'.bytes[p]? = (lastWritten p past).or b.bytes[p]? := by
  induction h with
  | nothing => rfl
  | @call past b₁ b₂ c outcome run yields fair ih =>
    have effect := Effect.of_yields (run.ordered ordered) yields fair
    rw [effect.byte below, lastWritten, List.findSome?_cons]
    cases put : c.writes b₁ p with
    | some v => rfl
    | none =>
      -- A byte that the call has not put there was below the cursor before.
      have old : p < b₁.cursor := by
        have stands := effect.byte below
        rw [put, Option.none_or, Array.getElem?_eq_getElem below] at stands
        exact (Array.getElem?_eq_some_iff.1 stands.symm).1
      exact ih old

theorem Undergoes.frozen_byte (h : b.Undergoes past b') (ordered : b.Ordered)
    (low : p < b.codeStart) (unpatched : ∀ made ∈ past, ¬ made.2.Patches p) :
    b'.bytes[p]? = b.bytes[p]? := by
  induction h with
  | nothing => rfl
  | call run yields fair ih =>
    have between := run.ordered ordered
    have low' := Nat.lt_of_lt_of_le low (run.codeStart_le ordered)
    have same :=
      (Effect.of_yields between yields fair).frozen_byte between low'
        (unpatched _ List.mem_cons_self)
    exact same.trans (ih fun made hmade => unpatched made (List.mem_cons_of_mem _ hmade))

theorem Undergoes.cursor_of_isWrite (h : b.Undergoes past b') (ordered : b.Ordered)
    (writes : ∀ made ∈ past, made.2.isWrite = true) : b'.cursor = b.cursor + added past := by
  induction h with
  | nothing => rfl
  | @call past b₁ b₂ c outcome run yields fair ih =>
    have effect := Effect.of_yields (run.ordered ordered) yields fair
    have moved := effect.cursor_of_isWrite (writes _ List.mem_cons_self)
    have before := ih fun made hmade => writes made (List.mem_cons_of_mem _ hmade)
    rw [moved, before, added, added, List.map_cons, List.sum_cons]
    exact Nat.add_right_comm _ _ _ ▸ Nat.add_assoc _ _ _

/-- Where there is room for `n` bytes, writing calls can add as many. -/
theorem Undergoes.yields_append (h : b.Undergoes past b') (ordered : b.Ordered)
    (room : b.cursor + n ≤ b.capacity) (writes : ∀ made ∈ past, made.2.isWrite = true)
    (fits : added past + data.length ≤ n) :
    Yields (Call.append data).perform b' (.ok (.written b'.cursor)) (b'.extend data) := by
  refine CodeBuffer.yields_append ?_
  rw [h.cursor_of_isWrite ordered writes, h.capacity ordered]
  omega

end Undergoes

/-- Asking for more than can ever fit is refused and changes nothing. Asking for less makes room,
and drops the blocks only if there is none. -/
theorem Ordered.reserve (ordered : b.Ordered) (n : Nat) :
    (b.capacity - b.codeStart < n ∧
      Yields (Call.reserve n).perform b
        (.error (.error (.blockTooLarge n (b.capacity - b.codeStart)))) b) ∨
    (n ≤ b.capacity - b.codeStart ∧ ∃ r b', Yields (Call.reserve n).perform b (.ok (.room r)) b' ∧
      (b.cursor + n ≤ b.capacity ∧ r = .ready ∧ b' = b ∨
        b.capacity < b.cursor + n ∧ r = .flushed ∧ b' = b.flush ∧ b'.cursor = b.codeStart) ∧
      b'.Ordered ∧ b'.cursor + n ≤ b'.capacity) := by
  have start_le := ordered.start_le
  have cursor_le := ordered.cursor_le
  by_cases small : n ≤ b.usable
  · refine .inr ⟨small, ?_⟩
    by_cases fits : b.cursor + n ≤ b.capacity
    · have left : n ≤ b.remaining := Nat.le_sub_of_add_le' fits
      exact ⟨.ready, b, yields_reserve_ready small left, .inl ⟨fits, rfl, rfl⟩, ordered, fits⟩
    · have full : ¬ n ≤ b.remaining := by
        unfold remaining
        omega
      have start : b.flush.cursor = b.codeStart := cursor_truncate start_le
      refine ⟨.flushed, b.flush, yields_reserve_flushed small full,
        .inr ⟨Nat.not_le.1 fits, rfl, rfl, start⟩, ⟨Nat.le_of_eq start.symm, ?_⟩, ?_⟩
      · rw [start]
        exact Nat.le_trans start_le cursor_le
      · rw [start]
        unfold usable at small
        show b.codeStart + n ≤ b.capacity
        omega
  · exact .inl ⟨Nat.not_le.1 small, yields_reserve_refused (Nat.not_le.1 small)⟩

theorem eq_of_map {base size : Nat} (h : map base size = .ok b) :
    ∃ capacity, b = { base, capacity } := by
  unfold map at h
  split at h
  · cases h
  · obtain ⟨sum, -, h⟩ := bind_eq_ok.1 h
    dsimp only at h
    split at h
    · cases h
    · exact ⟨_, (Except.ok.inj h).symm⟩

/-- A mapped buffer behind any calls that do not break its contract: the cursors are in order and
the capacity is that of the mapping. Room is refused, without any change, only if it can never be
there, and where it is granted it is there for every sequence of writes. Bytes below the code start
change only where they are patched, and each byte below the cursor is the one that was put there
last. -/
theorem mapped_buffer_keeps_contract {base size : Nat} {b₀ : CodeBuffer}
    (mapped : map base size = .ok b₀) (run : b₀.Undergoes past b) :
    (b.codeStart ≤ b.cursor ∧ b.cursor ≤ b.capacity ∧ b.capacity = b₀.capacity ∧
      b.codeStart + b.usable = b.capacity ∧ b.cursor + b.remaining = b.capacity) ∧
    (∀ n,
      (Yields (Call.reserve n).perform b
        (.error (.error (.blockTooLarge n (b.capacity - b.codeStart)))) b ↔
        b.capacity - b.codeStart < n) ∧
      (n ≤ b.capacity - b.codeStart → ∃ r b', Yields (Call.reserve n).perform b (.ok (.room r)) b' ∧
        (b.cursor + n ≤ b.capacity ∧ r = .ready ∧ b' = b ∨
          b.capacity < b.cursor + n ∧ r = .flushed ∧ b' = b.flush ∧ b'.cursor = b.codeStart) ∧
        ∀ later b'' data, b'.Undergoes later b'' → (∀ made ∈ later, made.2.isWrite = true) →
          added later + data.length ≤ n →
          Yields (Call.append data).perform b'' (.ok (.written b''.cursor)) (b''.extend data))) ∧
    (∀ later b' p, b.Undergoes later b' → p < b.codeStart → (∀ made ∈ later, ¬ made.2.Patches p) →
      b'.bytes[p]? = b.bytes[p]?) ∧
    ∀ p, p < b.cursor → ∃ v, lastWritten p past = some v ∧ b.bytes[p]? = some v := by
  obtain ⟨capacity, rfl⟩ := eq_of_map mapped
  have first : Ordered { base, capacity } := ⟨Nat.le_refl _, Nat.zero_le _⟩
  have ordered := run.ordered first
  have start_le := ordered.start_le
  have cursor_le := ordered.cursor_le
  refine ⟨⟨start_le, cursor_le, run.capacity first, ?_, Nat.add_sub_cancel' cursor_le⟩,
    fun n => ?_, ?_, fun p below => ?_⟩
  · exact Nat.add_sub_cancel' (Nat.le_trans start_le cursor_le)
  · rcases ordered.reserve n with ⟨large, refused⟩ | ⟨small, r, b', granted, how, ordered', room⟩
    · exact ⟨⟨fun _ => large, fun _ => refused⟩, fun small => absurd large (Nat.not_lt.2 small)⟩
    · refine ⟨⟨fun refused => ?_, fun large => absurd large (Nat.not_lt.2 small)⟩,
        fun _ => ⟨r, b', granted, how, ?_⟩⟩
      · cases (granted.unique refused).1
      · intro later b'' data writing writes fits
        exact writing.yields_append ordered' room writes fits
  · intro later b' p onward low unpatched
    exact onward.frozen_byte ordered low unpatched
  · have last := run.byte first below
    rw [Array.getElem?_eq_getElem below] at last ⊢
    refine ⟨_, ?_, rfl⟩
    rw [last]
    exact (Option.or_none).symm

theorem Undergoes.call_ok {a : Answer} (h : b.Undergoes past b')
    (yields : Yields c.perform b' (.ok a) b'') : b.Undergoes ((b', c) :: past) b'' := by
  refine h.call yields fun v same => ?_
  cases same

/-- A buffer of one page. -/
def singlePage (bytes : Array UInt8) (codeStart : Nat) : CodeBuffer :=
  { base := 0x10000, capacity := 4096, bytes, codeStart }

/-- Three bytes are frozen and one of them is patched. The rest of the page is granted, one more
byte is not. -/
theorem page_granted_behind_patched_start : ∃ past, map 0x10000 1 = .ok (singlePage #[] 0) ∧
    (singlePage #[] 0).Undergoes past (singlePage #[7, 2, 3, 4] 3) ∧ lastWritten 0 past = some 7 ∧
    Yields (Call.reserve 4094).perform (singlePage #[7, 2, 3, 4] 3)
      (.error (.error (.blockTooLarge 4094 4093))) (singlePage #[7, 2, 3, 4] 3) ∧
    ∃ b, Yields (Call.reserve 4093).perform (singlePage #[7, 2, 3, 4] 3) (.ok (.room .flushed)) b ∧
      b.cursor = 3 ∧ ∀ data : List UInt8, data.length = 4093 →
        Yields (Call.append data).perform b (.ok (.written b.cursor)) (b.extend data) := by
  have mapped : map 0x10000 1 = .ok (singlePage #[] 0) := rfl
  have wrote : Yields (Call.append [1, 2, 3]).perform (singlePage #[] 0) (.ok (.written 0))
      (singlePage #[1, 2, 3] 0) :=
    yields_append (by decide)
  have froze : Yields Call.setCodeStart.perform (singlePage #[1, 2, 3] 0) (.ok .done)
      (singlePage #[1, 2, 3] 3) :=
    (yields_modify _).bind (yields_pure _)
  have wrote' : Yields (Call.append [4]).perform (singlePage #[1, 2, 3] 3) (.ok (.written 3))
      (singlePage #[1, 2, 3, 4] 3) :=
    yields_append (by decide)
  have patched : Yields (Call.patch 0 [7]).perform (singlePage #[1, 2, 3, 4] 3) (.ok .done)
      (singlePage #[7, 2, 3, 4] 3) :=
    yields_patch rfl
  have run := (((Undergoes.nothing.call_ok wrote).call_ok froze).call_ok wrote').call_ok patched
  obtain ⟨-, reserved, -, last⟩ := mapped_buffer_keeps_contract mapped run
  obtain ⟨v, written, stands⟩ := last 0 (by decide)
  obtain ⟨r, b, granted, how, room⟩ := (reserved 4093).2 (by decide)
  have flushed : r = .flushed ∧ b.cursor = 3 := by
    rcases how with ⟨fits, -, -⟩ | ⟨-, flushed, -, cursor⟩
    · exact absurd fits (by decide)
    · exact ⟨flushed, cursor⟩
  obtain ⟨rfl, cursor⟩ := flushed
  refine ⟨_, mapped, run, written.trans stands.symm, (reserved 4094).1.2 (by decide), b,
    granted, cursor, ?_⟩
  intro data length
  refine room [] b data .nothing (fun _ none => ?_) (Nat.le_of_eq ?_)
  · cases none
  · rw [length]
    rfl

end Dynarec.CodeBuffer
