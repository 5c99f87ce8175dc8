import Dynarec.Block.JumpCache
import Dynarec.Proofs.Latest

/-!
The jump cache over any sequence of calls. Each line holds the address that was put into it last,
unless that address has been taken out or the cache emptied since, and the two tables hold the parts
of one and the same insert.
-/
namespace Dynarec.JumpCache

/-- A call that changes the cache. -/
inductive Call where
  | insert (pc : UInt32) (id : BlockId) (host : UInt64)
  | remove (pc : UInt32)
  | invalidate
  deriving DecidableEq, Repr

namespace Call

def perform (c : JumpCache) : Call → JumpCache
  | .insert pc id host => c.insert pc id host
  | .remove pc => c.remove pc
  | .invalidate => c.invalidate

/-- The address that a call is about. -/
def address? : Call → Option UInt32
  | .insert pc _ _ | .remove pc => some pc
  | .invalidate => none

/-- The call inserts into the line of the address, or takes the address out, or empties the
cache. -/
def Concerns (pc : UInt32) : Call → Prop
  | .insert other _ _ => index other = index pc
  | .remove other => other = pc
  | .invalidate => True

end Call

/-- The cache behind calls on a new one. -/
def after (calls : List Call) : JumpCache := calls.foldl Call.perform .empty

/-- The last insert into the line of the address is that of the address, with the block and the host
address, and no removal of the address and no emptying of the cache comes after it. -/
def Live (calls : List Call) (pc : UInt32) (id : BlockId) (host : UInt64) : Prop :=
  LatestIs (Call.Concerns pc) (· = .insert pc id host) calls

/-- Each line holds an address that maps to it. -/
def Aligned (c : JumpCache) : Prop := ∀ {k l}, c.line k = some l → index l.tag = k

variable {c : JumpCache} {call : Call} {calls : List Call} {pc other : UInt32} {id : BlockId}
  {host : UInt64} {k : Fin jumpCacheSize} {l : JumpLine}

theorem after_append (calls : List Call) (call : Call) :
    after (calls ++ [call]) = call.perform (after calls) := by
  rw [after, List.foldl_append]
  rfl

section Step

/-- What a call makes of the line of an address, as far as the line holds that address. -/
theorem line?_perform : (call.perform c).line? pc = some ⟨pc, id, host⟩ ↔
    (call.Concerns pc ∧ call = .insert pc id host) ∨
      (¬ call.Concerns pc ∧ c.line? pc = some ⟨pc, id, host⟩) := by
  cases call with
  | insert other id' host' =>
    rw [Call.perform, line?_insert]
    by_cases same : index pc = index other
    · simp [Call.Concerns, same]
    · simp [Call.Concerns, same, Ne.symm same]
  | remove other =>
    have concerned : (index pc = index other ∧ pc = other) ↔ other = pc := by
      constructor
      · rintro ⟨-, rfl⟩
        rfl
      · rintro rfl
        exact ⟨rfl, rfl⟩
    rw [Call.perform, line?, line_remove_eq_some, concerned, and_comm]
    simp [Call.Concerns, line?]
  | invalidate => simp [Call.perform, invalidate, Call.Concerns]

theorem Aligned.perform (h : c.Aligned) (call : Call) : (call.perform c).Aligned := by
  intro k l hl
  cases call with
  | insert pc id host =>
    rw [Call.perform, line_insert] at hl
    split at hl
    · next here =>
      cases hl
      exact here.symm
    · exact h hl
  | remove pc => exact h (line_remove_eq_some.1 hl).1
  | invalidate => cases line_empty.symm.trans hl

/-- A call about an address leaves the lines of others. -/
theorem line_perform_of_ne (about : call.address? = some pc) (apart : k ≠ index pc) :
    (call.perform c).line k = c.line k := by
  cases call with
  | insert other id host =>
    cases about
    rw [Call.perform, line_insert, if_neg apart]
  | remove other =>
    cases about
    ext l
    rw [Call.perform, line_remove_eq_some]
    simp [apart]
  | invalidate => cases about

/-- A call about another address ends the stay of an address only by an insert into its line. -/
theorem line?_perform_of_held (about : call.address? = some pc) (differ : other ≠ pc)
    (held : c.lookup other = some id) :
    (call.perform c).line? other = c.line? other ∨ ∃ id' host', call = .insert pc id' host' ∧
      index pc = index other := by
  obtain ⟨l, found, tag, -⟩ := lookup_eq_some.1 held
  have hl : c.line? other = some ⟨other, l.id, l.host⟩ := by rw [found, ← tag]
  rw [hl]
  cases call with
  | insert pc' id' host' =>
    cases about
    by_cases same : index pc = index other
    · exact .inr ⟨id', host', rfl, same⟩
    · exact .inl (line?_perform.2 (.inr ⟨same, hl⟩))
  | remove pc' =>
    cases about
    exact .inl (line?_perform.2 (.inr ⟨Ne.symm differ, hl⟩))
  | invalidate => cases about

end Step

section Run

theorem aligned_after (calls : List Call) : (after calls).Aligned := by
  induction calls using List.reverseRecOn with
  | nil =>
    intro k l hl
    cases line_empty.symm.trans hl
  | append_singleton calls call ih =>
    rw [after_append]
    exact ih.perform call

theorem line?_after : (after calls).line? pc = some ⟨pc, id, host⟩ ↔ Live calls pc id host := by
  refine foldl_iff_latestIs (P := fun c : JumpCache => c.line? pc = some ⟨pc, id, host⟩) ?_
    (fun c call => ?_) calls
  · rw [line?_empty]
    rintro ⟨⟩
  · exact line?_perform

/-- A line holds just what is live in it. -/
theorem line_after :
    (after calls).line k = some l ↔ index l.tag = k ∧ Live calls l.tag l.id l.host := by
  constructor
  · intro hl
    obtain rfl := aligned_after calls hl
    exact ⟨rfl, line?_after.1 hl⟩
  · rintro ⟨rfl, live⟩
    exact line?_after.2 live

theorem line_after_eq_none :
    (after calls).line k = none ↔ ¬ ∃ pc id host, index pc = k ∧ Live calls pc id host := by
  rw [Option.eq_none_iff_forall_ne_some]
  constructor
  · rintro vacant ⟨pc, id, host, here, live⟩
    exact vacant ⟨pc, id, host⟩ (line_after.2 ⟨here, live⟩)
  · intro nothing l hl
    exact nothing ⟨_, _, _, line_after.1 hl⟩

theorem lookup_after : (after calls).lookup pc = some id ↔ ∃ host, Live calls pc id host := by
  rw [lookup_eq_some]
  constructor
  · rintro ⟨⟨_, _, host⟩, hl, rfl, rfl⟩
    exact ⟨host, line?_after.1 hl⟩
  · rintro ⟨host, live⟩
    exact ⟨_, line?_after.2 live, rfl, rfl⟩

end Run

/-- Behind any calls an address is found just if its insert was the last into its line and it has
not been removed since, nor the cache emptied. Its entry then is that of the insert, and an entry is
invalid just if nothing is live in its line. Both tables hold the same insert in each line, or none.
A further call about an address leaves all other lines, and what other addresses have, unless it
inserts in their place. -/
theorem direct_mapped (calls : List Call) :
    (∀ pc id, (after calls).lookup pc = some id ↔ ∃ host, Live calls pc id host) ∧
    (∀ pc id host, Live calls pc id host → (after calls).entry pc = ⟨pc.toUInt64, host⟩) ∧
    (∀ pc, (¬ ∃ id host, Live calls pc id host) → (after calls).lookup pc = none) ∧
    (∀ pc, (after calls).entry pc = .invalid ↔
      ¬ ∃ other id host, index other = index pc ∧ Live calls other id host) ∧
    (∀ k : Fin jumpCacheSize,
      ((after calls).entries.get k = .invalid ∧ (after calls).ids.get k = none) ∨
      ∃ pc id host, index pc = k ∧ Live calls pc id host ∧
        (after calls).entries.get k = ⟨pc.toUInt64, host⟩ ∧ (after calls).ids.get k = some id) ∧
    ∀ call pc, call.address? = some pc →
      (∀ k : Fin jumpCacheSize, k ≠ index pc →
        (after (calls ++ [call])).entries.get k = (after calls).entries.get k ∧
        (after (calls ++ [call])).ids.get k = (after calls).ids.get k) ∧
      ∀ other id, other ≠ pc → (after calls).lookup other = some id →
        ((after (calls ++ [call])).lookup other = some id ∧
          (after (calls ++ [call])).entry other = (after calls).entry other) ∨
        ∃ id' host', call = .insert pc id' host' ∧ index pc = index other := by
  refine ⟨fun pc id => lookup_after, fun pc id host live => entry_eq_of_line? (line?_after.2 live),
    fun pc absent => ?_, fun pc => ?_, fun k => ?_, fun call pc about =>
      ⟨fun k apart => ?_, fun other id differ held => ?_⟩⟩
  · refine Option.eq_none_iff_forall_ne_some.2 fun id hit => ?_
    exact absent ⟨id, lookup_after.1 hit⟩
  · rw [← line_after_eq_none]
    exact entry_eq_invalid_iff
  · cases hl : (after calls).line k with
    | none => exact .inl ⟨by rw [get_entries, hl], by rw [get_ids, hl]; rfl⟩
    | some l =>
      obtain ⟨here, live⟩ := line_after.1 hl
      exact .inr
        ⟨l.tag, l.id, l.host, here, live, by rw [get_entries, hl], by rw [get_ids, hl]; rfl⟩
  · have same : (after (calls ++ [call])).line k = (after calls).line k := by
      rw [after_append, line_perform_of_ne about apart]
    exact ⟨by rw [get_entries, get_entries, same], by rw [get_ids, get_ids, same]⟩
  · rw [after_append]
    rcases line?_perform_of_held about differ held with same | taken
    · exact .inl ⟨(lookup_congr same).trans held, entry_congr same⟩
    · exact .inr taken

/-- Two addresses with one line: the second is removed in vain, and then takes the place of the
first. -/
theorem alias_takes_over :
    index 0x5000 = index 0x1000 ∧
    (after [.insert 0x1000 ⟨3⟩ 0xDEAD0000, .remove 0x5000]).lookup 0x1000 = some ⟨3⟩ ∧
    (after [.insert 0x1000 ⟨3⟩ 0xDEAD0000, .remove 0x5000]).entry 0x1000 = ⟨0x1000, 0xDEAD0000⟩ ∧
    (after [.insert 0x1000 ⟨3⟩ 0xDEAD0000, .insert 0x5000 ⟨4⟩ 0xBEEF0000]).lookup 0x5000 =
      some ⟨4⟩ ∧
    (after [.insert 0x1000 ⟨3⟩ 0xDEAD0000, .insert 0x5000 ⟨4⟩ 0xBEEF0000]).lookup 0x1000 =
      none := by
  have same : index 0x5000 = index 0x1000 := by decide
  have kept : Live [.insert 0x1000 ⟨3⟩ 0xDEAD0000, .remove 0x5000] 0x1000 ⟨3⟩ 0xDEAD0000 := by
    refine ⟨[], _, [.remove 0x5000], rfl, rfl, rfl, ?_⟩
    simp [Call.Concerns]
  have taken :
      Live [.insert 0x1000 ⟨3⟩ 0xDEAD0000, .insert 0x5000 ⟨4⟩ 0xBEEF0000] 0x5000 ⟨4⟩ 0xBEEF0000 :=
    ⟨[_], _, [], rfl, rfl, rfl, by simp⟩
  have gone : ¬ ∃ id host, Live [.insert 0x1000 ⟨3⟩ 0xDEAD0000, .insert 0x5000 ⟨4⟩ 0xBEEF0000]
      0x1000 id host := by
    rintro ⟨id, host, live⟩
    rcases (@latestIs_append Call _ _ [_] _).1 live with ⟨-, other⟩ | ⟨apart, -⟩
    · cases other
    · exact apart same
  obtain ⟨found, entry, -⟩ := direct_mapped [.insert 0x1000 ⟨3⟩ 0xDEAD0000, .remove 0x5000]
  obtain ⟨found', -, absent, -⟩ :=
    direct_mapped [.insert 0x1000 ⟨3⟩ 0xDEAD0000, .insert 0x5000 ⟨4⟩ 0xBEEF0000]
  exact ⟨same, (found _ _).2 ⟨_, kept⟩, entry _ _ _ kept, (found' _ _).2 ⟨_, taken⟩, absent _ gone⟩

end Dynarec.JumpCache
