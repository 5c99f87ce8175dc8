import Std.Data.HashMap
import Dynarec.Block.Basic

/-! Open exits: exits that lead to the dispatcher while they wait for a block at their target. -/
namespace Dynarec

/-- Exit `exit` of block `src` waits for a block at `target`. -/
structure OpenExit where
  target : UInt32
  src : BlockId
  exit : Nat
  deriving DecidableEq, Repr

/-- A list for each address that exits wait for: their blocks and their numbers, in the order in
which they began to wait. -/
structure ChainTable where
  lists : Std.HashMap UInt32 (List (BlockId × Nat))
  /-- No list is empty, and an exit stands in it once. -/
  tidy : ∀ {target : UInt32} {list}, lists[target]? = some list → list ≠ [] ∧ list.Nodup

namespace ChainTable

def empty : ChainTable where
  lists := ∅
  tidy h := by simp at h

/-- The blocks and numbers of the exits that wait for an address. -/
def listOf (t : ChainTable) (target : UInt32) : List (BlockId × Nat) := t.lists.getD target []

/-- The list of an address, behind which an exit stands that it did not have. -/
def extended (t : ChainTable) (target : UInt32) (src : BlockId) (exit : Nat) :
    List (BlockId × Nat) :=
  if (t.listOf target).contains (src, exit) then t.listOf target
  else t.listOf target ++ [(src, exit)]

/-- What is left of a list without the exits of a block, if that is anything. -/
def without? (src : BlockId) (list : List (BlockId × Nat)) : Option (List (BlockId × Nat)) :=
  let left := list.filter (·.1 ≠ src)
  if left = [] then none else some left

theorem nodup_listOf (t : ChainTable) (target : UInt32) : (t.listOf target).Nodup := by
  rw [listOf, Std.HashMap.getD_eq_getD_getElem?]
  cases h : t.lists[target]? with
  | none => exact List.nodup_nil
  | some list => exact (t.tidy h).2

theorem extended_of_mem {t : ChainTable} {target : UInt32} {src : BlockId} {exit : Nat}
    (present : (src, exit) ∈ t.listOf target) : t.extended target src exit = t.listOf target :=
  if_pos (List.contains_iff_mem.2 present)

theorem extended_of_not_mem {t : ChainTable} {target : UInt32} {src : BlockId} {exit : Nat}
    (absent : (src, exit) ∉ t.listOf target) :
    t.extended target src exit = t.listOf target ++ [(src, exit)] :=
  if_neg (mt List.contains_iff_mem.1 absent)

/-- Adding an exit keeps the list of an address tidy. -/
theorem tidy_extended (t : ChainTable) (target : UInt32) (src : BlockId) (exit : Nat) :
    t.extended target src exit ≠ [] ∧ (t.extended target src exit).Nodup := by
  by_cases present : (src, exit) ∈ t.listOf target
  · rw [extended_of_mem present]
    exact ⟨List.ne_nil_of_mem present, t.nodup_listOf target⟩
  · rw [extended_of_not_mem present]
    refine ⟨by simp, List.nodup_append.2 ⟨t.nodup_listOf target, by simp, ?_⟩⟩
    intro p hp q hq same
    exact present (List.mem_singleton.1 hq ▸ same ▸ hp)

/-- A list that a source leaves empty is not kept. -/
theorem without?_eq_some {src : BlockId} {list left : List (BlockId × Nat)} :
    without? src list = some left ↔ left ≠ [] ∧ left = list.filter (·.1 ≠ src) := by
  unfold without?
  dsimp only
  split
  · next nothing => rw [nothing]; simp
  · next something =>
    constructor
    · rintro ⟨⟩
      exact ⟨something, rfl⟩
    · rintro ⟨-, rfl⟩
      rfl

def add (t : ChainTable) (target : UInt32) (src : BlockId) (exit : Nat) : ChainTable where
  lists := t.lists.insert target (t.extended target src exit)
  tidy h := by
    rw [Std.HashMap.getElem?_insert] at h
    split at h
    · cases h
      exact t.tidy_extended target src exit
    · exact t.tidy h

/-- The exits that wait for an address. -/
def pendingFor (t : ChainTable) (target : UInt32) : List OpenExit :=
  (t.listOf target).map fun p => ⟨target, p.1, p.2⟩

/-- Drops the list of an address. -/
def drop (t : ChainTable) (target : UInt32) : ChainTable where
  lists := t.lists.erase target
  tidy h := by
    rw [Std.HashMap.getElem?_erase] at h
    split at h
    · cases h
    · exact t.tidy h

/-- Takes out the exits that wait for an address. -/
def take (t : ChainTable) (target : UInt32) : List OpenExit × ChainTable :=
  (t.pendingFor target, t.drop target)

/-- Drops the exits of a block, and with them the lists in which there were no others. -/
def removeSource (t : ChainTable) (src : BlockId) : ChainTable where
  lists := t.lists.filterMap fun _ list => without? src list
  tidy h := by
    rw [Std.HashMap.getElem?_filterMap'] at h
    obtain ⟨list, found, left⟩ := Option.bind_eq_some_iff.1 h
    obtain ⟨something, rfl⟩ := without?_eq_some.1 left
    exact ⟨something, (t.tidy found).2.filter _⟩

def clear (_ : ChainTable) : ChainTable := .empty

/-- The number of open exits. -/
def size (t : ChainTable) : Nat := t.lists.fold (fun n _ list => n + list.length) 0

def isEmpty (t : ChainTable) : Bool := t.lists.isEmpty

/-- All open exits. -/
def waiting (t : ChainTable) : List OpenExit :=
  t.lists.toList.flatMap fun entry => entry.2.map fun p => ⟨entry.1, p.1, p.2⟩

section Lists

variable {t : ChainTable} {target : UInt32} {src : BlockId} {exit : Nat} {w : OpenExit}

@[simp] theorem listOf_empty : empty.listOf target = [] := by simp [listOf, empty]

/-- The table stores a list for an address exactly if it is not empty. -/
theorem getElem?_lists_eq_some {list : List (BlockId × Nat)} :
    t.lists[target]? = some list ↔ list ≠ [] ∧ t.listOf target = list := by
  rw [listOf, Std.HashMap.getD_eq_getD_getElem?]
  cases h : t.lists[target]? with
  | none =>
    constructor
    · rintro ⟨⟩
    · rintro ⟨something, nothing⟩
      exact absurd nothing.symm something
  | some found =>
    constructor
    · rintro ⟨⟩
      exact ⟨(t.tidy h).1, rfl⟩
    · rintro ⟨-, rfl⟩
      rfl

theorem listOf_add (pc : UInt32) :
    (t.add target src exit).listOf pc = if target = pc then t.extended target src exit
      else t.listOf pc := by
  simp only [listOf, add, Std.HashMap.getD_insert, beq_iff_eq]

theorem listOf_drop (pc : UInt32) :
    (t.drop target).listOf pc = if target = pc then [] else t.listOf pc := by
  simp only [listOf, drop, Std.HashMap.getD_erase, beq_iff_eq]

theorem listOf_removeSource (pc : UInt32) :
    (t.removeSource src).listOf pc = (t.listOf pc).filter (·.1 ≠ src) := by
  simp only [listOf, removeSource, Std.HashMap.getD_eq_getD_getElem?,
    Std.HashMap.getElem?_filterMap']
  cases t.lists[pc]? with
  | none => rfl
  | some list =>
    rw [Option.bind_some, Option.getD_some, without?]
    split
    · next nothing => rw [nothing, Option.getD_none]
    · rw [Option.getD_some]

theorem mem_extended {p : BlockId × Nat} :
    p ∈ t.extended target src exit ↔ p ∈ t.listOf target ∨ p = (src, exit) := by
  by_cases present : (src, exit) ∈ t.listOf target
  · rw [extended_of_mem present]
    constructor
    · exact Or.inl
    · rintro (old | rfl)
      · exact old
      · exact present
  · simp [extended_of_not_mem present]

theorem mem_pendingFor :
    w ∈ t.pendingFor target ↔ w.target = target ∧ (w.src, w.exit) ∈ t.listOf target := by
  rw [pendingFor, List.mem_map]
  constructor
  · rintro ⟨p, hp, rfl⟩
    exact ⟨rfl, hp⟩
  · rintro ⟨rfl, hp⟩
    exact ⟨_, hp, rfl⟩

theorem nodup_pendingFor (t : ChainTable) (target : UInt32) : (t.pendingFor target).Nodup := by
  rw [pendingFor, List.Nodup, List.pairwise_map]
  refine (t.nodup_listOf target).imp fun differ same => differ ?_
  obtain ⟨-, sameSrc, sameExit⟩ := OpenExit.mk.inj same
  exact Prod.ext sameSrc sameExit

/-- The exits that wait are those in the list of their own target. -/
theorem mem_waiting : w ∈ t.waiting ↔ (w.src, w.exit) ∈ t.listOf w.target := by
  rw [waiting, List.mem_flatMap]
  constructor
  · rintro ⟨⟨pc, list⟩, entry, hw⟩
    obtain ⟨p, hp, rfl⟩ := List.mem_map.1 hw
    have found := Std.HashMap.mem_toList_iff_getElem?_eq_some.1 entry
    rw [(getElem?_lists_eq_some.1 found).2]
    exact hp
  · intro hp
    refine ⟨(w.target, t.listOf w.target), ?_, List.mem_map.2 ⟨_, hp, rfl⟩⟩
    rw [Std.HashMap.mem_toList_iff_getElem?_eq_some]
    exact getElem?_lists_eq_some.2 ⟨List.ne_nil_of_mem hp, rfl⟩

/-- The exits that are pending for an address are those that wait for it. -/
theorem mem_pendingFor_iff : w ∈ t.pendingFor target ↔ w ∈ t.waiting ∧ w.target = target := by
  rw [mem_pendingFor, mem_waiting]
  constructor
  · rintro ⟨rfl, hp⟩
    exact ⟨hp, rfl⟩
  · rintro ⟨hp, rfl⟩
    exact ⟨rfl, hp⟩

/-- An exit waits for an address once. -/
theorem nodup_waiting (t : ChainTable) : t.waiting.Nodup := by
  rw [waiting, List.Nodup, List.pairwise_flatMap]
  constructor
  · rintro ⟨pc, list⟩ entry
    have found := Std.HashMap.mem_toList_iff_getElem?_eq_some.1 entry
    have once := t.nodup_pendingFor pc
    rwa [pendingFor, (getElem?_lists_eq_some.1 found).2] at once
  · refine Std.HashMap.distinct_keys_toList.imp ?_
    intro a b apart v hv w hw same
    obtain ⟨p, -, rfl⟩ := List.mem_map.1 hv
    obtain ⟨q, -, rfl⟩ := List.mem_map.1 hw
    rw [(OpenExit.mk.inj same).1, beq_self_eq_true] at apart
    cases apart

@[simp] theorem waiting_empty : empty.waiting = [] := by simp [waiting, empty]

/-- Adding an exit makes it wait, beside those that did before. -/
theorem mem_add :
    w ∈ (t.add target src exit).waiting ↔ w ∈ t.waiting ∨ w = ⟨target, src, exit⟩ := by
  simp only [mem_waiting, listOf_add]
  obtain ⟨pc, s, k⟩ := w
  split
  · next here =>
    rw [mem_extended, here]
    simp
  · next elsewhere => simp [Ne.symm elsewhere]

theorem mem_drop : w ∈ (t.drop target).waiting ↔ w ∈ t.waiting ∧ w.target ≠ target := by
  simp only [mem_waiting, listOf_drop]
  split
  · next here => simp [here]
  · next elsewhere => simp [Ne.symm elsewhere]

theorem mem_removeSource : w ∈ (t.removeSource src).waiting ↔ w ∈ t.waiting ∧ w.src ≠ src := by
  simp [mem_waiting, listOf_removeSource]

/-- The size counts each waiting exit once. -/
theorem size_eq_length (t : ChainTable) : t.size = t.waiting.length := by
  have counted (entries : List (UInt32 × List (BlockId × Nat))) (n : Nat) :
      entries.foldl (fun n entry => n + entry.2.length) n = n + (entries.map (·.2.length)).sum := by
    induction entries generalizing n with
    | nil => rfl
    | cons entry entries ih => rw [List.foldl_cons, ih, List.map_cons, List.sum_cons, Nat.add_assoc]
  rw [size, Std.HashMap.fold_eq_foldl_toList, counted, waiting, List.length_flatMap]
  simp only [List.length_map, Nat.zero_add]

end Lists

end ChainTable
end Dynarec
