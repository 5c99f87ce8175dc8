import Dynarec.Block.ChainTable
import Mathlib

/-!
The table of open exits over any sequence of calls. It stands for the set of exits that the calls
have put in and not taken out since, and lists those of an address in the order in which they came.
-/
namespace Dynarec.ChainTable

/-- A call that changes the table. -/
inductive Call where
  | add (w : OpenExit)
  | take (target : UInt32)
  | removeSource (src : BlockId)
  | clear
  deriving DecidableEq, Repr

namespace Call

def perform (t : ChainTable) : Call → ChainTable
  | .add w => t.add w.target w.src w.exit
  | .take target => (t.take target).2
  | .removeSource src => t.removeSource src
  | .clear => t.clear

/-- What the call makes of a set of open exits. -/
def onSet (s : Finset OpenExit) : Call → Finset OpenExit
  | .add w => insert w s
  | .take target => s.filter (·.target ≠ target)
  | .removeSource src => s.filter (·.src ≠ src)
  | .clear => ∅

/-- The exit is not in the table behind the call, whatever was in it before. -/
def Removes (c : Call) (w : OpenExit) : Prop :=
  match c with
  | .add _ => False
  | .take target => w.target = target
  | .removeSource src => w.src = src
  | .clear => True

end Call

/-- The table behind calls on a new one. -/
def after (calls : List Call) : ChainTable := calls.foldl Call.perform .empty

/-- The set of open exits behind calls. -/
def openSet (calls : List Call) : Finset OpenExit := calls.foldl Call.onSet ∅

/-- Call `n` puts the exit in, and no later call takes it out. -/
def PutSince (calls : List Call) (w : OpenExit) (n : Nat) : Prop :=
  calls[n]? = some (.add w) ∧ ∀ k c, n < k → calls[k]? = some c → ¬ c.Removes w

/-- Call `n` is the first to put the exit in since it was last taken out. -/
def Began (calls : List Call) (w : OpenExit) (n : Nat) : Prop := IsLeast {k | PutSince calls w k} n

/-- The first exit began to wait before the second. -/
def Precedes (calls : List Call) (v w : OpenExit) : Prop :=
  ∀ m n, Began calls v m → Began calls w n → m < n

variable {calls : List Call} {c : Call} {w : OpenExit} {n : Nat}

theorem after_append (calls : List Call) (c : Call) :
    after (calls ++ [c]) = c.perform (after calls) := by
  rw [after, List.foldl_append]
  rfl

theorem openSet_append (calls : List Call) (c : Call) :
    openSet (calls ++ [c]) = c.onSet (openSet calls) := by
  rw [openSet, List.foldl_append]
  rfl

/-- A call keeps the exits that it does not take out, and adds at most one. -/
theorem mem_onSet {s : Finset OpenExit} : w ∈ c.onSet s ↔ (w ∈ s ∧ ¬ c.Removes w) ∨ c = .add w := by
  cases c with
  | add v =>
    simp only [Call.onSet, Call.Removes, Finset.mem_insert, not_false_eq_true, and_true,
      Call.add.injEq]
    rw [or_comm, eq_comm]
  | take target => simp [Call.onSet, Call.Removes]
  | removeSource src => simp [Call.onSet, Call.Removes]
  | clear => simp [Call.onSet, Call.Removes]

/-- The same for the table. -/
theorem mem_perform {t : ChainTable} :
    w ∈ (c.perform t).waiting ↔ (w ∈ t.waiting ∧ ¬ c.Removes w) ∨ c = .add w := by
  cases c with
  | add v =>
    rw [Call.perform, mem_add]
    simp only [Call.Removes, not_false_eq_true, and_true, Call.add.injEq]
    rw [eq_comm]
  | take target =>
    rw [Call.perform, take, mem_drop]
    simp [Call.Removes]
  | removeSource src =>
    rw [Call.perform, mem_removeSource]
    simp [Call.Removes]
  | clear => simp [Call.perform, clear, Call.Removes]

theorem mem_waiting_after : w ∈ (after calls).waiting ↔ w ∈ openSet calls := by
  induction calls using List.reverseRecOn with
  | nil => simp [after, openSet]
  | append_singleton calls c ih => rw [after_append, openSet_append, mem_perform, mem_onSet, ih]

section Began

theorem PutSince.lt_length (h : PutSince calls w n) : n < calls.length :=
  (List.getElem?_eq_some_iff.1 h.1).1

/-- A further call undoes what put the exit in, or leaves it, or puts the exit in itself. -/
theorem putSince_append : PutSince (calls ++ [c]) w n ↔
    (PutSince calls w n ∧ ¬ c.Removes w) ∨ (c = .add w ∧ n = calls.length) := by
  have old {k : Nat} (low : k < calls.length) : (calls ++ [c])[k]? = calls[k]? :=
    List.getElem?_append_left low
  have new : (calls ++ [c])[calls.length]? = some c := by simp
  have within {k : Nat} {d : Call} (hd : (calls ++ [c])[k]? = some d) : k < calls.length ∨
      k = calls.length := by
    have := (List.getElem?_eq_some_iff.1 hd).1
    rw [List.length_append, List.length_singleton] at this
    omega
  constructor
  · rintro ⟨put, stays⟩
    rcases within put with low | rfl
    · refine .inl ⟨⟨(old low).symm.trans put, fun k d hk hd => ?_⟩, stays _ c low new⟩
      exact stays k d hk ((old (List.getElem?_eq_some_iff.1 hd).1).trans hd)
    · exact .inr ⟨Option.some.inj (new.symm.trans put), rfl⟩
  · rintro (⟨⟨put, stays⟩, kept⟩ | ⟨rfl, rfl⟩)
    · refine ⟨(old (List.getElem?_eq_some_iff.1 put).1).trans put, fun k d hk hd => ?_⟩
      rcases within hd with low | rfl
      · exact stays k d hk ((old low).symm.trans hd)
      · cases new.symm.trans hd
        exact kept
    · refine ⟨new, fun k d hk hd => ?_⟩
      rcases within hd with low | same
      · omega
      · omega

/-- The open exits are those that a call has put in since they were last taken out. -/
theorem mem_openSet_iff : w ∈ openSet calls ↔ ∃ n, PutSince calls w n := by
  induction calls using List.reverseRecOn with
  | nil =>
    simp only [openSet, List.foldl_nil, Finset.notMem_empty, false_iff, not_exists]
    intro n put
    exact absurd put.lt_length (Nat.not_lt_zero n)
  | append_singleton calls c ih =>
    rw [openSet_append, mem_onSet, ih]
    constructor
    · rintro (⟨⟨n, put⟩, kept⟩ | added)
      · exact ⟨n, putSince_append.2 (.inl ⟨put, kept⟩)⟩
      · exact ⟨calls.length, putSince_append.2 (.inr ⟨added, rfl⟩)⟩
    · rintro ⟨n, put⟩
      rcases putSince_append.1 put with ⟨before, kept⟩ | ⟨added, -⟩
      · exact .inl ⟨⟨n, before⟩, kept⟩
      · exact .inr added

/-- An open exit began to wait with one call, and other exits with none. -/
theorem mem_openSet_iff_began : w ∈ openSet calls ↔ ∃! n, Began calls w n := by
  rw [mem_openSet_iff]
  constructor
  · intro put
    classical
    have least : Began calls w (Nat.find put) :=
      ⟨Nat.find_spec put, fun k hk => Nat.find_min' put hk⟩
    exact ⟨_, least, fun n began => began.unique least⟩
  · rintro ⟨n, began, -⟩
    exact ⟨n, began.1⟩

/-- A further call does not change where an exit began to wait that is open before it. -/
theorem began_of_append (h : Began (calls ++ [c]) w n) (hw : w ∈ openSet calls) :
    Began calls w n := by
  obtain ⟨k, put⟩ := mem_openSet_iff.1 hw
  rcases putSince_append.1 h.1 with ⟨here, kept⟩ | ⟨rfl, rfl⟩
  · exact ⟨here, fun i hi => h.2 (putSince_append.2 (.inl ⟨hi, kept⟩))⟩
  · have late := h.2 (putSince_append.2 (.inl ⟨put, not_false⟩))
    exact absurd put.lt_length (Nat.not_lt.2 late)

end Began

section Order

theorem Precedes.append {v : OpenExit} (h : Precedes calls v w) (hv : v ∈ openSet calls)
    (hw : w ∈ openSet calls) : Precedes (calls ++ [c]) v w := by
  intro m n began began'
  exact h m n (began_of_append began hv) (began_of_append began' hw)

/-- An exit that was not open comes behind all that were. -/
theorem precedes_new {v : OpenExit} (hv : v ∈ openSet calls) (hw : w ∉ openSet calls) :
    Precedes (calls ++ [.add w]) v w := by
  intro m n began began'
  rcases putSince_append.1 began'.1 with ⟨before, -⟩ | ⟨-, rfl⟩
  · exact absurd (mem_openSet_iff.2 ⟨n, before⟩) hw
  · exact (began_of_append began hv).1.lt_length

/-- What a call makes of the list of an address: exits are left out, or one is put behind the
others. -/
theorem pendingFor_perform (t : ChainTable) (c : Call) (pc : UInt32) :
    ((c.perform t).pendingFor pc).Sublist (t.pendingFor pc) ∨
      ∃ w, c = .add w ∧ w.target = pc ∧ w ∉ t.waiting ∧
        (c.perform t).pendingFor pc = t.pendingFor pc ++ [w] := by
  cases c with
  | add w =>
    rw [Call.perform, pendingFor, listOf_add]
    by_cases here : w.target = pc
    · rw [if_pos here]
      subst here
      by_cases present : (w.src, w.exit) ∈ t.listOf w.target
      · left
        rw [extended_of_mem present]
        exact List.Sublist.refl _
      · right
        refine ⟨w, rfl, rfl, fun waits => present (mem_waiting.1 waits), ?_⟩
        rw [extended_of_not_mem present, List.map_append]
        rfl
    · left
      rw [if_neg here]
      exact List.Sublist.refl _
  | take target =>
    left
    rw [Call.perform, take, pendingFor, listOf_drop]
    split
    · exact List.nil_sublist _
    · exact List.Sublist.refl _
  | removeSource src =>
    left
    rw [Call.perform, pendingFor, listOf_removeSource]
    exact List.filter_sublist.map _
  | clear =>
    left
    rw [Call.perform, clear, pendingFor, listOf_empty]
    exact List.nil_sublist _

theorem mem_openSet_of_pending {pc : UInt32} (h : w ∈ (after calls).pendingFor pc) :
    w ∈ openSet calls :=
  mem_waiting_after.1 (mem_pendingFor_iff.1 h).1

/-- The exits of an address are listed in the order in which they began to wait. -/
theorem pendingFor_ordered (calls : List Call) (pc : UInt32) :
    ((after calls).pendingFor pc).Pairwise (Precedes calls) := by
  induction calls using List.reverseRecOn with
  | nil =>
    rw [after, List.foldl_nil, pendingFor, listOf_empty]
    exact List.Pairwise.nil
  | append_singleton calls c ih =>
    have kept : ((after calls).pendingFor pc).Pairwise (Precedes (calls ++ [c])) := by
      refine ih.imp_of_mem ?_
      intro v w hv hw before
      exact before.append (mem_openSet_of_pending hv) (mem_openSet_of_pending hw)
    rw [after_append]
    rcases pendingFor_perform (after calls) c pc with fewer | ⟨w, rfl, -, absent, grown⟩
    · exact kept.sublist fewer
    · rw [grown, List.pairwise_append]
      refine ⟨kept, List.pairwise_singleton _ _, fun v hv w' hw' => ?_⟩
      cases List.mem_singleton.1 hw'
      exact precedes_new (mem_openSet_of_pending hv) fun present =>
        absent (mem_waiting_after.2 present)

end Order

theorem isEmpty_iff (t : ChainTable) : t.isEmpty = true ↔ t.size = 0 := by
  rw [size_eq_length, List.length_eq_zero_iff, List.eq_nil_iff_forall_not_mem, isEmpty,
    Std.HashMap.isEmpty_iff_forall_not_mem]
  constructor
  · intro vacant w waits
    have found := getElem?_lists_eq_some.2 ⟨List.ne_nil_of_mem (mem_waiting.1 waits), rfl⟩
    exact vacant w.target (Std.HashMap.mem_iff_isSome_getElem?.2 (by rw [found]; rfl))
  · intro none_waits pc present
    obtain ⟨list, found⟩ :=
      Option.isSome_iff_exists.1 (Std.HashMap.mem_iff_isSome_getElem?.1 present)
    obtain ⟨something, same⟩ := getElem?_lists_eq_some.1 found
    obtain ⟨⟨src, exit⟩, hp⟩ := List.exists_mem_of_ne_nil list something
    exact none_waits ⟨pc, src, exit⟩ (mem_waiting.2 (same ▸ hp))

/-- Behind any calls the table stands for the set of exits that they have put in and not taken out
since. It lists those of an address each once, in the order in which they began to wait, and a
taking call returns that list. Its size is that of the set, and it is empty just when nothing is
left in it: no address keeps an empty list. -/
theorem represents_open_set (calls : List Call) :
    (∀ w, w ∈ (after calls).waiting ↔ w ∈ openSet calls) ∧
    (∀ w, w ∈ openSet calls ↔ ∃! n, Began calls w n) ∧
    (∀ pc, (∀ w, w ∈ (after calls).pendingFor pc ↔ w ∈ openSet calls ∧ w.target = pc) ∧
      ((after calls).pendingFor pc).Nodup ∧
      ((after calls).pendingFor pc).Pairwise (Precedes calls) ∧
      ((after calls).take pc).1 = (after calls).pendingFor pc) ∧
    (after calls).size = (openSet calls).card ∧
    ((after calls).isEmpty = true ↔ (after calls).size = 0) ∧
    ∀ pc : UInt32, (after calls).lists[pc]? ≠ some [] := by
  have same : ∀ w, w ∈ (after calls).waiting ↔ w ∈ openSet calls := fun w => mem_waiting_after
  refine ⟨same, fun w => mem_openSet_iff_began, fun pc => ⟨fun w => ?_, nodup_pendingFor _ pc,
    pendingFor_ordered calls pc, rfl⟩, ?_, isEmpty_iff _, fun pc nothing => ?_⟩
  · rw [mem_pendingFor_iff, same]
  · rw [size_eq_length, ← List.toFinset_card_of_nodup (nodup_waiting _)]
    congr 1
    ext w
    rw [List.mem_toFinset, same]
  · exact ((after calls).tidy nothing).1 rfl

end Dynarec.ChainTable
