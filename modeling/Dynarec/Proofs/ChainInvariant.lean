import Dynarec.Proofs.BlockExecution

/-!
The graph of chained blocks in every engine that operations lead to: exits, lists of incoming exits,
the table of open exits and the index agree.
-/
namespace Dynarec

/-- The exits of a block that are not linked, as they wait. -/
def Block.openExits (b : Block) : List OpenExit :=
  (b.exits.zipIdx.filter (·.1.linked.isNone)).map fun (x, k) => ⟨x.target, b.id, k⟩

namespace Block

variable {b : Block} {w : OpenExit}

theorem mem_openExits : w ∈ b.openExits ↔
    w.src = b.id ∧ ∃ x, b.exits[w.exit]? = some x ∧ x.target = w.target ∧ x.linked = none := by
  simp only [openExits, List.mem_map, List.mem_filter, List.mem_zipIdx_iff_getElem?,
    Option.isNone_iff_eq_none]
  constructor
  · rintro ⟨⟨x, k⟩, ⟨hx, unlinked⟩, rfl⟩
    exact ⟨rfl, x, hx, rfl, unlinked⟩
  · rintro ⟨source, x, hx, target, unlinked⟩
    refine ⟨(x, w.exit), ⟨hx, unlinked⟩, ?_⟩
    rw [target, ← source]

theorem length_openExits (b : Block) : b.openExits.length = b.exits.countP (·.linked.isNone) := by
  have exits : b.exits.zipIdx.map Prod.fst = b.exits := List.zipIdx_map_fst 0 b.exits
  rw [openExits, List.length_map, ← List.countP_eq_length_filter]
  conv_rhs => rw [← exits]
  rw [List.countP_map]
  rfl

theorem nodup_openExits (b : Block) : b.openExits.Nodup := by
  have indices : (b.exits.zipIdx.map Prod.snd).Nodup := by
    rw [List.zipIdx_map_snd]
    exact List.nodup_range'
  refine .of_map OpenExit.exit ?_
  rw [openExits, List.map_map]
  exact indices.sublist (List.filter_sublist.map Prod.snd)

theorem linkState_eq (b : Block) :
    b.linkState = if ∀ x ∈ b.exits, x.linked ≠ none then .chained else .partialLinks := by
  simp only [linkState, List.all_eq_true, Option.isSome_iff_ne_none]

end Block

namespace Engine

variable {e : Engine} {src : Nat → List Insn}

/-- The exits of resident blocks that are not linked. -/
def openExits (e : Engine) : List OpenExit :=
  (e.cache.blocks.toList.filter (·.isValid)).flatMap Block.openExits

theorem Placed.mem_openExits (h : e.Placed src) {w : OpenExit} : w ∈ e.openExits ↔
    ∃ x, e.HasExit w.src w.exit x ∧ x.target = w.target ∧ x.linked = none := by
  simp only [openExits, List.mem_flatMap, List.mem_filter, mem_blocks, Block.mem_openExits]
  constructor
  · rintro ⟨b, ⟨⟨i, hb⟩, valid⟩, source, x, hx, target, unlinked⟩
    refine ⟨x, ⟨b, ?_, valid, hx⟩, target, unlinked⟩
    rw [source, h.id hb]
    exact hb
  · rintro ⟨x, ⟨b, hb, valid, hx⟩, target, unlinked⟩
    exact ⟨b, ⟨⟨w.src, hb⟩, valid⟩, (h.id hb).symm, x, hx, target, unlinked⟩

theorem Placed.nodup_openExits (h : e.Placed src) : e.openExits.Nodup := by
  refine List.nodup_flatMap.2 ⟨fun b _ => b.nodup_openExits, List.Pairwise.filter _ ?_⟩
  rw [List.pairwise_iff_getElem]
  intro i j hi hj lt w hw hw'
  have id (n : Nat) (hn : n < e.cache.blocks.toList.length) :
      e.cache.blocks.toList[n].id = ⟨n⟩ := by
    have hb : e.block? ⟨n⟩ = some e.cache.blocks.toList[n] := by
      rw [block?, ← Array.getElem?_toList, List.getElem?_eq_getElem hn]
    exact h.id hb
  have same := (Block.mem_openExits.1 hw).1.symm.trans (Block.mem_openExits.1 hw').1
  rw [id, id] at same
  exact absurd (BlockId.mk.inj same) (Nat.ne_of_lt lt)

/-- The number of exits of resident blocks that are not linked. -/
def unlinkedExits (e : Engine) : Nat :=
  ((e.cache.blocks.toList.filter (·.isValid)).map fun b => b.exits.countP (·.linked.isNone)).sum

theorem length_openExits (e : Engine) : e.openExits.length = e.unlinkedExits := by
  rw [openExits, List.length_flatMap, unlinkedExits]
  simp only [Block.length_openExits]

/-- Resident blocks are linked wherever they can be, and exits that cannot be linked wait. -/
structure Chained (e : Engine) : Prop where
  linked : ∀ {s k x d b}, e.HasExit s k x → e.block? d = some b → b.isValid = true →
    b.entry = x.target → x.linked = some d
  unlinked : ∀ {s k x}, e.HasExit s k x →
    (∀ d b, e.block? d = some b → b.isValid = true → b.entry ≠ x.target) →
      x.linked = none ∧ e.chains.waiting.count ⟨x.target, s, k⟩ = 1 ∧
        ∀ t, (⟨t, s, k⟩ : OpenExit) ∈ e.chains.waiting → t = x.target
  waiting : ∀ {w}, w ∈ e.chains.waiting → ∃ x, e.HasExit w.src w.exit x ∧ x.target = w.target ∧
    x.linked = none
  size : e.chains.size = e.unlinkedExits
  incoming : ∀ {d b}, e.block? d = some b → b.isValid = true → b.incoming.Nodup ∧
    ∀ s k, (s, k) ∈ b.incoming ↔ ∃ x, e.HasExit s k x ∧ x.linked = some d
  state : ∀ {d b}, e.block? d = some b → b.isValid = true →
    b.state = if ∀ x ∈ b.exits, x.linked ≠ none then .chained else .partialLinks

/-- In an engine that links blocks no exit is postponed. -/
theorem Resting.chained (h : e.Resting src) (chaining : e.config.directChaining = true) :
    e.Chained := by
  have linked {s k x} (hx : e.HasExit s k x) : x.linked = e.cache.index[x.target]? :=
    h.graph.linked hx (by rw [chaining]; nofun)
  have waiting {w} : w ∈ e.chains.waiting ↔ ∃ x, e.HasExit w.src w.exit x ∧ x.target = w.target ∧
      x.linked = none := by
    simp [h.graph.waiting, chaining]
  refine ⟨?_, ?_, waiting.1, ?_, ?_, ?_⟩
  · intro s k x d b hx hb valid entry
    rw [linked hx]
    exact h.indexed.index.2 ⟨b, hb, valid, entry⟩
  · intro s k x hx absent
    have unlinked : x.linked = none := by
      rw [linked hx, Option.eq_none_iff_forall_ne_some]
      intro d hd
      obtain ⟨b, hb, valid, entry⟩ := h.indexed.index.1 hd
      exact absent d b hb valid entry
    refine ⟨unlinked, ?_, ?_⟩
    · exact List.count_eq_one_of_mem h.graph.waiting_nodup (waiting.2 ⟨x, hx, rfl, unlinked⟩)
    · intro t ht
      obtain ⟨y, hy, target, -⟩ := waiting.1 ht
      obtain rfl := HasExit.unique hx hy
      exact target.symm
  · have same : ∀ w, w ∈ e.chains.waiting ↔ w ∈ e.openExits :=
      fun w => waiting.trans h.placed.mem_openExits.symm
    rw [ChainTable.size_eq_length, ← length_openExits]
    exact ((List.perm_ext_iff_of_nodup h.graph.waiting_nodup h.placed.nodup_openExits).2
      same).length_eq
  · intro d b hb valid
    refine ⟨h.graph.incoming_nodup hb, fun s k => ?_⟩
    rw [h.graph.incoming hb, and_iff_right valid]
  · intro d b hb valid
    rw [h.graph.state hb valid]
    exact b.linkState_eq

/-- In every engine that operations lead to, blocks are linked to all resident blocks if they are
linked at all. Otherwise no exit is linked and none waits. -/
theorem Reachable.chain_graph (h : e.Reachable) :
    (e.config.directChaining = true → e.Chained) ∧
    (e.config.directChaining = false →
      (∀ {s k x}, e.StoredExit s k x → x.linked = none) ∧ e.chains.waiting = []) := by
  obtain ⟨src, made⟩ := h.made
  refine ⟨made.resting.chained, fun off => ⟨fun hx => made.resting.graph.postponed hx off, ?_⟩⟩
  rw [List.eq_nil_iff_forall_not_mem]
  intro w hw
  obtain ⟨x, -, -, -, hidden⟩ := made.resting.graph.waiting.1 hw
  exact hidden off

section Countdown

variable {id : BlockId} (h : onePage.Emitted src 0x100 countdown id e)
include h

/-- The loop branches back to itself and falls through behind itself. -/
theorem countdown_block :
    ∃ b, e.block? id = some b ∧ b.isValid = true ∧ b.entry = 0x100 ∧ b.stop = 0x10c ∧
    b.exits.map (·.target) = [0x100, 0x10c] := by
  obtain ⟨p, planned, stop, targets⟩ : ∃ p, onePage.plan 0x100 countdown = .ok p ∧ p.stop = 0x10c ∧
      ∀ q, (PlanStep.allExits q p.steps).map (·.target) = [0x100, 0x10c] :=
    ⟨_, rfl, rfl, fun q => rfl⟩
  obtain ⟨b, hb, valid, entry⟩ := h.block
  obtain ⟨p', follows⟩ := h.resting.placed.follows hb
  have plan := follows.planned
  rw [noted_self, entry, plan_of_frame h.frame, planned] at plan
  obtain rfl := Except.ok.inj plan
  refine ⟨b, hb, valid, entry, follows.stop.trans stop, ?_⟩
  rw [← targets b.hostOffset, ← follows.exits, List.map_map]
  rfl

theorem eq_countdown {d : BlockId} {b : Block} (hb : e.block? d = some b)
    (valid : b.isValid = true) : d = id := by
  by_contra other
  obtain ⟨_, old, -⟩ := h.old hb valid other
  cases old

end Countdown

theorem countdown_linked_to_itself : ∃ (e : Engine) (id : BlockId) (x y : ExitSlot), e.Reachable ∧
    e.config.directChaining = true ∧ e.HasExit id 0 x ∧ x.target = 0x100 ∧ x.linked = some id ∧
    e.HasExit id 1 y ∧ y.target = 0x10c ∧ y.linked = none ∧
    e.chains.waiting.count ⟨0x10c, id, 1⟩ = 1 := by
  obtain ⟨src, id, e, -, reachable, emitted⟩ := exists_countdown
  have chaining : e.config.directChaining = true := by rw [config_of_frame emitted.frame]; rfl
  have chained := reachable.chain_graph.1 chaining
  obtain ⟨b, hb, valid, entry, -, targets⟩ := countdown_block emitted
  have exit (k : Nat) (t : UInt32) (h : ([0x100, 0x10c] : List UInt32)[k]? = some t) :
      ∃ x, e.HasExit id k x ∧ x.target = t := by
    rw [← targets, List.getElem?_map] at h
    obtain ⟨x, hx, target⟩ := Option.map_eq_some_iff.1 h
    exact ⟨x, ⟨b, hb, valid, hx⟩, target⟩
  obtain ⟨x, hx, xTarget⟩ := exit 0 0x100 rfl
  obtain ⟨y, hy, yTarget⟩ := exit 1 0x10c rfl
  have absent (d : BlockId) (c : Block) (hc : e.block? d = some c) (hvalid : c.isValid = true) :
      c.entry ≠ y.target := by
    obtain rfl := eq_countdown emitted hc hvalid
    obtain rfl := Option.some.inj (hb.symm.trans hc)
    rw [entry, yTarget]
    decide
  obtain ⟨unlinked, once, -⟩ := chained.unlinked hy absent
  exact ⟨e, id, x, y, reachable, chaining, hx, xTarget,
    chained.linked hx hb valid (entry.trans xTarget.symm), hy, yTarget, unlinked, yTarget ▸ once⟩

end Engine
end Dynarec
