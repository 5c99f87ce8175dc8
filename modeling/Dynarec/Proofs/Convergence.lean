import Dynarec.Proofs.Coherence
import Dynarec.Proofs.Roster

/-!
Chaining converges: blocks at different addresses that fit into the buffer side by side come to be
linked in the same way, whatever the order in which they are emitted.
-/
namespace Dynarec

/-- What a block is apart from its place, its number and its links. -/
structure Profile where
  entry : UInt32
  stop : Nat
  icount : Nat
  hostSize : Nat
  terminal : TerminalKind
  targets : List UInt32
  deriving DecidableEq

def Block.profile (b : Block) : Profile where
  entry := b.entry
  stop := b.stop
  icount := b.icount
  hostSize := b.hostSize
  terminal := b.terminal
  targets := b.exits.map (·.target)

/-- The profile of the block that a plan becomes. -/
def Plan.profile (p : Plan) (pc : UInt32) : Profile where
  entry := pc
  stop := p.stop
  icount := p.icount
  hostSize := p.size
  terminal := p.terminal
  targets := (PlanStep.allExits 0 p.steps).map (·.target)

theorem Block.profile_body (b : Block) : b.body.profile = b.profile := by
  simp only [profile, body, List.map_map]
  rfl

/-- The targets of exits do not depend on where the code stands. -/
theorem PlanStep.target_allExits (m n : Nat) (steps : List PlanStep) :
    (allExits m steps).map (·.target) = (allExits n steps).map (·.target) := by
  have slot (m n : Nat) (v : SlotValue) (s : Slot) :
      (v.exits m s).map (·.target) = (v.exits n s).map (·.target) := by
    cases v <;> rfl
  have step (m n : Nat) (s : PlanStep) :
      (s.exits m).map (·.target) = (s.exits n).map (·.target) := by
    cases s with
    | place t values =>
      simp only [exits, SlotValue.exitsOf, List.map_flatMap]
      exact List.flatMap_congr fun q _ => slot m n q.2 q.1
    | fallthrough => rfl
  induction steps generalizing m n with
  | nil => rfl
  | cons s steps ih =>
    rw [allExits, allExits, List.map_append, List.map_append, step m n,
      ih (m + s.size) (n + s.size)]

theorem Roster.profile_nextBlock (r : Roster) (pc : UInt32) (p : Plan) :
    (r.nextBlock pc p).profile = p.profile pc := by
  simp only [Block.profile, Roster.nextBlock, Plan.profile, PlanStep.target_allExits r.cursor 0]

namespace Engine

open Traced

variable {a b e : Engine} {i j : BlockId} {p q : Block} {k : Nat} {pc t : UInt32}

def profiles (e : Engine) : List Profile := e.cache.blocks.toList.map Block.profile

/-- The addresses at which blocks are stored. -/
def entries (e : Engine) : List UInt32 := e.profiles.map (·.entry)

/-- The address by which a block can be named when its number does not matter. -/
def entryOf? (e : Engine) (id : BlockId) : Option UInt32 := (e.block? id).map (·.entry)

/-- An exit, with its block named by address. -/
def site (e : Engine) (x : BlockId × Nat) : Option UInt32 × Nat := (e.entryOf? x.1, x.2)

/-- The resident block at an address. -/
def resident? (e : Engine) (pc : UInt32) : Option Block := (e.lookup pc).bind e.block?

/-- The blocks differ in their place and in the numbers of the blocks that they are linked to. -/
structure Resembles (a b : Engine) (p q : Block) : Prop where
  profile : p.profile = q.profile
  state : p.state = q.state
  links : p.exits.map (·.linked.bind a.entryOf?) = q.exits.map (·.linked.bind b.entryOf?)
  incoming : (p.incoming.map a.site).Perm (q.incoming.map b.site)

/-- The engines are the same once blocks are named by address. -/
structure Alike (a b : Engine) : Prop where
  resident : ∀ pc, (a.resident? pc).isSome = (b.resident? pc).isSome
  blocks : ∀ {pc p q}, a.resident? pc = some p → b.resident? pc = some q → Resembles a b p q
  waiting : ∀ t, ((a.chains.pendingFor t).map fun w => a.site (w.src, w.exit)).Perm
    ((b.chains.pendingFor t).map fun w => b.site (w.src, w.exit))
  cursor : a.buffer.cursor = b.buffer.cursor
  stats : a.stats = b.stats

/-- A resident block has its like at the same address. -/
theorem Alike.exists_resembling (h : a.Alike b) (hp : a.resident? pc = some p) :
    ∃ q, b.resident? pc = some q ∧ Resembles a b p q := by
  have there : (b.resident? pc).isSome = true := by
    rw [← h.resident, hp]
    rfl
  obtain ⟨q, hq⟩ := Option.isSome_iff_exists.1 there
  exact ⟨q, hq, h.blocks hp hq⟩

/-- Every stored block is in use, blocks are linked, and every link has been counted. -/
structure Interlinked (e : Engine) : Prop where
  resting : ∃ src, e.Resting src
  chaining : e.config.directChaining = true
  valid : ∀ {i p}, e.block? i = some p → p.isValid = true
  tallied : e.stats.chainLinks = e.incomingCount

theorem mem_profiles {r : Profile} :
    r ∈ e.profiles ↔ ∃ i p, e.block? i = some p ∧ p.profile = r := by
  simp only [profiles, List.mem_map, mem_blocks]
  constructor
  · rintro ⟨p, ⟨i, hp⟩, profile⟩
    exact ⟨i, p, hp, profile⟩
  · rintro ⟨i, p, hp, profile⟩
    exact ⟨p, ⟨i, hp⟩, profile⟩

theorem mem_entries : pc ∈ e.entries ↔ ∃ i p, e.block? i = some p ∧ p.entry = pc := by
  simp only [entries, List.mem_map, mem_profiles]
  constructor
  · rintro ⟨_, ⟨i, p, hp, rfl⟩, entry⟩
    exact ⟨i, p, hp, entry⟩
  · rintro ⟨i, p, hp, entry⟩
    exact ⟨_, ⟨i, p, hp, rfl⟩, entry⟩

theorem site_eq (hp : e.block? i = some p) (k : Nat) : e.site (i, k) = (some p.entry, k) := by
  simp only [site, entryOf?, hp, Option.map_some]

theorem getElem?_targets (p : Block) (k : Nat) :
    p.profile.targets[k]? = p.exits[k]?.map (·.target) := by
  rw [Block.profile, List.getElem?_map]

namespace Interlinked

variable (h : e.Interlinked)
include h

theorem index_eq_some : e.cache.index[pc]? = some i ↔ ∃ p, e.block? i = some p ∧ p.entry = pc := by
  obtain ⟨src, resting⟩ := h.resting
  rw [resting.indexed.index]
  constructor
  · rintro ⟨p, hp, -, entry⟩
    exact ⟨p, hp, entry⟩
  · rintro ⟨p, hp, entry⟩
    exact ⟨p, hp, h.valid hp, entry⟩

theorem isSome_index : (e.cache.index[pc]?).isSome = true ↔ pc ∈ e.entries := by
  rw [Option.isSome_iff_exists, mem_entries]
  exact exists_congr fun i => h.index_eq_some

theorem linked_eq {x : ExitSlot} (hp : e.block? i = some p) (hx : p.exits[k]? = some x) :
    x.linked = e.cache.index[x.target]? := by
  obtain ⟨src, resting⟩ := h.resting
  refine resting.graph.linked ⟨p, hp, h.valid hp, hx⟩ fun off => ?_
  rw [h.chaining] at off
  cases off

theorem isSome_linked {x : ExitSlot} (hp : e.block? i = some p) (hx : p.exits[k]? = some x) :
    x.linked.isSome = decide (x.target ∈ e.entries) := by
  rw [h.linked_eq hp hx, Bool.eq_iff_iff, h.isSome_index, decide_eq_true_eq]

/-- An exit is linked to the block at its target, if there is one. -/
theorem link_eq {x : ExitSlot} (hp : e.block? i = some p) (hx : p.exits[k]? = some x) :
    x.linked.bind e.entryOf? = if x.target ∈ e.entries then some x.target else none := by
  rw [h.linked_eq hp hx]
  cases found : e.cache.index[x.target]? with
  | none =>
    have absent : x.target ∉ e.entries := by
      rw [← h.isSome_index, found]
      exact Bool.false_ne_true
    rw [if_neg absent]
    rfl
  | some d =>
    obtain ⟨q, hq, entry⟩ := h.index_eq_some.1 found
    rw [if_pos (mem_entries.2 ⟨d, q, hq, entry⟩), Option.bind_some, entryOf?, hq,
      Option.map_some, entry]

theorem links_eq (hp : e.block? i = some p) :
    p.exits.map (·.linked.bind e.entryOf?) = p.profile.targets.map fun t =>
      if t ∈ e.entries then some t else none := by
  apply List.ext_getElem?
  intro k
  rw [List.getElem?_map, List.getElem?_map, getElem?_targets]
  cases hx : p.exits[k]? with
  | none => rfl
  | some x => simp only [Option.map_some, h.link_eq hp hx]

/-- The state of a block is that of its targets. -/
theorem state_eq (hp : e.block? i = some p) :
    p.state = if p.profile.targets.all (· ∈ e.entries) then .chained else .partialLinks := by
  obtain ⟨src, resting⟩ := h.resting
  have all : p.exits.all (·.linked.isSome) = p.profile.targets.all (· ∈ e.entries) := by
    rw [Block.profile, List.all_map, Bool.eq_iff_iff, List.all_eq_true, List.all_eq_true]
    refine forall₂_congr fun x hx => ?_
    obtain ⟨k, hk⟩ := List.mem_iff_getElem?.1 hx
    rw [h.isSome_linked hp hk]
    rfl
  rw [resting.graph.state hp (h.valid hp), Block.linkState, all]

theorem eq_of_entry (hp : e.block? i = some p) (hq : e.block? j = some q)
    (same : p.entry = q.entry) : i = j := by
  obtain ⟨src, resting⟩ := h.resting
  exact resting.indexed.unique hp (h.valid hp) hq (h.valid hq) same

/-- Different exits of stored blocks have different names. -/
theorem nodup_sites {xs : List (BlockId × Nat)} (nodup : xs.Nodup)
    (stored : ∀ x ∈ xs, ∃ p, e.block? x.1 = some p) : (xs.map e.site).Nodup := by
  rw [List.Nodup, List.pairwise_map]
  refine nodup.imp_of_mem ?_
  rintro ⟨i, k⟩ ⟨j, l⟩ first second differ same
  obtain ⟨p, hp⟩ := stored _ first
  obtain ⟨q, hq⟩ := stored _ second
  rw [site_eq hp, site_eq hq] at same
  obtain ⟨entry, number⟩ := Prod.mk.inj same
  exact differ (Prod.ext (h.eq_of_entry hp hq (Option.some.inj entry)) number)

/-- The exits into a block are all those whose target is its address. -/
theorem mem_incoming (hp : e.block? i = some p) {x : Option UInt32 × Nat} :
    x ∈ p.incoming.map e.site ↔
      ∃ r ∈ e.profiles, x.1 = some r.entry ∧ r.targets[x.2]? = some p.entry := by
  obtain ⟨src, resting⟩ := h.resting
  rw [List.mem_map]
  constructor
  · rintro ⟨⟨s, k⟩, mem, rfl⟩
    obtain ⟨-, y, ⟨q, hq, -, hy⟩, link⟩ := (resting.graph.incoming hp).1 mem
    rw [h.linked_eq hq hy] at link
    obtain ⟨p', hp', entry⟩ := h.index_eq_some.1 link
    obtain rfl := Option.some.inj (hp.symm.trans hp')
    rw [site_eq hq]
    refine ⟨q.profile, mem_profiles.2 ⟨s, q, hq, rfl⟩, rfl, ?_⟩
    rw [getElem?_targets, hy, Option.map_some, entry]
  · rintro ⟨r, mem, name, target⟩
    obtain ⟨s, q, hq, rfl⟩ := mem_profiles.1 mem
    rw [getElem?_targets] at target
    obtain ⟨y, hy, target⟩ := Option.map_eq_some_iff.1 target
    refine ⟨(s, x.2), (resting.graph.incoming hp).2 ⟨h.valid hp, y, ⟨q, hq, h.valid hq, hy⟩, ?_⟩,
      ?_⟩
    · rw [h.linked_eq hq hy, h.index_eq_some]
      exact ⟨p, hp, target.symm⟩
    · rw [site_eq hq]
      exact Prod.ext name.symm rfl

theorem nodup_incoming (hp : e.block? i = some p) : (p.incoming.map e.site).Nodup := by
  obtain ⟨src, resting⟩ := h.resting
  refine h.nodup_sites (resting.graph.incoming_nodup hp) fun x mem => ?_
  obtain ⟨-, y, ⟨q, hq, -⟩, -⟩ := (resting.graph.incoming hp).1 mem
  exact ⟨q, hq⟩

/-- The exits that wait for an address are all those whose target it is, if no block is there. -/
theorem mem_waiting {x : Option UInt32 × Nat} :
    x ∈ (e.chains.pendingFor t).map (fun w => e.site (w.src, w.exit)) ↔
      t ∉ e.entries ∧ ∃ r ∈ e.profiles, x.1 = some r.entry ∧ r.targets[x.2]? = some t := by
  obtain ⟨src, resting⟩ := h.resting
  rw [List.mem_map]
  constructor
  · rintro ⟨w, mem, rfl⟩
    obtain ⟨waits, rfl⟩ := ChainTable.mem_pendingFor_iff.1 mem
    obtain ⟨y, ⟨q, hq, -, hy⟩, target, unlinked, -⟩ := resting.graph.waiting.1 waits
    have absent := h.isSome_linked hq hy
    rw [unlinked, target] at absent
    rw [site_eq hq]
    refine ⟨of_decide_eq_false absent.symm, q.profile, mem_profiles.2 ⟨w.src, q, hq, rfl⟩, rfl, ?_⟩
    rw [getElem?_targets, hy, Option.map_some, target]
  · rintro ⟨absent, r, mem, name, target⟩
    obtain ⟨s, q, hq, rfl⟩ := mem_profiles.1 mem
    rw [getElem?_targets] at target
    obtain ⟨y, hy, rfl⟩ := Option.map_eq_some_iff.1 target
    have unlinked := h.isSome_linked hq hy
    rw [decide_eq_false absent, Option.isSome_eq_false_iff, Option.isNone_iff_eq_none] at unlinked
    refine ⟨⟨y.target, s, x.2⟩, ChainTable.mem_pendingFor_iff.2 ⟨resting.graph.waiting.2 ?_, rfl⟩,
      ?_⟩
    · refine ⟨y, ⟨q, hq, h.valid hq, hy⟩, rfl, unlinked, fun off => ?_⟩
      rw [h.chaining] at off
      cases off
    · rw [site_eq hq]
      exact Prod.ext name.symm rfl

theorem nodup_waiting (t : UInt32) :
    ((e.chains.pendingFor t).map fun w => e.site (w.src, w.exit)).Nodup := by
  obtain ⟨src, resting⟩ := h.resting
  have exits : ((e.chains.pendingFor t).map fun w => (w.src, w.exit)).Nodup := by
    rw [List.Nodup, List.pairwise_map]
    refine (e.chains.nodup_pendingFor t).imp_of_mem ?_
    rintro v w first second differ same
    have target : v.target = w.target := by
      rw [(ChainTable.mem_pendingFor_iff.1 first).2, (ChainTable.mem_pendingFor_iff.1 second).2]
    cases v
    cases w
    simp_all
  have := h.nodup_sites exits fun x mem => ?_
  · rwa [List.map_map] at this
  · obtain ⟨w, pending, rfl⟩ := List.mem_map.1 mem
    obtain ⟨y, ⟨q, hq, -⟩, -⟩ := resting.graph.waiting.1 (ChainTable.mem_pendingFor_iff.1 pending).1
    exact ⟨q, hq⟩

theorem resident?_eq_some : e.resident? pc = some p ↔ ∃ i, e.block? i = some p ∧ p.entry = pc := by
  obtain ⟨src, resting⟩ := h.resting
  rw [resident?, resting.indexed.lookup, Option.bind_eq_some_iff]
  constructor
  · rintro ⟨i, found, hp⟩
    obtain ⟨p', hp', entry⟩ := h.index_eq_some.1 found
    obtain rfl := Option.some.inj (hp.symm.trans hp')
    exact ⟨i, hp, entry⟩
  · rintro ⟨i, hp, entry⟩
    exact ⟨i, h.index_eq_some.2 ⟨p, hp, entry⟩, hp⟩

theorem isSome_resident? : (e.resident? pc).isSome = true ↔ pc ∈ e.entries := by
  simp only [Option.isSome_iff_exists, mem_entries, h.resident?_eq_some]
  exact exists_comm

/-- The block of a profile is resident, and its exits lead to those of its targets that are. -/
theorem exists_resident {r : Profile} (mem : r ∈ e.profiles) : ∃ p, e.resident? r.entry = some p ∧
    p.exits.map (·.linked.bind e.entryOf?) =
      r.targets.map fun t => if t ∈ e.entries then some t else none := by
  obtain ⟨i, p, hp, rfl⟩ := mem_profiles.1 mem
  exact ⟨p, h.resident?_eq_some.2 ⟨i, hp, rfl⟩, h.links_eq hp⟩

/-- The number of incoming exits of all blocks, address by address. -/
theorem incomingCount_eq : e.incomingCount =
    (e.entries.map fun pc => ((e.resident? pc).map (·.incoming.length)).getD 0).sum := by
  rw [incomingCount, entries, profiles, List.map_map, List.map_map]
  refine congrArg List.sum (List.map_congr_left fun p mem => ?_)
  obtain ⟨i, hp⟩ := mem_blocks.1 mem
  have here : e.resident? p.entry = some p := h.resident?_eq_some.2 ⟨i, hp, rfl⟩
  show p.incoming.length = ((e.resident? p.entry).map _).getD 0
  rw [here]
  rfl

end Interlinked

namespace Interlinked

/-- Of the blocks in `b` only the one at the same address can have the profile of a block in `a`. -/
theorem profile_eq (hb : b.Interlinked) (same : a.profiles.Perm b.profiles)
    (hp : a.block? i = some p) (hq : b.block? j = some q) (entry : p.entry = q.entry) :
    p.profile = q.profile := by
  obtain ⟨j', q', hq', profile⟩ := mem_profiles.1 (same.mem_iff.1 (mem_profiles.2 ⟨i, p, hp, rfl⟩))
  obtain rfl := hb.eq_of_entry hq' hq ((congrArg Profile.entry profile).trans entry)
  obtain rfl := Option.some.inj (hq.symm.trans hq')
  exact profile.symm

variable (ha : a.Interlinked) (hb : b.Interlinked) (same : a.profiles.Perm b.profiles)
include ha hb same

theorem isSome_resident?_eq (pc : UInt32) : (a.resident? pc).isSome = (b.resident? pc).isSome := by
  rw [Bool.eq_iff_iff, ha.isSome_resident?, hb.isSome_resident?]
  exact (same.map _).mem_iff

theorem resembles (hp : a.resident? pc = some p) (hq : b.resident? pc = some q) :
    Resembles a b p q := by
  have entries (t : UInt32) : t ∈ a.entries ↔ t ∈ b.entries := (same.map _).mem_iff
  obtain ⟨i, hp, entry⟩ := ha.resident?_eq_some.1 hp
  obtain ⟨j, hq, entry'⟩ := hb.resident?_eq_some.1 hq
  have profile := hb.profile_eq same hp hq (entry.trans entry'.symm)
  refine ⟨profile, ?_, ?_, ?_⟩
  · rw [ha.state_eq hp, hb.state_eq hq, profile]
    simp only [entries]
  · rw [ha.links_eq hp, hb.links_eq hq, profile]
    simp only [entries]
  · refine (List.perm_ext_iff_of_nodup (ha.nodup_incoming hp) (hb.nodup_incoming hq)).2 fun x => ?_
    rw [ha.mem_incoming hp, hb.mem_incoming hq, entry, entry']
    exact exists_congr fun r => and_congr_left fun _ => same.mem_iff

theorem waiting_perm (t : UInt32) :
    ((a.chains.pendingFor t).map fun w => a.site (w.src, w.exit)).Perm
    ((b.chains.pendingFor t).map fun w => b.site (w.src, w.exit)) := by
  have entries : t ∈ a.entries ↔ t ∈ b.entries := (same.map _).mem_iff
  refine (List.perm_ext_iff_of_nodup (ha.nodup_waiting t) (hb.nodup_waiting t)).2 fun x => ?_
  rw [ha.mem_waiting, hb.mem_waiting, entries]
  exact and_congr_right fun _ => exists_congr fun r => and_congr_left fun _ => same.mem_iff

theorem incoming_length_eq (pc : UInt32) : ((a.resident? pc).map (·.incoming.length)).getD 0 =
    ((b.resident? pc).map (·.incoming.length)).getD 0 := by
  have both := ha.isSome_resident?_eq hb same pc
  cases hp : a.resident? pc with
  | none =>
    rw [hp, Option.isSome_none, eq_comm, Option.isSome_eq_false_iff,
      Option.isNone_iff_eq_none] at both
    rw [both]
  | some p =>
    rw [hp, Option.isSome_some, eq_comm, Option.isSome_iff_exists] at both
    obtain ⟨q, hq⟩ := both
    have lengths := (ha.resembles hb same hp hq).incoming.length_eq
    rw [List.length_map, List.length_map] at lengths
    rw [hq]
    exact lengths

theorem chainLinks_eq : a.stats.chainLinks = b.stats.chainLinks := by
  rw [ha.tallied, hb.tallied, ha.incomingCount_eq, hb.incomingCount_eq]
  simp only [ha.incoming_length_eq hb same]
  exact ((same.map _).map _).sum_eq

/-- The links of an engine in which every exit is linked that can be are those that its profiles ask
for. -/
theorem alike (cursor : a.buffer.cursor = b.buffer.cursor)
    (counts : a.roster.counts = b.roster.counts) : a.Alike b := by
  refine ⟨ha.isSome_resident?_eq hb same, ha.resembles hb same, ha.waiting_perm hb same, cursor, ?_⟩
  have split (e : Engine) : e.stats = { e.roster.counts with chainLinks := e.stats.chainLinks } :=
    rfl
  rw [split a, split b, counts, ha.chainLinks_eq hb same]

end Interlinked

section Emission

variable {insns : List Insn} {plan : Plan}

theorem profiles_eq_roster (e : Engine) : e.profiles = e.roster.blocks.map (·.1.profile) := by
  rw [profiles, roster, List.map_map]
  exact List.map_congr_left fun b _ => b.profile_body.symm

theorem incomingCount_published {d : Draft} :
    (e.published pc plan d).incomingCount = e.incomingCount := by
  simp only [incomingCount, published, Array.toList_push, List.map_append, List.sum_append]
  rfl

/-- A block at another address is added beside the others. -/
theorem Interlinked.emitBlock (h : e.Interlinked) (planned : e.plan pc insns = .ok plan)
    (absent : pc ∉ e.entries) (room : plan.size ≤ e.buffer.remaining) :
    ∃ id c, Yields (EngineM.emitBlock pc insns) e (.ok id) c ∧ c.Interlinked ∧ c.frame = e.frame ∧
      c.roster = e.roster.add pc plan := by
  obtain ⟨src, resting⟩ := h.resting
  have usable : plan.size ≤ e.buffer.usable := by
    have := resting.placed.le_cursor
    rw [CodeBuffer.remaining] at room
    rw [CodeBuffer.usable, resting.placed.hosted.codeStart]
    omega
  obtain ⟨e₁, d, c, emission⟩ := resting.exists_emission planned usable
  obtain rfl : e = e₁ := by
    cases emission.cleared with
    | free => rfl
    | replaced _ found => exact absurd (h.isSome_index.1 (by rw [found]; rfl)) absent
    | flushed full => exact absurd room full
  have roster := emission.roster_eq_add
  have frame := emission.emitted.frame
  refine ⟨_, c, emission.yields planned, ⟨⟨_, emission.resting⟩, ?_, ?_, ?_⟩, frame, roster⟩
  · rw [config_of_frame frame]
    exact h.chaining
  · intro i p hp
    obtain ⟨p₁, hp₁, -, valid⟩ := emission.relinked.symm.block hp
    rw [← valid]
    obtain ⟨-, rfl⟩ | hp₁ := block_of_published hp₁
    · exact isValid_newBlock
    · exact h.valid hp₁
  · have tally := emission.relinked.tally
    rw [incomingCount_published] at tally
    have kept : (e.published pc plan d).stats.chainLinks = e.stats.chainLinks := rfl
    have := h.tallied
    omega

end Emission

/-- A block that is to be emitted. -/
structure Job where
  pc : UInt32
  insns : List Insn
  deriving DecidableEq

/-- The engine has emitted the blocks one after the other. -/
inductive Emits : Engine → List Job → Engine → Prop
  | nil (e : Engine) : Emits e [] e
  | cons {e m c : Engine} {job : Job} {jobs : List Job} {id : BlockId}
      (done : Yields (EngineM.emitBlock job.pc job.insns) e (.ok id) m) (rest : Emits m jobs c) :
      Emits e (job :: jobs) c

theorem Emits.unique {xs : List Job} {c c' : Engine} (h : e.Emits xs c) (h' : e.Emits xs c') :
    c = c' := by
  induction h with
  | nil e =>
    cases h'
    rfl
  | cons done rest ih =>
    cases h' with
    | cons done' rest' =>
      cases (done #[]).symm.trans (done' #[])
      exact ih rest'

/-- Blocks at different addresses that fit side by side are all emitted. -/
theorem Interlinked.emits {f : Engine} (plan : Job → Plan) {jobs : List Job} (h : e.Interlinked)
    (frame : e.frame = f.frame) (planned : ∀ job ∈ jobs, f.plan job.pc job.insns = .ok (plan job))
    (distinct : (jobs.map (·.pc)).Nodup) (absent : ∀ job ∈ jobs, job.pc ∉ e.entries)
    (room : (jobs.map fun job => (plan job).size).sum ≤ e.buffer.remaining) :
    ∃ c, e.Emits jobs c ∧ c.Interlinked ∧
      c.profiles = e.profiles ++ jobs.map (fun job => (plan job).profile job.pc) ∧
      c.buffer.cursor = e.buffer.cursor + (jobs.map fun job => (plan job).size).sum ∧
      c.roster.counts = e.roster.counts.plus
        { blocksTranslated := jobs.length,
          insnsTranslated := (jobs.map fun job => (plan job).icount).sum } := by
  induction jobs generalizing e with
  | nil => exact ⟨e, .nil e, h, by simp, by simp, rfl⟩
  | cons job jobs ih =>
    obtain ⟨first, others⟩ := List.forall_mem_cons.1 planned
    obtain ⟨new, news⟩ := List.forall_mem_cons.1 absent
    obtain ⟨apart, distinct⟩ := List.nodup_cons.1 distinct
    rw [List.map_cons, List.sum_cons] at room
    obtain ⟨id, m, done, linked, frame', roster⟩ :=
      h.emitBlock ((plan_of_frame frame _ _).trans first) new (by omega)
    have profiles : m.profiles = e.profiles ++ [(plan job).profile job.pc] := by
      rw [profiles_eq_roster, profiles_eq_roster, roster, Roster.add, List.map_append]
      simp [Roster.profile_nextBlock]
    have cursor : m.buffer.cursor = e.buffer.cursor + (plan job).size :=
      congrArg Roster.cursor roster
    have counts : m.roster.counts = e.roster.counts.plus
        { blocksTranslated := 1, insnsTranslated := (plan job).icount } :=
      congrArg Roster.counts roster
    have later : ∀ job' ∈ jobs, job'.pc ∉ m.entries := by
      intro job' mem there
      rw [entries, profiles, List.map_append, List.mem_append] at there
      rcases there with old | same
      · exact news job' mem old
      · exact apart (List.mem_singleton.1 same ▸ List.mem_map_of_mem mem)
    have left : (jobs.map fun job => (plan job).size).sum ≤ m.buffer.remaining := by
      rw [CodeBuffer.remaining] at room ⊢
      rw [capacity_of_frame frame', cursor]
      omega
    obtain ⟨c, emits, linked', profiles', cursor', counts'⟩ :=
      ih linked (frame'.trans frame) others distinct later left
    refine ⟨c, .cons done emits, linked', ?_, ?_, ?_⟩
    · rw [profiles', profiles, List.append_assoc]
      rfl
    · rw [cursor', cursor, List.map_cons, List.sum_cons, Nat.add_assoc]
    · rw [counts', counts]
      simp only [Stats.plus, List.length_cons, List.map_cons, List.sum_cons]
      congr 1 <;> omega

theorem interlinked_of_create {base : Nat} {config : Config}
    (created : create base X86.registry config = .ok e) (chaining : config.directChaining = true) :
    e.Interlinked := by
  have resting : e.Resting fun _ => [] := resting_of_create created
  obtain ⟨capacity, rfl, -⟩ := create_inv created
  refine ⟨⟨_, resting⟩, chaining, fun hp => ?_, rfl⟩
  simp [block?, fresh] at hp

/-- A new engine emits blocks at different addresses that fit side by side. -/
theorem exists_emits {base : Nat} {config : Config}
    (created : create base X86.registry config = .ok e) (chaining : config.directChaining = true)
    {jobs : List Job} (distinct : (jobs.map (·.pc)).Nodup) {plan : Job → Plan}
    (planned : ∀ job ∈ jobs, e.plan job.pc job.insns = .ok (plan job))
    (room : (jobs.map fun job => (plan job).size).sum ≤ e.buffer.usable) :
    ∃ c, e.Emits jobs c ∧ c.Interlinked ∧
      c.profiles = jobs.map (fun job => (plan job).profile job.pc) ∧
      c.buffer.cursor = e.buffer.cursor + (jobs.map fun job => (plan job).size).sum ∧
      c.roster.counts = e.roster.counts.plus
        { blocksTranslated := jobs.length
          insnsTranslated := (jobs.map fun job => (plan job).icount).sum } := by
  have linked := interlinked_of_create created chaining
  obtain ⟨capacity, rfl, -⟩ := create_inv created
  have cursor : (fresh base capacity config).buffer.cursor = X86.stubsSize := X86.length_stubBytes
  have remaining :
      (fresh base capacity config).buffer.usable =
        (fresh base capacity config).buffer.remaining := by
    rw [CodeBuffer.usable, CodeBuffer.remaining, cursor]
    rfl
  rw [remaining] at room
  exact linked.emits plan rfl planned distinct (fun job _ => List.not_mem_nil) room

/-- Blocks at different addresses that fit into a new engine side by side can be emitted in any
order, and any two orders lead to engines that are the same once blocks are named by address. -/
theorem emission_order_irrelevant {base : Nat} {config : Config}
    (created : create base X86.registry config = .ok e) (chaining : config.directChaining = true)
    {xs ys : List Job} (perm : xs.Perm ys) (distinct : (xs.map (·.pc)).Nodup) {plan : Job → Plan}
    (planned : ∀ job ∈ xs, e.plan job.pc job.insns = .ok (plan job))
    (room : (xs.map fun job => (plan job).size).sum ≤ e.buffer.usable) :
    (∃ a, e.Emits xs a) ∧ (∃ b, e.Emits ys b) ∧ ∀ a b, e.Emits xs a → e.Emits ys b → a.Alike b := by
  have sums (g : Job → Nat) : (xs.map g).sum = (ys.map g).sum := (perm.map g).sum_eq
  obtain ⟨a, emits, ha, profiles, cursor, counts⟩ :=
    exists_emits created chaining distinct planned room
  obtain ⟨b, emits', hb, profiles', cursor', counts'⟩ :=
    exists_emits created chaining ((perm.map _).nodup_iff.1 distinct)
      (fun job mem => planned job (perm.mem_iff.2 mem)) (sums _ ▸ room)
  refine ⟨⟨a, emits⟩, ⟨b, emits'⟩, fun a' b' ha' hb' => ?_⟩
  obtain rfl := emits.unique ha'
  obtain rfl := emits'.unique hb'
  refine ha.alike hb ?_ ?_ ?_
  · rw [profiles, profiles']
    exact perm.map _
  · rw [cursor, cursor', sums]
  · rw [counts, counts', perm.length_eq, sums]

/-- The loop and a block behind it that leads back to it. -/
def roundTrip : List Job := [⟨0x100, countdown⟩, ⟨0x10c, [⟨0x10c, .b 0x100⟩]⟩]

/-- The loop is resident and linked to itself and to the block behind it, which is resident and
linked to the loop. -/
def Joined (e : Engine) : Prop :=
  ∃ p q, e.resident? 0x100 = some p ∧ e.resident? 0x10c = some q ∧
    p.exits.map (·.linked.bind e.entryOf?) = [some 0x100, some 0x10c] ∧
    q.exits.map (·.linked.bind e.entryOf?) = [some 0x100]

theorem Alike.joined (h : a.Alike b) (joined : a.Joined) : b.Joined := by
  obtain ⟨p, q, hp, hq, links, links'⟩ := joined
  obtain ⟨p', hp', same⟩ := h.exists_resembling hp
  obtain ⟨q', hq', same'⟩ := h.exists_resembling hq
  exact ⟨p', q', hp', hq', same.links ▸ links, same'.links ▸ links'⟩

theorem round_trip_converges : ∃ a b, (roundTrip.map (·.pc)).Nodup ∧ onePage.Emits roundTrip a ∧
    onePage.Emits roundTrip.reverse b ∧ a.Alike b ∧ a.Joined ∧ b.Joined := by
  have created : create 4096 X86.registry { codeBufferSize := 4096 } = .ok onePage := rfl
  have distinct : (roundTrip.map (·.pc)).Nodup := by decide
  let plan (job : Job) : Plan := (onePage.plan job.pc job.insns).toOption.getD ⟨[], .chained, 0, 0⟩
  have planned : ∀ job ∈ roundTrip, onePage.plan job.pc job.insns = .ok (plan job) := by
    simp only [roundTrip, List.forall_mem_cons]
    exact ⟨rfl, rfl, fun _ mem => absurd mem List.not_mem_nil⟩
  have room : (roundTrip.map fun job => (plan job).size).sum ≤ onePage.buffer.usable := by
    decide +kernel
  obtain ⟨-, ⟨b, hb⟩, alike⟩ :=
    emission_order_irrelevant created rfl (List.reverse_perm roundTrip).symm distinct planned room
  obtain ⟨a, ha, interlinked, profiles, -⟩ := exists_emits created rfl distinct planned room
  have entries : a.entries = [0x100, 0x10c] := by
    rw [Engine.entries, profiles]
    rfl
  obtain ⟨p, hp, links⟩ :=
    interlinked.exists_resident (r := (plan ⟨0x100, countdown⟩).profile 0x100)
      (by rw [profiles]; exact List.mem_cons_self)
  obtain ⟨q, hq, links'⟩ := interlinked.exists_resident
    (r := (plan ⟨0x10c, [⟨0x10c, .b 0x100⟩]⟩).profile 0x10c)
    (by rw [profiles]; exact List.mem_cons_of_mem _ List.mem_cons_self)
  rw [entries] at links links'
  have joined : a.Joined := ⟨p, q, hp, hq, links, links'⟩
  exact ⟨a, b, distinct, ha, hb, alike a b ha hb, joined, (alike a b ha hb).joined joined⟩

end Engine
end Dynarec
