import Dynarec.Proofs.Course
import Dynarec.Proofs.Invalidation

/-!
The roster of an engine: what is left of it without its code, links, index and jump cache. Every
operation has an outcome and leads to a roster that depend on the roster alone, so links have no
part in them.
-/
namespace Dynarec

/-- The stored blocks without their links, each with whether it is in use, the end of the code, and
the counters but for that of links. -/
structure Roster where
  blocks : List (Block × Bool)
  cursor : Nat
  counts : Stats

namespace Roster

/-- The block in use at an address. -/
def find (r : Roster) (pc : UInt32) : Option BlockId :=
  (r.blocks.findIdx? fun q => q.2 && q.1.entry = pc).map BlockId.mk

/-- The blocks in use that have to go when a guest range changes. -/
def touched (r : Roster) (start : UInt32) (stop : Nat) : List BlockId :=
  (r.blocks.filter fun q => q.2 && Engine.touches q.1 start stop).map (·.1.id)

/-- Takes blocks out of use. -/
def drop (r : Roster) (victims : List BlockId) : Roster :=
  { r with
    blocks := r.blocks.mapIdx fun n q => (q.1, !decide (⟨n⟩ ∈ victims) && q.2)
    counts := r.counts.plus { invalidatedBlocks := victims.length } }

/-- Drops all blocks. -/
def clear (r : Roster) : Roster where
  blocks := []
  cursor := X86.stubsSize
  counts := r.counts.plus { flushes := 1 }

/-- The block that a plan becomes behind the others. -/
def nextBlock (r : Roster) (pc : UInt32) (p : Plan) : Block where
  id := ⟨r.blocks.length⟩
  entry := pc
  stop := p.stop
  icount := p.icount
  hostOffset := r.cursor
  hostSize := p.size
  exits := PlanStep.allExits r.cursor p.steps
  calls := PlanStep.allCalls r.cursor p.steps
  terminal := p.terminal

def add (r : Roster) (pc : UInt32) (p : Plan) : Roster where
  blocks := r.blocks ++ [(r.nextBlock pc p, true)]
  cursor := r.cursor + p.size
  counts := r.counts.plus { blocksTranslated := 1, insnsTranslated := p.icount }

/-- Makes room for a block. All blocks make way if there is no room in the buffer of `f`. -/
def makeRoom (f : Engine) (r : Roster) (pc : UInt32) (size : Nat) : Roster :=
  if size ≤ f.buffer.capacity - r.cursor then
    match r.find pc with
    | some old => r.drop [old]
    | none => r
  else r.clear

/-- Emits a block. The engine only says what the plan is and how large its buffer is. -/
def emit (f : Engine) (r : Roster) (pc : UInt32) (insns : List Insn) :
    Except Fault BlockId × Roster :=
  match f.plan pc insns with
  | .error fault => (.error fault, r)
  | .ok p =>
    if p.size > f.buffer.usable then (.error (.error (.blockTooLarge p.size f.buffer.usable)), r)
    else
      let r := r.makeRoom f pc p.size
      (.ok ⟨r.blocks.length⟩, r.add pc p)

variable {f : Engine} {pc : UInt32} {insns : List Insn}

/-- An emission that is bound to fail leaves the roster as it is. -/
theorem emit_of_fault {fault : Fault} (h : f.emissionFault? pc insns = some fault) (r : Roster) :
    r.emit f pc insns = (.error fault, r) := by
  rw [Engine.emissionFault?] at h
  rw [emit]
  cases planned : f.plan pc insns with
  | error fault' =>
    rw [planned] at h
    cases h
    rfl
  | ok p =>
    rw [planned] at h
    by_cases large : p.size > f.buffer.usable
    · cases (if_pos large).symm.trans h
      exact if_pos large
    · cases (if_neg large).symm.trans h

/-- An emission that fits adds the block of its plan when room has been made. -/
theorem emit_of_plan {p : Plan} (planned : f.plan pc insns = .ok p)
    (fits : p.size ≤ f.buffer.usable) (r : Roster) :
    r.emit f pc insns = (.ok ⟨(r.makeRoom f pc p.size).blocks.length⟩,
      (r.makeRoom f pc p.size).add pc p) := by
  rw [emit, planned]
  exact if_neg (Nat.not_lt.2 fits)

end Roster

namespace Engine

open Traced

variable {f e c : Engine} {src : Nat → List Insn} {victims : List BlockId}

def roster (e : Engine) : Roster where
  blocks := e.cache.blocks.toList.map fun b => (b.body, b.isValid)
  cursor := e.buffer.cursor
  counts := { e.stats with chainLinks := 0 }

theorem getElem?_roster (e : Engine) (n : Nat) :
    e.roster.blocks[n]? = (e.block? ⟨n⟩).map fun b => (b.body, b.isValid) := by
  rw [roster, List.getElem?_map, Array.getElem?_toList]
  rfl

theorem length_roster (e : Engine) : e.roster.blocks.length = e.cache.blocks.size := by
  rw [roster, List.length_map, Array.length_toList]

theorem roster_withJumps (e : Engine) (jumps : JumpCache) : (e.withJumps jumps).roster = e.roster :=
  rfl

/-- The index finds the block that a search of the roster does. -/
theorem Indexed.lookup_eq_find (h : e.Indexed) (pc : UInt32) : e.lookup pc = e.roster.find pc := by
  cases first : e.roster.blocks.findIdx? fun q => q.2 && q.1.entry = pc with
  | none =>
    rw [Roster.find, first]
    refine Option.eq_none_iff_forall_ne_some.2 fun id found => ?_
    obtain ⟨b, hb, valid, entry⟩ := h.lookup_eq_some.1 found
    have stored := getElem?_roster e id.index
    rw [show e.block? ⟨id.index⟩ = some b from hb] at stored
    have unused := List.findIdx?_eq_none_iff.1 first _ (List.mem_of_getElem? stored)
    simp [valid, Block.body, entry] at unused
  | some n =>
    rw [Roster.find, first]
    obtain ⟨hn, here, -⟩ := List.findIdx?_eq_some_iff_getElem.1 first
    have stored := getElem?_roster e n
    rw [List.getElem?_eq_getElem hn] at stored
    obtain ⟨b, hb, same⟩ := Option.map_eq_some_iff.1 stored.symm
    rw [← same, Bool.and_eq_true, decide_eq_true_eq] at here
    exact h.lookup_eq_some.2 ⟨b, hb, here.1, here.2⟩

/-- The blocks that a range affects can be read off the roster. -/
theorem affectedBy_eq_touched (e : Engine) (start : UInt32) (stop : Nat) :
    e.cache.affectedBy start stop = e.roster.touched start stop := by
  have same :
      (fun q : Block × Bool => q.2 && touches q.1 start stop) ∘
        (fun b : Block => (b.body, b.isValid)) =
      fun b => b.isValid && touches b start stop := by
    funext b
    simp only [Function.comp, touches_body]
  simp only [Roster.touched, roster, List.filter_map, List.map_map, same]
  rfl

/-- Taking blocks out of use counts them and nothing else. -/
theorem stats_invalidateBlocks {log : Array Event}
    (done : ((EngineM.invalidateBlocks victims).perform e log).1 = (.ok (), c)) :
    c.stats = e.stats.plus { invalidatedBlocks := victims.length } := by
  obtain ⟨⟨⟩, e₁, log₁, marked, rest⟩ := perform_bind_ok done
  obtain ⟨⟨⟩, e₂, log₂, detached, counted⟩ := perform_bind_ok rest
  have first : e.stats = e₁.stats :=
    (EngineM.indifferent_mark victims).stats_fixed (τ := fun _ => e.stats) rfl marked
  have second : e₁.stats = e₂.stats :=
    (indifferent_forM EngineM.indifferent_detach).stats_fixed (τ := fun _ => e₁.stats) rfl detached
  cases counted
  rw [first, second]
  rfl

/-- On the roster, taking blocks out of use is dropping them. -/
theorem Operated.roster_eq_drop (h : e.Operated src (.removal e victims victims) c)
    (stats : c.stats = e.stats.plus { invalidatedBlocks := victims.length }) :
    c.roster = e.roster.drop victims := by
  have blocks : c.roster.blocks = (e.roster.drop victims).blocks := by
    apply List.ext_getElem?
    intro n
    rw [Roster.drop, List.getElem?_mapIdx, getElem?_roster, getElem?_roster, h.blocks]
    cases e.block? ⟨n⟩ with
    | none => rfl
    | some b => simp [Surgery.body_block, Surgery.isValid_block, Surgery.removal]
  simp only [roster, Roster.drop, Roster.mk.injEq] at blocks ⊢
  refine ⟨blocks, h.cursor, ?_⟩
  rw [stats]
  rfl

theorem Emptied.roster_eq_clear (h : e.Emptied c) (placed : e.Placed src) :
    c.roster = e.roster.clear := by
  have cursor := h.cursor placed
  subst h
  simp only [roster, Roster.clear, Roster.mk.injEq]
  exact ⟨rfl, cursor, rfl⟩

theorem Relinked.roster_blocks (h : e.Relinked c) : c.roster.blocks = e.roster.blocks := by
  apply List.ext_getElem?
  intro n
  rw [getElem?_roster, getElem?_roster]
  cases hb : e.block? ⟨n⟩ with
  | none =>
    have absent := h.valid ⟨n⟩
    rw [hb] at absent
    rw [Option.map_eq_none_iff.1 absent]
  | some b =>
    obtain ⟨b', hb', body, valid⟩ := h.block hb
    simp only [hb', Option.map_some, body, valid]

section Emission

variable {pc : UInt32} {insns : List Insn} {p : Plan} {d : Draft} {e₁ : Engine}

theorem Drafted.body_newBlock (h : e.Drafted pc insns p d) (hosted : e.Hosted) :
    (e.newBlock pc p d).body = e.roster.nextBlock pc p := by
  have follows := h.follows hosted
  have size : (e.newBlock pc p d).hostSize = p.size := follows.size
  have exits :
      (e.newBlock pc p d).exits.map ExitSlot.bare = PlanStep.allExits e.buffer.cursor p.steps :=
    follows.exits
  have calls : (e.newBlock pc p d).calls = PlanStep.allCalls e.buffer.cursor p.steps :=
    h.renders.calls
  simp only [Block.body, size, exits, calls, Roster.nextBlock, length_roster]
  rfl

/-- How room is made does not depend on links. -/
theorem Cleared.roster_eq_makeRoom (h : e.Cleared src pc p.size c) (resting : e.Resting src)
    (kin : f.Kin e) : c.roster = e.roster.makeRoom f pc p.size := by
  have room : p.size ≤ f.buffer.capacity - e.roster.cursor ↔ p.size ≤ e.buffer.remaining := by
    rw [kin.capacity]
    rfl
  have find : e.roster.find pc = e.cache.index[pc]? := by
    rw [← resting.indexed.lookup_eq_find, resting.indexed.lookup]
  cases h with
  | free fits absent => rw [Roster.makeRoom, if_pos (room.2 fits), find, absent]
  | replaced fits found yields removed =>
    rw [Roster.makeRoom, if_pos (room.2 fits), find, found]
    exact removed.roster_eq_drop (stats_invalidateBlocks (yields #[]))
  | flushed full emptied =>
    rw [Roster.makeRoom, if_neg (mt room.1 full)]
    exact emptied.roster_eq_clear resting.placed

/-- On the roster, an emission is one more block. -/
theorem Emission.roster_eq_add (h : e.Emission src pc insns e₁ p d c) :
    c.roster = e₁.roster.add pc p := by
  have hosted := h.vacated.resting.placed.hosted
  let after := e₁.published pc p d
  have blocks : c.roster.blocks = e₁.roster.blocks ++ [(e₁.roster.nextBlock pc p, true)] := by
    rw [h.relinked.roster_blocks, ← h.drafted.body_newBlock hosted]
    simp only [roster, published, Array.toList_push, List.map_append, List.map_cons, List.map_nil,
      isValid_newBlock]
  have cursor : c.roster.cursor = e₁.roster.cursor + p.size :=
    h.relinked.cursor.trans (h.drafted.cursor hosted)
  -- Linking adds to the counter of links alone.
  have linked : { after.stats with chainLinks := c.stats.chainLinks } = c.stats :=
    (EngineM.indifferent_chain (τ := fun s => { after.stats with chainLinks := s.chainLinks })
      (fun _ => rfl) ..)
      |>.stats_fixed rfl (h.joined #[])
  have counts : c.roster.counts = (e₁.roster.add pc p).counts := by
    show { c.stats with chainLinks := 0 } = _
    rw [← linked]
    rfl
  rw [Roster.add, ← blocks, ← cursor]
  exact congrArg (Roster.mk _ _) counts

/-- The outcome of an emission and the roster behind it depend on the roster alone. -/
theorem Resting.roster_emitBlock (h : e.Resting src) (kin : f.Kin e) {log : Array Event}
    {o : Except Fault BlockId} (done : ((EngineM.emitBlock pc insns).perform e log).1 = (o, c)) :
    e.roster.emit f pc insns = (o, c.roster) := by
  obtain ⟨fault, told, failed⟩ | ⟨-, p, planned, fits⟩ := emitBlock_fails_or_fits e pc insns
  · cases (failed log).symm.trans done
    exact Roster.emit_of_fault ((kin.emissionFault? pc insns).trans told) e.roster
  · obtain ⟨e₁, d, c', emission⟩ := h.exists_emission planned fits
    cases (emission.yields planned log).symm.trans done
    have id : (⟨e₁.roster.blocks.length⟩ : BlockId) = e₁.nextId :=
      congrArg BlockId.mk e₁.length_roster
    have usable : f.buffer.usable = e.buffer.usable := by
      rw [CodeBuffer.usable, CodeBuffer.usable, kin.capacity, kin.codeStart]
    rw [Roster.emit_of_plan ((kin.plan pc insns).trans planned) (usable ▸ fits),
      ← emission.cleared.roster_eq_makeRoom h kin, id, emission.roster_eq_add]

end Emission

theorem Resting.roster_invalidateRange (h : e.Resting src) {start : UInt32} {stop : Nat}
    {log : Array Event} {o : Except Fault Nat}
    (done : ((EngineM.invalidateRange start stop).perform e log).1 = (o, c)) :
    o = .ok (e.roster.touched start stop).length ∧
      c.roster = e.roster.drop (e.roster.touched start stop) := by
  obtain ⟨c', yields, removed⟩ := h.yields_invalidateAffected start stop
  cases (yields_invalidateRange_of yields log).symm.trans done
  rw [← affectedBy_eq_touched]
  exact ⟨rfl, removed.roster_eq_drop (stats_invalidateBlocks (yields #[]))⟩

theorem Resting.roster_invalidateAll (h : e.Resting src) {log : Array Event} {o : Except Fault Unit}
    (done : (EngineM.invalidateAll.perform e log).1 = (o, c)) :
    o = .ok () ∧ c.roster = e.roster.clear := by
  obtain ⟨c', yields, emptied⟩ := yields_invalidateAll (e := e)
  cases (yields log).symm.trans done
  exact ⟨rfl, emptied.roster_eq_clear h.placed⟩

end Engine
end Dynarec
