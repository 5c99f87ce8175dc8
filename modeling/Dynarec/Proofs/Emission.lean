import Dynarec.Engine.Reference
import Dynarec.Proofs.Indifference
import Dynarec.Proofs.Linking

/-!
Emitting a block: room is made, the code is written, and the new block is published and linked to
its neighbours. An emission fails just when its list cannot be planned or its code could never fit,
and then nothing has changed.
-/
namespace Dynarec.Engine

open Traced

variable {e : Engine} {src : Nat → List Insn} {pc : UInt32} {insns : List Insn}
  {p : Plan} {d : Draft}

/-- The plan for the instructions fits into the buffer and has been written behind its code. -/
structure Drafted (e : Engine) (pc : UInt32) (insns : List Insn) (p : Plan) (d : Draft) : Prop where
  planned : e.plan pc insns = .ok p
  usable : p.size ≤ e.buffer.usable
  room : e.buffer.cursor + p.size ≤ e.buffer.capacity
  renders : d.Renders e e.buffer p

/-- The wiring of code at the cursor. -/
def newWiring (e : Engine) (p : Plan) : Wiring :=
  e.wiring e.buffer.base (PlanStep.label none e.buffer.cursor p.steps)

/-- Code that is written at the cursor leads to places in the buffer. -/
theorem newWiring_of (hosted : e.Hosted) (room : e.buffer.cursor + p.size ≤ e.buffer.capacity) :
    (e.newWiring p).Of e where
  base := rfl
  regions := rfl
  label _ hl := PlanStep.label_le hl nofun room
  lands _ := hosted.dispatch_le

/-- A plan that fits behind the cursor can be written. -/
theorem ofPlan_eq_ok (hosted : e.Hosted) (bounded : e.buffer.Bounded)
    (planned : e.plan pc insns = .ok p) (usable : p.size ≤ e.buffer.usable)
    (room : e.buffer.cursor + p.size ≤ e.buffer.capacity) :
    ∃ d, Draft.ofPlan e e.buffer p = .ok d ∧ e.Drafted pc insns p d := by
  have translates := translates_of_plan hosted planned
  have suits := PlanStep.suitsAll (k := 0) hosted (newWiring_of hosted room) translates.fits room
  obtain ⟨d, written, renders⟩ :=
    Draft.ofPlan_eq_ok translates.shaped bounded room hosted.dispatch_le suits
  exact ⟨d, written, planned, usable, room, renders⟩

namespace Drafted

theorem length_codes (h : e.Drafted pc insns p d) (hosted : e.Hosted) :
    ((e.newWiring p).codes e.buffer.cursor 0 p.steps).length = p.size :=
  Wiring.length_codes (PlanStep.suitsAll hosted (newWiring_of hosted h.room)
    (translates_of_plan hosted h.planned).fits h.room)

theorem buffer (h : e.Drafted pc insns p d) :
    d.buffer = e.buffer.extend ((e.newWiring p).codes e.buffer.cursor 0 p.steps) := h.renders.buffer

/-- A written block takes up what its plan has asked for. -/
theorem cursor (h : e.Drafted pc insns p d) (hosted : e.Hosted) :
    d.buffer.cursor = e.buffer.cursor + p.size := by
  rw [h.buffer, CodeBuffer.cursor_extend, h.length_codes hosted]

/-- A written block stays in the buffer. -/
theorem bounded (h : e.Drafted pc insns p d) (hosted : e.Hosted) (bounded : e.buffer.Bounded) :
    d.buffer.Bounded := by
  have room := h.room
  refine ⟨?_, ?_⟩
  · rw [h.cursor hosted, h.buffer]
    exact room
  · rw [h.buffer]
    exact bounded.mapped

/-- The exits of a new block lead to the dispatch stub. -/
theorem unlinked (h : e.Drafted pc insns p d) (hosted : e.Hosted) {x : ExitSlot}
    (hx : x ∈ d.exits) : x.linked = none :=
  PlanStep.linked_allExits (translates_of_plan hosted h.planned).plain (h.renders.exits ▸ hx)

end Drafted

/-- The id of the next block. -/
def nextId (e : Engine) : BlockId := ⟨e.cache.blocks.size⟩

/-- The block that a draft becomes. -/
def newBlock (e : Engine) (pc : UInt32) (p : Plan) (d : Draft) : Block :=
  let b : Block :=
    { id := e.nextId
      entry := pc
      stop := p.stop
      icount := p.icount
      hostOffset := e.buffer.cursor
      hostSize := d.buffer.cursor - e.buffer.cursor
      terminal := p.terminal
      exits := d.exits
      calls := d.calls }
  { b with state := b.linkState }

/-- The engine with a draft as its latest block. -/
def published (e : Engine) (pc : UInt32) (p : Plan) (d : Draft) : Engine :=
  { e with
    buffer := d.buffer
    cache := { e.cache with
      blocks := e.cache.blocks.push (e.newBlock pc p d)
      index := e.cache.index.insert pc e.nextId
      jumps := e.cache.jumps.insert pc e.nextId (.ofNat (e.cache.codeBase + e.buffer.cursor)) }
    stats := { e.stats with
      blocksTranslated := e.stats.blocksTranslated + 1
      insnsTranslated := e.stats.insnsTranslated + p.icount } }

theorem modify_push (blocks : Array Block) (b : Block) (f : Block → Block) :
    (blocks.push b).modify blocks.size f = blocks.push (f b) := by
  apply Array.ext_getElem?
  intro i
  rw [Array.getElem?_modify, Array.getElem?_push, Array.getElem?_push]
  split
  · next h => rw [if_pos h.symm, if_pos h.symm]; rfl
  · next h => rw [if_neg fun h' => h h'.symm, if_neg fun h' => h h'.symm]

/-- Publishing stores the block under the next id and cannot fail: its code lies in the buffer. -/
theorem yields_publish (codeBase : e.cache.codeBase = e.buffer.base) (bounded : e.buffer.Bounded)
    (written : d.buffer.Bounded) (ahead : e.buffer.cursor ≤ d.buffer.cursor) :
    Yields (EngineM.publish pc p d) e (.ok e.nextId) (e.published pc p d) := by
  have host :
      addSizes e.cache.codeBase e.buffer.cursor = .ok (e.cache.codeBase + e.buffer.cursor) := by
    have := bounded.cursor_le
    have := bounded.mapped
    rw [addSizes, if_pos (by rw [codeBase]; omega)]
  have visible : d.buffer.sync e.buffer.cursor (d.buffer.cursor - e.buffer.cursor) = .ok () := by
    have := written.cursor_le
    exact written.sync_eq_ok (by omega)
  refine yields_get.bind ((yields_lift_ok visible).bind (yields_get.bind ?_))
  have published :
      BlockCache.publish ((e.cache.alloc pc p.stop p.icount).2.modify e.nextId fun b => { b with
      hostOffset := e.buffer.cursor
      hostSize := d.buffer.cursor - e.buffer.cursor
      terminal := p.terminal
      exits := d.exits
      calls := d.calls }) e.nextId = .ok (e.published pc p d).cache := by
    simp only [BlockCache.alloc, BlockCache.modify, nextId, modify_push]
    unfold BlockCache.publish
    refine bind_eq_ok.2 ⟨{ e.newBlock pc p d with state := .emitting }, ?_, ?_⟩
    · simp [BlockCache.get, newBlock, nextId]
    · refine bind_eq_ok.2
        ⟨(), by rfl, bind_eq_ok.2 ⟨.ofNat (e.cache.codeBase + e.buffer.cursor), ?_, ?_⟩⟩
      · exact bind_eq_ok.2 ⟨_, host, rfl⟩
      · simp only [BlockCache.modify, modify_push]
        rfl
  refine (yields_lift_ok published).bind ((yields_modify _).bind ((yields_modify _).bind ?_))
  exact (yields_report _).bind (yields_pure e.nextId)

section Published

/-- Publishing adds one block and keeps the others. -/
theorem block?_published (i : BlockId) : (e.published pc p d).block? i =
    if i = e.nextId then some (e.newBlock pc p d) else e.block? i := by
  simp only [block?, published, Array.getElem?_push]
  split
  · next h =>
    have here : i = e.nextId := BlockId.eq_of_index h
    rw [if_pos here]
  · next h => rw [if_neg fun hi => h (by rw [hi]; rfl)]

theorem block?_published_nextId :
    (e.published pc p d).block? e.nextId = some (e.newBlock pc p d) := by
  rw [block?_published, if_pos rfl]

theorem isValid_newBlock : (e.newBlock pc p d).isValid = true := isValid_linkState _

theorem block?_nextId : e.block? e.nextId = none := by simp [block?, nextId]

/-- No stored block has the next id. -/
theorem ne_nextId {i : BlockId} {b : Block} (hb : e.block? i = some b) : i ≠ e.nextId := by
  rintro rfl
  exact absurd (block?_nextId.symm.trans hb) nofun

/-- A block behind a publication is the new one or one from before. -/
theorem block_of_published {i : BlockId} {b : Block} (hb : (e.published pc p d).block? i = some b) :
    (i = e.nextId ∧ b = e.newBlock pc p d) ∨ e.block? i = some b := by
  rw [block?_published] at hb
  split at hb
  · next hi => exact .inl ⟨hi, (Option.some.inj hb).symm⟩
  · exact .inr hb

theorem block_published {i : BlockId} {b : Block} (hb : e.block? i = some b) :
    (e.published pc p d).block? i = some b := by
  rw [block?_published, if_neg (ne_nextId hb), hb]

/-- The index leads to the new block at its address, and is as it was elsewhere. -/
theorem index_published (pc' : UInt32) : (e.published pc p d).cache.index[pc']? =
    if pc = pc' then some e.nextId else e.cache.index[pc']? := by
  simp [published, Std.HashMap.getElem?_insert]

variable {src' : Nat → List Insn} (h : e.Drafted pc insns p d)
include h

theorem Drafted.frame : (e.published pc p d).frame = e.frame := by
  simp only [Engine.frame, published, h.buffer, CodeBuffer.extend]

/-- The new block follows the plan that it was written from. -/
theorem Drafted.follows (hosted : e.Hosted) :
    (e.newBlock pc p d).Follows (e.published pc p d) insns p where
  planned := (plan_of_frame h.frame pc insns).trans h.planned
  usable := by
    rw [CodeBuffer.usable, capacity_of_frame h.frame, codeStart_of_frame h.frame]
    exact h.usable
  stop := rfl
  size := by
    have := h.cursor hosted
    show d.buffer.cursor - e.buffer.cursor = p.size
    omega
  exits := by
    show d.exits.map ExitSlot.bare = PlanStep.allExits e.buffer.cursor p.steps
    rw [← h.renders.exits]
    refine (List.map_congr_left fun x hx => ?_).trans (List.map_id _)
    rw [ExitSlot.bare, ← h.unlinked hosted hx]
    rfl

/-- The new block stands behind all others. -/
theorem Drafted.placed (placed : e.Placed src) (new : src' e.nextId.index = insns)
    (old : ∀ {i b}, e.block? i = some b → src' i.index = src i.index) :
    (e.published pc p d).Placed src' := by
  have cursor := h.cursor placed.hosted
  have follows := h.follows placed.hosted
  have hcursor : (e.published pc p d).buffer.cursor = e.buffer.cursor + p.size := cursor
  have room := h.room
  have le_cursor := placed.le_cursor
  refine ⟨hosted_of_frame h.frame placed.hosted, ?_, by omega, ?_, ?_, ?_, ?_, ?_, ?_⟩
  · rw [codeBase_of_frame h.frame, base_of_frame h.frame]
    exact placed.codeBase
  · rw [hcursor, capacity_of_frame h.frame]
    exact room
  · intro i b hb
    obtain ⟨rfl, rfl⟩ | hb := block_of_published hb
    · rfl
    · exact placed.id hb
  · intro i b hb
    obtain ⟨rfl, rfl⟩ | hb := block_of_published hb
    · exact ⟨p, by rw [new]; exact follows⟩
    · obtain ⟨q, hq⟩ := placed.follows hb
      exact ⟨q, by rw [old hb]; exact hq.congr h.frame rfl⟩
  · intro i b hb
    obtain ⟨rfl, rfl⟩ | hb := block_of_published hb
    · exact le_cursor
    · exact placed.behind_stubs hb
  · intro i b hb
    obtain ⟨rfl, rfl⟩ | hb := block_of_published hb
    · show e.buffer.cursor + (d.buffer.cursor - e.buffer.cursor) ≤ d.buffer.cursor
      omega
    · have := placed.stop_le hb
      omega
  · intro i j b c hb hc hlt
    obtain ⟨rfl, rfl⟩ | hb := block_of_published hb
    · obtain ⟨rfl, rfl⟩ | hc := block_of_published hc
      · omega
      · have := (Array.getElem?_eq_some_iff.1 hc).1
        simp only [nextId] at hlt
        omega
    · obtain ⟨rfl, rfl⟩ | hc := block_of_published hc
      · exact placed.stop_le hb
      · exact placed.ordered hb hc hlt

omit h in
/-- Links that name blocks from before lead to where they led. -/
theorem landing_published (frame : (e.published pc p d).frame = e.frame) {l : Option BlockId}
    (named : ∀ i, l = some i → ∃ b, e.block? i = some b) :
    (e.published pc p d).landing l = e.landing l := by
  cases l with
  | none => simp [landing, stubs_of_frame frame]
  | some i =>
    obtain ⟨b, hb⟩ := named i rfl
    rw [landing_some hb, landing_some (block_published hb)]

/-- The code has been written for the place in which the block is stored. -/
theorem Drafted.wiring (hosted : e.Hosted) :
    (e.newBlock pc p d).wiring (e.published pc p d) p.steps = e.newWiring p := by
  have lands (k : Nat) : d.exits[k]?.bind (·.linked) = none := by
    cases hx : d.exits[k]? with
    | none => rfl
    | some x => exact h.unlinked hosted (List.mem_of_getElem? hx)
  have landing : (e.published pc p d).landing none = e.stubs.dispatch := rfl
  simp only [Block.wiring, newWiring, Engine.wiring, base_of_frame h.frame, config_of_frame h.frame]
  congr 1
  funext k
  rw [← landing, ← lands k]
  rfl

/-- The bytes of every block, old or new, are those of its plan. -/
theorem Drafted.coded (placed : e.Placed src) (coded : e.Coded src) {P H : BlockId → Nat → Prop}
    (graph : e.Graph P H) (new : src' e.nextId.index = insns)
    (old : ∀ {i b}, e.block? i = some b → src' i.index = src i.index) :
    (e.published pc p d).Coded src' := by
  have kept : ∀ i, i < e.buffer.cursor →
      (e.published pc p d).buffer.bytes[i]? = e.buffer.bytes[i]? := by
    intro i hi
    show d.buffer.bytes[i]? = _
    rw [h.buffer]
    exact CodeBuffer.getElem?_extend hi
  refine ⟨coded.stubs.congr fun i _ hi => kept i ?_, ?_⟩
  · have := placed.le_cursor
    rw [X86.length_stubBytes] at hi
    omega
  · intro i b q hb follows
    obtain ⟨rfl, rfl⟩ | hb := block_of_published hb
    · have same : p = q := by
        have planned := (h.follows placed.hosted).planned
        have planned' := follows.planned
        rw [new] at planned'
        exact Except.ok.inj (planned.symm.trans planned')
      subst same
      rw [h.wiring placed.hosted]
      show d.buffer.Holds e.buffer.cursor _
      rw [h.buffer]
      exact CodeBuffer.holds_extend
    · rw [old hb] at follows
      have follows₀ : b.Follows e (src i.index) q := follows.congr h.frame.symm rfl
      have wiring : b.wiring (e.published pc p d) q.steps = b.wiring e q.steps := by
        simp only [Block.wiring, base_of_frame h.frame, config_of_frame h.frame]
        congr 1
        funext k
        refine landing_published h.frame fun j hj => ?_
        obtain ⟨x, hx, link⟩ := Option.bind_eq_some_iff.1 hj
        exact graph.named ⟨b, hb, hx⟩ link
      rw [wiring]
      refine (coded.code hb follows₀).congr fun n _ hn => kept n ?_
      have room := placed.stop_le hb
      have le := placed.cursor_le
      have size : b.hostSize = stepsSize q.steps := follows₀.size
      rw [Wiring.length_codes (PlanStep.suitsAll placed.hosted (placed.wiring_of hb follows₀)
        (placed.translates follows₀).fits (by omega))] at hn
      omega

/-- The index finds the new block, and the line that its address maps to holds it. -/
theorem Drafted.indexed (placed : e.Placed src) (indexed : e.Indexed)
    (absent : e.cache.index[pc]? = none) : (e.published pc p d).Indexed where
  index {pc' i} := by
    rw [index_published]
    constructor
    · intro found
      split at found
      · next same =>
        obtain rfl := Option.some.inj found
        exact ⟨_, block?_published_nextId, isValid_newBlock, same⟩
      · obtain ⟨b, hb, valid, entry⟩ := indexed.index.1 found
        exact ⟨b, block_published hb, valid, entry⟩
    · rintro ⟨b, hb, valid, rfl⟩
      obtain ⟨rfl, rfl⟩ | hb := block_of_published hb
      · exact if_pos rfl
      · have found := indexed.index.2 ⟨b, hb, valid, rfl⟩
        rw [if_neg, found]
        rintro rfl
        exact absurd (absent.symm.trans found) nofun
  line {pc' l} hl := by
    have hline : (e.published pc p d).cache.jumps.line? pc' =
        if JumpCache.index pc' = JumpCache.index pc then
          some ⟨pc, e.nextId, .ofNat (e.cache.codeBase + e.buffer.cursor)⟩
        else e.cache.jumps.line? pc' := JumpCache.line?_insert
    rw [hline] at hl
    rw [base_of_frame h.frame]
    split at hl
    · next same =>
      obtain rfl := Option.some.inj hl
      refine ⟨same.symm, _, block?_published_nextId, isValid_newBlock, rfl, ?_⟩
      rw [← placed.codeBase]
      rfl
    · obtain ⟨slot, b, hb, valid, entry, host⟩ := indexed.line hl
      exact ⟨slot, b, block_published hb, valid, entry, host⟩

omit h in
/-- An exit belongs to the new block or was there before. -/
theorem storedExit_of_published {s : BlockId} {k : Nat} {x : ExitSlot}
    (hx : (e.published pc p d).StoredExit s k x) :
    (s = e.nextId ∧ d.exits[k]? = some x) ∨ e.StoredExit s k x := by
  obtain ⟨b, hb, hx⟩ := hx
  obtain ⟨rfl, rfl⟩ | hb := block_of_published hb
  · exact .inl ⟨rfl, hx⟩
  · exact .inr ⟨b, hb, hx⟩

omit h in
theorem hasExit_of_published {s : BlockId} {k : Nat} {x : ExitSlot}
    (hx : (e.published pc p d).HasExit s k x) :
    (s = e.nextId ∧ d.exits[k]? = some x) ∨ e.HasExit s k x := by
  obtain ⟨b, hb, valid, hx⟩ := hx
  obtain ⟨rfl, rfl⟩ | hb := block_of_published hb
  · exact .inl ⟨rfl, hx⟩
  · exact .inr ⟨b, hb, valid, hx⟩

omit h in
theorem hasExit_published {s : BlockId} {k : Nat} {x : ExitSlot} (hx : e.HasExit s k x) :
    (e.published pc p d).HasExit s k x := by
  obtain ⟨b, hb, valid, hx⟩ := hx
  exact ⟨b, block_published hb, valid, hx⟩

/-- Behind a publication the exits of the new block have to be linked, and those that wait for
it. -/
theorem Drafted.graph (resting : e.Resting src) (absent : e.cache.index[pc]? = none) :
    (e.published pc p d).Graph
      (fun i j => e.config.directChaining = false ∨ i = e.nextId ∨ ⟨pc, i, j⟩ ∈ e.chains.waiting)
      fun i _ => e.config.directChaining = false ∨ i = e.nextId := by
  have hosted := resting.placed.hosted
  have graph := resting.graph
  have unlinked {k : Nat} {x : ExitSlot} (hx : d.exits[k]? = some x) : x.linked = none :=
    h.unlinked hosted (List.mem_of_getElem? hx)
  refine ⟨?_, ?_, ?_, ?_, graph.waiting_nodup, ?_, ?_, ?_⟩
  · intro s k x i hx link
    obtain ⟨-, hx⟩ | hx := storedExit_of_published hx
    · exact absurd ((unlinked hx).symm.trans link) nofun
    · obtain ⟨b, hb⟩ := graph.named hx link
      exact ⟨b, block_published hb⟩
  · intro s k x hx hp
    obtain ⟨-, hx⟩ | hx := storedExit_of_published hx
    · exact unlinked hx
    · rcases hp with off | rfl | waits
      · exact graph.postponed hx off
      · obtain ⟨b, hb, -⟩ := hx
        exact absurd rfl (ne_nextId hb)
      · obtain ⟨y, hy, -, none, -⟩ := graph.waiting.1 waits
        rwa [StoredExit.unique hx hy.stored]
  · intro s k x hx hp
    obtain ⟨new, -⟩ | hx := hasExit_of_published hx
    · exact absurd (.inr (.inl new)) hp
    · have on : ¬ e.config.directChaining = false := fun off => hp (.inl off)
      have link := graph.linked hx on
      rw [index_published]
      split
      · next same =>
        rw [← same, absent] at link
        exact absurd (.inr (.inr (graph.waiting.2 ⟨x, hx, same.symm, link, on⟩))) hp
      · exact link
  · intro w
    refine graph.waiting.trans ⟨?_, ?_⟩
    · rintro ⟨x, hx, target, none, on⟩
      refine ⟨x, hasExit_published hx, target, none, ?_⟩
      rintro (off | new)
      · exact on off
      · obtain ⟨b, hb, -⟩ := hx
        exact ne_nextId hb new
    · rintro ⟨x, hx, target, none, hidden⟩
      obtain ⟨new, -⟩ | hx := hasExit_of_published hx
      · exact absurd (.inr new) hidden
      · exact ⟨x, hx, target, none, fun off => hidden (.inl off)⟩
  · intro i b s k hb
    obtain ⟨rfl, rfl⟩ | hb := block_of_published hb
    · -- No exit from before names the new block, and its own are not linked yet.
      refine ⟨nofun, ?_⟩
      rintro ⟨-, x, hx, link⟩
      obtain ⟨-, hx⟩ | hx := hasExit_of_published hx
      · exact absurd ((unlinked hx).symm.trans link) nofun
      · obtain ⟨b, hb⟩ := graph.named hx.stored link
        exact absurd rfl (ne_nextId hb)
    · refine (graph.incoming hb).trans (and_congr_right fun _ => ⟨?_, ?_⟩)
      · rintro ⟨x, hx, link⟩
        exact ⟨x, hasExit_published hx, link⟩
      · rintro ⟨x, hx, link⟩
        obtain ⟨-, hx⟩ | hx := hasExit_of_published hx
        · exact absurd ((unlinked hx).symm.trans link) nofun
        · exact ⟨x, hx, link⟩
  · intro i b hb
    obtain ⟨rfl, rfl⟩ | hb := block_of_published hb
    · exact List.nodup_nil
    · exact graph.incoming_nodup hb
  · intro i b hb valid
    obtain ⟨rfl, rfl⟩ | hb := block_of_published hb
    · rfl
    · exact graph.state hb valid

end Published

section Room

variable {c : Engine}

/-- An engine without blocks is at rest, whatever its blocks would have been made from. -/
theorem resting_of_empty (hosted : e.Hosted) (codeBase : e.cache.codeBase = e.buffer.base)
    (cursor : e.buffer.cursor = X86.stubsSize) (stubs : e.buffer.Holds 0 X86.stubBytes)
    (blocks : e.cache.blocks = #[]) (index : ∀ pc : UInt32, e.cache.index[pc]? = none)
    (jumps : ∀ pc, e.cache.jumps.line? pc = none) (chains : e.chains.waiting = []) :
    e.Resting src := by
  have absent {i : BlockId} {b : Block} : e.block? i ≠ some b := by simp [block?, blocks]
  have noExit {s : BlockId} {k : Nat} {x : ExitSlot} : ¬ e.StoredExit s k x := by
    rintro ⟨_, hb, _⟩
    exact absent hb
  have placed : e.Placed src := ⟨hosted, codeBase, Nat.le_of_eq cursor.symm, cursor ▸ hosted.room,
    (absurd · absent), (absurd · absent), (absurd · absent), (absurd · absent), (absurd · absent)⟩
  have indexed : e.Indexed := by
    refine ⟨⟨fun found => ?_, ?_⟩, fun hl => ?_⟩
    · rw [index] at found
      cases found
    · rintro ⟨_, hb, _⟩
      exact absurd hb absent
    · rw [jumps] at hl
      cases hl
  have waiting {w : OpenExit} : w ∉ e.chains.waiting := by simp [chains]
  refine ⟨placed, ⟨stubs, (absurd · absent)⟩, indexed, (absurd · noExit), (absurd · noExit),
    (absurd ·.stored noExit), ?_, by simp [chains], (absurd · absent), (absurd · absent),
    (absurd · absent)⟩
  refine ⟨(absurd · waiting), ?_⟩
  rintro ⟨_, hx, _⟩
  exact absurd hx.stored noExit

/-- Nothing is resident that was not, and the frame is the same. -/
structure Shrunk (e c : Engine) : Prop where
  frame : c.frame = e.frame
  resident : ∀ {i b}, c.block? i = some b → b.isValid = true →
    ∃ b₀, e.block? i = some b₀ ∧ b₀.isValid = true ∧ b₀.entry = b.entry

/-- Taking blocks out of use makes nothing resident. -/
theorem Operated.shrunk {victims : List BlockId}
    (h : e.Operated src (.removal e victims victims) c) : e.Shrunk c := by
  refine ⟨h.frame, fun hb valid => ?_⟩
  obtain ⟨b₀, hb₀, rfl⟩ := h.block_of hb
  rw [Surgery.isValid_block, Bool.and_eq_true] at valid
  exact ⟨b₀, hb₀, valid.2, (Block.entry_of_body Surgery.body_block).symm⟩

/-- All blocks and open exits are dropped, and the flush is counted. -/
def Emptied (e c : Engine) : Prop :=
  c = { e with
    cache := e.cache.flush
    chains := e.chains.clear
    buffer := e.buffer.flush
    stats := { e.stats with flushes := e.stats.flushes + 1 } }

theorem Emptied.frame (h : e.Emptied c) : c.frame = e.frame := by
  subst h
  simp only [Engine.frame, CodeBuffer.flush, CodeBuffer.truncate, BlockCache.flush]

/-- A flush keeps the stubs and nothing else. -/
theorem Emptied.cursor (h : e.Emptied c) (placed : e.Placed src) :
    c.buffer.cursor = X86.stubsSize := by
  subst h
  have := placed.le_cursor
  rw [← placed.hosted.codeStart] at this ⊢
  simp only [CodeBuffer.cursor, CodeBuffer.flush, CodeBuffer.truncate, Array.size_extract] at this ⊢
  omega

theorem Emptied.block? (h : e.Emptied c) (i : BlockId) : c.block? i = none := by
  subst h
  simp [Engine.block?, BlockCache.flush]

/-- A flushed engine is at rest, whatever its blocks will be made from. -/
theorem Emptied.resting (h : e.Emptied c) (placed : e.Placed src) (coded : e.Coded src)
    (src' : Nat → List Insn) : c.Resting src' := by
  have cursor := h.cursor placed
  have hosted := hosted_of_frame h.frame placed.hosted
  subst h
  refine resting_of_empty hosted placed.codeBase cursor ?_ rfl (fun pc => ?_) (fun pc => ?_)
    ChainTable.waiting_empty
  · refine coded.stubs.congr fun i _ hi => ?_
    rw [X86.length_stubBytes] at hi
    have : i < e.buffer.codeStart := by rw [placed.hosted.codeStart]; omega
    simp only [CodeBuffer.flush, CodeBuffer.truncate, Array.getElem?_extract]
    split
    · rw [Nat.zero_add]
    · next h => rw [Array.getElem?_eq_none (by omega)]
  · simp [BlockCache.flush]
  · simp [BlockCache.flush]

theorem Emptied.shrunk (h : e.Emptied c) : e.Shrunk c :=
  ⟨h.frame, fun hb _ => absurd ((h.block? _).symm.trans hb) nofun⟩

theorem yields_flush (reason : FlushReason) :
    ∃ c, Yields (EngineM.flush reason) e (.ok ()) c ∧ e.Emptied c :=
  ⟨_, yields_get.bind ((yields_modify _).bind (yields_report _)), rfl⟩

theorem yields_invalidateAll : ∃ c, Yields EngineM.invalidateAll e (.ok ()) c ∧ e.Emptied c :=
  yields_flush .explicit

/-- No block has been added or dropped, and no flush has happened. -/
structure Retained (e c : Engine) : Prop where
  bodies : c.bodies = e.bodies
  cursor : c.buffer.cursor = e.buffer.cursor
  flushes : c.stats.flushes = e.stats.flushes

theorem Retained.refl (e : Engine) : e.Retained e := ⟨rfl, rfl, rfl⟩

/-- Taking blocks out of use keeps them stored. -/
theorem Operated.retained {x : Surgery} (h : e.Operated src x c) : e.Retained c :=
  ⟨h.bodies, h.cursor, h.flushes⟩

/-- There is room for `n` bytes in `c`, and no block at the address. -/
structure Vacated (e : Engine) (src : Nat → List Insn) (pc : UInt32) (n : Nat) (c : Engine) :
    Prop where
  resting : c.Resting src
  shrunk : e.Shrunk c
  cleared : e.Retained c ∨ e.Emptied c
  absent : c.cache.index[pc]? = none
  room : c.buffer.cursor + n ≤ c.buffer.capacity

/-- A block that is larger than the buffer is refused before anything changes. -/
theorem yields_makeRoom_error {n : Nat} (large : n > e.buffer.usable) :
    Yields (EngineM.makeRoom pc n) e (.error (.error (.blockTooLarge n e.buffer.usable))) e := by
  have reserved : e.buffer.reserve n = .error (.error (.blockTooLarge n e.buffer.usable)) :=
    if_pos large
  refine yields_get.bind ?_
  rw [reserved]
  exact (yields_lift _).bind_error

/-- Where there is room only the block at the address has to go. -/
theorem yields_makeRoom_ready {n : Nat} (usable : n ≤ e.buffer.usable)
    (fits : n ≤ e.buffer.remaining)
    (h : Yields (do if let some old := (← get).lookup pc then EngineM.invalidateBlocks [old]) e
      (.ok ()) c) :
    Yields (EngineM.makeRoom pc n) e (.ok ()) c := by
  have reserved : e.buffer.reserve n = .ok (.ready, e.buffer) := by
    rw [CodeBuffer.reserve, if_neg (by omega), if_pos fits]
  exact yields_get.bind ((yields_lift_ok reserved).bind ((yields_modify _).bind h))

/-- A block that does not fit behind the cursor makes the engine drop all others. -/
theorem yields_makeRoom_flushed (pc : UInt32) {n : Nat} (usable : n ≤ e.buffer.usable)
    (full : ¬ n ≤ e.buffer.remaining) :
    ∃ c, Yields (EngineM.makeRoom pc n) e (.ok ()) c ∧ e.Emptied c := by
  have reserved : e.buffer.reserve n = .ok (.flushed, e.buffer.flush) := by
    rw [CodeBuffer.reserve, if_neg (by omega), if_neg full]
  obtain ⟨c, yields, emptied⟩ := yields_flush (e := { e with buffer := e.buffer.flush }) .capacity
  refine ⟨c, yields_get.bind ((yields_lift_ok reserved).bind ((yields_modify _).bind
    ((yields_report _).bind yields))), ?_⟩
  have twice : e.buffer.flush.flush = e.buffer.flush := by
    simp [CodeBuffer.flush, CodeBuffer.truncate, Array.extract_extract]
  rw [Emptied] at emptied ⊢
  rw [emptied, twice]

/-- How room for `n` bytes was made: nothing had to go, the block at the address had to, or all had
to. -/
inductive Cleared (e : Engine) (src : Nat → List Insn) (pc : UInt32) (n : Nat) : Engine → Prop
  | free (fits : n ≤ e.buffer.remaining) (absent : e.cache.index[pc]? = none) : Cleared e src pc n e
  | replaced {c : Engine} {old : BlockId} (fits : n ≤ e.buffer.remaining)
      (found : e.cache.index[pc]? = some old)
      (yields : Yields (EngineM.invalidateBlocks [old]) e (.ok ()) c)
      (removed : e.Operated src (.removal e [old] [old]) c) : Cleared e src pc n c
  | flushed {c : Engine} (full : ¬ n ≤ e.buffer.remaining) (emptied : e.Emptied c) :
      Cleared e src pc n c

/-- Where there is room and no block at the address, nothing has to be done. -/
theorem Indexed.yields_makeRoom_free (h : e.Indexed) {n : Nat} (usable : n ≤ e.buffer.usable)
    (fits : n ≤ e.buffer.remaining) (absent : e.cache.index[pc]? = none) :
    Yields (EngineM.makeRoom pc n) e (.ok ()) e := by
  refine yields_makeRoom_ready usable fits (yields_get.bind ?_)
  rw [h.lookup, absent]
  exact yields_pure ()

/-- For a block that fits the buffer room can be made, and its address is free behind that. -/
theorem Resting.yields_makeRoom (h : e.Resting src) (pc : UInt32) {n : Nat}
    (usable : n ≤ e.buffer.usable) :
    ∃ c, Yields (EngineM.makeRoom pc n) e (.ok ()) c ∧ e.Vacated src pc n c ∧
      e.Cleared src pc n c := by
  have cursor_le := h.placed.cursor_le
  by_cases fits : n ≤ e.buffer.remaining
  · have room : e.buffer.cursor + n ≤ e.buffer.capacity := by
      rw [CodeBuffer.remaining] at fits
      omega
    cases found : e.cache.index[pc]? with
    | none =>
      exact ⟨e, h.indexed.yields_makeRoom_free usable fits found, ⟨h,
        ⟨rfl, fun hb valid => ⟨_, hb, valid, rfl⟩⟩, .inl (.refl e), found, room⟩, .free fits found⟩
    | some old =>
      obtain ⟨b, hb, valid, -⟩ := h.indexed.index.1 found
      have resident : ∀ i ∈ [old], ∃ b, e.block? i = some b ∧ b.isValid = true :=
        fun i hi => ⟨b, List.mem_singleton.1 hi ▸ hb, valid⟩
      obtain ⟨c, yields, removed⟩ := yields_invalidateBlocks h (by simp) resident
      refine ⟨c, yields_makeRoom_ready usable fits (yields_get.bind ?_),
        ⟨removed.resting h, removed.shrunk, .inl removed.retained, ?_, ?_⟩,
        .replaced fits found yields removed⟩
      · rw [h.indexed.lookup, found]
        exact yields
      · rw [removed.index, found]
        simp [Option.filter, Surgery.removal]
      · rw [removed.cursor, capacity_of_frame removed.frame]
        exact room
  · obtain ⟨c, yields, emptied⟩ := yields_makeRoom_flushed pc usable fits
    have resting := emptied.resting h.placed h.coded src
    refine ⟨c, yields, ⟨resting, emptied.shrunk, .inr emptied, ?_, ?_⟩, .flushed fits emptied⟩
    · exact Option.eq_none_iff_forall_ne_some.2 fun i hi => by
        obtain ⟨b, hb, -⟩ := resting.indexed.index.1 hi
        rw [emptied.block?] at hb
        cases hb
    · rw [emptied.cursor h.placed, capacity_of_frame emptied.frame]
      rw [CodeBuffer.usable, h.placed.hosted.codeStart] at usable
      have := h.placed.hosted.room
      omega

end Room

section Emit

variable {c : Engine} {src' : Nat → List Insn} {id : BlockId}

/-- The sources of blocks, with one more. -/
def noted (src : Nat → List Insn) (id : BlockId) (insns : List Insn) : Nat → List Insn :=
  fun n => if n = id.index then insns else src n

theorem noted_self : noted src id insns id.index = insns := if_pos rfl

theorem noted_of_ne {i : BlockId} (h : i ≠ id) : noted src id insns i.index = src i.index :=
  if_neg fun same => h (BlockId.eq_of_index same)

/-- The block `id` of `c` is new since `e`. The others have been there before. -/
structure Emitted (e : Engine) (src : Nat → List Insn) (pc : UInt32) (insns : List Insn)
    (id : BlockId) (c : Engine) : Prop where
  resting : c.Resting (noted src id insns)
  frame : c.frame = e.frame
  block : ∃ b, c.block? id = some b ∧ b.isValid = true ∧ b.entry = pc
  old : ∀ {i b}, c.block? i = some b → b.isValid = true → i ≠ id →
    ∃ b₀, e.block? i = some b₀ ∧ b₀.isValid = true ∧ b₀.entry = b.entry
  /-- The new block stands behind those that the emission has left. -/
  grown : ∃ m b, (e.Retained m ∨ e.Emptied m) ∧ id = m.nextId ∧ c.bodies = m.bodies.push b ∧
    b.hostOffset = m.buffer.cursor ∧ c.buffer.cursor = m.buffer.cursor + b.hostSize ∧
    c.stats.flushes = m.stats.flushes

/-- A published block is linked, if blocks are linked at all. -/
theorem Drafted.yields_link (h : e.Drafted pc insns p d) (resting : e.Resting src)
    (absent : e.cache.index[pc]? = none) (new : src' e.nextId.index = insns)
    (old : ∀ {i b}, e.block? i = some b → src' i.index = src i.index) :
    ∃ c, Yields (do
        if e.config.directChaining then
          d.exits.zipIdx.forM fun (exit, k) => EngineM.linkOrWait e.nextId k exit.target
          EngineM.resolvePending e.nextId
        return e.nextId) (e.published pc p d) (.ok e.nextId) c ∧
      (e.published pc p d).Relinked c ∧ c.Resting src' := by
  have placed := h.placed resting.placed new old
  have coded := h.coded resting.placed resting.coded resting.graph new old
  have indexed := h.indexed resting.placed resting.indexed absent
  have graph := h.graph resting absent
  have config : (e.published pc p d).config = e.config := rfl
  cases chaining : e.config.directChaining with
  | false =>
    refine ⟨_, yields_pure _, .refl _, placed, coded, indexed, graph.congr ?_ ?_⟩ <;>
    · intro i j _ _
      simp [config, chaining]
  | true =>
    have sound :
        (e.published pc p d).Sound src' (fun i j => i = e.nextId ∨ ⟨pc, i, j⟩ ∈ e.chains.waiting)
        fun i _ => i = e.nextId :=
      ⟨placed, coded, indexed, graph.congr (fun i j _ _ => by simp [chaining])
        fun i j _ _ => by simp [chaining]⟩
    have other : ∀ j, ¬ ⟨pc, e.nextId, j⟩ ∈ e.chains.waiting := by
      intro j waits
      obtain ⟨x, ⟨b, hb, -⟩, -⟩ := resting.graph.waiting.1 waits
      exact ne_nextId hb rfl
    obtain ⟨c₁, yields₁, relinked₁, sound₁, kept⟩ :=
      sound.yields_linkExits other block?_published_nextId isValid_newBlock
    obtain ⟨b₁, hb₁, body, -⟩ := relinked₁.block block?_published_nextId
    have found : c₁.cache.index[pc]? = some e.nextId := by
      rw [relinked₁.index, index_published, if_pos rfl]
    -- What waits for the new block now has waited before it was published.
    have waiting (i : BlockId) (j : Nat) :
        ⟨pc, i, j⟩ ∈ e.chains.waiting ↔ ⟨pc, i, j⟩ ∈ c₁.chains.waiting := by
      refine ⟨kept _, fun waits => Classical.byContradiction fun before => ?_⟩
      obtain ⟨y, hy, target, unlinked, -⟩ := sound₁.graph.waiting.1 waits
      have link := sound₁.graph.linked hy before
      rw [target, found, unlinked] at link
      exact absurd link nofun
    obtain ⟨c₂, yields₂, relinked₂, sound₂⟩ := Sound.yields_resolvePending
      (sound₁.congr (fun i j _ _ => waiting i j) fun _ _ _ _ => Iff.rfl) hb₁
      (Block.entry_of_body body) found
    have relinked := relinked₁.trans relinked₂
    have on : ¬ c₂.config.directChaining = false := by
      rw [config_of_frame relinked.frame, config, chaining]
      nofun
    exact ⟨c₂, yields₁.bind (yields₂.bind (yields_pure _)), relinked,
      sound₂.congr (fun _ _ _ _ => ⟨nofun, on⟩) fun _ _ _ _ => ⟨nofun, on⟩⟩

/-- A successful emission: room is made in `e₁`, the plan is written there as `d`, and in `c` it has
been published and linked. -/
structure Emission (e : Engine) (src : Nat → List Insn) (pc : UInt32) (insns : List Insn)
    (e₁ : Engine) (p : Plan) (d : Draft) (c : Engine) : Prop where
  room : Yields (EngineM.makeRoom pc p.size) e (.ok ()) e₁
  vacated : e.Vacated src pc p.size e₁
  cleared : e.Cleared src pc p.size e₁
  written : Draft.ofPlan e₁ e₁.buffer p = .ok d
  drafted : e₁.Drafted pc insns p d
  joined : Yields (do
    if e₁.config.directChaining then
      d.exits.zipIdx.forM fun (exit, k) => EngineM.linkOrWait e₁.nextId k exit.target
      EngineM.resolvePending e₁.nextId
    return e₁.nextId) (e₁.published pc p d) (.ok e₁.nextId) c
  relinked : (e₁.published pc p d).Relinked c
  resting : c.Resting (noted src e₁.nextId insns)

/-- A block that has a plan and fits the buffer can be emitted. -/
theorem Resting.exists_emission (h : e.Resting src) (planned : e.plan pc insns = .ok p)
    (usable : p.size ≤ e.buffer.usable) : ∃ e₁ d c, e.Emission src pc insns e₁ p d c := by
  obtain ⟨e₁, room, vacated, cleared⟩ := h.yields_makeRoom pc usable
  have frame := vacated.shrunk.frame
  rw [CodeBuffer.usable, ← capacity_of_frame frame, ← codeStart_of_frame frame] at usable
  obtain ⟨d, written, drafted⟩ :=
    ofPlan_eq_ok vacated.resting.placed.hosted vacated.resting.placed.bounded
      ((plan_of_frame frame pc insns).trans planned) usable vacated.room
  obtain ⟨c, joined, relinked, resting⟩ := drafted.yields_link vacated.resting vacated.absent
    noted_self fun hb => noted_of_ne (ne_nextId hb)
  exact ⟨e₁, d, c, room, vacated, cleared, written, drafted, joined, relinked, resting⟩

namespace Emission

variable {e₁ : Engine} (h : e.Emission src pc insns e₁ p d c)
include h

theorem yields_emitRoomy : Yields (EngineM.emitRoomy pc p) e₁ (.ok e₁.nextId) c := by
  have placed := h.vacated.resting.placed
  have ahead := h.drafted.cursor placed.hosted
  refine yields_get.bind ((yields_lift_ok h.written).bind ?_)
  exact (yields_publish placed.codeBase placed.bounded
    (h.drafted.bounded placed.hosted placed.bounded) (by omega)).bind h.joined

theorem yields (planned : e.plan pc insns = .ok p) :
    Yields (EngineM.emitBlock pc insns) e (.ok e₁.nextId) c := by
  intro log
  rw [EngineM.perform_emitBlock planned]
  exact h.room.bind h.yields_emitRoomy log

/-- What an emission that succeeds has done to the engine. -/
theorem emitted : e.Emitted src pc insns e₁.nextId c := by
  have relinked := h.relinked
  have drafted := h.drafted
  refine ⟨h.resting, relinked.frame.trans (drafted.frame.trans h.vacated.shrunk.frame), ?_, ?_, ?_⟩
  · obtain ⟨b, hb, body, valid⟩ := relinked.block block?_published_nextId
    exact ⟨b, hb, valid.trans isValid_newBlock, Block.entry_of_body body⟩
  · intro i b hb valid other
    obtain ⟨b₁, hb₁, body, valid₁⟩ := relinked.symm.block hb
    obtain ⟨same, -⟩ | hb₁ := block_of_published hb₁
    · exact absurd same other
    · obtain ⟨b₀, hb₀, valid₀, entry⟩ := h.vacated.shrunk.resident hb₁ (valid₁.trans valid)
      exact ⟨b₀, hb₀, valid₀, entry.trans (Block.entry_of_body body)⟩
  · have cursor := drafted.cursor h.vacated.resting.placed.hosted
    refine ⟨e₁, (e₁.newBlock pc p d).body, h.vacated.cleared, rfl, ?_, rfl, ?_, relinked.flushes⟩
    · rw [relinked.bodies]
      exact Array.map_push
    · show _ = e₁.buffer.cursor + (d.buffer.cursor - e₁.buffer.cursor)
      rw [relinked.cursor]
      show d.buffer.cursor = _
      omega

end Emission

/-- Emission fails with the fault that can be told beforehand, and then changes nothing; or there is
a plan that fits into the buffer. -/
theorem emitBlock_fails_or_fits (e : Engine) (pc : UInt32) (insns : List Insn) :
    (∃ fault, e.emissionFault? pc insns = some fault ∧
      Yields (EngineM.emitBlock pc insns) e (.error fault) e) ∨
    (e.emissionFault? pc insns = none ∧ ∃ p, e.plan pc insns = .ok p ∧
      p.size ≤ e.buffer.usable) := by
  cases planned : e.plan pc insns with
  | error fault =>
    refine .inl ⟨fault, by rw [emissionFault?, planned], yields_get.bind ?_⟩
    rw [planned]
    exact (yields_lift _).bind_error
  | ok p =>
    by_cases large : p.size > e.buffer.usable
    · refine .inl ⟨.error (.blockTooLarge p.size e.buffer.usable), ?_, ?_⟩
      · rw [emissionFault?, planned]
        exact if_pos large
      · exact yields_get.bind
          ((yields_lift_ok planned).bind (yields_makeRoom_error large).bind_error)
    · exact .inr
        ⟨by rw [emissionFault?, planned]; exact if_neg large, p, rfl, Nat.le_of_not_lt large⟩

/-- Emission fails with the fault that can be told beforehand, and then changes nothing; or it
succeeds. -/
theorem Resting.yields_emitBlock (h : e.Resting src) (pc : UInt32) (insns : List Insn) :
    (∃ fault, e.emissionFault? pc insns = some fault ∧
      Yields (EngineM.emitBlock pc insns) e (.error fault) e) ∨
    (e.emissionFault? pc insns = none ∧ ∃ id c, Yields (EngineM.emitBlock pc insns) e (.ok id) c ∧
      e.Emitted src pc insns id c) := by
  obtain failed | ⟨possible, p, planned, usable⟩ := emitBlock_fails_or_fits e pc insns
  · exact .inl failed
  · obtain ⟨e₁, d, c, emission⟩ := h.exists_emission planned usable
    exact .inr ⟨possible, e₁.nextId, c, emission.yields planned, emission.emitted⟩

end Emit

end Dynarec.Engine
