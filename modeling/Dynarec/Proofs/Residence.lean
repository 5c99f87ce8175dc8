import Dynarec.Proofs.Creation
import Dynarec.Proofs.Relinking

/-!
Stored blocks: where their code stands in the buffer and what it is the code of. Links point fields
elsewhere and leave all else alone.
-/
namespace Dynarec

theorem BlockId.eq_of_index {i j : BlockId} (h : i.index = j.index) : i = j := congrArg BlockId.mk h

/-- The exit without its link. -/
def ExitSlot.bare (x : ExitSlot) : ExitSlot := { x with linked := none }

/-- The part of a block that neither links nor invalidation change. -/
def Block.body (b : Block) : Block :=
  { b with exits := b.exits.map ExitSlot.bare, state := .emitting, incoming := [] }

namespace Engine

/-- The parts of an engine that no operation changes. -/
def frame (e : Engine) : Engine where
  registry := e.registry
  config := e.config
  buffer := { e.buffer with bytes := #[] }
  cache := { codeBase := e.cache.codeBase }
  stubs := e.stubs

/-- The stored block of an id, resident or not. -/
def block? (e : Engine) (id : BlockId) : Option Block := e.cache.blocks[id.index]?

def bodies (e : Engine) : Array Block := e.cache.blocks.map Block.body

/-- Where an exit with the given link lands. -/
def landing (e : Engine) (linked : Option BlockId) : Nat :=
  ((linked.bind e.block?).map (·.hostOffset)).getD e.stubs.dispatch

/-- What translated code runs against. -/
def context (e : Engine) (handlers : Handlers) : X86.Context where
  code := e.buffer
  jumps := e.cache.jumps
  regions := e.config.regions
  handlers

variable {e e' : Engine} {id : BlockId} {b b' : Block}

/-- A block that is stored can be had from the cache. -/
theorem get_eq_ok : e.cache.get id = .ok b ↔ e.block? id = some b := by
  unfold BlockCache.get block?
  split
  · next h => simp [h]
  · next h => simp [h, breach]

/-- The blocks of the cache are those that have an id. -/
theorem mem_blocks : b ∈ e.cache.blocks.toList ↔ ∃ id, e.block? id = some b := by
  rw [Array.mem_toList_iff, Array.mem_iff_getElem?]
  constructor
  · rintro ⟨n, hb⟩
    exact ⟨⟨n⟩, hb⟩
  · rintro ⟨id, hb⟩
    exact ⟨id.index, hb⟩

section Frame

variable (h : e'.frame = e.frame)
include h

theorem config_of_frame : e'.config = e.config := show e'.frame.config = e.frame.config by rw [h]

theorem stubs_of_frame : e'.stubs = e.stubs := show e'.frame.stubs = e.frame.stubs by rw [h]

theorem base_of_frame : e'.buffer.base = e.buffer.base :=
  show e'.frame.buffer.base = e.frame.buffer.base by rw [h]

theorem capacity_of_frame : e'.buffer.capacity = e.buffer.capacity :=
  show e'.frame.buffer.capacity = e.frame.buffer.capacity by rw [h]

theorem codeStart_of_frame : e'.buffer.codeStart = e.buffer.codeStart :=
  show e'.frame.buffer.codeStart = e.frame.buffer.codeStart by rw [h]

theorem codeBase_of_frame : e'.cache.codeBase = e.cache.codeBase :=
  show e'.frame.cache.codeBase = e.frame.cache.codeBase by rw [h]

theorem plan_of_frame (pc : UInt32) (insns : List Insn) : e'.plan pc insns = e.plan pc insns :=
  show e'.frame.plan pc insns = e.frame.plan pc insns by rw [h]

/-- An engine stays on the host that it has been made for. -/
theorem hosted_of_frame (hosted : e.Hosted) : e'.Hosted where
  registry := (show e'.frame.registry = e.frame.registry by rw [h]).trans hosted.registry
  stubs := (stubs_of_frame h).trans hosted.stubs
  codeStart := (codeStart_of_frame h).trans hosted.codeStart
  room := capacity_of_frame h ▸ hosted.room
  mapped := base_of_frame h ▸ capacity_of_frame h ▸ hosted.mapped
  reach := capacity_of_frame h ▸ hosted.reach

end Frame

/-- The engine when it links no blocks. -/
def unchained (e : Engine) : Engine :=
  { e with config := { e.config with directChaining := false } }

/-- The engines agree in what no operation changes, up to whether they link blocks. -/
def Kin (e' e : Engine) : Prop := e'.unchained.frame = e.unchained.frame

section Kin

variable (h : e'.Kin e)
include h

theorem Kin.symm : e.Kin e' := Eq.symm h

theorem Kin.trans {c : Engine} (h' : c.Kin e') : c.Kin e := Eq.trans h' h

theorem Kin.config : e'.unchained.config = e.unchained.config := config_of_frame h

theorem Kin.stubs : e'.stubs = e.stubs :=
  show e'.unchained.stubs = e.unchained.stubs from stubs_of_frame h

theorem Kin.base : e'.buffer.base = e.buffer.base :=
  show e'.unchained.buffer.base = e.unchained.buffer.base from base_of_frame h

theorem Kin.capacity : e'.buffer.capacity = e.buffer.capacity :=
  show e'.unchained.buffer.capacity = e.unchained.buffer.capacity from capacity_of_frame h

theorem Kin.codeStart : e'.buffer.codeStart = e.buffer.codeStart :=
  show e'.unchained.buffer.codeStart = e.unchained.buffer.codeStart from codeStart_of_frame h

/-- Plans do not depend on whether blocks are linked. -/
theorem Kin.plan (pc : UInt32) (insns : List Insn) : e'.plan pc insns = e.plan pc insns :=
  show e'.unchained.plan pc insns = e.unchained.plan pc insns from plan_of_frame h pc insns

end Kin

theorem kin_of_frame (h : e'.frame = e.frame) : e'.Kin e := congrArg unchained h

/-- Engines with the same bodies store them under the same ids. -/
theorem block?_of_bodies (bodies : e'.bodies = e.bodies) (h : e'.block? id = some b') :
    ∃ b, e.block? id = some b ∧ b.body = b'.body := by
  have := congrArg (·[id.index]?) bodies
  simp only [Engine.bodies, Array.getElem?_map] at this
  rw [block?] at h
  rw [h] at this
  simpa [block?] using this.symm

/-- Where exits land depends on where blocks stand, and not on their links. -/
theorem landing_of_bodies (frame : e'.frame = e.frame) (bodies : e'.bodies = e.bodies) :
    e'.landing = e.landing := by
  have hblock (id : BlockId) :
      (e'.block? id).map (·.hostOffset) = (e.block? id).map (·.hostOffset) := by
    have := congrArg (·[id.index]?.map Block.hostOffset) bodies
    simp only [Engine.bodies, Array.getElem?_map, Option.map_map] at this
    exact this
  funext linked
  cases linked with
  | none => simp [landing, stubs_of_frame frame]
  | some id => simp [landing, stubs_of_frame frame, hblock]

end Engine

namespace Block

/-- The block is the result of a plan for the instructions. -/
structure Follows (e : Engine) (insns : List Insn) (b : Block) (p : Plan) : Prop where
  planned : e.plan b.entry insns = .ok p
  usable : p.size ≤ e.buffer.usable
  stop : b.stop = p.stop
  size : b.hostSize = p.size
  exits : b.exits.map ExitSlot.bare = PlanStep.allExits b.hostOffset p.steps

variable {e e' : Engine} {insns : List Insn} {b b' : Block} {p : Plan}

section Body

variable (h : b'.body = b.body)
include h

theorem id_of_body : b'.id = b.id := show b'.body.id = b.body.id by rw [h]

theorem entry_of_body : b'.entry = b.entry := show b'.body.entry = b.body.entry by rw [h]

theorem hostOffset_of_body : b'.hostOffset = b.hostOffset :=
  show b'.body.hostOffset = b.body.hostOffset by rw [h]

theorem hostSize_of_body : b'.hostSize = b.hostSize :=
  show b'.body.hostSize = b.body.hostSize by rw [h]

theorem exits_of_body : b'.exits.map ExitSlot.bare = b.exits.map ExitSlot.bare :=
  show b'.body.exits = b.body.exits by rw [h]

end Body

/-- A block follows its plan as long as neither its body nor the frame of the engine changes. -/
theorem Follows.congr (h : b.Follows e insns p) (frame : e'.frame = e.frame)
    (body : b'.body = b.body) : b'.Follows e' insns p where
  planned := by
    rw [Engine.plan_of_frame frame, entry_of_body body]
    exact h.planned
  usable := by
    rw [CodeBuffer.usable, Engine.capacity_of_frame frame, Engine.codeStart_of_frame frame]
    exact h.usable
  stop := (show b'.body.stop = b.body.stop by rw [body]).trans h.stop
  size := (hostSize_of_body body).trans h.size
  exits := by
    rw [exits_of_body body, hostOffset_of_body body]
    exact h.exits

/-- Where the parts of the block's code lead. -/
def wiring (b : Block) (e : Engine) (steps : List PlanStep) : Wiring where
  base := e.buffer.base
  regions := e.config.regions
  label := PlanStep.label none b.hostOffset steps
  lands k := e.landing (b.exits[k]?.bind (·.linked))

end Block

/-- The place of the fallthrough code lies in the code of the plan. -/
theorem PlanStep.label_le {known : Option Nat} {steps : List PlanStep} {p l bound : Nat}
    (h : label known p steps = some l) (hknown : ∀ l, known = some l → l ≤ bound)
    (hbound : p + stepsSize steps ≤ bound) : l ≤ bound := by
  induction steps generalizing known p with
  | nil => exact hknown l h
  | cons s steps ih =>
    rw [stepsSize_cons] at hbound
    cases s with
    | place => exact ih h hknown (by simp only [size] at hbound; omega)
    | fallthrough =>
      simp only [size] at hbound
      exact ih h (fun l hl => by cases hl; omega) (by omega)

namespace Engine

/-- The blocks stand one behind the other in the buffer, behind the stubs. `src` tells the
instructions that each was made from. -/
structure Placed (e : Engine) (src : Nat → List Insn) : Prop where
  hosted : e.Hosted
  codeBase : e.cache.codeBase = e.buffer.base
  le_cursor : X86.stubsSize ≤ e.buffer.cursor
  cursor_le : e.buffer.cursor ≤ e.buffer.capacity
  id : ∀ {id b}, e.block? id = some b → b.id = id
  follows : ∀ {id b}, e.block? id = some b → ∃ p, b.Follows e (src id.index) p
  behind_stubs : ∀ {id b}, e.block? id = some b → X86.stubsSize ≤ b.hostOffset
  stop_le : ∀ {id b}, e.block? id = some b → b.hostOffset + b.hostSize ≤ e.buffer.cursor
  ordered : ∀ {i j b c}, e.block? i = some b → e.block? j = some c → i.index < j.index →
    b.hostOffset + b.hostSize ≤ c.hostOffset

namespace Placed

variable {e e' : Engine} {src : Nat → List Insn} {id : BlockId} {b : Block} {p : Plan}
  {x : ExitSlot} {k : Nat}

/-- Where blocks stand does not depend on links. -/
theorem congr (h : e.Placed src) (frame : e'.frame = e.frame) (bodies : e'.bodies = e.bodies)
    (cursor : e'.buffer.cursor = e.buffer.cursor) : e'.Placed src where
  hosted := hosted_of_frame frame h.hosted
  codeBase := by rw [codeBase_of_frame frame, base_of_frame frame, h.codeBase]
  le_cursor := cursor ▸ h.le_cursor
  cursor_le := by rw [cursor, capacity_of_frame frame]; exact h.cursor_le
  id hb := by
    obtain ⟨c, hc, body⟩ := block?_of_bodies bodies hb
    exact (Block.id_of_body body.symm).trans (h.id hc)
  follows hb := by
    obtain ⟨c, hc, body⟩ := block?_of_bodies bodies hb
    obtain ⟨p, follows⟩ := h.follows hc
    exact ⟨p, follows.congr frame body.symm⟩
  behind_stubs hb := by
    obtain ⟨c, hc, body⟩ := block?_of_bodies bodies hb
    rw [Block.hostOffset_of_body body.symm]
    exact h.behind_stubs hc
  stop_le hb := by
    obtain ⟨c, hc, body⟩ := block?_of_bodies bodies hb
    rw [Block.hostOffset_of_body body.symm, Block.hostSize_of_body body.symm, cursor]
    exact h.stop_le hc
  ordered hb hc hlt := by
    obtain ⟨b, hb, hbody⟩ := block?_of_bodies bodies hb
    obtain ⟨c, hc, hbody'⟩ := block?_of_bodies bodies hc
    rw [Block.hostOffset_of_body hbody.symm, Block.hostSize_of_body hbody.symm,
      Block.hostOffset_of_body hbody'.symm]
    exact h.ordered hb hc hlt

theorem bounded (h : e.Placed src) : e.buffer.Bounded := ⟨h.cursor_le, h.hosted.mapped⟩

/-- Every exit lands in the buffer. -/
theorem landing_le (h : e.Placed src) (linked : Option BlockId) :
    e.landing linked ≤ e.buffer.capacity := by
  unfold landing
  cases hd : linked.bind e.block? with
  | none => exact h.hosted.dispatch_le
  | some d =>
    obtain ⟨id, -, hd⟩ := Option.bind_eq_some_iff.1 hd
    have := h.stop_le hd
    have := h.cursor_le
    simp only [Option.map_some, Option.getD_some]
    omega

/-- The wiring of a stored block leads to places in the buffer. -/
theorem wiring_of (h : e.Placed src) (hb : e.block? id = some b)
    (follows : b.Follows e (src id.index) p) : (b.wiring e p.steps).Of e where
  base := rfl
  regions := rfl
  label l hl := by
    refine PlanStep.label_le hl nofun ?_
    have := h.stop_le hb
    have := h.cursor_le
    have hsize : b.hostSize = stepsSize p.steps := follows.size
    omega
  lands k := h.landing_le _

/-- The plan of a stored block does what its instructions mean. -/
theorem translates (h : e.Placed src) (follows : b.Follows e (src id.index) p) :
    Translates e (src id.index) p.steps := translates_of_plan h.hosted follows.planned

/-- The field of an exit lies in the code of its block. -/
theorem within (h : e.Placed src) (hb : e.block? id = some b) (hx : x ∈ b.exits) :
    x.Within b.hostOffset (b.hostOffset + b.hostSize) := by
  obtain ⟨p, follows⟩ := h.follows hb
  have hmem : x.bare ∈ PlanStep.allExits b.hostOffset p.steps :=
    follows.exits ▸ List.mem_map_of_mem hx
  have := PlanStep.within_allExits (h.translates follows).plain hmem
  rw [follows.size]
  exact ⟨this.width, this.anchor, this.start_le, this.le_stop⟩

/-- The fields of different exits do not overlap. -/
theorem apart (h : e.Placed src) {i j : BlockId} {c : Block} {y : ExitSlot} {l : Nat}
    (hb : e.block? i = some b) (hx : b.exits[k]? = some x) (hc : e.block? j = some c)
    (hy : c.exits[l]? = some y) (ne : (i, k) ≠ (j, l)) :
    x.site.anchor ≤ y.site.start ∨ y.site.anchor ≤ x.site.start := by
  have hx' := h.within hb (List.mem_of_getElem? hx)
  have hy' := h.within hc (List.mem_of_getElem? hy)
  have := hx'.start_le
  have := hx'.le_stop
  have := hy'.start_le
  have := hy'.le_stop
  rcases Nat.lt_trichotomy i.index j.index with hlt | heq | hgt
  · have := h.ordered hb hc hlt
    omega
  · obtain rfl : i = j := BlockId.eq_of_index heq
    obtain rfl : b = c := Option.some.inj (hb.symm.trans hc)
    obtain ⟨p, follows⟩ := h.follows hb
    have sorted := PlanStep.pairwise_allExits (h.translates follows).plain b.hostOffset
    rw [← follows.exits, List.pairwise_map, List.pairwise_iff_getElem] at sorted
    obtain ⟨hk, rfl⟩ := List.getElem?_eq_some_iff.1 hx
    obtain ⟨hl, rfl⟩ := List.getElem?_eq_some_iff.1 hy
    have hkl : k ≠ l := fun hkl => ne (by rw [hkl])
    rcases Nat.lt_or_gt_of_ne hkl with hlt | hgt
    · exact .inl (sorted k l hk hl hlt)
    · exact .inr (sorted l k hl hk hgt)
  · have := h.ordered hc hb hgt
    omega

end Placed

/-- The code of every stored block does what its instructions mean and goes on where its exits are
linked to. -/
structure Coded (e : Engine) (src : Nat → List Insn) : Prop where
  stubs : e.buffer.Holds 0 X86.stubBytes
  code : ∀ {id b p}, e.block? id = some b → b.Follows e (src id.index) p →
    e.buffer.Holds b.hostOffset ((b.wiring e p.steps).codes b.hostOffset 0 p.steps)

namespace Coded

variable {e e' : Engine} {src : Nat → List Insn} {id : BlockId} {b : Block} {x : ExitSlot} {k : Nat}

/-- The field of every exit leads to where the exit is linked to. -/
theorem field (h : e.Coded src) (placed : e.Placed src) (hb : e.block? id = some b)
    (hx : b.exits[k]? = some x) :
    e.buffer.Holds x.site.start (branchField (e.landing x.linked) x.site.anchor) := by
  obtain ⟨p, follows⟩ := placed.follows hb
  have translates := placed.translates follows
  have room : b.hostOffset + stepsSize p.steps ≤ e.buffer.capacity := by
    have := placed.stop_le hb
    have := placed.cursor_le
    have hsize : b.hostSize = stepsSize p.steps := follows.size
    omega
  have hexit : (PlanStep.allExits b.hostOffset p.steps)[k]? = some x.bare := by
    rw [← follows.exits, List.getElem?_map, hx]
    rfl
  have := holds_branchField placed.hosted translates.fits translates.plain room
    (placed.wiring_of hb follows) (h.code hb follows) hexit
  simp only [Nat.zero_add, Block.wiring, hx, Option.bind_some] at this
  exact this

/-- Code stays right when only fields of exits change, and each to where its exit is then linked
to. -/
theorem reland (h : e.Coded src) (placed : e.Placed src) (frame : e'.frame = e.frame)
    (bodies : e'.bodies = e.bodies) (cursor : e'.buffer.cursor = e.buffer.cursor)
    (outside : ∀ i, (∀ id b x, e.block? id = some b → x ∈ b.exits →
      i < x.site.start ∨ x.site.anchor ≤ i) → e'.buffer.bytes[i]? = e.buffer.bytes[i]?)
    (fields : ∀ id b (k : Nat) (x : ExitSlot), e'.block? id = some b → b.exits[k]? = some x →
      e'.buffer.Holds x.site.start (branchField (e'.landing x.linked) x.site.anchor)) :
    e'.Coded src where
  stubs := by
    refine h.stubs.congr fun i _ hi => outside i fun id b x hb hx => .inl ?_
    have := (placed.within hb hx).start_le
    have := placed.behind_stubs hb
    rw [X86.length_stubBytes] at hi
    omega
  code := by
    intro id b' p hb' follows
    obtain ⟨b, hb, body⟩ := block?_of_bodies bodies hb'
    have follows₀ : b.Follows e (src id.index) p := follows.congr frame.symm body
    have translates := placed.translates follows₀
    have room : b.hostOffset + stepsSize p.steps ≤ e.buffer.capacity := by
      have := placed.stop_le hb
      have := placed.cursor_le
      have hsize : b.hostSize = stepsSize p.steps := follows₀.size
      omega
    have hwiring : b'.wiring e' p.steps =
        { b.wiring e p.steps with lands := (b'.wiring e' p.steps).lands } := by
      simp only [Block.wiring, base_of_frame frame, config_of_frame frame,
        Block.hostOffset_of_body body.symm]
    have of' : Wiring.Of { b.wiring e p.steps with lands := (b'.wiring e' p.steps).lands } e := by
      have of := placed.wiring_of hb follows₀
      refine ⟨of.base, of.regions, of.label, fun k => ?_⟩
      rw [← capacity_of_frame frame]
      exact (placed.congr frame bodies cursor).landing_le _
    rw [hwiring, Block.hostOffset_of_body body.symm]
    refine holds_reland placed.hosted translates.fits translates.plain room
      (placed.wiring_of hb follows₀) of' (h.code hb follows₀) ?_ ?_
    · intro i hi hi' inside
      have hsize : b.hostSize = stepsSize p.steps := follows₀.size
      refine outside i fun id' c x hc hx => ?_
      have := (placed.within hc hx).start_le
      have := (placed.within hc hx).le_stop
      rcases Nat.lt_trichotomy id'.index id.index with hlt | heq | hgt
      · have := placed.ordered hc hb hlt
        omega
      · obtain rfl : id' = id := BlockId.eq_of_index heq
        obtain rfl : c = b := Option.some.inj (hc.symm.trans hb)
        exact inside x.bare (follows₀.exits ▸ List.mem_map_of_mem hx)
      · have := placed.ordered hb hc hgt
        omega
    · intro j y hy
      rw [← follows₀.exits, ← Block.exits_of_body body.symm, List.getElem?_map] at hy
      obtain ⟨x, hx, rfl⟩ := Option.map_eq_some_iff.1 hy
      have := fields id b' j x hb' hx
      simp only [Nat.zero_add, Block.wiring, hx, Option.bind_some]
      exact this

end Coded

/-- Code stays right when neither a byte nor a link changes. -/
theorem Coded.congr {e e' : Engine} {src : Nat → List Insn} (h : e.Coded src)
    (placed : e.Placed src) (frame : e'.frame = e.frame) (bodies : e'.bodies = e.bodies)
    (bytes : e'.buffer.bytes = e.buffer.bytes)
    (links : ∀ id b, e'.block? id = some b → ∃ b₀, e.block? id = some b₀ ∧ b.exits = b₀.exits) :
    e'.Coded src := by
  refine h.reland placed frame bodies (congrArg Array.size bytes) (fun i _ => by rw [bytes]) ?_
  intro id b k x hb hx
  obtain ⟨b₀, hb₀, hexits⟩ := links id b hb
  rw [landing_of_bodies frame bodies]
  exact (h.field placed hb₀ (hexits ▸ hx)).congr fun i _ _ => by rw [bytes]

/-- The index and the lines of the jump cache name resident blocks, and the index names them all. -/
structure Indexed (e : Engine) : Prop where
  index : ∀ {pc id}, e.cache.index[pc]? = some id ↔
    ∃ b, e.block? id = some b ∧ b.isValid = true ∧ b.entry = pc
  line : ∀ {pc l}, e.cache.jumps.line? pc = some l → JumpCache.index l.tag = JumpCache.index pc ∧
    ∃ b, e.block? l.id = some b ∧ b.isValid = true ∧ b.entry = l.tag ∧
      l.host = .ofNat (e.buffer.base + b.hostOffset)

/-- The index stays right when blocks change in their links only. -/
theorem Indexed.congr {e e' : Engine} (h : e.Indexed) (frame : e'.frame = e.frame)
    (bodies : e'.bodies = e.bodies)
    (valid : ∀ id, (e'.block? id).map (·.isValid) = (e.block? id).map (·.isValid))
    (index : e'.cache.index = e.cache.index) (jumps : e'.cache.jumps = e.cache.jumps) :
    e'.Indexed where
  index := by
    intro pc id
    rw [index, h.index]
    constructor
    · rintro ⟨b, hb, hvalid, rfl⟩
      obtain ⟨b', hb', body⟩ := block?_of_bodies bodies.symm hb
      have := valid id
      rw [hb, hb'] at this
      exact ⟨b', hb', (Option.some.inj this).trans hvalid, Block.entry_of_body body⟩
    · rintro ⟨b', hb', hvalid, rfl⟩
      obtain ⟨b, hb, body⟩ := block?_of_bodies bodies hb'
      have := valid id
      rw [hb, hb'] at this
      exact ⟨b, hb, (Option.some.inj this).symm.trans hvalid, Block.entry_of_body body⟩
  line := by
    intro pc l hl
    rw [jumps] at hl
    obtain ⟨slot, b, hb, hvalid, entry, host⟩ := h.line hl
    obtain ⟨b', hb', body⟩ := block?_of_bodies bodies.symm hb
    have := valid l.id
    rw [hb, hb'] at this
    refine ⟨slot, b', hb', (Option.some.inj this).trans hvalid,
      (Block.entry_of_body body).trans entry, ?_⟩
    rw [base_of_frame frame, Block.hostOffset_of_body body]
    exact host

/-- The jump cache gives no answer but the one of the index. -/
theorem Indexed.lookup {e : Engine} (h : e.Indexed) (pc : UInt32) :
    e.lookup pc = e.cache.index[pc]? := by
  rw [Engine.lookup, BlockCache.lookup]
  cases hit : e.cache.jumps.lookup pc with
  | none => rfl
  | some id =>
    obtain ⟨l, hl, tag, rfl⟩ := JumpCache.lookup_eq_some.1 hit
    obtain ⟨-, b, hb, valid, entry, -⟩ := h.line hl
    exact (h.index.2 ⟨b, hb, valid, entry.trans tag⟩).symm

/-- The engine with a stored block changed. -/
def modifyBlock (e : Engine) (id : BlockId) (f : Block → Block) : Engine :=
  { e with cache := e.cache.modify id f }

/-- The engine with an exit pointed elsewhere. -/
def retarget (e : Engine) (s : BlockId) (k : Nat) (x : ExitSlot) (l : Option BlockId) : Engine :=
  { e.modifyBlock s fun b => (b.setLink k l).refresh with
    buffer := e.buffer.point x.site (e.landing l) }

section Update

variable {e : Engine} {id s : BlockId} {b : Block} {f : Block → Block} {k : Nat} {x : ExitSlot}
  {l : Option BlockId}

theorem block?_modifyBlock (i : BlockId) :
    (e.modifyBlock id f).block? i = if i = id then (e.block? i).map f else e.block? i := by
  simp only [block?, modifyBlock, BlockCache.modify, Array.getElem?_modify]
  split
  · next h => rw [if_pos (BlockId.eq_of_index h.symm)]
  · next h => rw [if_neg fun hid => h (by rw [hid])]

/-- A change of links keeps the bodies. -/
theorem bodies_modifyBlock (h : ∀ b, e.block? id = some b → (f b).body = b.body) :
    (e.modifyBlock id f).bodies = e.bodies := by
  apply Array.ext_getElem?
  intro i
  have := @block?_modifyBlock e id f ⟨i⟩
  simp only [block?] at this
  simp only [bodies, Array.getElem?_map, this]
  split
  · next hid =>
    cases hb : e.cache.blocks[i]? with
    | none => rfl
    | some b => simp [h b (by rw [← hid]; exact hb)]
  · rfl

theorem body_refresh (b : Block) : b.refresh.body = b.body := by
  unfold Block.refresh
  split <;> rfl

theorem body_setLink (b : Block) (k : Nat) (l : Option BlockId) :
    (b.setLink k l).body = b.body := by
  have hexits :
      (b.exits.modify k ({ · with linked := l })).map ExitSlot.bare = b.exits.map .bare := by
    apply List.ext_getElem?
    intro j
    rw [List.getElem?_map, List.getElem?_map, List.getElem?_modify]
    cases b.exits[j]? with
    | none => rfl
    | some y => split <;> rfl
  simp only [Block.setLink, Block.body, hexits]

theorem frame_retarget : (e.retarget s k x l).frame = e.frame := by
  simp only [frame, retarget, modifyBlock, CodeBuffer.point, BlockCache.modify]

theorem bodies_retarget : (e.retarget s k x l).bodies = e.bodies :=
  bodies_modifyBlock fun b _ => (body_refresh _).trans (body_setLink b k l)

theorem cursor_retarget : (e.retarget s k x l).buffer.cursor = e.buffer.cursor :=
  CodeBuffer.cursor_point ..

theorem block?_retarget (i : BlockId) : (e.retarget s k x l).block? i =
    if i = s then (e.block? i).map fun b => (b.setLink k l).refresh else e.block? i :=
  @block?_modifyBlock e s (fun b => (b.setLink k l).refresh) i

theorem exits_refresh (b : Block) : b.refresh.exits = b.exits := by
  unfold Block.refresh
  split <;> rfl

/-- Setting a link changes one exit. -/
theorem getElem?_setLink (b : Block) (k j : Nat) (l : Option BlockId) : (b.setLink k l).exits[j]? =
    if k = j then b.exits[j]?.map ({ · with linked := l }) else b.exits[j]? := by
  simp only [Block.setLink, List.getElem?_modify]
  split
  · rfl
  · cases b.exits[j]? <;> rfl

/-- An exit behind a change of one exit's link is that exit or one from before. -/
theorem exit_of_retarget {i : BlockId} {c : Block} {j : Nat} {y : ExitSlot}
    (hc : (e.retarget s k x l).block? i = some c) (hy : c.exits[j]? = some y) :
    ∃ c₀ y₀, e.block? i = some c₀ ∧ c₀.exits[j]? = some y₀ ∧
      (((i, j) = (s, k) ∧ y = { y₀ with linked := l }) ∨ ((i, j) ≠ (s, k) ∧ y = y₀)) := by
  rw [block?_retarget] at hc
  split at hc
  · next hs =>
    obtain ⟨c₀, hc₀, rfl⟩ := Option.map_eq_some_iff.1 hc
    rw [exits_refresh, getElem?_setLink] at hy
    split at hy
    · next hk =>
      obtain ⟨y₀, hy₀, rfl⟩ := Option.map_eq_some_iff.1 hy
      exact ⟨c₀, y₀, hc₀, hy₀, .inl ⟨by rw [hs, hk], rfl⟩⟩
    · next hk => exact ⟨c₀, y, hc₀, hy, .inr ⟨fun h => hk (Prod.mk.inj h).2.symm, rfl⟩⟩
  · next hs => exact ⟨c, y, hc, hy, .inr ⟨fun h => hs (Prod.mk.inj h).1, rfl⟩⟩

variable {src : Nat → List Insn}

/-- Pointing an exit elsewhere moves no block. -/
theorem Placed.retarget (h : e.Placed src) : (e.retarget s k x l).Placed src :=
  h.congr frame_retarget bodies_retarget cursor_retarget

/-- An exit that has been pointed elsewhere lands there, and no other code changes. -/
theorem Coded.retarget (h : e.Coded src) (placed : e.Placed src) (hb : e.block? s = some b)
    (hx : b.exits[k]? = some x) : (e.retarget s k x l).Coded src := by
  have within := placed.within hb (List.mem_of_getElem? hx)
  refine h.reland placed frame_retarget bodies_retarget cursor_retarget ?_ ?_
  · intro i hi
    exact within.getElem?_point (hi s b x hb (List.mem_of_getElem? hx))
  · intro i c j y hc hy
    rw [landing_of_bodies frame_retarget bodies_retarget]
    obtain ⟨c₀, y₀, hc₀, hy₀, ⟨same, rfl⟩ | ⟨other, rfl⟩⟩ := exit_of_retarget hc hy
    · cases same
      obtain rfl : b = c₀ := Option.some.inj (hb.symm.trans hc₀)
      obtain rfl : x = y₀ := Option.some.inj (hx.symm.trans hy₀)
      exact within.holds_point (placed.stop_le hb)
    · have apart := placed.apart hc₀ hy₀ hb hx other
      have := (placed.within hc₀ (List.mem_of_getElem? hy₀)).anchor
      refine (h.field placed hc₀ hy₀).congr fun i hi hi' => within.getElem?_point ?_
      rw [length_branchField] at hi'
      omega

end Update

end Engine

end Dynarec
