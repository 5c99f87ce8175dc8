import Dynarec.Proofs.History
import Dynarec.Proofs.Invalidation

/-!
The code image: the stubs stand as they were written at creation, the blocks stand behind them
without a gap, and the bytes of each block are its plan's code. Only the fields of exits ever
change.
-/
namespace Dynarec

/-- The blocks take up the bytes from `start` to `stop`, one behind the other. -/
def Tiles : Nat → Nat → List Block → Prop
  | start, stop, [] => start = stop
  | start, stop, b :: rest => b.hostOffset = start ∧ Tiles (start + b.hostSize) stop rest

namespace Tiles

variable {start stop mid n : Nat} {b : Block} {blocks : List Block}

theorem concat (h : Tiles start mid blocks) (next : b.hostOffset = mid) :
    Tiles start (mid + b.hostSize) (blocks ++ [b]) := by
  induction blocks generalizing start with
  | nil =>
    cases h
    exact ⟨next, rfl⟩
  | cons c rest ih => exact ⟨h.1, ih h.2⟩

theorem map_body : Tiles start stop (blocks.map Block.body) ↔ Tiles start stop blocks := by
  induction blocks generalizing start with
  | nil => exact Iff.rfl
  | cons c rest ih => exact and_congr_right fun _ => ih

/-- Every byte between the ends belongs to a block. -/
theorem exists_block (h : Tiles start stop blocks) (low : start ≤ n) (high : n < stop) :
    ∃ (i : Nat) (b : Block), blocks[i]? = some b ∧ b.hostOffset ≤ n ∧
      n < b.hostOffset + b.hostSize := by
  induction blocks generalizing start with
  | nil =>
    cases h
    omega
  | cons c rest ih =>
    obtain ⟨here, behind⟩ := h
    by_cases inside : n < start + c.hostSize
    · exact ⟨0, c, rfl, by omega, by omega⟩
    · obtain ⟨i, b, hb, low, high⟩ := ih behind (by omega)
      exact ⟨i + 1, b, hb, low, high⟩

end Tiles

section Landing

variable {e : Engine} {w : Wiring} {lands : Nat → Nat} {p k : Nat} {s : PlanStep}
  {steps : List PlanStep}

theorem Wiring.getElem?_code_reland (hosted : e.Hosted) (of : w.Of e)
    (of' : Wiring.Of { w with lands } e) (plain : s.Plain) (room : p + s.size ≤ e.buffer.capacity)
    {i : Nat} (inside : i < s.size)
    (outside : ∀ x ∈ s.exits p, p + i < x.site.start ∨ x.site.anchor ≤ p + i) :
    (Wiring.code { w with lands } p k s)[i]? = (w.code p k s)[i]? := by
  obtain ⟨count, -⟩ | ⟨target, rfl, hexits⟩ := plain.exits p
  · rw [Wiring.code_congr count]
  · have size : PlanStep.size (.place X86.Templates.chainJump [.exit target]) = 5 := rfl
    rw [hexits, List.forall_mem_singleton] at outside
    dsimp only at outside
    rw [hosted.code_exit of room, hosted.code_exit of' room]
    obtain rfl : i = 0 := by omega
    rfl

/-- Where exits land shows in their fields only. -/
theorem Wiring.getElem?_codes_reland (hosted : e.Hosted) (of : w.Of e)
    (of' : Wiring.Of { w with lands } e) (fits : ∀ s ∈ steps, s.Fits e)
    (plain : ∀ s ∈ steps, s.Plain) (room : p + stepsSize steps ≤ e.buffer.capacity) {i : Nat}
    (outside : ∀ x ∈ PlanStep.allExits p steps, p + i < x.site.start ∨ x.site.anchor ≤ p + i) :
    (Wiring.codes { w with lands } p k steps)[i]? = (w.codes p k steps)[i]? := by
  induction steps generalizing p k i with
  | nil => rfl
  | cons s steps ih =>
    rw [stepsSize_cons] at room
    have hs := fits s List.mem_cons_self
    have hplain := plain s List.mem_cons_self
    have length : (w.code p k s).length = s.size := length_code (hs.suits hosted of (by omega))
    have length' : (Wiring.code { w with lands } p k s).length = s.size :=
      length_code (hs.suits hosted of' (by omega))
    rw [PlanStep.allExits, List.forall_mem_append] at outside
    rw [codes, codes]
    by_cases inside : i < s.size
    · rw [List.getElem?_append_left (by omega), List.getElem?_append_left (by omega)]
      exact getElem?_code_reland hosted of of' hplain (by omega) inside outside.1
    · rw [List.getElem?_append_right (by omega), List.getElem?_append_right (by omega),
        length, length']
      refine ih (fun s hs => fits s (List.mem_cons_of_mem _ hs))
        (fun s hs => plain s (List.mem_cons_of_mem _ hs)) (by omega) fun x hx => ?_
      have := outside.2 x hx
      omega

end Landing

namespace Engine

open Traced

variable {e e' c : Engine} {src src' : Nat → List Insn} {id : BlockId} {b : Block} {p : Plan}

/-- The blocks, resident or not, fill the buffer from the code start to the cursor. -/
def Tiled (e : Engine) : Prop := Tiles e.buffer.codeStart e.buffer.cursor e.cache.blocks.toList

theorem tiled_iff : e.Tiled ↔ Tiles e.buffer.codeStart e.buffer.cursor e.bodies.toList := by
  rw [bodies, Array.toList_map, Tiles.map_body, Tiled]

theorem Tiled.retained (h : e.Tiled) (frame : c.frame = e.frame) (kept : e.Retained c) :
    c.Tiled := by
  rw [tiled_iff, kept.bodies, kept.cursor, codeStart_of_frame frame]
  exact tiled_iff.1 h

theorem Emptied.tiled (h : e.Emptied c) (placed : e.Placed src) : c.Tiled := by
  have cursor := h.cursor placed
  have start : c.buffer.codeStart = X86.stubsSize :=
    (hosted_of_frame h.frame placed.hosted).codeStart
  rw [Tiled, start, cursor]
  subst h
  rfl

theorem Emitted.tiled {pc : UInt32} {insns : List Insn} (h : e.Emitted src pc insns id c)
    (placed : e.Placed src) (tiled : e.Tiled) : c.Tiled := by
  obtain ⟨m, b, cleared, -, bodies, offset, cursor, -⟩ := h.grown
  have before : Tiles e.buffer.codeStart m.buffer.cursor m.bodies.toList := by
    rcases cleared with kept | emptied
    · rw [kept.bodies, kept.cursor]
      exact tiled_iff.1 tiled
    · rw [← codeStart_of_frame emptied.frame]
      exact tiled_iff.1 (emptied.tiled placed)
  rw [tiled_iff, codeStart_of_frame h.frame, bodies, cursor, Array.toList_push]
  exact before.concat offset

theorem Made.tiled (h : e.Made src) : e.Tiled := by
  refine Made.induct (P := fun e _ => e.Tiled) ?_ ?_ ?_ ?_ ?_ h
  · intro base config e src created
    obtain ⟨capacity, rfl, -⟩ := create_inv created
    exact X86.length_stubBytes.symm
  · exact fun resting ih new => new.tiled resting.placed ih
  · exact fun _ ih gone => ih.retained gone.frame gone.retained
  · exact fun resting _ gone => gone.tiled resting.placed
  · exact fun _ ih => ih

/-- The code of a block as it was first written, with every exit led to the dispatch stub. -/
def draftCode (e : Engine) (b : Block) (p : Plan) : List UInt8 :=
  Wiring.codes { b.wiring e p.steps with lands := fun _ => e.stubs.dispatch } b.hostOffset 0 p.steps

/-- The bytes of a stored block are the templates of its plan one behind the other, with every slot
filled. The field of an exit leads to the block that the exit is linked to, or else to the dispatch
stub. -/
structure Imaged (e : Engine) (insns : List Insn) (b : Block) (p : Plan) : Prop where
  planned : e.plan b.entry insns = .ok p
  size : b.hostSize = p.size
  exits : b.exits.map ExitSlot.bare = PlanStep.allExits b.hostOffset p.steps
  length : ((b.wiring e p.steps).codes b.hostOffset 0 p.steps).length = b.hostSize
  bytes : e.buffer.Holds b.hostOffset ((b.wiring e p.steps).codes b.hostOffset 0 p.steps)
  within : ∀ x ∈ b.exits, b.hostOffset ≤ x.site.start ∧ x.site.anchor = x.site.start + 4 ∧
    x.site.anchor ≤ b.hostOffset + b.hostSize
  linked : ∀ x ∈ b.exits, ∀ d, x.linked = some d → ∃ c, e.block? d = some c ∧
    e.buffer.Holds x.site.start (branchField c.hostOffset x.site.anchor)
  unlinked : ∀ x ∈ b.exits, x.linked = none →
    e.buffer.Holds x.site.start (branchField e.stubs.dispatch x.site.anchor)
  others : ∀ n, n < b.hostSize →
    (∀ x ∈ b.exits, b.hostOffset + n < x.site.start ∨ x.site.anchor ≤ b.hostOffset + n) →
    e.buffer.bytes[b.hostOffset + n]? = (e.draftCode b p)[n]?

theorem Resting.imaged (h : e.Resting src) (hb : e.block? id = some b) :
    ∃ p, e.Imaged (src id.index) b p := by
  obtain ⟨p, follows⟩ := h.placed.follows hb
  have hosted := h.placed.hosted
  have translates := h.placed.translates follows
  have size : b.hostSize = stepsSize p.steps := follows.size
  have room : b.hostOffset + stepsSize p.steps ≤ e.buffer.capacity := by
    have := h.placed.stop_le hb
    have := h.placed.cursor_le
    omega
  have of := h.placed.wiring_of hb follows
  have drafted : Wiring.Of { b.wiring e p.steps with lands := fun _ => e.stubs.dispatch } e :=
    ⟨of.base, of.regions, of.label, fun _ => hosted.dispatch_le⟩
  have length := Wiring.length_codes (PlanStep.suitsAll (k := 0) hosted of translates.fits room)
  have bytes := h.coded.code hb follows
  have field {x : ExitSlot} (hx : x ∈ b.exits) :
      e.buffer.Holds x.site.start (branchField (e.landing x.linked) x.site.anchor) := by
    obtain ⟨k, hk⟩ := List.getElem?_of_mem hx
    exact h.coded.field h.placed hb hk
  refine ⟨p, follows.planned, follows.size, follows.exits, length.trans size.symm, bytes,
    ?_, ?_, ?_, ?_⟩
  · intro x hx
    have within := h.placed.within hb hx
    exact ⟨within.start_le, within.anchor, within.le_stop⟩
  · intro x hx d link
    obtain ⟨k, hk⟩ := List.getElem?_of_mem hx
    obtain ⟨c, hc⟩ := h.graph.named ⟨b, hb, hk⟩ link
    have lands := field hx
    rw [link, landing_some hc] at lands
    exact ⟨c, hc, lands⟩
  · intro x hx link
    have lands := field hx
    rw [link] at lands
    exact lands
  · intro n inside outside
    rw [bytes n (by omega)]
    refine (Wiring.getElem?_codes_reland hosted of drafted translates.fits translates.plain room
      fun x hx => ?_).symm
    rw [← follows.exits] at hx
    obtain ⟨y, hy, rfl⟩ := List.mem_map.1 hx
    exact outside y hy

/-- The stubs are those that were written at creation. -/
theorem Made.stubs_eq (h : e.Made src) :
    ∃ e₀, Engine.create e.buffer.base X86.registry e.config = .ok e₀ ∧
    e₀.buffer.cursor = e.buffer.codeStart ∧
    ∀ n, n < e.buffer.codeStart → e.buffer.bytes[n]? = e₀.buffer.bytes[n]? := by
  obtain ⟨e₀, created, -⟩ := h.origin
  have start := h.resting.placed.hosted.codeStart
  have stubs : e.buffer.Holds 0 X86.stubBytes := h.resting.coded.stubs
  have resting₀ : e₀.Resting src := resting_of_create created
  have stubs₀ : e₀.buffer.Holds 0 X86.stubBytes := resting₀.coded.stubs
  obtain ⟨capacity, rfl, -⟩ := create_inv created
  refine ⟨_, created, start.symm ▸ X86.length_stubBytes, fun n hn => ?_⟩
  have inside : n < X86.stubBytes.length := by rw [X86.length_stubBytes, ← start]; exact hn
  have left := stubs n inside
  have right := stubs₀ n inside
  rw [Nat.zero_add] at left right
  rw [left, right]

theorem draftCode_of_kin (kin : e'.Kin e) {b' : Block} (body : b'.body = b.body) :
    e'.draftCode b' p = e.draftCode b p := by
  have regions : e'.config.regions = e.config.regions :=
    show e'.unchained.config.regions = e.unchained.config.regions by rw [kin.config]
  simp only [draftCode, Block.wiring, kin.base, regions, kin.stubs, Block.hostOffset_of_body body]

/-- Two engines with the same block agree on its bytes outside the fields of its exits. -/
theorem Imaged.bytes_eq {insns : List Insn} {b' : Block} {p' : Plan} (h : e.Imaged insns b p)
    (h' : e'.Imaged insns b' p') (kin : e'.Kin e) (body : b'.body = b.body) {n : Nat}
    (inside : n < b.hostSize)
    (outside : ∀ x ∈ b.exits, b.hostOffset + n < x.site.start ∨ x.site.anchor ≤ b.hostOffset + n) :
    e'.buffer.bytes[b.hostOffset + n]? = e.buffer.bytes[b.hostOffset + n]? := by
  have planned := h'.planned
  rw [kin.plan, Block.entry_of_body body, h.planned] at planned
  obtain rfl := Except.ok.inj planned
  have offset := Block.hostOffset_of_body body
  have outside' : ∀ x ∈ b'.exits, b'.hostOffset + n < x.site.start ∨
      x.site.anchor ≤ b'.hostOffset + n := by
    intro x hx
    have bare : x.bare ∈ b.exits.map ExitSlot.bare :=
      Block.exits_of_body body ▸ List.mem_map_of_mem hx
    obtain ⟨y, hy, same⟩ := List.mem_map.1 bare
    have site : y.site = x.site := show y.bare.site = x.bare.site by rw [same]
    rw [offset, ← site]
    exact outside y hy
  have after := h'.others n (by rw [Block.hostSize_of_body body]; exact inside) outside'
  rw [offset, draftCode_of_kin kin body] at after
  rw [after, h.others n inside outside]

/-- Two engines with the same blocks agree on their bytes outside the fields of exits. -/
theorem Made.bytes_eq (made : e.Made src) (made' : e'.Made src') (kin : e'.Kin e)
    (kept : ∀ {id b}, e.block? id = some b → src' id.index = src id.index ∧
      ∃ b', e'.block? id = some b' ∧ b'.body = b.body)
    {n : Nat} (low : n < e.buffer.cursor)
    (outside : ∀ id b x, e.block? id = some b → x ∈ b.exits → n < x.site.start ∨
      x.site.anchor ≤ n) :
    e'.buffer.bytes[n]? = e.buffer.bytes[n]? := by
  by_cases stub : n < e.buffer.codeStart
  · have inside : n < X86.stubBytes.length := by
      rw [X86.length_stubBytes, ← made.resting.placed.hosted.codeStart]
      exact stub
    have left := made'.resting.coded.stubs n inside
    have right := made.resting.coded.stubs n inside
    rw [Nat.zero_add] at left right
    rw [left, right]
  · obtain ⟨i, b, hb, start, stop⟩ := made.tiled.exists_block (Nat.le_of_not_lt stub) low
    rw [Array.getElem?_toList] at hb
    have hb : e.block? ⟨i⟩ = some b := hb
    obtain ⟨source, b', hb', body⟩ := kept hb
    obtain ⟨p, image⟩ := made.resting.imaged hb
    obtain ⟨p', image'⟩ := made'.resting.imaged hb'
    rw [source] at image'
    obtain ⟨k, rfl⟩ := Nat.exists_eq_add_of_le start
    exact image.bytes_eq image' kin body (by omega) fun x hx => outside _ b x hb hx

/-- The code image: stubs as written at creation, blocks in the order of their ids without a gap up
to the cursor, each with its plan's bytes. As long as nothing is flushed every block stays where it
is, and no byte outside the fields of exits changes. -/
theorem Made.code_image (h : e.Made src) :
    (∃ e₀, Engine.create e.buffer.base X86.registry e.config = .ok e₀ ∧
      e₀.buffer.cursor = e.buffer.codeStart ∧ ∀ n, n < e.buffer.codeStart →
        e.buffer.bytes[n]? = e₀.buffer.bytes[n]?) ∧
    Tiles e.buffer.codeStart e.buffer.cursor e.cache.blocks.toList ∧
    (∀ id b, e.block? id = some b → b.id = id ∧ ∃ p, e.Imaged (src id.index) b p) ∧
    ∀ e', e.Reaches e' → e'.stats.flushes = e.stats.flushes →
      (∀ id b, e.block? id = some b → ∃ b', e'.block? id = some b' ∧ b'.body = b.body) ∧
      ∀ n, n < e.buffer.cursor →
        (∀ id b x, e.block? id = some b → x ∈ b.exits → n < x.site.start ∨ x.site.anchor ≤ n) →
        e'.buffer.bytes[n]? = e.buffer.bytes[n]? := by
  refine ⟨h.stubs_eq, h.tiled, fun id b hb => ⟨h.resting.placed.id hb, h.resting.imaged hb⟩, ?_⟩
  intro e' reaches flushes
  obtain ⟨src', made', continues⟩ := reaches.later h
  exact ⟨fun id b hb => (continues.kept flushes hb).2,
    fun n low outside =>
      h.bytes_eq made' (kin_of_frame continues.frame) (continues.kept flushes) low outside⟩

theorem countdown_code_outlives_it :
    ∃ (e e' : Engine) (src : Nat → List Insn) (b b' : Block), e.Made src ∧
    e.Reaches e' ∧ e'.stats.flushes = e.stats.flushes ∧ e.block? ⟨0⟩ = some b ∧ b.isValid = true ∧
    e'.block? ⟨0⟩ = some b' ∧ b'.isValid = false ∧ b'.body = b.body ∧ b.hostOffset = 88 ∧
    e'.buffer.bytes[88]? = e.buffer.bytes[88]? := by
  obtain ⟨src, id, e, made, new⟩ := exists_emitted 0x100 countdown rfl
  obtain ⟨b, hb, valid, entry, stop, -⟩ := countdown_block new
  obtain ⟨p, planned, positive, behind⟩ : ∃ p, onePage.plan 0x100 countdown = .ok p ∧ 0 < p.size ∧
      ∀ y ∈ PlanStep.allExits 88 p.steps, 88 < y.site.start := ⟨_, rfl, by decide, by decide⟩
  have first : id = ⟨0⟩ := by
    obtain ⟨m, -, kept | emptied, rfl, -⟩ := new.grown
    · have := congrArg Array.size kept.bodies
      simp only [bodies, Array.size_map] at this
      exact congrArg BlockId.mk this
    · rw [emptied]
      rfl
  subst first
  obtain ⟨c, yields, removed⟩ := made.resting.yields_invalidateRange 0x104 0x105
  have reaches : e.Reaches c := by
    have := (Reaches.refl (e := e)).invalidateRange 0x104 0x105 #[]
    rwa [yields #[]] at this
  obtain ⟨-, tiles, images, later⟩ := made.code_image
  obtain ⟨kept, bytes⟩ := later c reaches removed.flushes
  obtain ⟨b', hb', body⟩ := kept ⟨0⟩ b hb
  have offset : b.hostOffset = 88 := by
    have start : e.buffer.codeStart = 88 := codeStart_of_frame new.frame
    have stored : e.cache.blocks.toList[0]? = some b := (Array.getElem?_toList ..).trans hb
    cases blocks : e.cache.blocks.toList with
    | nil => rw [blocks] at stored; cases stored
    | cons c rest =>
      rw [blocks] at tiles stored
      obtain rfl := Option.some.inj stored
      exact tiles.1.trans start
  obtain ⟨-, p', image⟩ := images ⟨0⟩ b hb
  have same : p = p' := by
    have := image.planned
    rw [noted_self, entry, plan_of_frame new.frame, planned] at this
    exact Except.ok.inj this
  subst same
  have size := image.size
  have room := made.resting.placed.stop_le hb
  refine ⟨e, c, _, b, b', made, reaches, removed.flushes, hb, valid, hb', ?_, body, offset, ?_⟩
  · have hit : touches b 0x104 0x105 = true := touches_iff.2 (.inl (by rw [entry, stop]; decide))
    obtain ⟨_, gone, state⟩ :=
      removed.state_removed hb (made.resting.placed.mem_affectedBy.2 ⟨b, hb, valid, hit⟩)
    obtain rfl := Option.some.inj (hb'.symm.trans gone)
    rw [Block.isValid, state]
  · refine bytes 88 (by omega) fun i d x hd hx => .inl ?_
    by_cases self : i = ⟨0⟩
    · subst self
      obtain rfl := Option.some.inj (hb.symm.trans hd)
      refine behind x.bare ?_
      rw [← offset, ← image.exits]
      exact List.mem_map_of_mem hx
    · have later : 0 < i.index := Nat.pos_of_ne_zero fun zero => self (BlockId.eq_of_index zero)
      have := made.resting.placed.ordered hb hd later
      have := (made.resting.placed.within hd hx).start_le
      omega

end Engine
end Dynarec
