import Dynarec.Proofs.ChainGraph

/-!
Blocks that are being taken out of use. What an engine looks like on the way is a function of the
engine before and of what has been cut so far; each cut is one more step of it.
-/
namespace Dynarec

/-- What has been done to the blocks of an engine. -/
structure Surgery where
  /-- Blocks that are invalid. -/
  dead : BlockId → Bool := fun _ => false
  /-- Blocks that can no longer be found, and into which no exit leads. -/
  gone : BlockId → Bool := fun _ => false
  /-- Blocks whose exits do not wait. -/
  quiet : BlockId → Bool := fun _ => false
  /-- Exits that have gone back to the dispatch stub. -/
  cut : BlockId → Nat → ExitSlot → Bool := fun _ _ _ => false
  /-- Exits that no block counts among its incoming ones. -/
  dropped : BlockId × Nat → Bool := fun _ => false

namespace Block

variable {b c : Block}

/-- A block is its body with its links and its state. -/
theorem ext_links (body : b.body = c.body) (exits : b.exits = c.exits)
    (incoming : b.incoming = c.incoming) (state : b.state = c.state) : b = c := by
  have hb : b = { b.body with exits := b.exits, incoming := b.incoming, state := b.state } := rfl
  rw [hb, body, exits, incoming, state]
  rfl

theorem linkState_congr (h : b.exits = c.exits) : b.linkState = c.linkState := by
  rw [linkState, linkState, h]

/-- A refresh gives a block that is in use the state that its links ask for. -/
theorem state_refresh (b : Block) :
    b.refresh.state = if b.isValid then b.linkState else b.state := by
  unfold refresh
  split <;> rfl

end Block

namespace Surgery

variable {x : Surgery} {i j : BlockId} {b : Block} {k : Nat} {y : ExitSlot}

def exit (x : Surgery) (i : BlockId) (k : Nat) (y : ExitSlot) : ExitSlot :=
  if x.cut i k y then y.bare else y

/-- The block with its links as they are left. -/
def links (x : Surgery) (i : BlockId) (b : Block) : Block :=
  { b with
    exits := b.exits.mapIdx (x.exit i)
    incoming := if x.gone i then [] else b.incoming.filter (!x.dropped ·) }

def block (x : Surgery) (i : BlockId) (b : Block) : Block :=
  if x.dead i then { x.links i b with state := .invalidated } else (x.links i b).refresh

/-- The operation changes the links of exits and nothing else about them. -/
theorem bare_exit : (x.exit i k y).bare = y.bare := by
  unfold exit
  split <;> rfl

theorem site_exit : (x.exit i k y).site = y.site := by
  unfold exit
  split <;> rfl

theorem target_exit : (x.exit i k y).target = y.target := by
  unfold exit
  split <;> rfl

theorem body_links : (x.links i b).body = b.body := by
  have hexits : (b.exits.mapIdx (x.exit i)).map ExitSlot.bare = b.exits.map .bare := by
    apply List.ext_getElem?
    intro k
    simp [List.getElem?_map, List.getElem?_mapIdx, Function.comp_def, bare_exit]
  simp only [links, Block.body, hexits]

/-- The operation leaves the body of every block alone. -/
theorem body_block : (x.block i b).body = b.body := by
  unfold block
  split
  · exact body_links (x := x) (i := i) (b := b)
  · exact (Engine.body_refresh _).trans body_links

theorem exits_block : (x.block i b).exits = b.exits.mapIdx (x.exit i) := by
  unfold block
  split
  · rfl
  · exact Engine.exits_refresh _

/-- A block that is no longer published has no incoming exits, and others lose those that are
dropped. -/
theorem incoming_block :
    (x.block i b).incoming = if x.gone i then [] else b.incoming.filter (!x.dropped ·) := by
  unfold block
  split
  · rfl
  · exact Engine.incoming_refresh _

/-- The operation takes the dead blocks out of use, and no others. -/
theorem isValid_block : (x.block i b).isValid = (!x.dead i && b.isValid) := by
  unfold block
  split
  · next h => simp [h, Block.isValid]
  · next h =>
    rw [Engine.isValid_refresh]
    simp [h, links, Block.isValid]

/-- A dead block is invalidated, and another one in use has the state that its links ask for. -/
theorem state_block : (x.block i b).state = if x.dead i then .invalidated else
    if b.isValid then (x.links i b).linkState else b.state := by
  unfold block
  split
  · rfl
  · exact Block.state_refresh _

/-- A block that stays in use is in the state that its links ask for. -/
theorem state_of_isValid (h : (x.block i b).isValid = true) :
    (x.block i b).state = (x.block i b).linkState := by
  rw [isValid_block, Bool.and_eq_true, Bool.not_eq_true'] at h
  rw [state_block, h.1, h.2, if_neg nofun, if_pos rfl]
  exact Block.linkState_congr exits_block.symm

/-- Before the operation starts nothing has changed. -/
theorem links_none : Surgery.links {} i b = b := by
  have hexit (k : Nat) : Surgery.exit {} i k = id := by
    funext y
    exact if_neg nofun
  have hexits : b.exits.mapIdx (Surgery.exit {} i) = b.exits := by
    apply List.ext_getElem?
    intro k
    rw [List.getElem?_mapIdx, hexit, Option.map_id, id]
  have hincoming : b.incoming.filter (fun _ => true) = b.incoming :=
    List.filter_eq_self.2 fun _ _ => rfl
  simp [links, hexits, hincoming]

/-- At the start nothing is done. -/
theorem block_none (h : b.isValid = true → b.state = b.linkState) : Surgery.block {} i b = b := by
  have hblock : Surgery.block {} i b = b.refresh := by rw [block, links_none, if_neg nofun]
  rw [hblock, Block.refresh]
  split
  · next valid => rw [← h valid]
  · rfl

/-- One more block is invalid. -/
def mark (x : Surgery) (id : BlockId) : Surgery := { x with dead := fun i => x.dead i || i = id }

/-- One more block cannot be found. -/
def hide (x : Surgery) (id : BlockId) : Surgery := { x with gone := fun i => x.gone i || i = id }

/-- One more exit goes back to the dispatch stub. -/
def cutExit (x : Surgery) (p : BlockId × Nat) : Surgery :=
  { x with cut := fun i k y => x.cut i k y || (i, k) = p }

/-- One more exit is forgotten by its target. -/
def drop (x : Surgery) (p : BlockId × Nat) : Surgery :=
  { x with dropped := fun q => x.dropped q || q = p }

def cutAll (x : Surgery) (ps : List (BlockId × Nat)) : Surgery :=
  { x with cut := fun i k y => x.cut i k y || (i, k) ∈ ps }

def dropAll (x : Surgery) (ps : List (BlockId × Nat)) : Surgery :=
  { x with dropped := fun q => x.dropped q || q ∈ ps }

/-- The exits of one more block do not wait. -/
def silence (x : Surgery) (id : BlockId) : Surgery :=
  { x with quiet := fun i => x.quiet i || i = id }

/-- Some blocks go: all are invalid, and those that are done are cut off from the blocks that
stay. -/
def removal (e : Engine) (victims done : List BlockId) : Surgery where
  dead i := i ∈ victims
  gone i := i ∈ done
  quiet i := i ∈ done
  cut i _ y := i ∉ victims ∧ (e.block? i).any (·.isValid) ∧ y.linked.any (· ∈ done)
  dropped p := p.1 ∈ done

variable {id : BlockId} {p : BlockId × Nat}

theorem cutAll_nil : x.cutAll [] = x := by simp [cutAll]

theorem dropAll_nil : x.dropAll [] = x := by simp [dropAll]

/-- Exits are cut one after the other. -/
theorem cutAll_concat (ps : List (BlockId × Nat)) :
    x.cutAll (ps ++ [p]) = (x.cutAll ps).cutExit p := by
  simp [cutAll, cutExit, Bool.or_assoc]

theorem dropAll_concat (ps : List (BlockId × Nat)) :
    x.dropAll (ps ++ [p]) = (x.dropAll ps).drop p := by
  simp [dropAll, drop, Bool.or_assoc]

/-- Marking a block changes the state of this block only. -/
theorem block_mark : (x.mark id).block i b =
    if i = id then { x.block i b with state := .invalidated } else x.block i b := by
  have exits : ((x.mark id).block i b).exits = (x.block i b).exits := by
    rw [exits_block, exits_block]; rfl
  have incoming : ((x.mark id).block i b).incoming = (x.block i b).incoming := by
    rw [incoming_block, incoming_block]; rfl
  split
  · next hi =>
    refine Block.ext_links (body_block.trans (body_block (x := x)).symm) exits incoming ?_
    rw [state_block, if_pos (by simp [mark, hi])]
  · next hi =>
    refine Block.ext_links (body_block.trans body_block.symm) exits incoming ?_
    have dead : (x.mark id).dead i = x.dead i := by simp [mark, hi]
    rw [state_block, state_block, dead]
    rfl

/-- A block that is unpublished loses its incoming exits. -/
theorem block_hide : (x.hide id).block i b =
    if i = id then { x.block i b with incoming := [] } else x.block i b := by
  have exits : ((x.hide id).block i b).exits = (x.block i b).exits := by
    rw [exits_block, exits_block]; rfl
  have state : ((x.hide id).block i b).state = (x.block i b).state := by
    rw [state_block, state_block]; rfl
  split
  · next hi =>
    refine Block.ext_links (body_block.trans (body_block (x := x)).symm) exits ?_ state
    rw [incoming_block, if_pos (by simp [hide, hi])]
  · next hi =>
    refine Block.ext_links (body_block.trans body_block.symm) exits ?_ state
    rw [incoming_block, incoming_block]
    simp [hide, hi]

/-- Dropping an incoming exit changes the block that it led into only. -/
theorem block_drop (h : i ≠ j → p ∉ (x.block i b).incoming) : (x.drop p).block i b =
    if i = j then (x.block i b).dropIncoming p.1 p.2 else x.block i b := by
  have exits : ((x.drop p).block i b).exits = (x.block i b).exits := by
    rw [exits_block, exits_block]; rfl
  have state : ((x.drop p).block i b).state = (x.block i b).state := by
    rw [state_block, state_block]; rfl
  have incoming : ((x.drop p).block i b).incoming = (x.block i b).incoming.filter (· ≠ p) := by
    rw [incoming_block, incoming_block]
    show (if x.gone i then _ else _) = _
    split
    · rfl
    · rw [List.filter_filter]
      exact List.filter_congr fun q _ => by simp [drop, Bool.and_comm]
  split
  · refine Block.ext_links (body_block.trans (body_block (x := x)).symm) exits ?_ state
    rw [incoming]
    rfl
  · next hi =>
    refine Block.ext_links (body_block.trans body_block.symm) exits ?_ state
    rw [incoming]
    exact List.filter_eq_self.2 fun q hq => decide_eq_true fun hqp => h hi (hqp ▸ hq)

/-- Cutting an exit removes its own link only. -/
theorem exit_cutExit : (x.cutExit p).exit i k y =
    if (i, k) = p then { x.exit i k y with linked := none } else x.exit i k y := by
  unfold exit
  by_cases same : (i, k) = p
  · rw [if_pos same, if_pos (by simp [cutExit, same])]
    split <;> rfl
  · simp only [cutExit, same, decide_false, Bool.or_false, if_false]

/-- Cutting an exit changes its own block only. -/
theorem block_cutExit (h : x.dead p.1 = false) : (x.cutExit p).block i b =
    if i = p.1 then ((x.block i b).setLink p.2 none).refresh else x.block i b := by
  have incoming : ((x.cutExit p).block i b).incoming = (x.block i b).incoming := by
    rw [incoming_block, incoming_block]; rfl
  split
  · next hi =>
    have exits : ((x.cutExit p).block i b).exits = ((x.block i b).setLink p.2 none).exits := by
      apply List.ext_getElem?
      intro k
      rw [Engine.getElem?_setLink, exits_block, exits_block, List.getElem?_mapIdx,
        List.getElem?_mapIdx]
      cases b.exits[k]? with
      | none => split <;> rfl
      | some y =>
        have same : (i, k) = p ↔ p.2 = k := by simp [hi, Prod.ext_iff, eq_comm]
        simp only [Option.map_some, exit_cutExit, same]
        split <;> rfl
    refine Block.ext_links ?_ (exits.trans (Engine.exits_refresh _).symm)
      (incoming.trans (Engine.incoming_refresh ((x.block i b).setLink p.2 none)).symm) ?_
    · rw [Engine.body_refresh, Engine.body_setLink, body_block, body_block]
    · have valid : ((x.block i b).setLink p.2 none).isValid = b.isValid := by
        have : (x.block i b).isValid = b.isValid := by rw [isValid_block, hi, h]; rfl
        exact this
      have hstate : ((x.block i b).setLink p.2 none).state = (x.block i b).state := rfl
      rw [Block.state_refresh, valid, state_block, hstate, state_block]
      have alive : x.dead i = false := hi ▸ h
      have alive' : (x.cutExit p).dead i = false := alive
      rw [alive', if_neg nofun]
      split
      · refine Block.linkState_congr (Eq.trans ?_ exits)
        exact exits_block.symm
      · rw [alive, if_neg nofun]
  · next hi =>
    have exits : ((x.cutExit p).block i b).exits = (x.block i b).exits := by
      rw [exits_block, exits_block]
      refine List.mapIdx_eq_mapIdx_iff.2 fun k hk => ?_
      rw [exit_cutExit, if_neg fun hp => hi (by rw [← hp])]
    refine Block.ext_links (body_block.trans body_block.symm) exits incoming ?_
    rw [state_block, state_block]
    show (if x.dead i then _ else _) = _
    split
    · rfl
    · split
      · exact Block.linkState_congr (exits_block.symm.trans (exits.trans exits_block))
      · rfl

end Surgery

namespace Engine

open Traced

/-- Surgery on the blocks of `e` has led to `c`. -/
structure Operated (e : Engine) (src : Nat → List Insn) (x : Surgery) (c : Engine) : Prop where
  frame : c.frame = e.frame
  cursor : c.buffer.cursor = e.buffer.cursor
  flushes : c.stats.flushes = e.stats.flushes
  blocks : ∀ i, c.block? i = (e.block? i).map (x.block i)
  index : ∀ pc : UInt32, c.cache.index[pc]? = e.cache.index[pc]?.filter (!x.gone ·)
  line : ∀ pc, c.cache.jumps.line? pc = (e.cache.jumps.line? pc).filter (!x.gone ·.id)
  waiting : ∀ w, w ∈ c.chains.waiting ↔ x.quiet w.src = false ∧ (w ∈ e.chains.waiting ∨
    ∃ y, e.HasExit w.src w.exit y ∧ x.cut w.src w.exit y = true ∧ y.target = w.target)
  waiting_nodup : c.chains.waiting.Nodup
  coded : c.Coded src
  /-- Only fields of exits that are cut change. -/
  outside : ∀ n, (∀ i k y, e.StoredExit i k y → x.cut i k y = true →
    n < y.site.start ∨ y.site.anchor ≤ n) → c.buffer.bytes[n]? = e.buffer.bytes[n]?

theorem Coded.withChains {e : Engine} {src : Nat → List Insn} (h : e.Coded src)
    (placed : e.Placed src) (chains : ChainTable) : Engine.Coded { e with chains } src :=
  h.congr placed rfl rfl rfl fun _ b hb => ⟨b, hb, rfl⟩

/-- The engine with an exit that has gone back to the dispatch stub and waits. -/
def release (e : Engine) (s : BlockId) (k : Nat) (x : ExitSlot) : Engine :=
  { e.retarget s k x none with chains := e.chains.add x.target s k }

/-- An operation on links keeps the bodies. -/
theorem bodies_of_blocks {e c : Engine} {x : Surgery}
    (h : ∀ i, c.block? i = (e.block? i).map (x.block i)) : c.bodies = e.bodies := by
  apply Array.ext_getElem?
  intro n
  have hc := h ⟨n⟩
  simp only [block?] at hc
  simp only [bodies, Array.getElem?_map, hc, Option.map_map]
  cases e.cache.blocks[n]? with
  | none => rfl
  | some b => exact congrArg some Surgery.body_block

namespace Operated

variable {e c : Engine} {src : Nat → List Insn} {x : Surgery} {id : BlockId} {b : Block}

/-- Every operation starts from an engine at rest, with nothing done. -/
theorem start (h : e.Resting src) : e.Operated src {} e where
  frame := rfl
  cursor := rfl
  flushes := rfl
  blocks i := by
    cases hb : e.block? i with
    | none => rfl
    | some b => exact congrArg some (Surgery.block_none (h.graph.state hb)).symm
  index pc := by cases e.cache.index[pc]? <;> rfl
  line pc := by cases e.cache.jumps.line? pc <;> rfl
  waiting w := by simp
  waiting_nodup := h.graph.waiting_nodup
  coded := h.coded
  outside _ _ := rfl

theorem bodies (h : e.Operated src x c) : c.bodies = e.bodies := bodies_of_blocks h.blocks

/-- No block moves during the operation. -/
theorem placed (h : e.Operated src x c) (resting : e.Resting src) : c.Placed src :=
  resting.placed.congr h.frame h.bodies h.cursor

/-- Each block is what the operation has made of it so far. -/
theorem block (h : e.Operated src x c) (hb : e.block? id = some b) :
    c.block? id = some (x.block id b) := by
  rw [h.blocks, hb]
  rfl

/-- A step that changes one block and neither exits nor tables. -/
theorem modifyBlock {x' : Surgery} {f : Block → Block} (h : e.Operated src x c)
    (resting : e.Resting src) (tables : { x' with dead := x.dead, dropped := x.dropped } = x)
    (exits : ∀ b, (f b).exits = b.exits)
    (hblock : ∀ i b, e.block? i = some b →
      x'.block i b = if i = id then f (x.block i b) else x.block i b) :
    e.Operated src x' (c.modifyBlock id f) := by
  have gone : x'.gone = x.gone := by rw [← tables]
  have quiet : x'.quiet = x.quiet := by rw [← tables]
  have cut : x'.cut = x.cut := by rw [← tables]
  have blocks : ∀ i, (c.modifyBlock id f).block? i = (e.block? i).map (x'.block i) := by
    intro i
    rw [block?_modifyBlock, h.blocks]
    cases hb : e.block? i with
    | none => split <;> rfl
    | some b =>
      simp only [Option.map_some, hblock i b hb]
      split <;> rfl
  have bodies : (c.modifyBlock id f).bodies = c.bodies :=
    (bodies_of_blocks blocks).trans h.bodies.symm
  refine ⟨h.frame, h.cursor, h.flushes, blocks, ?_, ?_, ?_, h.waiting_nodup, ?_, ?_⟩
  · rw [gone]
    exact h.index
  · rw [gone]
    exact h.line
  · rw [quiet, cut]
    exact h.waiting
  · refine h.coded.congr (h.placed resting) rfl bodies rfl fun i b hb => ?_
    rw [block?_modifyBlock] at hb
    split at hb
    · obtain ⟨b₀, hb₀, rfl⟩ := Option.map_eq_some_iff.1 hb
      exact ⟨b₀, hb₀, exits b₀⟩
    · exact ⟨b, hb, rfl⟩
  · rw [cut]
    exact h.outside

/-- Marking one more block is a step of the operation. -/
theorem mark (h : e.Operated src x c) (resting : e.Resting src) :
    e.Operated src (x.mark id) (c.modifyBlock id ({ · with state := .invalidated })) :=
  h.modifyBlock resting rfl (fun _ => rfl) fun _ _ _ => Surgery.block_mark

/-- A block is forgotten by an exit that no longer is one. -/
theorem drop {s d : BlockId} {k : Nat} {y : ExitSlot} (h : e.Operated src x c)
    (resting : e.Resting src) (hy : e.HasExit s k y) (linked : y.linked = some d) :
    e.Operated src (x.drop (s, k)) (c.modifyBlock d (·.dropIncoming s k)) := by
  refine h.modifyBlock resting rfl (fun _ => rfl) fun i b hb =>
    Surgery.block_drop fun hi hmem => hi ?_
  rw [Surgery.incoming_block] at hmem
  split at hmem
  · exact absurd hmem List.not_mem_nil
  · obtain ⟨-, y', hy', linked'⟩ := (resting.graph.incoming hb).1 (List.mem_filter.1 hmem).1
    obtain rfl := HasExit.unique hy hy'
    exact (Option.some.inj (linked.symm.trans linked')).symm

/-- A line of the jump cache that names a resident block is the line of its address. -/
theorem line_of_entry (resting : e.Resting src) (hb : e.block? id = some b) {pc : UInt32}
    {l : JumpLine} (hl : e.cache.jumps.line? pc = some l) (hid : l.id = id) :
    l.tag = b.entry ∧ JumpCache.index pc = JumpCache.index b.entry := by
  obtain ⟨slot, b', hb', -, entry, -⟩ := resting.indexed.line hl
  rw [hid, hb] at hb'
  obtain rfl := Option.some.inj hb'
  exact ⟨entry.symm, by rw [entry, slot]⟩

/-- When a block is unpublished the index loses its address, unless another block has taken that
over. -/
theorem index_hide (h : e.Operated src x c) (resting : e.Resting src) (hb : e.block? id = some b)
    (valid : b.isValid = true) (pc : UInt32) :
    (if c.cache.index[b.entry]? = some id then c.cache.index.erase b.entry
      else c.cache.index)[pc]? =
      e.cache.index[pc]?.filter (!(x.hide id).gone ·) := by
  have here : e.cache.index[b.entry]? = some id := resting.indexed.index.2 ⟨b, hb, valid, rfl⟩
  by_cases hpc : pc = b.entry
  · subst hpc
    have hc := h.index b.entry
    rw [here] at hc ⊢
    cases hgone : x.gone id <;> simp [hc, Option.filter, Surgery.hide, hgone]
  · have other : ∀ j, e.cache.index[pc]? = some j → j ≠ id := by
      rintro j hj rfl
      obtain ⟨b', hb', -, entry⟩ := resting.indexed.index.1 hj
      obtain rfl := Option.some.inj (hb.symm.trans hb')
      exact hpc entry.symm
    have hc : (if c.cache.index[b.entry]? = some id then c.cache.index.erase b.entry
        else c.cache.index)[pc]? = c.cache.index[pc]? := by
      split
      · rw [Std.HashMap.getElem?_erase, if_neg (by simpa using fun h => hpc h.symm)]
      · rfl
    rw [hc, h.index]
    cases hj : e.cache.index[pc]? with
    | none => rfl
    | some j => simp [Option.filter, Surgery.hide, other j hj]

/-- When a block is unpublished the jump cache loses its line. -/
theorem line_hide (h : e.Operated src x c) (resting : e.Resting src) (hb : e.block? id = some b)
    (pc : UInt32) :
    (if c.cache.jumps.lookup b.entry = some id then c.cache.jumps.remove b.entry
      else c.cache.jumps).line? pc = (e.cache.jumps.line? pc).filter (!(x.hide id).gone ·.id) := by
  -- A line of the block stands where its address maps to, so removing that address is enough.
  have keep (absent : ∀ l, e.cache.jumps.line? pc = some l → x.gone l.id = false → l.id ≠ id) :
      (e.cache.jumps.line? pc).filter (!(x.hide id).gone ·.id) = c.cache.jumps.line? pc := by
    rw [h.line]
    cases hl : e.cache.jumps.line? pc with
    | none => rfl
    | some l =>
      cases hgone : x.gone l.id
      · simp [Option.filter, Surgery.hide, hgone, absent l hl hgone]
      · simp [Option.filter, Surgery.hide, hgone]
  split
  · next found =>
    rw [JumpCache.line?_remove found]
    split
    · next slot =>
      obtain ⟨l, hl, -, hid⟩ := JumpCache.lookup_eq_some.1 found
      rw [← JumpCache.line?_congr slot, h.line] at hl
      obtain ⟨hl, -⟩ := Option.filter_eq_some_iff.1 hl
      simp [hl, Option.filter, Surgery.hide, hid]
    · next slot => exact (keep fun l hl _ hid => slot (line_of_entry resting hb hl hid).2).symm
  · next absent =>
    refine (keep fun l hl alive hid => absent ?_).symm
    obtain ⟨tag, slot⟩ := line_of_entry resting hb hl hid
    refine JumpCache.lookup_eq_some.2 ⟨l, ?_, tag, hid⟩
    rw [← JumpCache.line?_congr slot, h.line, hl]
    simp [Option.filter, alive]

/-- A block can no longer be found, and no exit leads into it any more. -/
theorem hide (h : e.Operated src x c) (resting : e.Resting src) (hb : e.block? id = some b)
    (valid : b.isValid = true) : ∃ cache, c.cache.unpublish id = .ok cache ∧
      cache.blocks = c.cache.blocks ∧
      e.Operated src (x.hide id)
        (Engine.modifyBlock { c with cache } id ({ · with incoming := [] })) := by
  have entry : (x.block id b).entry = b.entry := Block.entry_of_body Surgery.body_block
  refine ⟨_, by rw [BlockCache.unpublish, get_eq_ok.2 (h.block hb)]; rfl, ?_, ?_⟩
  · rfl
  rw [entry]
  generalize hmid : Engine.mk c.registry c.config c.buffer _ c.chains c.stubs c.stats = mid
  have same : mid.cache.blocks = c.cache.blocks := by rw [← hmid]
  have blocks : ∀ i, (mid.modifyBlock id ({ · with incoming := [] })).block? i =
      (e.block? i).map ((x.hide id).block i) := by
    intro i
    rw [block?_modifyBlock, block?, same]
    show (if i = id then (c.block? i).map _ else c.block? i) = _
    rw [h.blocks]
    cases e.block? i with
    | none => split <;> rfl
    | some b =>
      simp only [Option.map_some, Surgery.block_hide]
      split <;> rfl
  have bodies : (mid.modifyBlock id ({ · with incoming := [] })).bodies = c.bodies :=
    (bodies_of_blocks blocks).trans h.bodies.symm
  subst hmid
  refine ⟨h.frame, h.cursor, h.flushes, blocks, h.index_hide resting hb valid,
    h.line_hide resting hb, h.waiting, h.waiting_nodup, ?_, h.outside⟩
  refine h.coded.congr (h.placed resting) rfl bodies rfl fun i b hb => ?_
  rw [block?_modifyBlock] at hb
  split at hb
  · obtain ⟨b₀, hb₀, rfl⟩ := Option.map_eq_some_iff.1 hb
    exact ⟨b₀, hb₀, rfl⟩
  · exact ⟨b, hb, rfl⟩

/-- To take the exits of a block from the waiting ones is a step of the operation. -/
theorem silence (h : e.Operated src x c) (id : BlockId) (resting : e.Resting src) :
    e.Operated src (x.silence id) { c with chains := c.chains.removeSource id } where
  frame := h.frame
  cursor := h.cursor
  flushes := h.flushes
  blocks := h.blocks
  index := h.index
  line := h.line
  waiting w := by
    simp only [ChainTable.mem_removeSource, h.waiting, Surgery.silence, Bool.or_eq_false_iff,
      decide_eq_false_iff_not, ne_eq]
    exact and_right_comm
  waiting_nodup := ChainTable.nodup_waiting _
  coded := h.coded.withChains (h.placed resting) _
  outside := h.outside

variable {s : BlockId} {k : Nat} {y : ExitSlot}

/-- A block that is not dead keeps its exits, with the links that the operation has left them. -/
theorem hasExit (h : e.Operated src x c) (hy : e.HasExit s k y) (alive : x.dead s = false) :
    c.HasExit s k (x.exit s k y) := by
  obtain ⟨b, hb, valid, hy⟩ := hy
  refine ⟨_, h.block hb, ?_, ?_⟩
  · rw [Surgery.isValid_block, alive, valid]
    rfl
  · rw [Surgery.exits_block, List.getElem?_mapIdx, hy]
    rfl

/-- An exit of a block that stays goes back to the dispatch stub and waits. -/
theorem cutExit (h : e.Operated src x c) (resting : e.Resting src) (hy : e.HasExit s k y)
    (alive : x.dead s = false) (loud : x.quiet s = false) :
    e.Operated src (x.cutExit (s, k)) (c.release s k (x.exit s k y)) := by
  obtain ⟨b', hb', -, hy'⟩ := h.hasExit hy alive
  have placed := h.placed resting
  have coded := (h.coded.retarget (l := none) placed hb' hy').withChains placed.retarget
    (c.chains.add y.target s k)
  have frame := (frame_retarget (s := s) (k := k) (x := x.exit s k y) (l := none)).trans h.frame
  have cursor := (cursor_retarget (s := s) (k := k) (x := x.exit s k y) (l := none)).trans h.cursor
  have blocks := block?_retarget (e := c) (s := s) (k := k) (x := x.exit s k y) (l := none)
  have index : (c.retarget s k (x.exit s k y) none).cache.index = c.cache.index := rfl
  have jumps : (c.retarget s k (x.exit s k y) none).cache.jumps = c.cache.jumps := rfl
  have flushes : (c.retarget s k (x.exit s k y) none).stats.flushes = e.stats.flushes := h.flushes
  have bytes : (c.retarget s k (x.exit s k y) none).buffer =
    c.buffer.point (x.exit s k y).site (c.landing none) := rfl
  rw [release, Surgery.target_exit]
  generalize c.retarget s k (x.exit s k y) none = mid at *
  refine ⟨frame, cursor, flushes, ?_, fun pc => ?_, fun pc => ?_, ?_,
    ChainTable.nodup_waiting _, coded, ?_⟩
  · intro i
    refine (blocks i).trans ?_
    rw [h.blocks]
    cases e.block? i with
    | none => split <;> rfl
    | some b =>
      simp only [Option.map_some, Surgery.block_cutExit (p := (s, k)) alive]
      split <;> rfl
  · show mid.cache.index[pc]? = _
    rw [index]
    exact h.index pc
  · show mid.cache.jumps.line? pc = _
    rw [jumps]
    exact h.line pc
  · intro w
    rw [ChainTable.mem_add, h.waiting]
    constructor
    · rintro (⟨loud, old | ⟨z, hz, cut, target⟩⟩ | rfl)
      · exact ⟨loud, .inl old⟩
      · exact ⟨loud, .inr ⟨z, hz, by simp [Surgery.cutExit, cut], target⟩⟩
      · exact ⟨loud, .inr ⟨y, hy, by simp [Surgery.cutExit], rfl⟩⟩
    · rintro ⟨loud, old | ⟨z, hz, cut, target⟩⟩
      · exact .inl ⟨loud, .inl old⟩
      · simp only [Surgery.cutExit, Bool.or_eq_true, decide_eq_true_eq] at cut
        rcases cut with cut | same
        · exact .inl ⟨loud, .inr ⟨z, hz, cut, target⟩⟩
        · obtain ⟨hs, hk⟩ := Prod.mk.inj same
          obtain rfl := HasExit.unique hy (hs ▸ hk ▸ hz)
          right
          cases w
          simp_all
  · intro n hn
    have within := placed.within hb' (List.mem_of_getElem? hy')
    have cut : (x.cutExit (s, k)).cut s k y = true := by simp [Surgery.cutExit]
    show mid.buffer.bytes[n]? = _
    rw [bytes]
    refine (within.getElem?_point ?_).trans (h.outside n fun i j z hz cut => ?_)
    · rw [Surgery.site_exit]
      exact hn s k y hy.stored cut
    · exact hn i j z hz (by simp [Surgery.cutExit, cut])

/-- What surgery does to things that are not there does not matter. -/
theorem congr {x' : Surgery} (h : e.Operated src x c) (dead : x'.dead = x.dead)
    (gone : x'.gone = x.gone) (quiet : x'.quiet = x.quiet)
    (cut : ∀ i k y, e.StoredExit i k y → x'.cut i k y = x.cut i k y)
    (dropped : ∀ i b, e.block? i = some b → ∀ p ∈ b.incoming, x'.dropped p = x.dropped p) :
    e.Operated src x' c := by
  have hblock : ∀ i b, e.block? i = some b → x'.block i b = x.block i b := by
    intro i b hb
    have exits : b.exits.mapIdx (x'.exit i) = b.exits.mapIdx (x.exit i) := by
      refine List.mapIdx_eq_mapIdx_iff.2 fun k hk => ?_
      rw [Surgery.exit, Surgery.exit, cut i k _ ⟨b, hb, List.getElem?_eq_getElem hk⟩]
    have incoming : b.incoming.filter (!x'.dropped ·) = b.incoming.filter (!x.dropped ·) :=
      List.filter_congr fun p hp => by rw [dropped i b hb p hp]
    simp only [Surgery.block, Surgery.links, exits, incoming, dead, gone]
  refine ⟨h.frame, h.cursor, h.flushes, ?_, gone ▸ h.index, gone ▸ h.line, ?_,
    h.waiting_nodup, h.coded, ?_⟩
  · intro i
    rw [h.blocks]
    cases hb : e.block? i with
    | none => rfl
    | some b => exact congrArg some (hblock i b hb).symm
  · intro w
    rw [h.waiting, quiet]
    refine and_congr_right fun _ =>
      or_congr_right (exists_congr fun y => and_congr_right fun hy => ?_)
    rw [cut _ _ _ hy.stored]
  · exact fun n hn => h.outside n fun i k y hy hcut => hn i k y hy ((cut i k y hy).trans hcut)

end Operated

end Engine
end Dynarec
