import Dynarec.Proofs.ChainInvariant

/-!
Invalidating a guest range: the blocks that it touches go, exits that lead into them go back to the
dispatch stub, and all else stays.
-/
namespace Dynarec

namespace ExitSlot

/-- The exit when some blocks have gone. -/
def spared (victims : List BlockId) (x : ExitSlot) : ExitSlot :=
  if x.linked.any (· ∈ victims) then { x with linked := none } else x

end ExitSlot

namespace Engine

open Traced

/-- What is left of `e` when some blocks have gone. -/
structure Withdrawn (e : Engine) (victims : List BlockId) (e' : Engine) : Prop where
  frame : e'.frame = e.frame
  removed : ∀ {id b}, e.block? id = some b → id ∈ victims →
    ∃ b', e'.block? id = some b' ∧ b'.state = .invalidated
  kept : ∀ {id b}, e.block? id = some b → b.isValid = true → id ∉ victims →
    e'.block? id = some (Block.refresh
      { b with exits := b.exits.map (·.spared victims),
               incoming := b.incoming.filter (·.1 ∉ victims) })
  invalid : ∀ {id b}, e.block? id = some b → b.isValid = false → e'.block? id = some b
  missed : ∀ {id b}, e.block? id = some b → id ∈ victims → e'.lookup b.entry = none
  found : ∀ pc, e'.lookup pc = (e.lookup pc).filter (· ∉ victims)
  line : ∀ pc, e'.cache.jumps.line? pc = (e.cache.jumps.line? pc).filter (·.id ∉ victims)
  /-- An exit that has led into a block that is gone leads to the dispatch stub and waits. -/
  released : ∀ {s k x d}, e.HasExit s k x → s ∉ victims → x.linked = some d → d ∈ victims →
    e'.HasExit s k { x with linked := none } ∧
      e'.buffer.branchTarget x.site = .ok e'.stubs.dispatch ∧
      (e.config.directChaining = true → e'.chains.waiting.count ⟨x.target, s, k⟩ = 1)
  waiting : ∀ w, w ∈ e'.chains.waiting ↔ w.src ∉ victims ∧ (w ∈ e.chains.waiting ∨
    ∃ x d, e.HasExit w.src w.exit x ∧ x.target = w.target ∧ x.linked = some d ∧ d ∈ victims)
  incoming : ∀ {d b p}, e'.block? d = some b → p ∈ b.incoming → p.1 ∉ victims
  bytes : ∀ n, (∀ s k x d, e.HasExit s k x → s ∉ victims → x.linked = some d → d ∈ victims →
    n < x.site.start ∨ x.site.anchor ≤ n) → e'.buffer.bytes[n]? = e.buffer.bytes[n]?
  cursor : e'.buffer.cursor = e.buffer.cursor

variable {e c : Engine} {src : Nat → List Insn} {victims : List BlockId} {id : BlockId} {b : Block}
  {start : UInt32} {stop : Nat}

theorem perform_invalidateRange_of_nil (h : e.cache.affectedBy start stop = [])
    (log : Array Event) :
    (EngineM.invalidateRange start stop).perform e log = ((.ok 0, e), log) := by
  have unfolded : (EngineM.invalidateRange start stop).perform e log =
      (do
        EngineM.invalidateBlocks (e.cache.affectedBy start stop)
        unless (e.cache.affectedBy start stop).isEmpty do
          report (.invalidated start stop (e.cache.affectedBy start stop).length)
        return (e.cache.affectedBy start stop).length : EngineM Nat).perform e log := rfl
  rw [unfolded, h]
  rfl

/-- An exit that is not linked jumps to the dispatch stub. -/
theorem Resting.branchTarget_unlinked (h : e.Resting src) (hb : e.block? id = some b) {k : Nat}
    {x : ExitSlot} (hx : b.exits[k]? = some x) (unlinked : x.linked = none) :
    e.buffer.branchTarget x.site = .ok e.stubs.dispatch := by
  have field := h.coded.field h.placed hb hx
  have landing : e.landing x.linked = e.stubs.dispatch := by rw [unlinked]; rfl
  rw [landing] at field
  have bounded := h.placed.bounded
  have reach := h.placed.hosted.reach
  have dispatch_le := h.placed.hosted.dispatch_le
  have within := h.placed.within hb (List.mem_of_getElem? hx)
  have inside := h.placed.stop_le hb
  exact (within.leads bounded reach inside dispatch_le field).branchTarget_eq_ok bounded
    (Nat.lt_of_le_of_lt reach (by decide)) (within.has bounded inside) dispatch_le

/-- The exits that go back to the dispatch stub. -/
theorem cut_removal_iff {s : BlockId} {k : Nat} {x : ExitSlot} (hx : e.StoredExit s k x) :
    (Surgery.removal e victims victims).cut s k x = true ↔
      s ∉ victims ∧ e.HasExit s k x ∧ ∃ d, x.linked = some d ∧ d ∈ victims := by
  obtain ⟨b, hb, hx⟩ := hx
  have resident : e.HasExit s k x ↔ b.isValid = true := by
    constructor
    · rintro ⟨b', hb', valid, -⟩
      rwa [Option.some.inj (hb.symm.trans hb')]
    · exact fun valid => ⟨b, hb, valid, hx⟩
  rw [resident]
  simp [Surgery.removal, hb, Option.any_eq_true]

section Removed

variable (h : e.Operated src (.removal e victims victims) c)
include h

theorem Operated.state_removed (hb : e.block? id = some b) (hid : id ∈ victims) :
    ∃ b', c.block? id = some b' ∧ b'.state = .invalidated := by
  refine ⟨_, h.block hb, ?_⟩
  rw [Surgery.state_block]
  exact if_pos (decide_eq_true hid)

/-- A block that stays loses the links to blocks that go, and is not changed otherwise. -/
theorem Operated.block_kept (hb : e.block? id = some b) (valid : b.isValid = true)
    (stays : id ∉ victims) :
    c.block? id = some (Block.refresh
      { b with exits := b.exits.map (·.spared victims),
               incoming := b.incoming.filter (·.1 ∉ victims) }) := by
  have exits : b.exits.mapIdx ((Surgery.removal e victims victims).exit id) =
      b.exits.map (·.spared victims) := by
    apply List.ext_getElem?
    intro k
    rw [List.getElem?_mapIdx, List.getElem?_map]
    cases hx : b.exits[k]? with
    | none => rfl
    | some x => exact congrArg some (HasExit.exit_removal ⟨b, hb, valid, hx⟩ stays)
  have incoming : b.incoming.filter (!(Surgery.removal e victims victims).dropped ·) =
      b.incoming.filter (·.1 ∉ victims) := by
    simp [Surgery.removal]
  have gone : (Surgery.removal e victims victims).gone id = false := decide_eq_false stays
  have alive : (Surgery.removal e victims victims).dead id = false := decide_eq_false stays
  rw [h.block hb, Surgery.block, alive, if_neg Bool.false_ne_true, Surgery.links, exits, gone,
    if_neg Bool.false_ne_true, incoming]

/-- A block that has gone before is not changed. -/
theorem Operated.block_invalid (resting : e.Resting src) (hb : e.block? id = some b)
    (invalid : b.isValid = false) (stays : id ∉ victims) : c.block? id = some b := by
  have exits : b.exits.mapIdx ((Surgery.removal e victims victims).exit id) = b.exits := by
    apply List.ext_getElem?
    intro k
    rw [List.getElem?_mapIdx]
    cases b.exits[k]? with
    | none => rfl
    | some x => simp [Surgery.exit, Surgery.removal, hb, invalid]
  have incoming : b.incoming = [] := by
    rw [List.eq_nil_iff_forall_not_mem]
    intro p hp
    exact absurd ((resting.graph.incoming hb).1 hp).1 (by simp [invalid])
  have alive : (Surgery.removal e victims victims).dead id = false := decide_eq_false stays
  have links : (Surgery.removal e victims victims).links id b = b := by
    refine Block.ext_links Surgery.body_links exits ?_ rfl
    simp only [Surgery.links, incoming, List.filter_nil, ite_self]
  rw [h.block hb, Surgery.block, alive, if_neg Bool.false_ne_true, links, Block.refresh, invalid,
    if_neg Bool.false_ne_true]

theorem Operated.lookup_removed (resting : e.Resting src) (pc : UInt32) :
    c.lookup pc = (e.lookup pc).filter (· ∉ victims) := by
  rw [(h.indexed resting).lookup, resting.indexed.lookup, h.index]
  simp [Surgery.removal]

theorem Operated.released (resting : e.Resting src) {s d : BlockId} {k : Nat} {x : ExitSlot}
    (hx : e.HasExit s k x) (stays : s ∉ victims) (link : x.linked = some d) (gone : d ∈ victims) :
    c.HasExit s k { x with linked := none } ∧ c.buffer.branchTarget x.site = .ok c.stubs.dispatch ∧
      (e.config.directChaining = true → c.chains.waiting.count ⟨x.target, s, k⟩ = 1) := by
  have rest := h.resting resting
  have cut : x.linked.any (· ∈ victims) = true := by simp [link, gone]
  have hz : c.HasExit s k { x with linked := none } :=
    h.hasExit_iff.2 ⟨stays, x, hx, by rw [if_pos cut]; rfl⟩
  refine ⟨hz, ?_, fun on => ?_⟩
  · obtain ⟨b, hb, -, hz⟩ := hz
    have lands := rest.branchTarget_unlinked hb hz rfl
    exact lands
  · refine List.count_eq_one_of_mem rest.graph.waiting_nodup
      (rest.graph.waiting.2 ⟨_, hz, rfl, rfl, ?_⟩)
    rw [config_of_frame h.frame, on]
    nofun

theorem Operated.waiting_removed (w : OpenExit) : w ∈ c.chains.waiting ↔ w.src ∉ victims ∧
    (w ∈ e.chains.waiting ∨ ∃ x d, e.HasExit w.src w.exit x ∧ x.target = w.target ∧
      x.linked = some d ∧ d ∈ victims) := by
  rw [h.waiting]
  have stays : (Surgery.removal e victims victims).quiet w.src = false ↔ w.src ∉ victims :=
    decide_eq_false_iff_not
  rw [stays]
  refine and_congr_right fun stays => or_congr_right (exists_congr fun x => ?_)
  constructor
  · rintro ⟨hx, cut, target⟩
    obtain ⟨-, -, d, link, gone⟩ := (cut_removal_iff hx.stored).1 cut
    exact ⟨d, hx, target, link, gone⟩
  · rintro ⟨d, hx, target, link, gone⟩
    exact ⟨hx, (cut_removal_iff hx.stored).2 ⟨stays, hx, d, link, gone⟩, target⟩

theorem Operated.withdrawn (resting : e.Resting src)
    (valid : ∀ id ∈ victims, ∃ b, e.block? id = some b ∧ b.isValid = true) :
    e.Withdrawn victims c where
  frame := h.frame
  removed := h.state_removed
  kept := h.block_kept
  invalid {id b} hb invalid := by
    refine h.block_invalid resting hb invalid fun hid => ?_
    obtain ⟨b', hb', valid⟩ := valid id hid
    rw [Option.some.inj (hb.symm.trans hb'), valid] at invalid
    cases invalid
  missed {id b} hb hid := by
    obtain ⟨b', hb', valid⟩ := valid id hid
    obtain rfl := Option.some.inj (hb.symm.trans hb')
    rw [h.lookup_removed resting, resting.indexed.lookup,
      resting.indexed.index.2 ⟨b, hb, valid, rfl⟩]
    simp [Option.filter, hid]
  found := h.lookup_removed resting
  line pc := by
    rw [h.line]
    simp [Surgery.removal]
  released := h.released resting
  waiting := h.waiting_removed
  incoming {d b' p} hb' hp := by
    obtain ⟨b, hb, rfl⟩ := h.block_of hb'
    rw [Surgery.incoming_block] at hp
    split at hp
    · cases hp
    · simpa [Surgery.removal] using (List.mem_filter.1 hp).2
  bytes n apart := by
    refine h.outside n fun s k x hx cut => ?_
    obtain ⟨stays, hx, d, link, gone⟩ := (cut_removal_iff hx).1 cut
    exact apart s k x d hx stays link gone
  cursor := h.cursor

theorem Operated.isValid_of (hb : c.block? id = some b) (valid : b.isValid = true) :
    id ∉ victims ∧ ∃ b₀, e.block? id = some b₀ ∧ b₀.isValid = true ∧ b₀.body = b.body := by
  obtain ⟨b₀, hb₀, rfl⟩ := h.block_of hb
  rw [Surgery.isValid_block, Bool.and_eq_true, Bool.not_eq_true'] at valid
  exact ⟨of_decide_eq_false valid.1, b₀, hb₀, valid.2, Surgery.body_block.symm⟩

end Removed

theorem touches_body (b : Block) : touches b.body start stop = touches b start stop := by
  have targets : b.body.targetsRange start stop = b.targetsRange start stop := by
    simp only [Block.targetsRange, Block.body, List.any_map]
    rfl
  rw [touches, touches, targets]
  rfl

theorem touches_of_body {b' : Block} (h : b'.body = b.body) :
    touches b' start stop = touches b start stop := by
  rw [← touches_body, h, touches_body]

/-- Behind an invalidation the range touches no resident block. -/
theorem Operated.affectedBy_eq_nil (resting : e.Resting src)
    (h : e.Operated src
      (.removal e (e.cache.affectedBy start stop) (e.cache.affectedBy start stop)) c) :
    c.cache.affectedBy start stop = [] := by
  rw [List.eq_nil_iff_forall_not_mem]
  intro id hid
  obtain ⟨b, hb, valid, hit⟩ := (h.resting resting).placed.mem_affectedBy.1 hid
  obtain ⟨stays, b₀, hb₀, valid₀, body⟩ := h.isValid_of hb valid
  exact stays (resting.placed.mem_affectedBy.2 ⟨b₀, hb₀, valid₀, (touches_of_body body).trans hit⟩)

theorem touches_iff : touches b start stop = true ↔ (b.entry.toNat < stop ∧ start.toNat < b.stop) ∨
    ∃ x ∈ b.exits, start ≤ x.target ∧ x.target.toNat < stop := by
  simp [touches, Block.intersects, Block.targetsRange]

/-- The blocks that overlap a range or go on inside it have gone, `n` of them, and all else has
stayed. -/
def Swept (e : Engine) (start : UInt32) (stop n : Nat) (e' : Engine) : Prop :=
  ∃ victims : List BlockId, victims.length = n ∧ victims.Nodup ∧
    (∀ id, id ∈ victims ↔ ∃ b, e.block? id = some b ∧ b.isValid = true ∧
      ((b.entry.toNat < stop ∧ start.toNat < b.stop) ∨
        ∃ x ∈ b.exits, start ≤ x.target ∧ x.target.toNat < stop)) ∧
    e.Withdrawn victims e'

theorem Operated.swept (resting : e.Resting src)
    (h : e.Operated src
      (.removal e (e.cache.affectedBy start stop) (e.cache.affectedBy start stop)) c) :
    e.Swept start stop (e.cache.affectedBy start stop).length c := by
  have mem (id : BlockId) : id ∈ e.cache.affectedBy start stop ↔ _ := resting.placed.mem_affectedBy
  refine ⟨_, rfl, resting.placed.nodup_affectedBy, fun id => ?_, ?_⟩
  · rw [mem]
    simp only [touches_iff]
  · refine h.withdrawn resting fun id hid => ?_
    obtain ⟨b, hb, valid, -⟩ := (mem id).1 hid
    exact ⟨b, hb, valid⟩

/-- Invalidating a range takes the blocks out of use that overlap it or go on inside it, and counts
them. All else stays as it is. To invalidate the range again does nothing. -/
theorem Reachable.invalidateRange_exact (h : e.Reachable) (start : UInt32) (stop : Nat)
    (log : Array Event) :
    ∃ victims e', ((EngineM.invalidateRange start stop).perform e log).1 =
      (.ok victims.length, e') ∧ victims.Nodup ∧
      (∀ id, id ∈ victims ↔ ∃ b, e.block? id = some b ∧ b.isValid = true ∧
        ((b.entry.toNat < stop ∧ start.toNat < b.stop) ∨
          ∃ x ∈ b.exits, start ≤ x.target ∧ x.target.toNat < stop)) ∧
      e.Withdrawn victims e' ∧
      ∀ log, (EngineM.invalidateRange start stop).perform e' log = ((.ok 0, e'), log) := by
  obtain ⟨src, made⟩ := h.made
  have resting := made.resting
  obtain ⟨e', yields, removed⟩ := resting.yields_invalidateRange start stop
  obtain ⟨victims, length, nodup, mem, withdrawn⟩ := removed.swept resting
  refine ⟨victims, e', ?_, nodup, mem, withdrawn, ?_⟩
  · rw [yields log, length]
  · exact perform_invalidateRange_of_nil (removed.affectedBy_eq_nil resting)

theorem countdown_invalidated :
    ∃ (e : Engine) (id : BlockId) (b : Block) (e' : Engine), e.Reachable ∧
    e.block? id = some b ∧ b.isValid = true ∧ b.entry = 0x100 ∧
    ((EngineM.invalidateRange 0x104 0x108).perform e #[]).1 = (.ok 1, e') ∧
    e'.lookup 0x100 = none ∧ ∀ w ∈ e'.chains.waiting, w.src ≠ id := by
  obtain ⟨src, id, e, -, reachable, emitted⟩ := exists_countdown
  obtain ⟨b, hb, valid, entry, hstop, -⟩ := countdown_block emitted
  obtain ⟨victims, e', done, nodup, mem, withdrawn, -⟩ :=
    reachable.invalidateRange_exact 0x104 0x108 #[]
  have hit : id ∈ victims := (mem id).2 ⟨b, hb, valid, .inl (by rw [entry, hstop]; decide)⟩
  have only : victims.Perm [id] := by
    refine (List.perm_ext_iff_of_nodup nodup (List.nodup_singleton id)).2 fun d => ?_
    rw [List.mem_singleton]
    constructor
    · intro hd
      obtain ⟨_, hc, hvalid, -⟩ := (mem d).1 hd
      exact eq_countdown emitted hc hvalid
    · rintro rfl
      exact hit
  rw [only.length_eq] at done
  refine ⟨e, id, b, e', reachable, hb, valid, entry, done, entry ▸ withdrawn.missed hb hit,
    fun w hw same => ?_⟩
  exact ((withdrawn.waiting w).1 hw).1 (same ▸ hit)

end Engine
end Dynarec
