import Dynarec.Proofs.Confinement
import Dynarec.Proofs.Emission

/-!
Links that lead into no dead code. Less holds here than between operations that all succeed: an exit
may lead to the dispatch stub although its target is resident, and need not wait for it. What is
left holds at every point at which an operation may fail, over every table.
-/
namespace Dynarec.Engine

open Traced

variable {e e' : Engine} {s d id i : BlockId} {b c : Block} {k : Nat} {x y : ExitSlot}
  {l : Option BlockId} {f : Block → Block}

/-- Each exit of a stored block has a field of its own, which leads to where the exit is linked to
and can always be led back to the dispatch stub. -/
structure Steered (e : Engine) : Prop where
  bounded : e.buffer.Bounded
  reach : e.buffer.capacity ≤ 2 ^ 30
  codeBase : e.cache.codeBase = e.buffer.base
  dispatch_le : e.stubs.dispatch ≤ e.buffer.capacity
  id : ∀ {i b}, e.block? i = some b → b.id = i
  offset_le : ∀ {i b}, e.block? i = some b → b.hostOffset ≤ e.buffer.cursor
  named : ∀ {s k x d}, e.StoredExit s k x → x.linked = some d → ∃ b, e.block? d = some b
  has : ∀ {s k x}, e.StoredExit s k x → e.buffer.Has x.site
  home : ∀ {s k x}, e.StoredExit s k x → x.site.Spans e.stubs.dispatch
  leads : ∀ {s k x}, e.StoredExit s k x → e.buffer.Leads x.site (e.landing x.linked)
  apart : ∀ {s k x t j y}, e.StoredExit s k x → e.StoredExit t j y → (s, k) ≠ (t, j) →
    x.site.stop ≤ y.site.start ∨ y.site.stop ≤ x.site.start

theorem Steered.landing_le (h : e.Steered) (l : Option BlockId) :
    e.landing l ≤ e.buffer.capacity := by
  unfold landing
  cases found : l.bind e.block? with
  | none => exact h.dispatch_le
  | some b =>
    obtain ⟨d, -, hb⟩ := Option.bind_eq_some_iff.1 found
    exact Nat.le_trans (h.offset_le hb) h.bounded.cursor_le

/-- Fields lead where they led when neither a byte nor a link changes. -/
theorem Steered.congr (h : e.Steered) (frame : e'.frame = e.frame) (bodies : e'.bodies = e.bodies)
    (buffer : e'.buffer = e.buffer) (exits : ∀ {s k x}, e'.StoredExit s k x → e.StoredExit s k x) :
    e'.Steered where
  bounded := buffer ▸ h.bounded
  reach := buffer ▸ h.reach
  codeBase := by rw [codeBase_of_frame frame, buffer, h.codeBase]
  dispatch_le := by
    rw [stubs_of_frame frame, buffer]
    exact h.dispatch_le
  id hb := by
    obtain ⟨b₀, hb₀, body⟩ := block?_of_bodies bodies hb
    exact (Block.id_of_body body.symm).trans (h.id hb₀)
  offset_le hb := by
    obtain ⟨b₀, hb₀, body⟩ := block?_of_bodies bodies hb
    rw [Block.hostOffset_of_body body.symm, buffer]
    exact h.offset_le hb₀
  named hx link := by
    obtain ⟨b, hb⟩ := h.named (exits hx) link
    obtain ⟨b', hb', -⟩ := block?_of_bodies bodies.symm hb
    exact ⟨b', hb'⟩
  has hx := buffer ▸ h.has (exits hx)
  home hx := by
    rw [stubs_of_frame frame]
    exact h.home (exits hx)
  leads hx := by
    rw [landing_of_bodies frame bodies, buffer]
    exact h.leads (exits hx)
  apart hx hy := h.apart (exits hx) (exits hy)

theorem Steered.withChains (h : e.Steered) (chains : ChainTable) :
    Engine.Steered { e with chains } :=
  h.congr rfl rfl rfl fun hx => hx

theorem storedExit_modifyBlock (hexits : ∀ b, (f b).exits = b.exits) :
    (e.modifyBlock id f).StoredExit s k x ↔ e.StoredExit s k x := by
  unfold StoredExit
  rw [block?_modifyBlock]
  split
  · constructor
    · rintro ⟨_, hb, hx⟩
      obtain ⟨b₀, hb₀, rfl⟩ := Option.map_eq_some_iff.1 hb
      exact ⟨b₀, hb₀, hexits b₀ ▸ hx⟩
    · rintro ⟨b, hb, hx⟩
      exact ⟨f b, by rw [hb]; rfl, (hexits b).symm ▸ hx⟩
  · rfl

theorem Steered.modifyBlock (h : e.Steered) (body : ∀ b, (f b).body = b.body)
    (exits : ∀ b, (f b).exits = b.exits) : (e.modifyBlock id f).Steered :=
  h.congr rfl (bodies_modifyBlock fun b _ => body b) rfl fun hx =>
    (storedExit_modifyBlock exits).1 hx

/-- An exit behind a change of one exit's link is that exit or one from before. -/
theorem storedExit_of_retarget {j : Nat} (hy : (e.retarget s k x l).StoredExit i j y) :
    ∃ y₀, e.StoredExit i j y₀ ∧
      (((i, j) = (s, k) ∧ y = { y₀ with linked := l }) ∨ ((i, j) ≠ (s, k) ∧ y = y₀)) := by
  obtain ⟨c, hc, hy⟩ := hy
  obtain ⟨c₀, y₀, hc₀, hy₀, change⟩ := exit_of_retarget hc hy
  exact ⟨y₀, ⟨c₀, hc₀, hy₀⟩, change⟩

theorem storedExit_retarget {j : Nat} (hy : e.StoredExit i j y) :
    (e.retarget s k x l).StoredExit i j
    (if (i, j) = (s, k) then { y with linked := l } else y) := by
  obtain ⟨c, hc, hy⟩ := hy
  by_cases hi : i = s
  · refine ⟨_, by rw [block?_retarget, if_pos hi, hc]; rfl, ?_⟩
    rw [exits_refresh, getElem?_setLink, hy]
    by_cases hj : k = j
    · simp [hi, hj]
    · simp [hi, hj, Ne.symm hj]
  · refine ⟨c, by rw [block?_retarget, if_neg hi, hc], ?_⟩
    simp [hi, hy]

/-- An exit is pointed elsewhere. -/
theorem Steered.retarget (h : e.Steered) (hx : e.StoredExit s k x)
    (spans : x.site.Spans (e.landing l)) (named : ∀ d, l = some d → ∃ b, e.block? d = some b) :
    (e.retarget s k x l).Steered := by
  have bodies : (e.retarget s k x l).bodies = e.bodies := bodies_retarget
  have frame : (e.retarget s k x l).frame = e.frame := frame_retarget
  have cursor : (e.retarget s k x l).buffer.cursor = e.buffer.cursor := cursor_retarget
  have site {i : BlockId} {j : Nat} {y : ExitSlot} (hy : (e.retarget s k x l).StoredExit i j y) :
      ∃ y₀, e.StoredExit i j y₀ ∧ y.site = y₀.site := by
    obtain ⟨y₀, hy₀, ⟨-, rfl⟩ | ⟨-, rfl⟩⟩ := storedExit_of_retarget hy
    · exact ⟨y₀, hy₀, rfl⟩
    · exact ⟨y, hy₀, rfl⟩
  refine ⟨⟨?_, h.bounded.mapped⟩, h.reach, h.codeBase, h.dispatch_le, fun hb => ?_, fun hb => ?_,
    fun {_ _ _ d} hy link => ?_, fun hy => ?_, fun hy => ?_, fun hy => ?_, fun hy hz other => ?_⟩
  · rw [cursor]
    exact h.bounded.cursor_le
  · obtain ⟨b₀, hb₀, body⟩ := block?_of_bodies bodies hb
    exact (Block.id_of_body body.symm).trans (h.id hb₀)
  · obtain ⟨b₀, hb₀, body⟩ := block?_of_bodies bodies hb
    rw [Block.hostOffset_of_body body.symm, cursor]
    exact h.offset_le hb₀
  · have stored : ∃ b, e.block? d = some b := by
      obtain ⟨y₀, hy₀, ⟨-, rfl⟩ | ⟨-, rfl⟩⟩ := storedExit_of_retarget hy
      · exact named _ link
      · exact h.named hy₀ link
    obtain ⟨b, hb⟩ := stored
    obtain ⟨b', hb', -⟩ := block?_of_bodies bodies.symm hb
    exact ⟨b', hb'⟩
  · obtain ⟨y₀, hy₀, same⟩ := site hy
    rw [same]
    exact ⟨(h.has hy₀).anchor_le, cursor ▸ (h.has hy₀).stop_le⟩
  · obtain ⟨y₀, hy₀, same⟩ := site hy
    rw [same]
    exact h.home hy₀
  · rw [landing_of_bodies frame bodies]
    obtain ⟨y₀, hy₀, ⟨same, rfl⟩ | ⟨other, rfl⟩⟩ := storedExit_of_retarget hy
    · cases same
      obtain rfl := StoredExit.unique hx hy₀
      exact CodeBuffer.leads_point spans (h.has hx).stop_le
    · have apart := h.apart hy₀ hx other
      refine (h.leads hy₀).congr fun n low high => CodeBuffer.getElem?_point ?_
      omega
  · obtain ⟨y₀, hy₀, same⟩ := site hy
    obtain ⟨z₀, hz₀, same'⟩ := site hz
    rw [same, same']
    exact h.apart hy₀ hz₀ other

theorem storedExit_of_linkTo {j : Nat} (hy : (e.linkTo s k x d).StoredExit i j y) :
    (e.retarget s k x (some d)).StoredExit i j y :=
  (storedExit_modifyBlock (e := e.retarget s k x (some d)) (f := (·.addIncoming s k))
    fun _ => rfl).1 hy

theorem Steered.linkTo (h : e.Steered) (hx : e.StoredExit s k x) (hd : e.block? d = some c)
    (spans : x.site.Spans c.hostOffset) : (e.linkTo s k x d).Steered := by
  have retargeted : (e.retarget s k x (some d)).Steered :=
    h.retarget hx (landing_some hd ▸ spans) fun _ hd' => Option.some.inj hd' ▸ ⟨c, hd⟩
  exact retargeted.congr (frame_linkTo.trans frame_retarget.symm)
    (bodies_linkTo.trans bodies_retarget.symm) rfl storedExit_of_linkTo

section Relink

variable {target : Nat}

theorem Steered.yields_redirect (h : e.Steered) (hx : e.StoredExit s k x)
    (target_le : target ≤ e.buffer.capacity) (spans : x.site.Spans target) :
    Yields (EngineM.onBuffer (CodeBuffer.redirect x.site target)) e (.ok ())
      { e with buffer := e.buffer.point x.site target } :=
  (CodeBuffer.yields_redirect h.bounded (h.has hx) target_le spans).zoom

/-- An exit can always go back to the dispatch stub. -/
theorem Steered.yields_unlink (h : e.Steered) (hx : e.StoredExit s k x) :
    Yields (EngineM.unlink s k) e (.ok ()) (e.retarget s k x none) :=
  yields_unlink_of_redirect hx (h.yields_redirect hx h.dispatch_le (h.home hx))

/-- An exit that leads to the dispatch stub stays as it is when a block is too far away to be linked
to. -/
theorem Steered.yields_link_error (h : e.Steered) (hx : e.StoredExit s k x)
    (unlinked : x.linked = none) (hd : e.block? d = some c) (short : ¬ x.site.Spans c.hostOffset) :
    Yields (EngineM.link s k d) e (.error (e.buffer.tooFar x.site c.hostOffset)) e := by
  have target_le : c.hostOffset ≤ e.buffer.capacity :=
    Nat.le_trans (h.offset_le hd) h.bounded.cursor_le
  have unmoved : Yields (EngineM.onBuffer (CodeBuffer.redirect x.site c.hostOffset)) e
      (.error (e.buffer.tooFar x.site c.hostOffset)) e :=
    (CodeBuffer.yields_redirect_error h.bounded (h.has hx) target_le short).zoom
  obtain ⟨b, hb, hx⟩ := hx
  refine (yields_getBlock hd).bind ((yields_getBlock hb).bind ?_)
  rw [exit_eq_ok hx]
  refine (yields_lift _).bind ?_
  rw [if_neg (by simp [unlinked]), unlinked]
  exact unmoved.bind_error

theorem Steered.yields_link (h : e.Steered) (hx : e.StoredExit s k x) (unlinked : x.linked = none)
    (hd : e.block? d = some c) (spans : x.site.Spans c.hostOffset) :
    Yields (EngineM.link s k d) e (.ok ()) (e.linkTo s k x d) := by
  have target_le : c.hostOffset ≤ e.buffer.capacity :=
    Nat.le_trans (h.offset_le hd) h.bounded.cursor_le
  exact yields_link_of_redirect hx unlinked hd (h.yields_redirect hx target_le spans)

end Relink

/-- The block of an address: resident, or one of `D`, which are about to go. -/
def Counts (e : Engine) (D : BlockId → Prop) (d : BlockId) (pc : UInt32) : Prop :=
  ∃ b, e.block? d = some b ∧ (b.isValid = true ∨ D d) ∧ b.entry = pc

/-- Addresses and links lead to blocks that count, and each block knows the exits that are linked to
it, but for those in `C`, which are about to be cut. -/
structure Tended (e : Engine) (D : BlockId → Prop) (C : BlockId → BlockId × Nat → Prop) : Prop where
  index : ∀ {pc d}, e.cache.index[pc]? = some d → e.Counts D d pc
  line : ∀ {pc l}, e.cache.jumps.line? pc = some l →
    JumpCache.index l.tag = JumpCache.index pc ∧ e.Counts D l.id l.tag
  linked : ∀ {s k x d}, e.HasExit s k x → x.linked = some d →
    e.Counts D d x.target ∧ (C d (s, k) ∨ ∃ b, e.block? d = some b ∧ (s, k) ∈ b.incoming)
  incoming : ∀ {d b s k}, e.block? d = some b → (s, k) ∈ b.incoming →
    ∃ x, e.StoredExit s k x ∧ x.linked = some d ∧ x.target = b.entry
  waiting : ∀ {w : OpenExit}, w ∈ e.chains.waiting →
    ∃ x, e.StoredExit w.src w.exit x ∧ x.target = w.target ∧ x.linked = none

variable {D D' : BlockId → Prop} {C C' : BlockId → BlockId × Nat → Prop} {pc : UInt32}

theorem Counts.imp (h : e.Counts D d pc) (sub : D d → D' d) : e.Counts D' d pc := by
  obtain ⟨b, hb, resident, entry⟩ := h
  exact ⟨b, hb, resident.imp_right sub, entry⟩

theorem Tended.lookup (h : e.Tended D C) (found : e.lookup pc = some d) : e.Counts D d pc := by
  simp only [Engine.lookup, BlockCache.lookup] at found
  cases hit : e.cache.jumps.lookup pc with
  | some id =>
    rw [hit] at found
    obtain rfl := Option.some.inj found
    obtain ⟨l, hl, rfl, rfl⟩ := JumpCache.lookup_eq_some.1 hit
    exact (h.line hl).2
  | none =>
    rw [hit] at found
    exact h.index found

section Modify

variable (entry : ∀ b, (f b).entry = b.entry)
include entry

theorem Counts.modifyBlock (h : e.Counts D d pc)
    (counts : ∀ b, e.block? id = some b → b.isValid = true ∨ D id → (f b).isValid = true ∨ D' id)
    (others : ∀ i, D i → i ≠ id → D' i) : (e.modifyBlock id f).Counts D' d pc := by
  obtain ⟨b, hb, resident, rfl⟩ := h
  unfold Counts
  rw [block?_modifyBlock]
  split
  · next here =>
    subst here
    exact ⟨f b, by rw [hb]; rfl, counts b hb resident, entry b⟩
  · next other => exact ⟨b, hb, resident.imp_right fun hd => others d hd other, rfl⟩

/-- A block is changed: at most it goes, and forgets exits that are linked to it. -/
theorem Tended.modifyBlock (h : e.Tended D C) (exits : ∀ b, (f b).exits = b.exits)
    (valid : ∀ b, (f b).isValid = true → b.isValid = true)
    (counts : ∀ b, e.block? id = some b → b.isValid = true ∨ D id → (f b).isValid = true ∨ D' id)
    (others : ∀ i, D i → i ≠ id → D' i) (cuts : ∀ d p, C d p → C' d p)
    (incoming : ∀ b, ∀ p ∈ (f b).incoming, p ∈ b.incoming)
    (kept : ∀ b s k x, e.block? id = some b → (s, k) ∈ b.incoming →
      (e.modifyBlock id f).HasExit s k x → (s, k) ∈ (f b).incoming ∨ C' id (s, k)) :
    (e.modifyBlock id f).Tended D' C' := by
  have stored {s : BlockId} {k : Nat} {x : ExitSlot} :
      (e.modifyBlock id f).StoredExit s k x ↔ e.StoredExit s k x := storedExit_modifyBlock exits
  have resident {s : BlockId} {k : Nat} {x : ExitSlot} (hx : (e.modifyBlock id f).HasExit s k x) :
      e.HasExit s k x := by
    obtain ⟨b, hb, hvalid, hx⟩ := hx
    rw [block?_modifyBlock] at hb
    split at hb
    · obtain ⟨b₀, hb₀, rfl⟩ := Option.map_eq_some_iff.1 hb
      exact ⟨b₀, hb₀, valid b₀ hvalid, exits b₀ ▸ hx⟩
    · exact ⟨b, hb, hvalid, hx⟩
  refine ⟨fun found => ?_, fun hl => ?_, fun {s k x d} hx link => ?_,
    fun {d b s k} hb hp => ?_, fun hw => ?_⟩
  · exact (h.index found).modifyBlock entry counts others
  · exact ⟨(h.line hl).1, (h.line hl).2.modifyBlock entry counts others⟩
  · obtain ⟨target, listed⟩ := h.linked (resident hx) link
    refine ⟨target.modifyBlock entry counts others, ?_⟩
    rcases listed with cut | ⟨b, hb, hp⟩
    · exact .inl (cuts _ _ cut)
    · rw [block?_modifyBlock]
      split
      · next here =>
        subst here
        rcases kept b s k x hb hp hx with still | cut
        · exact .inr ⟨f b, by rw [hb]; rfl, still⟩
        · exact .inl cut
      · exact .inr ⟨b, hb, hp⟩
  · rw [block?_modifyBlock] at hb
    split at hb
    · obtain ⟨b₀, hb₀, rfl⟩ := Option.map_eq_some_iff.1 hb
      obtain ⟨x, hx, link, target⟩ := h.incoming hb₀ (incoming b₀ _ hp)
      exact ⟨x, stored.2 hx, link, target.trans (entry b₀).symm⟩
    · obtain ⟨x, hx, link, target⟩ := h.incoming hb hp
      exact ⟨x, stored.2 hx, link, target⟩
  · obtain ⟨x, hx, target, unlinked⟩ := h.waiting hw
    exact ⟨x, stored.2 hx, target, unlinked⟩

end Modify

/-- Fewer addresses lead to blocks. -/
theorem Tended.withTables (h : e.Tended D C) {index : Std.HashMap UInt32 BlockId}
    {jumps : JumpCache} (hindex : ∀ {pc : UInt32} {d}, index[pc]? = some d → e.Counts D d pc)
    (hline : ∀ {pc l}, jumps.line? pc = some l → JumpCache.index l.tag = JumpCache.index pc ∧
      e.Counts D l.id l.tag) :
    Engine.Tended { e with cache := { e.cache with index, jumps } } D C :=
  ⟨hindex, hline, h.linked, h.incoming, h.waiting⟩

/-- A block can no longer be found. -/
theorem Tended.unpublish (h : e.Tended D C) (hb : e.block? id = some b) : ∃ index jumps,
    e.cache.unpublish id = .ok { e.cache with index, jumps } ∧
    Engine.Tended { e with cache := { e.cache with index, jumps } } D C ∧
    (∀ pc : UInt32, index[pc]? ≠ some id) ∧ ∀ pc l, jumps.line? pc = some l → l.id ≠ id := by
  have index :
      ∀ {pc : UInt32} {d}, (if e.cache.index[b.entry]? = some id then e.cache.index.erase b.entry
      else e.cache.index)[pc]? = some d → e.cache.index[pc]? = some d ∧ d ≠ id := by
    intro pc d found
    have kept : e.cache.index[pc]? = some d ∧
        ¬ (pc = b.entry ∧ e.cache.index[b.entry]? = some id) := by
      split at found
      · rw [Std.HashMap.getElem?_erase] at found
        split at found
        · cases found
        · next other => exact ⟨found, fun here => other (by simp [here.1])⟩
      · next absent => exact ⟨found, fun here => absent here.2⟩
    refine ⟨kept.1, ?_⟩
    rintro rfl
    obtain ⟨b', hb', -, entry⟩ := h.index kept.1
    obtain rfl := Option.some.inj (hb.symm.trans hb')
    exact kept.2 ⟨entry.symm, entry ▸ kept.1⟩
  have line : ∀ {pc l}, (if e.cache.jumps.lookup b.entry = some id then e.cache.jumps.remove b.entry
      else e.cache.jumps).line? pc = some l → e.cache.jumps.line? pc = some l ∧ l.id ≠ id := by
    intro pc l found
    have kept : e.cache.jumps.line? pc = some l ∧
        ¬ (JumpCache.index pc = JumpCache.index b.entry ∧
          e.cache.jumps.lookup b.entry = some id) := by
      split at found
      · next hit =>
        rw [JumpCache.line?_remove hit] at found
        split at found
        · cases found
        · next other => exact ⟨found, fun here => other here.1⟩
      · next absent => exact ⟨found, fun here => absent here.2⟩
    refine ⟨kept.1, ?_⟩
    rintro rfl
    -- A line of the block stands where its address maps to.
    obtain ⟨slot, b', hb', -, entry⟩ := h.line kept.1
    obtain rfl := Option.some.inj (hb.symm.trans hb')
    rw [← entry] at slot
    refine kept.2 ⟨slot.symm, JumpCache.lookup_eq_some.2 ⟨l, ?_, entry.symm, rfl⟩⟩
    rw [JumpCache.line?_congr slot]
    exact kept.1
  refine ⟨_, _, by rw [BlockCache.unpublish, get_eq_ok.2 hb]; rfl, ?_, ?_, ?_⟩
  · exact h.withTables (fun found => h.index (index found).1) fun found => h.line (line found).1
  · exact fun pc found => (index found).2 rfl
  · exact fun pc l found => (line found).2

/-- An exit begins to wait for its target. -/
theorem Tended.wait (h : e.Tended D C) (hx : e.StoredExit s k x) (unlinked : x.linked = none) :
    Engine.Tended { e with chains := e.chains.add x.target s k } D C := by
  refine ⟨h.index, h.line, h.linked, h.incoming, fun hw => ?_⟩
  rcases ChainTable.mem_add.1 hw with old | rfl
  · exact h.waiting old
  · exact ⟨x, hx, rfl, unlinked⟩

/-- Fewer exits wait. -/
theorem Tended.withChains (h : e.Tended D C) {chains : ChainTable}
    (sub : ∀ w ∈ chains.waiting, w ∈ e.chains.waiting) : Engine.Tended { e with chains } D C :=
  ⟨h.index, h.line, h.linked, h.incoming, fun hw => h.waiting (sub _ hw)⟩

section Retarget

theorem block_of_retarget (hb : (e.retarget s k x l).block? i = some b) :
    ∃ b₀, e.block? i = some b₀ ∧
    b.isValid = b₀.isValid ∧ b.incoming = b₀.incoming ∧ b.entry = b₀.entry := by
  obtain ⟨b₀, hb₀, valid, incoming, -⟩ := state_of_retarget hb
  obtain ⟨b₁, hb₁, body⟩ := block?_of_bodies bodies_retarget hb
  obtain rfl := Option.some.inj (hb₀.symm.trans hb₁)
  exact ⟨b₀, hb₀, valid, incoming, (Block.entry_of_body body).symm⟩

theorem block_retarget (hb : e.block? i = some b) : ∃ b', (e.retarget s k x l).block? i = some b' ∧
    b'.isValid = b.isValid ∧ b'.incoming = b.incoming ∧ b'.entry = b.entry := by
  have bodies : e.bodies = (e.retarget s k x l).bodies := bodies_retarget.symm
  obtain ⟨b', hb', -⟩ := block?_of_bodies bodies hb
  obtain ⟨b₀, hb₀, same⟩ := block_of_retarget hb'
  obtain rfl := Option.some.inj (hb.symm.trans hb₀)
  exact ⟨b', hb', same⟩

theorem Counts.retarget (h : e.Counts D d pc) : (e.retarget s k x l).Counts D d pc := by
  obtain ⟨b, hb, resident, entry⟩ := h
  obtain ⟨b', hb', valid', -, entry'⟩ := block_retarget hb
  exact ⟨b', hb', valid' ▸ resident, entry'.trans entry⟩

/-- An exit that no block knows goes back to the dispatch stub. -/
theorem Tended.cut (h : e.Tended D C) (unknown : ∀ d b, e.block? d = some b → (s, k) ∉ b.incoming) :
    (e.retarget s k x none).Tended D fun d p => C d p ∧ p ≠ (s, k) := by
  refine ⟨fun found => (h.index found).retarget, fun hl => ⟨(h.line hl).1, (h.line hl).2.retarget⟩,
    fun {i j y d} hy link => ?_, fun {d b i j} hb hp => ?_, fun {w} hw => ?_⟩
  · obtain ⟨y₀, hy₀, ⟨-, rfl⟩ | ⟨other, rfl⟩⟩ := hasExit_retarget.1 hy
    · cases link
    · obtain ⟨target, listed⟩ := h.linked hy₀ link
      refine ⟨target.retarget, ?_⟩
      rcases listed with cut | ⟨b, hb, hp⟩
      · exact .inl ⟨cut, other⟩
      · obtain ⟨b', hb', -, incoming, -⟩ := block_retarget hb
        exact .inr ⟨b', hb', incoming ▸ hp⟩
  · obtain ⟨b₀, hb₀, -, incoming, entry⟩ := block_of_retarget hb
    rw [incoming] at hp
    obtain ⟨y, hy, link, target⟩ := h.incoming hb₀ hp
    have other : (i, j) ≠ (s, k) := by
      rintro same
      exact unknown d b₀ hb₀ (same ▸ hp)
    have stored := storedExit_retarget (s := s) (k := k) (x := x) (l := none) hy
    rw [if_neg other] at stored
    exact ⟨y, stored, link, target.trans entry.symm⟩
  · obtain ⟨y, hy, target, unlinked⟩ := h.waiting hw
    have stored := storedExit_retarget (s := s) (k := k) (x := x) (l := none) hy
    refine ⟨_, stored, ?_, ?_⟩
    · split
      · exact target
      · exact target
    · split
      · rfl
      · exact unlinked

end Retarget

/-- What is about to be cut does not matter where nothing is linked. -/
theorem Tended.shrink (h : e.Tended D C)
    (cuts : ∀ {s k x d}, e.HasExit s k x → x.linked = some d → C d (s, k) → C' d (s, k)) :
    e.Tended D C' where
  index := h.index
  line := h.line
  linked hx link := (h.linked hx link).imp_right (Or.imp_left (cuts hx link))
  incoming := h.incoming
  waiting := h.waiting

section Detach

variable {rest : List (BlockId × Nat)} {p : BlockId × Nat}

/-- On the way from `e` to `c` the block `id` at `pc` is being cut off. The exits in `rest` may
still be linked to it. -/
structure Detaching (e : Engine) (D : BlockId → Prop) (id : BlockId) (pc : UInt32)
    (rest : List (BlockId × Nat)) (c : Engine) : Prop where
  frame : c.frame = e.frame
  valid : ∀ i, (c.block? i).map (·.isValid) = (e.block? i).map (·.isValid)
  steered : c.Steered
  tended : c.Tended D fun d p => d = id ∧ p ∈ rest
  block : ∃ b, c.block? id = some b ∧ b.isValid = false ∧ b.incoming = []
  listed : ∀ p ∈ rest, ∃ x, c.StoredExit p.1 p.2 x ∧ x.target = pc ∧
    (x.linked = some id ∨ x.linked = none)
  index : ∀ pc : UInt32, c.cache.index[pc]? ≠ some id
  line : ∀ pc l, c.cache.jumps.line? pc = some l → l.id ≠ id

variable {c : Engine}

/-- The exit of a block that is invalid itself stays as it is. -/
theorem Detaching.skip (h : e.Detaching D id pc (p :: rest) c) (hb : c.block? p.1 = some b)
    (invalid : b.isValid = false) : e.Detaching D id pc rest c := by
  refine ⟨h.frame, h.valid, h.steered, h.tended.shrink ?_, h.block,
    fun p hp => h.listed p (.tail _ hp), h.index, h.line⟩
  rintro s k x d ⟨b', hb', valid, -⟩ - ⟨rfl, hp⟩
  rcases List.mem_cons.1 hp with rfl | hp
  · obtain rfl := Option.some.inj (hb.symm.trans hb')
    exact absurd (invalid.symm.trans valid) nofun
  · exact ⟨rfl, hp⟩

theorem valid_retarget (i : BlockId) : ((e.retarget s k x l).block? i).map (·.isValid) =
    (e.block? i).map (·.isValid) := by
  rw [block?_retarget]
  split
  · rw [Option.map_map]
    congr 1
    funext b
    exact isValid_refresh _
  · rfl

/-- An exit into the block goes back to the dispatch stub. -/
theorem Detaching.cut (h : e.Detaching D id pc (p :: rest) c) (hx : c.StoredExit p.1 p.2 x)
    (into : x.linked = some id ∨ x.linked = none) :
    e.Detaching D id pc rest (c.retarget p.1 p.2 x none) := by
  have unknown : ∀ d b, c.block? d = some b → p ∉ b.incoming := by
    intro d b hb hp
    obtain ⟨y, hy, link, -⟩ := h.tended.incoming hb hp
    obtain rfl := StoredExit.unique hx hy
    rcases into with into | into
    · obtain rfl := Option.some.inj (into.symm.trans link)
      obtain ⟨b', hb', -, none⟩ := h.block
      obtain rfl := Option.some.inj (hb.symm.trans hb')
      rw [none] at hp
      cases hp
    · exact absurd (into.symm.trans link) nofun
  refine ⟨frame_retarget.trans h.frame, fun i => (valid_retarget i).trans (h.valid i),
    h.steered.retarget hx (h.steered.home hx) nofun, (h.tended.cut unknown).shrink ?_, ?_, ?_,
    h.index, h.line⟩
  · rintro s k x d - - ⟨⟨rfl, hp⟩, other⟩
    exact ⟨rfl, (List.mem_cons.1 hp).resolve_left other⟩
  · obtain ⟨b, hb, invalid, none⟩ := h.block
    obtain ⟨b', hb', valid', incoming', -⟩ := block_retarget hb
    exact ⟨b', hb', valid'.trans invalid, incoming'.trans none⟩
  · intro q hq
    obtain ⟨y, hy, target, link⟩ := h.listed q (.tail _ hq)
    refine ⟨_, storedExit_retarget hy, ?_, ?_⟩
    · split
      · exact target
      · exact target
    · split
      · exact .inr rfl
      · exact link

theorem Detaching.wait (h : e.Detaching D id pc rest c) (hx : c.StoredExit s k x)
    (target : x.target = pc) (unlinked : x.linked = none) :
    e.Detaching D id pc rest { c with chains := c.chains.add pc s k } where
  frame := h.frame
  valid := h.valid
  steered := h.steered.withChains _
  tended := target ▸ h.tended.wait hx unlinked
  block := h.block
  listed := h.listed
  index := h.index
  line := h.line

theorem Detaching.step (h : e.Detaching D id pc (p :: rest) c) :
    ∃ c', Yields (do
        if (← EngineM.getBlock p.1).isValid then
          EngineM.unlink p.1 p.2
          if (← get).config.directChaining then
            EngineM.modifyChains (·.add pc p.1 p.2)) c (.ok ()) c' ∧
      e.Detaching D id pc rest c' := by
  obtain ⟨x, hx, target, into⟩ := h.listed p List.mem_cons_self
  have hexit := hx
  obtain ⟨b, hb, -⟩ := hexit
  cases valid : b.isValid with
  | false =>
    refine ⟨c, (yields_getBlock hb).bind ?_, h.skip hb valid⟩
    rw [valid]
    exact yields_pure ()
  | true =>
    have cut := h.cut hx into
    have unlinks := h.steered.yields_unlink hx
    have stored := storedExit_retarget (s := p.1) (k := p.2) (x := x) (l := none) hx
    rw [if_pos rfl] at stored
    generalize c.retarget p.1 p.2 x none = c₁ at cut unlinks stored
    cases chaining : c₁.config.directChaining with
    | false =>
      refine ⟨c₁, (yields_getBlock hb).bind ?_, cut⟩
      rw [valid]
      refine unlinks.bind (yields_get.bind ?_)
      rw [chaining]
      exact yields_pure ()
    | true =>
      refine ⟨_, (yields_getBlock hb).bind ?_, cut.wait stored target rfl⟩
      rw [valid]
      refine unlinks.bind (yields_get.bind ?_)
      rw [chaining]
      exact yields_modify _

/-- What the loop over the exits into the block does. -/
theorem Detaching.yields_cutAll (h : e.Detaching D id pc rest c) :
    ∃ c', Yields (rest.forM fun (src, k) => do
        if (← EngineM.getBlock src).isValid then
          EngineM.unlink src k
          if (← get).config.directChaining then
            EngineM.modifyChains (·.add pc src k)) c (.ok ()) c' ∧
      e.Detaching D id pc [] c' := by
  induction rest generalizing c with
  | nil => exact ⟨c, yields_pure (), h⟩
  | cons p rest ih =>
    obtain ⟨c₁, first, h₁⟩ := h.step
    obtain ⟨c₂, others, h₂⟩ := ih h₁
    exact ⟨c₂, first.bind others, h₂⟩

/-- A block forgets an exit of the block that goes. -/
theorem Detaching.drop (h : e.Detaching D id pc [] c) (d : BlockId) (k : Nat) :
    e.Detaching D id pc [] (c.modifyBlock d (·.dropIncoming id k)) := by
  have invalid : ∀ {j x}, ¬ (c.modifyBlock d (·.dropIncoming id k)).HasExit id j x := by
    intro j x hx
    obtain ⟨b, hb, valid, -⟩ :=
      (hasExit_modifyBlock (f := (·.dropIncoming id k)) (fun _ => rfl) fun _ => rfl).1 hx
    obtain ⟨b', hb', invalid, -⟩ := h.block
    obtain rfl := Option.some.inj (hb.symm.trans hb')
    exact absurd (invalid.symm.trans valid) nofun
  refine ⟨h.frame, fun i => ?_, h.steered.modifyBlock (fun _ => rfl) fun _ => rfl, ?_, ?_, nofun,
    h.index, h.line⟩
  · refine Eq.trans ?_ (h.valid i)
    rw [block?_modifyBlock]
    split
    · rw [Option.map_map]
      rfl
    · rfl
  · refine h.tended.modifyBlock (fun _ => rfl) (fun _ => rfl) (fun _ valid => valid)
      (fun _ _ resident => resident) (fun _ hd _ => hd) (fun _ _ cut => cut)
      (fun b p hp => (List.mem_filter.1 hp).1) ?_
    intro b s j x _ hp hx
    refine .inl (List.mem_filter.2 ⟨hp, decide_eq_true ?_⟩)
    intro same
    cases same
    exact invalid hx
  · obtain ⟨b, hb, hinvalid, none⟩ := h.block
    rw [block?_modifyBlock, hb]
    split
    · exact ⟨_, rfl, hinvalid, by simp [Block.dropIncoming, none]⟩
    · exact ⟨b, rfl, hinvalid, none⟩

/-- What the loop over the exits of the block does. -/
theorem Detaching.yields_dropAll (h : e.Detaching D id pc [] c) (exits : List (ExitSlot × Nat)) :
    ∃ c', Yields (exits.forM fun (exit, k) => do
        if let some dst := exit.linked then
          EngineM.modifyBlock dst (·.dropIncoming id k)) c (.ok ()) c' ∧
      e.Detaching D id pc [] c' := by
  refine yields_forM (I := fun _ c => e.Detaching D id pc [] c) h ?_
  rintro done ⟨x, k⟩ rest c - hc
  cases linked : x.linked with
  | none => exact ⟨c, by simp only [linked]; exact yields_pure (), hc⟩
  | some d => exact ⟨_, by simp only [linked]; exact yields_modifyBlock _, hc.drop d k⟩

/-- Nothing leads to a block that has been cut off. -/
theorem Detaching.detached (h : e.Detaching D id pc [] c) :
    c.Tended (fun i => D i ∧ i ≠ id) fun _ _ => False := by
  have counts {d : BlockId} {pc : UInt32} (hd : c.Counts D d pc) (other : d ≠ id) :
      c.Counts (fun i => D i ∧ i ≠ id) d pc := hd.imp fun hd => ⟨hd, other⟩
  refine ⟨fun found => ?_, fun hl => ?_, fun {s k x d} hx link => ?_, h.tended.incoming,
    h.tended.waiting⟩
  · refine counts (h.tended.index found) ?_
    rintro rfl
    exact h.index _ found
  · exact ⟨(h.tended.line hl).1, counts (h.tended.line hl).2 (h.line _ _ hl)⟩
  · obtain ⟨target, ⟨-, none⟩ | ⟨b, hb, hp⟩⟩ := h.tended.linked hx link
    · cases none
    · refine ⟨counts target ?_, .inr ⟨b, hb, hp⟩⟩
      rintro rfl
      obtain ⟨b', hb', -, none⟩ := h.block
      obtain rfl := Option.some.inj (hb.symm.trans hb')
      rw [none] at hp
      cases hp

theorem valid_modifyBlock (same : ∀ b, (f b).isValid = b.isValid) (i : BlockId) :
    ((e.modifyBlock id f).block? i).map (·.isValid) = (e.block? i).map (·.isValid) := by
  rw [block?_modifyBlock]
  split
  · rw [Option.map_map]
    congr 1
    funext b
    exact same b
  · rfl

/-- An invalid block can no longer be found and has forgotten the exits that lead to it. -/
theorem Tended.detaching (tended : e.Tended D fun _ _ => False) (steered : e.Steered)
    (hb : e.block? id = some b) (invalid : b.isValid = false) :
    ∃ cache, e.cache.unpublish id = .ok cache ∧ cache.blocks = e.cache.blocks ∧
      e.Detaching D id b.entry b.incoming
        (Engine.modifyBlock { e with cache } id ({ · with incoming := [] })) := by
  obtain ⟨index, jumps, unpublished, hidden, hindex, hline⟩ := tended.unpublish hb
  have kept : Engine.Steered { e with cache := { e.cache with index, jumps } } :=
    steered.congr rfl rfl rfl fun hx => hx
  refine ⟨_, unpublished, rfl, rfl, ?_, ?_, ?_, ?_, ?_, hindex, hline⟩
  · exact valid_modifyBlock fun _ => rfl
  · exact kept.modifyBlock (fun _ => rfl) fun _ => rfl
  · refine hidden.modifyBlock (fun _ => rfl) (fun _ => rfl) (fun _ valid => valid)
      (fun _ _ resident => resident) (fun _ hd _ => hd) nofun nofun ?_
    intro b' s k x hb' hp _
    obtain rfl := Option.some.inj (hb.symm.trans hb')
    exact .inr ⟨rfl, hp⟩
  · refine ⟨{ b with incoming := [] }, ?_, invalid, rfl⟩
    rw [block?_modifyBlock, if_pos rfl]
    exact congrArg (Option.map _) hb
  · intro p hp
    obtain ⟨x, hx, link, target⟩ := tended.incoming hb hp
    exact ⟨x, (storedExit_modifyBlock (f := ({ · with incoming := [] })) fun _ => rfl).2 hx,
      target, .inl link⟩

/-- Cutting off a block that is invalid succeeds. -/
theorem Tended.yields_detach (tended : e.Tended D fun _ _ => False) (steered : e.Steered)
    (hb : e.block? id = some b) (invalid : b.isValid = false) :
    ∃ c, Yields (EngineM.detach id) e (.ok ()) c ∧ c.frame = e.frame ∧
      (∀ i, (c.block? i).map (·.isValid) = (e.block? i).map (·.isValid)) ∧ c.Steered ∧
      c.Tended (fun i => D i ∧ i ≠ id) fun _ _ => False := by
  obtain ⟨cache, unpublished, kept, start⟩ := tended.detaching steered hb invalid
  obtain ⟨c₁, cuts, cut⟩ := start.yields_cutAll
  obtain ⟨c₂, drops, dropped⟩ := cut.yields_dropAll b.exits.zipIdx
  refine ⟨{ c₂ with chains := c₂.chains.removeSource id }, ?_, dropped.frame, dropped.valid,
    dropped.steered.withChains _, dropped.detached.withChains fun w hw =>
      (ChainTable.mem_removeSource.1 hw).1⟩
  refine yields_get.bind ?_
  rw [unpublished]
  refine (yields_lift _).bind ((yields_modify _).bind ?_)
  have stored : Engine.block? { e with cache } id = some b := by
    rw [block?, kept]
    exact hb
  refine (yields_getBlock stored).bind ((yields_modifyBlock _).bind ?_)
  exact cuts.bind (drops.bind (yields_modify _))

end Detach

/-- No jump of a resident block and no address leads into dead code. -/
structure Safe (e : Engine) : Prop where
  steered : e.Steered
  tended : e.Tended (fun _ => False) fun _ _ => False

section Invalidate

variable {victims done : List BlockId}

theorem Tended.relax (h : e.Tended D C) (sub : ∀ i, D i → D' i) : e.Tended D' C where
  index found := (h.index found).imp (sub _)
  line hl := (h.line hl).imp_right (·.imp (sub _))
  linked hx link := (h.linked hx link).imp_left (·.imp (sub _))
  incoming := h.incoming
  waiting := h.waiting

/-- On the way from `e` to `c` the blocks of a list have become invalid. Those in `D` have not been
cut off yet. -/
structure Condemned (e : Engine) (victims : List BlockId) (D : BlockId → Prop) (c : Engine) :
    Prop where
  frame : c.frame = e.frame
  steered : c.Steered
  tended : c.Tended D fun _ _ => False
  stored : ∀ i b, e.block? i = some b → ∃ b', c.block? i = some b'
  invalid : ∀ i ∈ victims, ∀ b, c.block? i = some b → b.isValid = false

variable {c : Engine}

theorem Condemned.mark (h : e.Condemned done (· ∈ done) c) (id : BlockId) :
    e.Condemned (done ++ [id]) (· ∈ done ++ [id])
      (c.modifyBlock id ({ · with state := .invalidated })) := by
  refine ⟨h.frame, h.steered.modifyBlock (fun _ => rfl) fun _ => rfl, ?_, fun i b hb => ?_,
    fun i hi b hb => ?_⟩
  · refine h.tended.modifyBlock (fun _ => rfl) (fun _ => rfl) nofun ?_ ?_ nofun (fun _ _ hp => hp)
      fun _ _ _ _ _ hp _ => .inl hp
    · exact fun _ _ _ => .inr (List.mem_append_right _ (List.mem_singleton_self _))
    · exact fun i hi _ => List.mem_append_left _ hi
  · obtain ⟨b', hb'⟩ := h.stored i b hb
    rw [block?_modifyBlock, hb']
    split
    · exact ⟨_, rfl⟩
    · exact ⟨b', rfl⟩
  · rw [block?_modifyBlock] at hb
    split at hb
    · obtain ⟨b₀, -, rfl⟩ := Option.map_eq_some_iff.1 hb
      rfl
    · next other =>
      rcases List.mem_append.1 hi with hi | hi
      · exact h.invalid i hi b hb
      · exact absurd (List.mem_singleton.1 hi) other

theorem Safe.yields_markAll (h : e.Safe) (stored : ∀ i ∈ victims, ∃ b, e.block? i = some b) :
    ∃ c, Yields (victims.forM fun id => do
        let _ ← EngineM.getBlock id
        EngineM.modifyBlock id ({ · with state := .invalidated })) e (.ok ()) c ∧
      e.Condemned victims (· ∈ victims) c := by
  refine yields_forM (I := fun done c => e.Condemned done (· ∈ done) c) ?_ ?_
  · exact ⟨rfl, h.steered, h.tended.relax nofun, fun _ b hb => ⟨b, hb⟩, nofun⟩
  · intro done id rest c hsplit hc
    obtain ⟨b, hb⟩ := stored id (by rw [hsplit]; simp)
    obtain ⟨b', hb'⟩ := hc.stored id b hb
    exact ⟨_, (yields_getBlock hb').bind (yields_modifyBlock _), hc.mark id⟩

theorem Condemned.step (h : e.Condemned victims D c) (mem : id ∈ victims)
    (hb : e.block? id = some b) :
    ∃ c', Yields (EngineM.detach id) c (.ok ()) c' ∧
      e.Condemned victims (fun i => D i ∧ i ≠ id) c' := by
  obtain ⟨b', hb'⟩ := h.stored id b hb
  obtain ⟨c', yields, frame, valid, steered, tended⟩ :=
    h.tended.yields_detach h.steered hb' (h.invalid id mem b' hb')
  refine ⟨c', yields, frame.trans h.frame, steered, tended, fun i b hb => ?_, fun i hi b hb => ?_⟩
  · obtain ⟨b₁, hb₁⟩ := h.stored i b hb
    have same := valid i
    rw [hb₁] at same
    obtain ⟨b₂, hb₂, -⟩ := Option.map_eq_some_iff.1 same
    exact ⟨b₂, hb₂⟩
  · have same := valid i
    rw [hb] at same
    obtain ⟨b₁, hb₁, equal⟩ := Option.map_eq_some_iff.1 same.symm
    exact equal.symm.trans (h.invalid i hi b₁ hb₁)

/-- Blocks can always be taken out of use. -/
theorem Safe.yields_invalidateBlocks (h : e.Safe)
    (stored : ∀ i ∈ victims, ∃ b, e.block? i = some b) :
    ∃ c, Yields (EngineM.invalidateBlocks victims) e (.ok ()) c ∧ c.frame = e.frame ∧ c.Safe := by
  obtain ⟨c₁, marks, marked⟩ := h.yields_markAll stored
  have detached : ∃ c, Yields (victims.forM EngineM.detach) c₁ (.ok ()) c ∧
      e.Condemned victims (fun i => i ∈ victims ∧ i ∉ victims) c := by
    refine yields_forM (I := fun done c => e.Condemned victims (fun i => i ∈ victims ∧ i ∉ done) c)
      ?_ ?_
    · simpa using marked
    · intro done id rest c hsplit hc
      have mem : id ∈ victims := by rw [hsplit]; simp
      obtain ⟨b, hb⟩ := stored id mem
      simpa [and_assoc] using hc.step mem hb
  obtain ⟨c₂, detaches, condemned⟩ := detached
  refine ⟨_, marks.bind (detaches.bind (yields_modify _)), condemned.frame, ?_, ?_⟩
  · exact condemned.steered.congr rfl rfl rfl fun hx => hx
  · have tended : c₂.Tended (fun _ => False) fun _ _ => False :=
      condemned.tended.relax fun i hi => hi.2 hi.1
    exact ⟨tended.index, tended.line, tended.linked, tended.incoming, tended.waiting⟩

/-- A range can always be invalidated. -/
theorem Safe.yields_invalidateRange (h : e.Safe) (start : UInt32) (stop : Nat) :
    ∃ c, Yields (EngineM.invalidateRange start stop) e
      (.ok (e.cache.affectedBy start stop).length) c ∧ c.frame = e.frame ∧ c.Safe := by
  obtain ⟨c, yields, frame, safe⟩ := h.yields_invalidateBlocks fun id hid => by
    obtain ⟨b, hb, -⟩ := (mem_affectedBy h.steered.id).1 hid
    exact ⟨b, hb⟩
  exact ⟨c, yields_invalidateRange_of yields, frame, safe⟩

end Invalidate

end Dynarec.Engine
