import Dynarec.Proofs.Surgery

/-!
Taking blocks out of use: the whole operation is the removal of the blocks, one by one, and leaves
the others linked as they were among themselves.
-/
namespace Dynarec.Engine

open Traced

variable {e c : Engine} {src : Nat → List Insn} {x : Surgery} {id s : BlockId} {b : Block} {k : Nat}
  {y : ExitSlot}

/-- Only chaining links exits, and only to the block at their target. -/
theorem Resting.target_of_linked (h : e.Resting src) (hy : e.HasExit s k y)
    (linked : y.linked = some id) :
    e.config.directChaining = true ∧ ∃ b, e.block? id = some b ∧ b.isValid = true ∧
      b.entry = y.target := by
  have on : ¬ e.config.directChaining = false := by
    intro off
    exact absurd ((h.graph.postponed hy.stored off).symm.trans linked) nofun
  refine ⟨by simpa using on, h.indexed.index.1 ?_⟩
  exact (h.graph.linked hy on).symm.trans linked

/-- What the loop over the exits into a block does. -/
theorem yields_cutAll (h : e.Operated src x c) (resting : e.Resting src)
    (hb : e.block? id = some b) (loud : ∀ i, x.dead i = false → x.quiet i = false)
    (ps : List (BlockId × Nat)) (hps : ∀ p ∈ ps, p ∈ b.incoming) :
    ∃ c', Yields (ps.forM fun (src, k) => do
        if (← EngineM.getBlock src).isValid then
          EngineM.unlink src k
          if (← get).config.directChaining then
            EngineM.modifyChains (·.add b.entry src k)) c (.ok ()) c' ∧
      e.Operated src (x.cutAll (ps.filter fun p => !x.dead p.1)) c' := by
  refine yields_forM
    (I := fun done c => e.Operated src (x.cutAll (done.filter fun p => !x.dead p.1)) c)
    (by rw [List.filter_nil, Surgery.cutAll_nil]; exact h) ?_
  rintro done ⟨s, k⟩ rest c hsplit hc
  have hmem : (s, k) ∈ b.incoming := hps _ (by rw [hsplit]; simp)
  obtain ⟨-, y, hy, linked⟩ := (resting.graph.incoming hb).1 hmem
  obtain ⟨on, b', hb', -, entry⟩ := resting.target_of_linked hy linked
  obtain rfl := Option.some.inj (hb.symm.trans hb')
  have hexit := hy
  obtain ⟨sb, hsb, svalid, -⟩ := hexit
  have dead' : (x.cutAll (done.filter fun p => !x.dead p.1)).dead s = x.dead s := rfl
  have quiet' : (x.cutAll (done.filter fun p => !x.dead p.1)).quiet s = x.quiet s := rfl
  have next (h : x.dead s = false) : x.cutAll ((done ++ [(s, k)]).filter fun p => !x.dead p.1) =
      (x.cutAll (done.filter fun p => !x.dead p.1)).cutExit (s, k) := by
    rw [← Surgery.cutAll_concat, List.filter_append, List.filter_cons_of_pos (by simp [h]),
      List.filter_nil]
  have same (h : x.dead s = true) : x.cutAll ((done ++ [(s, k)]).filter fun p => !x.dead p.1) =
      x.cutAll (done.filter fun p => !x.dead p.1) := by
    rw [List.filter_append, List.filter_cons_of_neg (by simp [h]), List.filter_nil, List.append_nil]
  generalize x.cutAll (done.filter fun p => !x.dead p.1) = x' at hc dead' quiet' next same
  have valid : (x'.block s sb).isValid = !x.dead s := by
    rw [Surgery.isValid_block, svalid, Bool.and_true, dead']
  cases dead : x.dead s with
  | true =>
    refine ⟨c, (yields_getBlock (hc.block hsb)).bind ?_, by rw [same dead]; exact hc⟩
    rw [valid, dead]
    exact yields_pure ()
  | false =>
    have alive : x'.dead s = false := dead'.trans dead
    have step := hc.cutExit resting hy alive (quiet'.trans (loud s dead))
    refine ⟨c.release s k (x'.exit s k y), (yields_getBlock (hc.block hsb)).bind ?_,
      by rw [next dead]; exact step⟩
    rw [valid, dead]
    refine (yields_unlink (hc.placed resting) (hc.hasExit hy alive)).bind (yields_get.bind ?_)
    rw [config_of_frame (frame_retarget.trans hc.frame), on, entry, ← Surgery.target_exit (x := x')]
    exact yields_modify _

/-- What the loop over the exits of a block does. -/
theorem yields_dropAll (h : e.Operated src x c) (resting : e.Resting src)
    (hb : e.block? id = some b) (valid : b.isValid = true) :
    ∃ c', Yields (b.exits.zipIdx.forM fun (exit, k) => do
        if let some dst := exit.linked then
          EngineM.modifyBlock dst (·.dropIncoming id k)) c (.ok ()) c' ∧
      e.Operated src (x.dropAll (b.exits.zipIdx.map fun p => (id, p.2))) c' := by
  refine yields_forM (I := fun (done : List (ExitSlot × Nat)) c =>
      e.Operated src (x.dropAll (done.map fun p => (id, p.2))) c)
    (by rw [List.map_nil, Surgery.dropAll_nil]; exact h) ?_
  rintro done ⟨y, k⟩ rest c hsplit hc
  have hmem : (y, k) ∈ b.exits.zipIdx := by rw [hsplit]; simp
  have hy : e.HasExit id k y := ⟨b, hb, valid, List.mem_zipIdx_iff_getElem?.1 hmem⟩
  rw [List.map_append, List.map_singleton, Surgery.dropAll_concat]
  dsimp only
  cases linked : y.linked with
  | some d => exact ⟨_, yields_modifyBlock _, hc.drop resting hy linked⟩
  | none =>
    refine ⟨c, yields_pure (), hc.congr rfl rfl rfl (fun _ _ _ _ => rfl) fun i b' hb' p hp => ?_⟩
    obtain ⟨-, z, hz, link⟩ := (resting.graph.incoming hb').1 hp
    have other : p ≠ (id, k) := by
      rintro rfl
      obtain rfl := HasExit.unique hy hz
      exact absurd (linked.symm.trans link) nofun
    simp [Surgery.drop, other]

variable {victims done : List BlockId} {ps : List (BlockId × Nat)}

theorem exits_removal (mem : id ∈ victims) :
    ((Surgery.removal e victims done).block id b).exits = b.exits := by
  rw [Surgery.exits_block]
  apply List.ext_getElem?
  intro k
  rw [List.getElem?_mapIdx]
  cases b.exits[k]? with
  | none => rfl
  | some y => simp [Surgery.exit, Surgery.removal, mem]

theorem incoming_removal (fresh : id ∉ done) {p : BlockId × Nat} :
    p ∈ ((Surgery.removal e victims done).block id b).incoming ↔ p ∈ b.incoming ∧ p.1 ∉ done := by
  rw [Surgery.incoming_block]
  simp [Surgery.removal, fresh]

/-- The exits that are cut with one more block are those of blocks that stay. -/
theorem Resting.cut_removal (h : e.Resting src) (subset : done ⊆ victims)
    (hb : e.block? id = some b) (valid : b.isValid = true)
    (incoming : ∀ p, p ∈ ps ↔ p ∈ b.incoming ∧ p.1 ∉ done) (hy : e.StoredExit s k y) :
    (Surgery.removal e victims (done ++ [id])).cut s k y =
      ((Surgery.removal e victims done).cutAll (ps.filter fun p => p.1 ∉ victims)).cut s k y := by
  obtain ⟨sb, hsb, hy⟩ := hy
  have linked : s ∉ victims → sb.isValid = true → ((s, k) ∈ ps ↔ y.linked = some id) := by
    intro stays svalid
    rw [incoming, h.graph.incoming hb]
    constructor
    · rintro ⟨⟨-, z, hz, link⟩, -⟩
      obtain rfl := HasExit.unique hz ⟨sb, hsb, svalid, hy⟩
      exact link
    · intro link
      exact ⟨⟨valid, y, ⟨sb, hsb, svalid, hy⟩, link⟩, fun hi => stays (subset hi)⟩
  have svalid : (s, k) ∈ ps → sb.isValid = true := by
    rw [incoming, h.graph.incoming hb]
    rintro ⟨⟨-, z, ⟨sb', hsb', svalid, -⟩, -⟩, -⟩
    rwa [Option.some.inj (hsb.symm.trans hsb')]
  simp only [Surgery.cutAll, Surgery.removal, hsb, Option.any_some, List.mem_filter]
  rw [Bool.eq_iff_iff]
  cases hlink : y.linked <;> grind

/-- Every incoming exit of a victim is forgotten with the victim. -/
theorem Resting.dropped_removal (h : e.Resting src) {i : BlockId} {c : Block} {p : BlockId × Nat}
    (hb : e.block? id = some b) (hc : e.block? i = some c) (hp : p ∈ c.incoming) :
    (Surgery.removal e victims (done ++ [id])).dropped p = ((Surgery.removal e victims done).dropAll
      (b.exits.zipIdx.map fun q => (id, q.2))).dropped p := by
  obtain ⟨-, z, ⟨sb, hsb, -, hz⟩, -⟩ := (h.graph.incoming hc).1 hp
  have here : p ∈ (b.exits.zipIdx.map fun q => (id, q.2)) ↔ p.1 = id := by
    constructor
    · intro hp
      obtain ⟨q, -, rfl⟩ := List.mem_map.1 hp
      rfl
    · rintro hid
      rw [hid, hb] at hsb
      obtain rfl := Option.some.inj hsb
      exact List.mem_map.2 ⟨(z, p.2), List.mem_zipIdx_iff_getElem?.2 hz, by rw [← hid]⟩
  simp only [Surgery.dropAll, Surgery.removal, here, List.mem_append, List.mem_singleton]
  exact Bool.decide_or ..

/-- Cutting a block off is one more step of the removal. -/
theorem yields_detach (h : e.Operated src (.removal e victims done) c)
    (resting : e.Resting src) (mem : id ∈ victims) (fresh : id ∉ done) (subset : done ⊆ victims)
    (hb : e.block? id = some b) (valid : b.isValid = true) :
    ∃ c', Yields (EngineM.detach id) c (.ok ()) c' ∧
      e.Operated src (.removal e victims (done ++ [id])) c' := by
  obtain ⟨cache, unpublished, kept, hidden⟩ := h.hide resting hb valid
  have exits : ((Surgery.removal e victims done).block id b).exits = b.exits := exits_removal mem
  have incoming := @incoming_removal e id b victims done fresh
  have entry : ((Surgery.removal e victims done).block id b).entry = b.entry :=
    Block.entry_of_body Surgery.body_block
  have hblock := h.block hb
  generalize (Surgery.removal e victims done).block id b = b' at exits incoming entry hblock
  have loud : ∀ i, (Surgery.removal e victims done).dead i = false →
      (Surgery.removal e victims done).quiet i = false := by
    intro i alive
    exact decide_eq_false fun hi => of_decide_eq_false alive (subset hi)
  obtain ⟨c₁, yields₁, cut⟩ :=
    yields_cutAll hidden resting hb loud b'.incoming fun p hp => (incoming.1 hp).1
  obtain ⟨c₂, yields₂, dropped⟩ := yields_dropAll cut resting hb valid
  refine ⟨{ c₂ with chains := c₂.chains.removeSource id }, ?_, ?_⟩
  · refine yields_get.bind ?_
    rw [unpublished]
    refine (yields_lift _).bind ((yields_modify _).bind ?_)
    have stored : Engine.block? { c with cache } id = some b' := by
      rw [block?, kept]
      exact hblock
    refine (yields_getBlock stored).bind ((yields_modifyBlock _).bind ?_)
    rw [entry, exits]
    exact yields₁.bind (yields₂.bind (yields_modify _))
  · refine (dropped.silence id resting).congr rfl ?_ ?_ ?_ ?_
    · funext i
      simp [Surgery.silence, Surgery.dropAll, Surgery.cutAll, Surgery.hide, Surgery.removal]
    · funext i
      simp [Surgery.silence, Surgery.dropAll, Surgery.cutAll, Surgery.hide, Surgery.removal]
    · intro i k y hy
      refine (resting.cut_removal subset hb valid (fun p => incoming) hy).trans ?_
      simp [Surgery.silence, Surgery.dropAll, Surgery.cutAll, Surgery.hide, Surgery.removal]
    · intro i c hc p hp
      exact resting.dropped_removal hb hc hp

/-- Blocks that are marked and still there. -/
theorem yields_markAll (resting : e.Resting src)
    (stored : ∀ id ∈ victims, ∃ b, e.block? id = some b) :
    ∃ c, Yields (victims.forM fun id => do
        let _ ← EngineM.getBlock id
        EngineM.modifyBlock id ({ · with state := .invalidated })) e (.ok ()) c ∧
      e.Operated src (.removal e victims []) c := by
  have marked : ∃ c, Yields (victims.forM fun id => do
      let _ ← EngineM.getBlock id
      EngineM.modifyBlock id ({ · with state := .invalidated })) e (.ok ()) c ∧
      e.Operated src { dead := (· ∈ victims) } c := by
    refine yields_forM (I := fun done c => e.Operated src { dead := (· ∈ done) } c) ?_ ?_
    · refine (Operated.start resting).congr ?_ rfl rfl (fun _ _ _ _ => rfl) fun _ _ _ _ _ => rfl
      funext i
      simp
    · intro done id rest c hsplit hc
      obtain ⟨b, hb⟩ := stored id (by rw [hsplit]; simp)
      refine ⟨_, (yields_getBlock (hc.block hb)).bind (yields_modifyBlock _), ?_⟩
      refine (hc.mark resting).congr ?_ rfl rfl (fun _ _ _ _ => rfl) fun _ _ _ _ _ => rfl
      funext i
      simp [Surgery.mark]
  obtain ⟨c, yields, hc⟩ := marked
  refine ⟨c, yields, hc.congr rfl ?_ ?_ ?_ ?_⟩
  · funext i
    simp [Surgery.removal]
  · funext i
    simp [Surgery.removal]
  · intro i k y _
    cases y.linked <;> simp [Surgery.removal]
  · intro i b _ p _
    simp [Surgery.removal]

/-- Taking resident blocks out of use succeeds, and does to the others what the removal says. -/
theorem yields_invalidateBlocks (resting : e.Resting src) (nodup : victims.Nodup)
    (valid : ∀ id ∈ victims, ∃ b, e.block? id = some b ∧ b.isValid = true) :
    ∃ e', Yields (EngineM.invalidateBlocks victims) e (.ok ()) e' ∧
      e.Operated src (.removal e victims victims) e' := by
  obtain ⟨c, yields, marked⟩ :=
    yields_markAll resting fun id hid => (valid id hid).imp fun _ h => h.1
  have detached : ∃ c', Yields (victims.forM EngineM.detach) c (.ok ()) c' ∧
      e.Operated src (.removal e victims victims) c' := by
    refine yields_forM (I := fun done c => e.Operated src (.removal e victims done) c) marked ?_
    intro done id rest c hsplit hc
    obtain ⟨b, hb, hvalid⟩ := valid id (by rw [hsplit]; simp)
    have fresh : id ∉ done := by
      rw [hsplit] at nodup
      exact fun mem => (List.nodup_append.1 nodup).2.2 id mem id (by simp) rfl
    exact yields_detach hc resting (by rw [hsplit]; simp) fresh (by rw [hsplit]; simp) hb hvalid
  obtain ⟨c', yields', removed⟩ := detached
  refine ⟨_, yields.bind (yields'.bind (yields_modify _)), ?_⟩
  exact ⟨removed.frame, removed.cursor, removed.flushes, removed.blocks, removed.index,
    removed.line, removed.waiting, removed.waiting_nodup,
    removed.coded.congr (removed.placed resting) rfl rfl rfl fun _ b hb => ⟨b, hb, rfl⟩,
    removed.outside⟩

variable {i : BlockId} {z : ExitSlot}

theorem Operated.block_of (h : e.Operated src x c) (hb : c.block? i = some b) :
    ∃ b₀, e.block? i = some b₀ ∧ x.block i b₀ = b := by
  rw [h.blocks] at hb
  exact Option.map_eq_some_iff.1 hb

theorem Operated.storedExit_of (h : e.Operated src x c) (hz : c.StoredExit s k z) :
    ∃ y, e.StoredExit s k y ∧ x.exit s k y = z := by
  obtain ⟨b', hb', hz⟩ := hz
  obtain ⟨b, hb, rfl⟩ := h.block_of hb'
  rw [Surgery.exits_block, List.getElem?_mapIdx] at hz
  obtain ⟨y, hy, rfl⟩ := Option.map_eq_some_iff.1 hz
  exact ⟨y, ⟨b, hb, hy⟩, rfl⟩

theorem HasExit.exit_removal (hy : e.HasExit s k y) (stays : s ∉ victims) :
    (Surgery.removal e victims victims).exit s k y =
      if y.linked.any (· ∈ victims) then y.bare else y := by
  obtain ⟨b, hb, valid, -⟩ := hy
  simp [Surgery.exit, Surgery.removal, stays, hb, valid]

theorem Operated.hasExit_iff (h : e.Operated src (.removal e victims victims) c) :
    c.HasExit s k z ↔ s ∉ victims ∧ ∃ y, e.HasExit s k y ∧
      z = if y.linked.any (· ∈ victims) then y.bare else y := by
  constructor
  · rintro ⟨b', hb', valid, hz⟩
    obtain ⟨b, hb, rfl⟩ := h.block_of hb'
    rw [Surgery.isValid_block, Bool.and_eq_true, Bool.not_eq_true'] at valid
    have stays : s ∉ victims := of_decide_eq_false valid.1
    rw [Surgery.exits_block, List.getElem?_mapIdx] at hz
    obtain ⟨y, hy, rfl⟩ := Option.map_eq_some_iff.1 hz
    have hy : e.HasExit s k y := ⟨b, hb, valid.2, hy⟩
    exact ⟨stays, y, hy, hy.exit_removal stays⟩
  · rintro ⟨stays, y, hy, rfl⟩
    rw [← hy.exit_removal stays]
    exact h.hasExit hy (decide_eq_false stays)

/-- Blocks are indexed that were and that stay. -/
theorem Operated.indexed (h : e.Operated src (.removal e victims victims) c)
    (resting : e.Resting src) : c.Indexed where
  index {pc id} := by
    rw [h.index, Option.filter_eq_some_iff, resting.indexed.index]
    constructor
    · rintro ⟨⟨b, hb, valid, rfl⟩, stays⟩
      refine ⟨_, h.block hb, ?_, Block.entry_of_body Surgery.body_block⟩
      rw [Surgery.isValid_block, valid, Bool.and_true]
      exact stays
    · rintro ⟨b', hb', valid, rfl⟩
      obtain ⟨b, hb, rfl⟩ := h.block_of hb'
      rw [Surgery.isValid_block, Bool.and_eq_true] at valid
      exact ⟨⟨b, hb, valid.2, (Block.entry_of_body Surgery.body_block).symm⟩, valid.1⟩
  line {pc l} hl := by
    rw [h.line] at hl
    obtain ⟨hl, stays⟩ := Option.filter_eq_some_iff.1 hl
    obtain ⟨slot, b, hb, valid, entry, host⟩ := resting.indexed.line hl
    refine ⟨slot, _, h.block hb, ?_, (Block.entry_of_body Surgery.body_block).trans entry, ?_⟩
    · rw [Surgery.isValid_block, valid, Bool.and_true]
      exact stays
    · rw [base_of_frame h.frame, Block.hostOffset_of_body Surgery.body_block]
      exact host

/-- An exit that stays unlinked or loses its link is open, and no other is. -/
theorem linked_removed : (if y.linked.any (· ∈ victims) then y.bare else y).linked =
    y.linked.filter (· ∉ victims) := by
  cases hy : y.linked with
  | none => simp [hy]
  | some d =>
    by_cases hd : d ∈ victims
    · simp [hd, ExitSlot.bare, Option.filter]
    · simp [hd, hy, Option.filter]

theorem target_removed : (if y.linked.any (· ∈ victims) then y.bare else y).target = y.target := by
  split <;> rfl

theorem Operated.waiting_iff (h : e.Operated src (.removal e victims victims) c)
    (resting : e.Resting src) (w : OpenExit) :
    w ∈ c.chains.waiting ↔ ∃ z, c.HasExit w.src w.exit z ∧ z.target = w.target ∧
      z.linked = none ∧ ¬ c.config.directChaining = false := by
  rw [h.waiting, config_of_frame h.frame]
  constructor
  · rintro ⟨quiet, old⟩
    have stays : w.src ∉ victims := of_decide_eq_false quiet
    obtain ⟨y, hy, target, unlinked, on⟩ : ∃ y, e.HasExit w.src w.exit y ∧ y.target = w.target ∧
        y.linked.filter (· ∉ victims) = none ∧ ¬ e.config.directChaining = false := by
      rcases old with old | ⟨y, hy, cut, target⟩
      · obtain ⟨y, hy, target, unlinked, on⟩ := resting.graph.waiting.1 old
        exact ⟨y, hy, target, by rw [unlinked]; rfl, on⟩
      · obtain ⟨-, -, linked⟩ := of_decide_eq_true cut
        refine ⟨y, hy, target, ?_, fun off => ?_⟩
        · cases hd : y.linked with
          | none => rfl
          | some d => simpa [hd, Option.filter] using linked
        · rw [resting.graph.postponed hy.stored off] at linked
          cases linked
    exact ⟨_, h.hasExit_iff.2 ⟨stays, y, hy, rfl⟩, target_removed.trans target,
      linked_removed.trans unlinked, on⟩
  · rintro ⟨_, hz, target, unlinked, on⟩
    obtain ⟨stays, y, hy, rfl⟩ := h.hasExit_iff.1 hz
    rw [target_removed] at target
    rw [linked_removed] at unlinked
    refine ⟨decide_eq_false stays, ?_⟩
    cases hd : y.linked with
    | none => exact .inl (resting.graph.waiting.2 ⟨y, hy, target, hd, on⟩)
    | some d =>
      refine .inr ⟨y, hy, decide_eq_true ⟨stays, ?_, ?_⟩, target⟩
      · obtain ⟨b, hb, valid, -⟩ := hy
        rw [hb]
        exact valid
      · simpa [hd, Option.filter] using unlinked

theorem Operated.graph (h : e.Operated src (.removal e victims victims) c)
    (resting : e.Resting src) :
    c.Graph (fun _ _ => c.config.directChaining = false) fun _ _ =>
      c.config.directChaining = false where
  named {s k z d} hz link := by
    obtain ⟨y, hy, rfl⟩ := h.storedExit_of hz
    have link : y.linked = some d := by
      unfold Surgery.exit at link
      split at link
      · cases link
      · exact link
    obtain ⟨b, hb⟩ := resting.graph.named hy link
    exact ⟨_, h.block hb⟩
  postponed {s k z} hz off := by
    obtain ⟨y, hy, rfl⟩ := h.storedExit_of hz
    have unlinked := resting.graph.postponed hy (config_of_frame h.frame ▸ off)
    unfold Surgery.exit
    split
    · rfl
    · exact unlinked
  linked {s k z} hz on := by
    obtain ⟨-, y, hy, rfl⟩ := h.hasExit_iff.1 hz
    rw [linked_removed, target_removed, h.index,
      resting.graph.linked hy (config_of_frame h.frame ▸ on)]
    exact congrArg (fun p => Option.filter p _) (funext fun i => decide_not)
  waiting {w} := h.waiting_iff resting w
  waiting_nodup := h.waiting_nodup
  incoming {d b' s k} hb' := by
    obtain ⟨b, hb, rfl⟩ := h.block_of hb'
    rw [Surgery.incoming_block, Surgery.isValid_block]
    by_cases hd : d ∈ victims
    · simp [Surgery.removal, hd]
    · have gone : (Surgery.removal e victims victims).gone d = false := decide_eq_false hd
      have dead : (Surgery.removal e victims victims).dead d = false := decide_eq_false hd
      rw [gone, dead, if_neg nofun, List.mem_filter, resting.graph.incoming hb, Bool.not_false,
        Bool.true_and]
      constructor
      · rintro ⟨⟨valid, y, hy, linked⟩, stays⟩
        refine ⟨valid, _, h.hasExit_iff.2 ⟨?_, y, hy, rfl⟩, ?_⟩
        · simpa [Surgery.removal] using stays
        · rw [linked_removed, linked]
          simp [Option.filter, hd]
      · rintro ⟨valid, _, hz, linked⟩
        obtain ⟨stays, y, hy, rfl⟩ := h.hasExit_iff.1 hz
        rw [linked_removed] at linked
        refine ⟨⟨valid, y, hy, (Option.filter_eq_some_iff.1 linked).1⟩, ?_⟩
        simpa [Surgery.removal] using stays
  incoming_nodup {d b'} hb' := by
    obtain ⟨b, hb, rfl⟩ := h.block_of hb'
    rw [Surgery.incoming_block]
    split
    · exact List.nodup_nil
    · exact (resting.graph.incoming_nodup hb).filter _
  state {d b'} hb' valid := by
    obtain ⟨b, hb, rfl⟩ := h.block_of hb'
    exact Surgery.state_of_isValid valid

theorem Operated.resting (h : e.Operated src (.removal e victims victims) c)
    (resting : e.Resting src) :
    c.Resting src := ⟨h.placed resting, h.coded, h.indexed resting, h.graph resting⟩

section Range

variable {start : UInt32} {stop : Nat}

/-- The block has to go when the guest range changes. -/
def touches (b : Block) (start : UInt32) (stop : Nat) : Bool :=
  b.intersects start stop || b.targetsRange start stop

/-- Where every block has its own id, the ids of selected blocks are those under which they are
stored. -/
theorem mem_selected (ids : ∀ {i b}, e.block? i = some b → b.id = i) {p : Block → Bool} :
    id ∈ (e.cache.blocks.toList.filter p).map (·.id) ↔ ∃ b, e.block? id = some b ∧ p b = true := by
  simp only [List.mem_map, List.mem_filter, mem_blocks]
  constructor
  · rintro ⟨b, ⟨⟨i, hb⟩, selected⟩, rfl⟩
    refine ⟨b, ?_, selected⟩
    rw [ids hb]
    exact hb
  · rintro ⟨b, hb, selected⟩
    exact ⟨b, ⟨⟨id, hb⟩, selected⟩, ids hb⟩

theorem mem_affectedBy (ids : ∀ {i b}, e.block? i = some b → b.id = i) :
    id ∈ e.cache.affectedBy start stop ↔
    ∃ b, e.block? id = some b ∧ b.isValid = true ∧ touches b start stop = true := by
  rw [BlockCache.affectedBy, mem_selected ids]
  simp only [touches, Bool.and_eq_true]

theorem Placed.mem_affectedBy (h : e.Placed src) : id ∈ e.cache.affectedBy start stop ↔
    ∃ b, e.block? id = some b ∧ b.isValid = true ∧ touches b start stop = true :=
  Engine.mem_affectedBy h.id

theorem Placed.nodup_ids (h : e.Placed src) : (e.cache.blocks.toList.map (·.id)).Nodup := by
  have ids :
      e.cache.blocks.toList.map (·.id) = (List.range e.cache.blocks.size).map BlockId.mk := by
    apply List.ext_getElem?
    intro n
    rw [List.getElem?_map, List.getElem?_map, Array.getElem?_toList]
    cases hb : e.cache.blocks[n]? with
    | none =>
      have := Array.getElem?_eq_none_iff.1 hb
      rw [List.getElem?_eq_none (by rw [List.length_range]; exact this)]
      rfl
    | some b =>
      have := (Array.getElem?_eq_some_iff.1 hb).1
      have id : b.id = ⟨n⟩ := h.id hb
      simp [this, id]
  rw [ids]
  exact List.pairwise_map.2 (List.nodup_range.imp fun hne hid => hne (congrArg BlockId.index hid))

theorem Placed.nodup_affectedBy (h : e.Placed src) : (e.cache.affectedBy start stop).Nodup :=
  h.nodup_ids.sublist (List.filter_sublist.map _)

/-- Invalidating a range is taking the blocks out of use that it touches, and counting them. -/
theorem yields_invalidateRange_of {c : Engine}
    (h : Yields (EngineM.invalidateBlocks (e.cache.affectedBy start stop)) e (.ok ()) c) :
    Yields (EngineM.invalidateRange start stop) e
      (.ok (e.cache.affectedBy start stop).length) c := by
  refine yields_get.bind (h.bind ?_)
  split
  · exact yields_pure _
  · exact (yields_report _).bind (yields_pure _)

theorem Resting.yields_invalidateAffected (h : e.Resting src) (start : UInt32) (stop : Nat) :
    ∃ c, Yields (EngineM.invalidateBlocks (e.cache.affectedBy start stop)) e (.ok ()) c ∧
      e.Operated src
        (.removal e (e.cache.affectedBy start stop) (e.cache.affectedBy start stop)) c := by
  refine yields_invalidateBlocks h h.placed.nodup_affectedBy fun id hid => ?_
  obtain ⟨b, hb, valid, -⟩ := h.placed.mem_affectedBy.1 hid
  exact ⟨b, hb, valid⟩

/-- Invalidating a range removes the blocks that the range touches, and nothing else. -/
theorem Resting.yields_invalidateRange (h : e.Resting src) (start : UInt32) (stop : Nat) :
    ∃ c, Yields (EngineM.invalidateRange start stop) e
      (.ok (e.cache.affectedBy start stop).length) c ∧
      e.Operated src
        (.removal e (e.cache.affectedBy start stop) (e.cache.affectedBy start stop)) c := by
  obtain ⟨c, yields, removed⟩ := h.yields_invalidateAffected start stop
  exact ⟨c, yields_invalidateRange_of yields, removed⟩

end Range

end Dynarec.Engine
