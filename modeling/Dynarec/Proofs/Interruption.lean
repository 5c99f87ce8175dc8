import Dynarec.Proofs.LinkSafety

/-!
Emissions that stop part-way. A jump may be too narrow for where it has to lead, which shows while
the code is written, while the exits of the new block are linked, or while those are linked that
have waited for it. Wherever an emission stops, no jump leads into dead code.
-/
namespace Dynarec.Engine

open Traced

variable {e c : Engine} {s id i : BlockId} {b : Block} {k : Nat} {x y : ExitSlot} {pc : UInt32}
  {p : Plan} {d : Draft} {D : BlockId → Prop}

section Publish

theorem frame_published (grown : e.buffer.Grown d.buffer) :
    (e.published pc p d).frame = e.frame := by
  simp only [Engine.frame, published]
  rw [grown.frame]

theorem storedExit_published (hx : e.StoredExit s k x) : (e.published pc p d).StoredExit s k x := by
  obtain ⟨b, hb, hx⟩ := hx
  exact ⟨b, block_published hb, hx⟩

theorem lookup_published {other : UInt32} (apart : JumpCache.index other ≠ JumpCache.index pc) :
    (e.published pc p d).lookup other = e.lookup other := by
  have distinct : pc ≠ other := fun same => apart (same ▸ rfl)
  have line : (e.published pc p d).cache.jumps.line? other = e.cache.jumps.line? other :=
    JumpCache.line?_insert.trans (if_neg apart)
  simp only [Engine.lookup, BlockCache.lookup, JumpCache.lookup_congr line, index_published,
    if_neg distinct]

theorem lookup_published_self : (e.published pc p d).lookup pc = some e.nextId := by
  simp [Engine.lookup, BlockCache.lookup, published]

variable (orderly : Draft.Orderly e e.buffer d)
include orderly

/-- An exit behind a publication is an exit from before or a new one, which leads to the dispatch
stub. -/
theorem unlinked_or_storedExit (hx : (e.published pc p d).StoredExit s k x) :
    (s = e.nextId ∧ d.exits[k]? = some x ∧ Draft.Unlinked e d.buffer e.buffer.cursor x) ∨
      e.StoredExit s k x := by
  rcases storedExit_of_published hx with ⟨new, hx⟩ | hx
  · exact .inl ⟨new, hx, orderly.exits x (List.mem_of_getElem? hx)⟩
  · exact .inr hx

/-- The exits of a new block lead where they say. -/
theorem Steered.published (h : e.Steered) : (e.published pc p d).Steered := by
  have grown := orderly.grown
  have frame : (e.published pc p d).frame = e.frame := frame_published grown
  have behind {s : BlockId} {j k : Nat} {x y : ExitSlot} (hx : e.StoredExit s k x)
      (hy : d.exits[j]? = some y) : x.site.stop ≤ y.site.start :=
    Nat.le_trans (h.has hx).stop_le (orderly.exits y (List.mem_of_getElem? hy)).start_le
  have ordered {j k : Nat} {x y : ExitSlot} (lt : j < k) (hx : d.exits[j]? = some x)
      (hy : d.exits[k]? = some y) : x.site.stop ≤ y.site.start := by
    obtain ⟨hj, rfl⟩ := List.getElem?_eq_some_iff.1 hx
    obtain ⟨hk, rfl⟩ := List.getElem?_eq_some_iff.1 hy
    exact List.pairwise_iff_getElem.1 orderly.apart j k hj hk lt
  refine ⟨grown.bounded h.bounded, ?_, ?_, ?_, fun hb => ?_, fun hb => ?_,
    fun {s k x l} hx link => ?_, fun hx => ?_, fun hx => ?_, fun hx => ?_,
    fun {s k x t j y} hx hy other => ?_⟩
  · rw [capacity_of_frame frame]
    exact h.reach
  · rw [codeBase_of_frame frame, base_of_frame frame]
    exact h.codeBase
  · rw [stubs_of_frame frame, capacity_of_frame frame]
    exact h.dispatch_le
  · obtain ⟨rfl, rfl⟩ | hb := block_of_published hb
    · rfl
    · exact h.id hb
  · obtain ⟨rfl, rfl⟩ | hb := block_of_published hb
    · exact grown.cursor_le
    · exact Nat.le_trans (h.offset_le hb) grown.cursor_le
  · rcases unlinked_or_storedExit orderly hx with ⟨-, -, new⟩ | hx
    · exact absurd (new.linked.symm.trans link) nofun
    · obtain ⟨b, hb⟩ := h.named hx link
      exact ⟨b, block_published hb⟩
  · rcases unlinked_or_storedExit orderly hx with ⟨-, -, new⟩ | hx
    · exact new.has
    · exact ⟨capacity_of_frame frame ▸ (h.has hx).anchor_le,
        Nat.le_trans (h.has hx).stop_le grown.cursor_le⟩
  · rw [stubs_of_frame frame]
    rcases unlinked_or_storedExit orderly hx with ⟨-, -, new⟩ | hx
    · exact new.leads.spans
    · exact h.home hx
  · rcases unlinked_or_storedExit orderly hx with ⟨-, -, new⟩ | hx
    · rw [new.linked]
      exact new.leads
    · rw [landing_published frame fun _ link => h.named hx link]
      exact (h.leads hx).congr fun n _ high =>
        grown.kept n (Nat.lt_of_lt_of_le high (h.has hx).stop_le)
  · rcases unlinked_or_storedExit orderly hx with ⟨hs, newx, -⟩ | hx
    · rcases unlinked_or_storedExit orderly hy with ⟨ht, newy, -⟩ | hy
      · have distinct : k ≠ j := fun same => other (by rw [hs, ht, same])
        rcases Nat.lt_or_gt_of_ne distinct with lt | lt
        · exact .inl (ordered lt newx newy)
        · exact .inr (ordered lt newy newx)
      · exact .inr (behind hy newx)
    · rcases unlinked_or_storedExit orderly hy with ⟨-, newy, -⟩ | hy
      · exact .inl (behind hx newy)
      · exact h.apart hx hy other

/-- Publishing a block whose exits are unlinked leaves addresses, links and incoming exits in
agreement. -/
theorem Tended.published (h : e.Tended (fun _ => False) fun _ _ => False) :
    (e.published pc p d).Tended (fun _ => False) fun _ _ => False := by
  have counts {i : BlockId} {pc' : UInt32} (hi : e.Counts (fun _ => False) i pc') :
      (e.published pc p d).Counts (fun _ => False) i pc' := by
    obtain ⟨b, hb, resident, entry⟩ := hi
    exact ⟨b, block_published hb, resident, entry⟩
  have new : (e.published pc p d).Counts (fun _ => False) e.nextId pc :=
    ⟨_, block?_published_nextId, .inl isValid_newBlock, rfl⟩
  refine ⟨fun {pc' i} found => ?_, fun {pc' l} hl => ?_, fun {s k x i} hx link => ?_,
    fun {i b s k} hb hp => ?_, fun hw => ?_⟩
  · rw [index_published] at found
    split at found
    · next same =>
      obtain rfl := Option.some.inj found
      exact same ▸ new
    · exact counts (h.index found)
  · have hline : (e.published pc p d).cache.jumps.line? pc' =
        if JumpCache.index pc' = JumpCache.index pc then
          some ⟨pc, e.nextId, .ofNat (e.cache.codeBase + e.buffer.cursor)⟩
        else e.cache.jumps.line? pc' := JumpCache.line?_insert
    rw [hline] at hl
    split at hl
    · next same =>
      obtain rfl := Option.some.inj hl
      exact ⟨same.symm, new⟩
    · exact (h.line hl).imp_right counts
  · rcases hasExit_of_published hx with ⟨-, hx⟩ | hx
    · exact absurd ((orderly.exits x (List.mem_of_getElem? hx)).linked.symm.trans link) nofun
    · obtain ⟨target, ⟨⟨⟩⟩ | ⟨b, hb, hp⟩⟩ := h.linked hx link
      exact ⟨counts target, .inr ⟨b, block_published hb, hp⟩⟩
  · obtain ⟨rfl, rfl⟩ | hb := block_of_published hb
    · cases hp
    · obtain ⟨x, hx, link, target⟩ := h.incoming hb hp
      exact ⟨x, storedExit_published hx, link, target⟩
  · obtain ⟨x, hx, target, unlinked⟩ := h.waiting hw
    exact ⟨x, storedExit_published hx, target, unlinked⟩

/-- Publishing is safe. -/
theorem Safe.published (h : e.Safe) : (e.published pc p d).Safe :=
  ⟨h.steered.published orderly, h.tended.published orderly⟩

end Publish

section Link

variable {dst : BlockId}

theorem Counts.block (h : e.Counts D dst pc) : ∃ b, e.block? dst = some b := by
  obtain ⟨b, hb, -⟩ := h
  exact ⟨b, hb⟩

/-- A block stays the one of its address while links change. -/
theorem Counts.relinked (h : e.Counts D dst pc) (relinked : e.Relinked c) : c.Counts D dst pc := by
  obtain ⟨b, hb, resident, entry⟩ := h
  obtain ⟨b', hb', body, valid⟩ := relinked.block hb
  exact ⟨b', hb', valid ▸ resident, (Block.entry_of_body body).trans entry⟩

theorem storedExit_linkTo {j : Nat} (hy : e.StoredExit i j y) (other : (i, j) ≠ (s, k)) :
    (e.linkTo s k x dst).StoredExit i j y := by
  have stored := storedExit_retarget (s := s) (k := k) (x := x) (l := some dst) hy
  rw [if_neg other] at stored
  exact (storedExit_modifyBlock (f := (·.addIncoming s k)) fun _ => rfl).2 stored

theorem storedExit_linkTo_self (hx : e.StoredExit s k x) :
    (e.linkTo s k x dst).StoredExit s k { x with linked := some dst } := by
  have stored := storedExit_retarget (s := s) (k := k) (x := x) (l := some dst) hx
  rw [if_pos rfl] at stored
  exact (storedExit_modifyBlock (f := (·.addIncoming s k)) fun _ => rfl).2 stored

/-- An exit that is not linked and does not wait is linked to the block at its target. -/
theorem Tended.linkTo (h : e.Tended (fun _ => False) fun _ _ => False) (hx : e.StoredExit s k x)
    (unlinked : x.linked = none) (target : e.Counts (fun _ => False) dst x.target)
    (idle : ∀ w ∈ e.chains.waiting, (w.src, w.exit) ≠ (s, k)) :
    (e.linkTo s k x dst).Tended (fun _ => False) fun _ _ => False := by
  have counts {i : BlockId} {pc : UInt32} (hi : e.Counts (fun _ => False) i pc) :
      (e.linkTo s k x dst).Counts (fun _ => False) i pc :=
    hi.relinked (.linkTo hx.block target.block)
  have listed {i : BlockId} {b : Block} (hb : e.block? i = some b) :
      ∃ b', (e.linkTo s k x dst).block? i = some b' ∧
        b'.incoming = b.incoming ++ if i = dst then [(s, k)] else [] := by
    obtain ⟨b', hb'⟩ := stored_linkTo.2 ⟨b, hb⟩
    obtain ⟨b₀, hb₀, -, incoming, -⟩ := state_of_linkTo hb'
    obtain rfl := Option.some.inj (hb.symm.trans hb₀)
    exact ⟨b', hb', incoming⟩
  refine ⟨fun found => counts (h.index found), fun hl => (h.line hl).imp_right counts,
    fun {i j y d} hy link => ?_, fun {d b i j} hb hp => ?_, fun {w} hw => ?_⟩
  · obtain ⟨y₀, hy₀, ⟨same, rfl⟩ | ⟨other, rfl⟩⟩ := hasExit_linkTo.1 hy
    · cases same
      cases link
      obtain rfl := StoredExit.unique hx hy₀.stored
      have resident := target
      obtain ⟨b, hb, -⟩ := resident
      obtain ⟨b', hb', incoming⟩ := listed hb
      exact ⟨counts target, .inr ⟨b', hb', by simp [incoming]⟩⟩
    · obtain ⟨target, ⟨⟨⟩⟩ | ⟨b, hb, hp⟩⟩ := h.linked hy₀ link
      obtain ⟨b', hb', incoming⟩ := listed hb
      exact ⟨counts target, .inr ⟨b', hb', by rw [incoming]; exact List.mem_append_left _ hp⟩⟩
  · obtain ⟨b₀, hb₀, -, incoming, -⟩ := state_of_linkTo hb
    obtain ⟨b₁, hb₁, body⟩ := block?_of_bodies bodies_linkTo hb
    obtain rfl := Option.some.inj (hb₀.symm.trans hb₁)
    have entry : b.entry = b₀.entry := (Block.entry_of_body body).symm
    rw [incoming] at hp
    rcases List.mem_append.1 hp with old | new
    · obtain ⟨y, hy, link, target⟩ := h.incoming hb₀ old
      refine ⟨y, storedExit_linkTo hy ?_, link, target.trans entry.symm⟩
      intro same
      cases same
      obtain rfl := StoredExit.unique hx hy
      exact absurd (unlinked.symm.trans link) nofun
    · split at new
      · next here =>
        cases List.mem_singleton.1 new
        subst here
        obtain ⟨c, hc, -, same⟩ := target
        obtain rfl := Option.some.inj (hb₀.symm.trans hc)
        exact ⟨_, storedExit_linkTo_self hx, rfl, (entry.trans same).symm⟩
      · cases new
  · obtain ⟨y, hy, target, unlinked⟩ := h.waiting hw
    exact ⟨y, storedExit_linkTo hy (idle w hw), target, unlinked⟩

/-- `c` has the parts of `e`, and no jump in it leads into dead code. -/
structure Survives (e c : Engine) : Prop where
  frame : c.frame = e.frame
  safe : c.Safe

/-- No operation changes the table. -/
theorem Survives.registry (h : e.Survives c) : c.registry = e.registry :=
  show c.frame.registry = e.frame.registry by rw [h.frame]

theorem Survives.trans {e' : Engine} (h : e.Survives c) (h' : c.Survives e') : e.Survives e' :=
  ⟨h'.frame.trans h.frame, h'.safe⟩

/-- An exit that is not linked and does not wait is linked to the block at its target, or stays as
it is. -/
theorem Safe.ends_link (h : e.Safe) (hx : e.StoredExit s k x) (unlinked : x.linked = none)
    (target : e.Counts (fun _ => False) dst x.target)
    (idle : ∀ w ∈ e.chains.waiting, (w.src, w.exit) ≠ (s, k)) :
    Ends (EngineM.link s k dst) e (fun _ c => c = e.linkTo s k x dst ∧ c.Safe) fun c => c = e := by
  have tended := h.tended.linkTo hx unlinked target idle
  obtain ⟨b, hb, -⟩ := target
  by_cases spans : x.site.Spans b.hostOffset
  · exact (h.steered.yields_link hx unlinked hb spans).ends
      ⟨rfl, h.steered.linkTo hx hb spans, tended⟩
  · exact .inr ⟨_, e, h.steered.yields_link_error hx unlinked hb spans, rfl⟩

/-- On the way from `e` to `c` the first `n` exits of the new block `id` have been linked or begun
to wait. -/
structure Joining (e : Engine) (id : BlockId) (exits : List ExitSlot) (n : Nat) (c : Engine) :
    Prop where
  relinked : e.Relinked c
  safe : c.Safe
  untouched : ∀ j x, n ≤ j → exits[j]? = some x → c.StoredExit id j x ∧ x.linked = none
  idle : ∀ w ∈ c.chains.waiting, w.src = id → w.exit < n

variable {exits : List ExitSlot} {n : Nat}

/-- The next exit of the new block is linked. -/
theorem Joining.link (h : e.Joining id exits n c) (safe : (c.linkTo id n x dst).Safe)
    (hx : c.StoredExit id n x) (stored : ∃ b, c.block? dst = some b) :
    e.Joining id exits (n + 1) (c.linkTo id n x dst) := by
  refine ⟨h.relinked.trans (.linkTo hx.block stored), safe, fun j y behind hy => ?_,
    fun w hw hid => ?_⟩
  · obtain ⟨stored, unlinked⟩ := h.untouched j y (by omega) hy
    refine ⟨storedExit_linkTo stored ?_, unlinked⟩
    intro same
    obtain ⟨-, rfl⟩ := Prod.mk.inj same
    omega
  · have := h.idle w hw hid
    omega

/-- The next exit of the new block begins to wait. -/
theorem Joining.wait (h : e.Joining id exits n c) (hx : c.StoredExit id n x)
    (unlinked : x.linked = none) :
    e.Joining id exits (n + 1) { c with chains := c.chains.add x.target id n } := by
  refine ⟨h.relinked.trans (.withChains _),
    ⟨h.safe.steered.withChains _, h.safe.tended.wait hx unlinked⟩,
    fun j y behind hy => h.untouched j y (by omega) hy, fun w hw hid => ?_⟩
  rcases ChainTable.mem_add.1 hw with old | rfl
  · have := h.idle w old hid
    omega
  · exact Nat.lt_succ_self n

/-- The next exit is linked or begins to wait, or the emission fails there and the engine
survives. -/
theorem Joining.step (h : e.Joining id exits n c) (hx : exits[n]? = some x) :
    Ends (EngineM.linkOrWait id n x.target) c (fun _ => e.Joining id exits (n + 1)) e.Survives := by
  obtain ⟨stored, unlinked⟩ := h.untouched n x (Nat.le_refl n) hx
  refine yields_get.bind_ends ?_
  cases found : c.lookup x.target with
  | none => exact (yields_modify _).ends (h.wait stored unlinked)
  | some dst =>
    have idle : ∀ w ∈ c.chains.waiting, (w.src, w.exit) ≠ (id, n) := by
      intro w hw same
      obtain ⟨hid, hn⟩ := Prod.mk.inj same
      have := h.idle w hw hid
      omega
    have resident := h.safe.tended.lookup found
    rcases h.safe.ends_link stored unlinked resident idle
      with ⟨_, _, yields, rfl, safe⟩ | ⟨fault, _, failed, rfl⟩
    · exact yields.ends (h.link safe stored resident.block)
    · exact .inr ⟨fault, _, failed, h.relinked.frame, h.safe⟩

/-- The exits of a new block are linked or wait, or one of them cannot be linked. -/
theorem Joining.ends_linkExits (h : e.Joining id exits 0 e) :
    Ends (exits.zipIdx.forM fun (exit, k) => EngineM.linkOrWait id k exit.target) e
      (fun _ => e.Joining id exits exits.length) e.Survives := by
  have loop : Ends (exits.zipIdx.forM fun (exit, k) => EngineM.linkOrWait id k exit.target) e
      (fun _ => e.Joining id exits exits.zipIdx.length) e.Survives := by
    refine ends_forM (I := fun done => e.Joining id exits done.length) h ?_
    rintro done ⟨x, k⟩ rest c hsplit hc
    have hx : exits.zipIdx[done.length]? = some (x, k) := by rw [hsplit]; simp
    rw [List.getElem?_zipIdx] at hx
    obtain ⟨x', hx', heq⟩ := Option.map_eq_some_iff.1 hx
    obtain ⟨rfl, rfl⟩ := Prod.mk.inj heq
    rw [List.length_append, Nat.zero_add]
    exact hc.step hx'
  rwa [List.length_zipIdx] at loop

/-- On the way from `e` to `c` the exits that have waited for the new block `id` at `pc` are being
linked to it. One that stands in the table twice is linked already when its second turn comes. -/
structure Gathering (e : Engine) (id : BlockId) (pc : UInt32) (c : Engine) : Prop where
  relinked : e.Relinked c
  safe : c.Safe
  taken : ∀ w ∈ c.chains.waiting, w.target ≠ pc
  ready : ∀ w ∈ e.chains.pendingFor pc, ∃ x, c.StoredExit w.src w.exit x ∧ x.target = pc ∧
    (x.linked = none ∨ x.linked = some id)

/-- An exit that is linked to the block already stays as it is. -/
theorem yields_link_of_linked (hx : e.StoredExit s k x) (linked : x.linked = some dst)
    (hd : e.block? dst = some b) : Yields (EngineM.link s k dst) e (.ok ()) e := by
  obtain ⟨b', hb', hx⟩ := hx
  refine (yields_getBlock hd).bind ((yields_getBlock hb').bind ?_)
  rw [exit_eq_ok hx]
  refine (yields_lift _).bind ?_
  rw [if_pos linked]
  exact yields_pure ()

/-- The exits that have waited for the address are taken from the table before the first is
linked. -/
theorem Gathering.start (h : e.Safe) :
    e.Gathering id pc { e with chains := (e.chains.take pc).2 } := by
  refine ⟨.withChains _,
    ⟨h.steered.withChains _, h.tended.withChains fun w hw => (ChainTable.mem_drop.1 hw).1⟩,
    fun w hw => (ChainTable.mem_drop.1 hw).2, fun w hw => ?_⟩
  · obtain ⟨waits, here⟩ := ChainTable.mem_pendingFor_iff.1 hw
    obtain ⟨x, hx, target, unlinked⟩ := h.tended.waiting waits
    exact ⟨x, hx, target.trans here, .inl unlinked⟩

/-- One more exit that has waited is linked to the new block. -/
theorem Gathering.link (h : e.Gathering id pc c) (safe : (c.linkTo s k x id).Safe)
    (hx : c.StoredExit s k x) (stored : ∃ b, c.block? id = some b) (target : x.target = pc) :
    e.Gathering id pc (c.linkTo s k x id) := by
  refine ⟨h.relinked.trans (.linkTo hx.block stored), safe, h.taken, fun w hw => ?_⟩
  obtain ⟨y, hy, target', link⟩ := h.ready w hw
  by_cases same : (w.src, w.exit) = (s, k)
  · obtain ⟨hs, hk⟩ := Prod.mk.inj same
    rw [hs, hk]
    exact ⟨_, storedExit_linkTo_self hx, target, .inr rfl⟩
  · exact ⟨y, storedExit_linkTo hy same, target', link⟩

/-- An exit that has waited is linked, or the emission fails there and the engine survives. -/
theorem Gathering.step (h : e.Gathering id pc c) (dst : e.Counts (fun _ => False) id pc)
    {w : OpenExit} (hw : w ∈ e.chains.pendingFor pc) :
    Ends (do if (← EngineM.getBlock w.src).isValid then EngineM.link w.src w.exit id) c
      (fun _ => e.Gathering id pc) e.Survives := by
  obtain ⟨x, hx, target, link⟩ := h.ready w hw
  have stored := hx
  obtain ⟨b, hb, -⟩ := stored
  refine (yields_getBlock hb).bind_ends ?_
  cases b.isValid with
  | false => exact (yields_pure ()).ends h
  | true =>
    have resident : c.Counts (fun _ => False) id x.target := target ▸ dst.relinked h.relinked
    rcases link with unlinked | linked
    · have idle : ∀ v ∈ c.chains.waiting, (v.src, v.exit) ≠ (w.src, w.exit) := by
        intro v hv same
        obtain ⟨y, hy, target', -⟩ := h.safe.tended.waiting hv
        obtain ⟨hs, hk⟩ := Prod.mk.inj same
        rw [hs, hk] at hy
        obtain rfl := StoredExit.unique hx hy
        exact h.taken v hv (target'.symm.trans target)
      rcases h.safe.ends_link hx unlinked resident idle
        with ⟨_, _, yields, rfl, safe⟩ | ⟨fault, _, failed, rfl⟩
      · exact yields.ends (h.link safe hx resident.block target)
      · exact .inr ⟨fault, _, failed, h.relinked.frame, h.safe⟩
    · obtain ⟨b, hb, -⟩ := resident
      exact (yields_link_of_linked hx linked hb).ends h

theorem yields_resolvePending_of_take {ws : List OpenExit} {chains : ChainTable}
    {o : Except Fault Unit} (hb : e.block? id = some b)
    (taken : e.chains.take b.entry = (ws, chains))
    (linked : Yields (ws.forM fun w => do
      if (← EngineM.getBlock w.src).isValid then
        EngineM.link w.src w.exit id) { e with chains } o c) :
    Yields (EngineM.resolvePending id) e o c := by
  obtain ⟨rfl, rfl⟩ := Prod.mk.inj taken
  exact yields_get.bind ((yields_getBlock hb).bind ((yields_modify _).bind linked))

/-- The exits that have waited for a new block are linked to it, or one of them cannot be linked. -/
theorem Safe.ends_resolvePending (h : e.Safe) (dst : e.Counts (fun _ => False) id pc) :
    Ends (EngineM.resolvePending id) e (fun _ => e.Survives) e.Survives := by
  have gathered : Ends ((e.chains.pendingFor pc).forM fun w => do
      if (← EngineM.getBlock w.src).isValid then EngineM.link w.src w.exit id)
      { e with chains := (e.chains.take pc).2 } (fun _ => e.Gathering id pc) e.Survives := by
    refine ends_forM (I := fun _ => e.Gathering id pc) (.start h) ?_
    intro done w rest c hsplit hc
    exact hc.step dst (by rw [hsplit]; simp)
  have resident := dst
  obtain ⟨b, hb, -, entry⟩ := resident
  refine yields_get.bind_ends ((yields_getBlock hb).bind_ends ?_)
  rw [entry]
  exact (yields_modify _).bind_ends
    (gathered.imp (fun _ _ hc => ⟨hc.relinked.frame, hc.safe⟩) fun _ hc => hc)

end Link

section Emit

/-- Nothing is there that could lead into dead code. -/
theorem safe_of_empty (bounded : e.buffer.Bounded) (reach : e.buffer.capacity ≤ 2 ^ 30)
    (codeBase : e.cache.codeBase = e.buffer.base)
    (dispatch_le : e.stubs.dispatch ≤ e.buffer.capacity) (blocks : e.cache.blocks = #[])
    (index : ∀ pc : UInt32, e.cache.index[pc]? = none) (jumps : ∀ pc, e.cache.jumps.line? pc = none)
    (chains : e.chains.waiting = []) : e.Safe := by
  have absent {i : BlockId} {b : Block} : e.block? i ≠ some b := by simp [block?, blocks]
  have noExit {s : BlockId} {k : Nat} {x : ExitSlot} : ¬ e.StoredExit s k x := by
    rintro ⟨_, hb, _⟩
    exact absent hb
  refine ⟨⟨bounded, reach, codeBase, dispatch_le, (absurd · absent), (absurd · absent),
    (absurd · noExit), (absurd · noExit), (absurd · noExit), (absurd · noExit), (absurd · noExit)⟩,
    fun found => ?_, fun hl => ?_, (absurd ·.stored noExit), (absurd · absent), fun hw => ?_⟩
  · rw [index] at found
    cases found
  · rw [jumps] at hl
    cases hl
  · rw [chains] at hw
    cases hw

/-- A flushed engine is safe. -/
theorem Emptied.safe (h : e.Emptied c) (steered : e.Steered) : c.Safe := by
  have bounded : c.buffer.Bounded := by
    have le := steered.bounded.cursor_le
    subst h
    refine ⟨?_, steered.bounded.mapped⟩
    simp only [CodeBuffer.cursor, CodeBuffer.flush, CodeBuffer.truncate, Array.size_extract] at le ⊢
    omega
  subst h
  refine safe_of_empty bounded steered.reach steered.codeBase steered.dispatch_le rfl (fun pc => ?_)
    (fun pc => ?_) ChainTable.waiting_empty
  · simp [BlockCache.flush]
  · simp [BlockCache.flush]

/-- A new engine over a confined table is safe. -/
theorem safe_of_create {base : Nat} {r : Registry} {config : Config} (confined : r.Confined)
    (created : create base r config = .ok e) : e.registry = r ∧ e.Safe := by
  obtain ⟨b, stubs, b', valid, -, mapped, written, -, rfl⟩ := create_eq_ok.1 created
  obtain ⟨nonempty, small⟩ := config.codeBufferSize_of_validate valid
  obtain ⟨capacity, rfl, -, reach, bound⟩ := CodeBuffer.map_inv mapped nonempty small
  have bounded : CodeBuffer.Bounded { base, capacity } := ⟨Nat.zero_le _, bound⟩
  obtain ⟨dispatch_le, grown⟩ := Stubs.write_inv confined bounded written
  have bounded' := grown.bounded bounded
  refine ⟨rfl, safe_of_empty ⟨bounded'.cursor_le, bounded'.mapped⟩ ?_ ?_ ?_ rfl (fun pc => ?_)
    (fun pc => ?_) ChainTable.waiting_empty⟩
  · show b'.capacity ≤ 2 ^ 30
    rw [grown.capacity]
    exact reach
  · exact grown.base.symm
  · show stubs.dispatch ≤ b'.capacity
    rw [grown.capacity]
    exact dispatch_le
  · simp
  · simp

/-- Making room succeeds or fails, and the engine survives. -/
theorem Safe.ends_makeRoom (h : e.Safe) (pc : UInt32) (n : Nat) :
    Ends (EngineM.makeRoom pc n) e (fun _ => e.Survives) e.Survives := by
  by_cases large : n > e.buffer.usable
  · exact .inr ⟨_, e, yields_makeRoom_error large, rfl, h⟩
  · have usable := Nat.le_of_not_lt large
    by_cases fits : n ≤ e.buffer.remaining
    · cases found : e.lookup pc with
      | none =>
        refine (yields_makeRoom_ready usable fits (yields_get.bind ?_)).ends ⟨rfl, h⟩
        rw [found]
        exact yields_pure ()
      | some old =>
        obtain ⟨b, hb, -⟩ := h.tended.lookup found
        have stored : ∀ i ∈ [old], ∃ b, e.block? i = some b :=
          fun i hi => ⟨b, List.mem_singleton.1 hi ▸ hb⟩
        obtain ⟨c, yields, frame, safe⟩ := h.yields_invalidateBlocks stored
        refine (yields_makeRoom_ready usable fits (yields_get.bind ?_)).ends ⟨frame, safe⟩
        rw [found]
        exact yields
    · obtain ⟨c, yields, emptied⟩ := yields_makeRoom_flushed pc usable fits
      exact yields.ends ⟨emptied.frame, emptied.safe h.steered⟩

/-- A block that has been written in order can be published. -/
theorem Safe.yields_publish (h : e.Safe) (orderly : Draft.Orderly e e.buffer d) :
    Yields (EngineM.publish pc p d) e (.ok e.nextId) (e.published pc p d) :=
  Engine.yields_publish h.steered.codeBase h.steered.bounded
    (orderly.grown.bounded h.steered.bounded) orderly.grown.cursor_le

/-- A published block joins its neighbours. -/
theorem Safe.ends_join (h : e.Safe) (orderly : Draft.Orderly e e.buffer d) (chaining : Bool) :
    Ends (do
      if chaining then
        d.exits.zipIdx.forM fun (exit, k) => EngineM.linkOrWait e.nextId k exit.target
        EngineM.resolvePending e.nextId
      return e.nextId) (e.published pc p d) (fun _ => e.Survives) e.Survives := by
  have published : e.Survives (e.published pc p d) :=
    ⟨frame_published orderly.grown, h.published orderly⟩
  cases chaining with
  | false => exact (yields_pure _).ends published
  | true =>
    have joining : (e.published pc p d).Joining e.nextId d.exits 0 (e.published pc p d) := by
      refine ⟨.refl _, published.safe, fun j x _ hx => ?_, fun w hw hid => ?_⟩
      · exact ⟨⟨_, block?_published_nextId, hx⟩, (orderly.exits x (List.mem_of_getElem? hx)).linked⟩
      · obtain ⟨x, ⟨b, hb, -⟩, -⟩ := h.tended.waiting hw
        exact absurd hid (ne_nextId hb)
    have new : (e.published pc p d).Counts (fun _ => False) e.nextId pc :=
      ⟨_, block?_published_nextId, .inl isValid_newBlock, rfl⟩
    refine (joining.ends_linkExits.imp (fun _ _ hc => hc) fun _ => published.trans).bind
      fun _ c hc => ?_
    have survives : e.Survives c := published.trans ⟨hc.relinked.frame, hc.safe⟩
    refine ((hc.safe.ends_resolvePending (new.relinked hc.relinked)).imp (fun _ _ => survives.trans)
      fun _ => survives.trans).bind fun _ c' hc' => ?_
    exact (yields_pure _).ends hc'

/-- Over a confined table a plan is written in order. -/
theorem Safe.orderly {insns : List Insn} (h : e.Safe) (confined : e.registry.Confined)
    (planned : e.plan pc insns = .ok p) (written : Draft.ofPlan e e.buffer p = .ok d) :
    Draft.Orderly e e.buffer d := by
  obtain ⟨last, hlast, -⟩ := exists_last_of_plan planned
  exact Draft.orderly_of_ofPlan confined h.steered.bounded (drawn_of_plan planned hlast) written

/-- An emission where there is room and no block to replace comes to what the linking of the new
block comes to. -/
theorem yields_emitBlock_of_join {insns : List Insn} {o : Except Fault BlockId} (safe : e.Safe)
    (planned : e.plan pc insns = .ok p) (usable : p.size ≤ e.buffer.usable)
    (fits : p.size ≤ e.buffer.remaining) (absent : e.lookup pc = none)
    (written : Draft.ofPlan e e.buffer p = .ok d) (orderly : Draft.Orderly e e.buffer d)
    (joined : Yields (do
      if e.config.directChaining then
        d.exits.zipIdx.forM fun (exit, k) => EngineM.linkOrWait e.nextId k exit.target
        EngineM.resolvePending e.nextId
      return e.nextId) (e.published pc p d) o c) : Yields (EngineM.emitBlock pc insns) e o c := by
  have room : Yields (EngineM.makeRoom pc p.size) e (.ok ()) e := by
    refine yields_makeRoom_ready usable fits (yields_get.bind ?_)
    rw [absent]
    exact yields_pure ()
  refine yields_get.bind ((yields_lift_ok planned).bind (room.bind (yields_get.bind ?_)))
  exact (yields_lift_ok written).bind ((safe.yields_publish orderly).bind joined)

/-- An emission succeeds or fails, and no jump leads into dead code behind it. -/
theorem Safe.ends_emitBlock (h : e.Safe) (confined : e.registry.Confined) (pc : UInt32)
    (insns : List Insn) : Ends (EngineM.emitBlock pc insns) e (fun _ => e.Survives) e.Survives := by
  have planning : Ends (liftM (e.plan pc insns) : EngineM Plan) e
      (fun p c => e.plan pc insns = .ok p ∧ e = c) e.Survives :=
    ends_lift (fun p planned => ⟨planned, rfl⟩) ⟨rfl, h⟩
  refine yields_get.bind_ends (planning.bind ?_)
  rintro p _ ⟨planned, rfl⟩
  refine (h.ends_makeRoom pc p.size).bind fun _ c survives => yields_get.bind_ends ?_
  have writing : Ends (liftM (Draft.ofPlan c c.buffer p) : EngineM Draft) c
      (fun d c' => Draft.ofPlan c c.buffer p = .ok d ∧ c = c') e.Survives :=
    ends_lift (fun d written => ⟨written, rfl⟩) survives
  refine writing.bind ?_
  rintro d _ ⟨written, rfl⟩
  have orderly := survives.safe.orderly (survives.registry ▸ confined)
    ((plan_of_frame survives.frame pc insns).trans planned) written
  refine (survives.safe.yields_publish orderly).bind_ends ?_
  exact (survives.safe.ends_join orderly _).imp (fun _ _ => survives.trans) fun _ => survives.trans

end Emit

/-- The engines that an owner can make over a table by calling operations, whether these succeed or
fail. -/
inductive ReachableOver (r : Registry) : Engine → Prop
  | create {base : Nat} {config : Config} {e : Engine} (created : create base r config = .ok e) :
      ReachableOver r e
  | emitBlock {e : Engine} (h : ReachableOver r e) (pc : UInt32) (insns : List Insn)
      (log : Array Event) : ReachableOver r ((EngineM.emitBlock pc insns).perform e log).1.2
  | invalidateRange {e : Engine} (h : ReachableOver r e) (start : UInt32) (stop : Nat)
      (log : Array Event) : ReachableOver r ((EngineM.invalidateRange start stop).perform e log).1.2
  | invalidateAll {e : Engine} (h : ReachableOver r e) (log : Array Event) :
      ReachableOver r (EngineM.invalidateAll.perform e log).1.2

variable {r : Registry}

theorem Survives.of_ends {α : Type} {x : EngineM α} (h : Ends x e (fun _ => e.Survives) e.Survives)
    (log : Array Event) : e.Survives (x.perform e log).1.2 := by
  rcases h with ⟨a, c, yields, survives⟩ | ⟨fault, c, failed, survives⟩
  · rw [yields log]
    exact survives
  · rw [failed log]
    exact survives

/-- Every engine that operations lead to over a confined table is safe, whether they succeed or
fail. -/
theorem ReachableOver.safe (h : e.ReachableOver r) (confined : r.Confined) :
    e.registry = r ∧ e.Safe := by
  induction h with
  | create created => exact safe_of_create confined created
  | emitBlock _ pc insns log ih =>
    have survives := Survives.of_ends (ih.2.ends_emitBlock (ih.1.symm ▸ confined) pc insns) log
    exact ⟨survives.registry.trans ih.1, survives.safe⟩
  | @invalidateRange e _ start stop log ih =>
    obtain ⟨c, yields, frame, safe⟩ := ih.2.yields_invalidateRange start stop
    have survives : e.Survives c := ⟨frame, safe⟩
    rw [yields log]
    exact ⟨survives.registry.trans ih.1, safe⟩
  | @invalidateAll e _ log ih =>
    obtain ⟨c, yields, emptied⟩ := yields_invalidateAll (e := e)
    have survives : e.Survives c := ⟨emptied.frame, emptied.safe ih.2.steered⟩
    rw [yields log]
    exact ⟨survives.registry.trans ih.1, survives.safe⟩

/-- The exit jumps to the block it is linked to, which is resident at its target, or else to the
dispatch stub. -/
def Routes (e : Engine) (x : ExitSlot) : Prop :=
  match x.linked with
  | some d => ∃ b, e.block? d = some b ∧ b.isValid = true ∧ b.entry = x.target ∧
    e.buffer.branchTarget x.site = .ok b.hostOffset
  | none => e.buffer.branchTarget x.site = .ok e.stubs.dispatch

theorem Counts.resident (h : e.Counts (fun _ => False) id pc) :
    ∃ b, e.block? id = some b ∧ b.isValid = true ∧ b.entry = pc := by
  obtain ⟨b, hb, valid | ⟨⟨⟩⟩, entry⟩ := h
  exact ⟨b, hb, valid, entry⟩

/-- In a safe engine an exit leads to a block in use at its target or to the dispatch stub. -/
theorem Safe.routes (h : e.Safe) (hx : e.HasExit s k x) : e.Routes x := by
  have steered := h.steered
  have lands : e.buffer.branchTarget x.site = .ok (e.landing x.linked) :=
    (steered.leads hx.stored).branchTarget_eq_ok steered.bounded
      (Nat.lt_of_le_of_lt steered.reach (by decide)) (steered.has hx.stored) (steered.landing_le _)
  unfold Routes
  cases link : x.linked with
  | none =>
    rw [link] at lands
    exact lands
  | some d =>
    obtain ⟨b, hb, valid, entry⟩ := (h.tended.linked hx link).1.resident
    rw [link, landing_some hb] at lands
    exact ⟨b, hb, valid, entry, lands⟩

/-- Whatever table an engine works over and wherever its operations have failed, an exit of a
resident block jumps to the resident block at its target or to the dispatch stub, only resident
blocks can be found, and a range can always be invalidated. -/
theorem ReachableOver.links_stay_safe (h : e.ReachableOver r) (confined : r.Confined) :
    (∀ s k x, e.HasExit s k x → e.Routes x) ∧
    (∀ (pc : UInt32) id, e.cache.index[pc]? = some id →
      ∃ b, e.block? id = some b ∧ b.isValid = true ∧ b.entry = pc) ∧
    (∀ pc l, e.cache.jumps.line? pc = some l → ∃ b, e.block? l.id = some b ∧ b.isValid = true ∧
      b.entry = l.tag) ∧
    ∀ start stop log, ∃ n, ((EngineM.invalidateRange start stop).perform e log).1.1 = .ok n := by
  obtain ⟨-, safe⟩ := h.safe confined
  refine ⟨fun s k x hx => safe.routes hx, fun pc id found => ?_, fun pc l hl => ?_,
    fun start stop log => ?_⟩
  · exact (safe.tended.index found).resident
  · exact (safe.tended.line hl).2.resident
  · obtain ⟨c, yields, -, -⟩ := safe.yields_invalidateRange start stop
    rw [yields log]
    exact ⟨_, rfl⟩

section ShortJumps

variable {insns : List Insn}

/-- A jump that reaches no further than a byte can say. -/
def shortJump : Template where
  name := "short_jump"
  code := [0xEB, 0]
  slots := [⟨1, .forward .w8 2⟩]

/-- The x86-64 table with short jumps between blocks. -/
def shortJumps : Registry :=
  X86.registry.override fun key => if key = ⟨.chainJump, .direct⟩ then some shortJump else none

theorem confined_shortJumps : shortJumps.Confined := by
  intro key t found s hs
  by_cases here : key = ⟨.chainJump, .direct⟩
  · subst here
    cases found
    cases List.mem_singleton.1 hs
    exact ⟨by decide, trivial⟩
  · have usual : shortJumps.lookup key = X86.registry.lookup key := by
      simp [shortJumps, Registry.override, here]
    obtain ⟨stop, extra⟩ := (inRange_of_lookup (usual.symm.trans found)).2 s hs
    refine ⟨stop, ?_⟩
    cases hk : s.kind with
    | canonical => simpa only [hk] using extra
    | _ => trivial

/-- A new engine over the table, with a buffer of one page. -/
def cramped : Engine := (fresh 4096 4096 { codeBufferSize := 4096 }).withRegistry shortJumps

set_option maxRecDepth 4000 in
theorem reachable_cramped : cramped.ReachableOver shortJumps := by
  have created : create 4096 shortJumps { codeBufferSize := 4096 } = .ok cramped := rfl
  exact .create created

theorem lookup_cramped (pc : UInt32) : cramped.lookup pc = none := by
  simp [Engine.lookup, BlockCache.lookup, cramped, withRegistry, fresh]

/-- Code without exits is written over the table as over the usual one. -/
theorem exists_draft (frame : c.frame = cramped.frame) (bounded : c.buffer.Bounded)
    (planned : (cramped.withRegistry X86.registry).plan pc insns = .ok p)
    (silent : ∀ start, PlanStep.allExits start p.steps = []) (usable : p.size ≤ c.buffer.usable)
    (room : c.buffer.cursor + p.size ≤ c.buffer.capacity) :
    ∃ d, Draft.ofPlan c c.buffer p = .ok d ∧ d.exits = [] ∧
      d.buffer.cursor = c.buffer.cursor + p.size := by
  have twin : (c.withRegistry X86.registry).frame = (cramped.withRegistry X86.registry).frame :=
    congrArg (·.withRegistry X86.registry) frame
  have hosted : (c.withRegistry X86.registry).Hosted :=
    hosted_of_frame twin ⟨rfl, rfl, rfl, by decide, by decide, by decide⟩
  obtain ⟨d, written, drafted⟩ :=
    ofPlan_eq_ok hosted bounded ((plan_of_frame twin pc insns).trans planned) usable room
  exact ⟨d, written, drafted.renders.exits.trans (silent _), drafted.cursor hosted⟩

theorem eq_ok_of_toOption {α : Type} {x : Except Fault α} {a : α} (h : x.toOption = some a) :
    x = .ok a := by
  cases x with
  | error fault => cases h
  | ok a' =>
    cases h
    rfl

/-- The code of a branch to a block that is not there yet. -/
theorem exists_leap : ∃ p d, cramped.plan 0x100 [⟨0x100, .b 0x200⟩] = .ok p ∧
    Draft.ofPlan cramped cramped.buffer p = .ok d ∧
    d.exits = [{ target := 0x200, site := ⟨116, 117, .w8⟩ }] ∧ p.size = 29 ∧
    d.buffer.cursor = 117 := by
  have evaluated : (do
      let p ← cramped.plan 0x100 [⟨0x100, .b 0x200⟩]
      let d ← Draft.ofPlan cramped cramped.buffer p
      return (d.exits, p.size, d.buffer.cursor) : Except Fault _).toOption =
        some ([{ target := 0x200, site := ⟨116, 117, .w8⟩ }], 29, 117) := by
    decide +kernel
  obtain ⟨p, planned, rest⟩ := bind_eq_ok.1 (eq_ok_of_toOption evaluated)
  obtain ⟨d, written, rest⟩ := bind_eq_ok.1 rest
  have values := Except.ok.inj rest
  simp only [Prod.mk.injEq] at values
  exact ⟨p, d, planned, written, values⟩

/-- Code that keeps two blocks apart. -/
def filler : List Insn :=
  (List.range 12).map (fun n => ⟨.ofNat (0x300 + 4 * n), .li 3 5⟩) ++ [⟨0x330, .blr⟩]

theorem exists_filler : ∃ p, cramped.plan 0x300 filler = .ok p ∧
    (cramped.withRegistry X86.registry).plan 0x300 filler = .ok p ∧ p.size = 192 ∧
    ∀ start, PlanStep.allExits start p.steps = [] :=
  ⟨_, rfl, rfl, rfl, fun _ => rfl⟩

theorem exists_return : ∃ p, cramped.plan 0x200 [⟨0x200, .blr⟩] = .ok p ∧
    (cramped.withRegistry X86.registry).plan 0x200 [⟨0x200, .blr⟩] = .ok p ∧ p.size = 72 ∧
    ∀ start, PlanStep.allExits start p.steps = [] :=
  ⟨_, rfl, rfl, rfl, fun _ => rfl⟩

/-- The branch at 0x100 is the first block and waits for one at 0x200. -/
structure Leapt (c : Engine) (blocks cursor : Nat) : Prop where
  reachable : c.ReachableOver shortJumps
  frame : c.frame = cramped.frame
  cursor : c.buffer.cursor = cursor
  next : c.nextId = ⟨blocks⟩
  waiting : ∀ pc, c.chains.listOf pc = if pc = 0x200 then [(⟨0⟩, 0)] else []
  absent : c.lookup 0x200 = none
  exit : c.HasExit ⟨0⟩ 0 { target := 0x200, site := ⟨116, 117, .w8⟩ }

theorem Leapt.safe {blocks cursor : Nat} (h : c.Leapt blocks cursor) : c.Safe :=
  (h.reachable.safe confined_shortJumps).2

theorem Leapt.take_eq {blocks cursor : Nat} (h : c.Leapt blocks cursor) {pc : UInt32}
    (other : pc ≠ 0x200) : c.chains.take pc = ([], c.chains.drop pc) := by
  rw [ChainTable.take, ChainTable.pendingFor, h.waiting, if_neg other]
  rfl

/-- The open exits when the branch has begun to wait. -/
def leaptChains : ChainTable := (ChainTable.empty.add 0x200 ⟨0⟩ 0).drop 0x100

theorem listOf_leaptChains (pc : UInt32) :
    leaptChains.listOf pc = if pc = 0x200 then [(⟨0⟩, 0)] else [] := by
  simp only [leaptChains, ChainTable.listOf_drop, ChainTable.listOf_add, ChainTable.extended,
    ChainTable.listOf_empty]
  split
  · next here =>
    subst here
    rfl
  · simp only [eq_comm]
    rfl

theorem exists_leapt : ∃ c : Engine, c.Leapt 1 117 ∧ c.lookup 0x300 = none := by
  obtain ⟨p, d, planned, written, exits, size, cursor⟩ := exists_leap
  obtain ⟨-, safe⟩ := reachable_cramped.safe confined_shortJumps
  have orderly := safe.orderly confined_shortJumps planned written
  have yields : Yields (EngineM.emitBlock 0x100 [⟨0x100, .b 0x200⟩]) cramped (.ok ⟨0⟩)
      { cramped.published 0x100 p d with chains := leaptChains } := by
    refine yields_emitBlock_of_join safe planned ?_ ?_ (lookup_cramped _) written orderly ?_
    · rw [size]
      decide
    · rw [size]
      decide
    · have waits : Yields (EngineM.linkOrWait ⟨0⟩ 0 0x200) (cramped.published 0x100 p d) (.ok ())
          { cramped.published 0x100 p d with chains := ChainTable.empty.add 0x200 ⟨0⟩ 0 } := by
        refine yields_get.bind ?_
        rw [lookup_published (by decide), lookup_cramped]
        exact yields_modify _
      have taken : (ChainTable.empty.add 0x200 ⟨0⟩ 0).take 0x100 = ([], leaptChains) := by
        rw [ChainTable.take, ChainTable.pendingFor, ChainTable.listOf_add, if_neg (by decide),
          ChainTable.listOf_empty]
        rfl
      have resolved := yields_resolvePending_of_take
        (e := { cramped.published 0x100 p d with chains := ChainTable.empty.add 0x200 ⟨0⟩ 0 })
        block?_published_nextId taken (yields_pure ())
      rw [exits]
      exact (waits.bind (yields_pure ())).bind (resolved.bind (yields_pure _))
  have reachable := reachable_cramped.emitBlock 0x100 [⟨0x100, .b 0x200⟩] #[]
  rw [yields #[]] at reachable
  refine ⟨_, ⟨reachable, frame_published orderly.grown, cursor, rfl, listOf_leaptChains, ?_, ?_⟩,
    ?_⟩
  · exact (lookup_published (by decide)).trans (lookup_cramped _)
  · exact ⟨_, block?_published_nextId, isValid_newBlock, by show d.exits[0]? = _; rw [exits]; rfl⟩
  · exact (lookup_published (by decide)).trans (lookup_cramped _)

/-- Emitting code without exits comes to what linking the exits that wait for it comes to. -/
theorem Leapt.exists_emission {blocks cursor : Nat} (h : c.Leapt blocks cursor)
    (planned : cramped.plan pc insns = .ok p)
    (usual : (cramped.withRegistry X86.registry).plan pc insns = .ok p)
    (silent : ∀ start, PlanStep.allExits start p.steps = []) (absent : c.lookup pc = none)
    (small : p.size ≤ 1000) (room : cursor ≤ 1000) :
    ∃ d, Draft.Orderly c c.buffer d ∧ d.buffer.cursor = cursor + p.size ∧
      ∀ o c',
        Yields (do EngineM.resolvePending c.nextId; return c.nextId) (c.published pc p d) o c' →
        Yields (EngineM.emitBlock pc insns) c o c' := by
  obtain ⟨registry, safe⟩ := h.reachable.safe confined_shortJumps
  have hcursor := h.cursor
  have capacity : c.buffer.capacity = 4096 := capacity_of_frame h.frame
  have codeStart : c.buffer.codeStart = 88 := codeStart_of_frame h.frame
  have usable : p.size ≤ c.buffer.usable := by
    rw [CodeBuffer.usable, capacity, codeStart]
    omega
  have fits : p.size ≤ c.buffer.remaining := by
    rw [CodeBuffer.remaining, capacity, hcursor]
    omega
  obtain ⟨d, written, exits, stop⟩ :=
    exists_draft h.frame safe.steered.bounded usual silent usable (by rw [capacity]; omega)
  have planned := (plan_of_frame h.frame pc insns).trans planned
  have orderly := safe.orderly (registry.symm ▸ confined_shortJumps) planned written
  refine ⟨d, orderly, by rw [stop, hcursor], ?_⟩
  intro o c' joined
  refine yields_emitBlock_of_join safe planned usable fits absent written orderly ?_
  have chaining : c.config.directChaining = true := by rw [config_of_frame h.frame]; rfl
  rw [chaining, exits]
  exact (yields_pure ()).bind joined

theorem exists_distant : ∃ c : Engine, c.Leapt 2 309 := by
  obtain ⟨c, leapt, absent⟩ := exists_leapt
  obtain ⟨p, planned, usual, size, silent⟩ := exists_filler
  obtain ⟨d, orderly, cursor, emission⟩ :=
    leapt.exists_emission planned usual silent absent (by omega) (by omega)
  have taken : c.chains.take 0x300 = ([], c.chains.drop 0x300) := leapt.take_eq (by decide)
  have resolved : Yields (EngineM.resolvePending c.nextId) (c.published 0x300 p d) (.ok ())
      { c.published 0x300 p d with chains := c.chains.drop 0x300 } :=
    yields_resolvePending_of_take block?_published_nextId taken (yields_pure ())
  have reachable := leapt.reachable.emitBlock 0x300 filler #[]
  rw [emission _ _ (resolved.bind (yields_pure _)) #[]] at reachable
  refine ⟨_, reachable, (frame_published orderly.grown).trans leapt.frame, ?_, ?_, fun pc => ?_, ?_,
    hasExit_published leapt.exit⟩
  · exact cursor.trans (by rw [size])
  · have next := congrArg BlockId.index leapt.next
    exact BlockId.eq_of_index (by simpa [nextId, published] using next)
  · rw [ChainTable.listOf_drop, leapt.waiting]
    split
    · next here =>
      subst here
      rfl
    · rfl
  · exact (lookup_published (by decide)).trans leapt.absent

/-- A block has been published and is too far away from the exit that has waited for it. -/
theorem distant_block_stays_unlinked :
    ∃ c e : Engine, shortJumps.Confined ∧ c.ReachableOver shortJumps ∧
    ((EngineM.emitBlock 0x200 [⟨0x200, .blr⟩]).perform c #[]).1 =
      (.error (.error (.displacementOutOfRange 4213 4405 .w8)), e) ∧
    e.lookup 0x200 = some ⟨2⟩ ∧ e.HasExit ⟨0⟩ 0 { target := 0x200, site := ⟨116, 117, .w8⟩ } ∧
    e.buffer.branchTarget ⟨116, 117, .w8⟩ = .ok e.stubs.dispatch ∧
    ∃ n, ((EngineM.invalidateRange 0x200 0x204).perform e #[]).1.1 = .ok n := by
  obtain ⟨c, leapt⟩ := exists_distant
  obtain ⟨p, planned, usual, size, silent⟩ := exists_return
  obtain ⟨d, orderly, cursor, emission⟩ :=
    leapt.exists_emission planned usual silent leapt.absent (by omega) (by omega)
  have taken : c.chains.take 0x200 = ([⟨0x200, ⟨0⟩, 0⟩], c.chains.drop 0x200) := by
    rw [ChainTable.take, ChainTable.pendingFor, leapt.waiting]
    rfl
  have exit : Engine.HasExit { c.published 0x200 p d with chains := c.chains.drop 0x200 } ⟨0⟩ 0
      { target := 0x200, site := ⟨116, 117, .w8⟩ } := hasExit_published leapt.exit
  have failed : Yields (EngineM.resolvePending c.nextId) (c.published 0x200 p d)
      (.error (.error (.displacementOutOfRange 4213 4405 .w8)))
      { c.published 0x200 p d with chains := c.chains.drop 0x200 } := by
    refine yields_resolvePending_of_take block?_published_nextId taken (Yields.bind_error ?_)
    have steered : Engine.Steered { c.published 0x200 p d with chains := c.chains.drop 0x200 } :=
      (leapt.safe.published orderly).steered.withChains _
    have hexit := exit
    obtain ⟨b, hb, valid, -⟩ := hexit
    refine (yields_getBlock hb).bind ?_
    rw [valid]
    have base : d.buffer.base = 4096 := orderly.grown.base.trans (base_of_frame leapt.frame)
    have hostOffset : (c.newBlock 0x200 p d).hostOffset = 309 := leapt.cursor
    have far : d.buffer.tooFar ⟨116, 117, .w8⟩ (c.newBlock 0x200 p d).hostOffset =
        .error (.displacementOutOfRange 4213 4405 .w8) := by
      rw [hostOffset, CodeBuffer.tooFar, base]
      rfl
    rw [← far]
    exact steered.yields_link_error exit.stored rfl block?_published_nextId
      (by rw [hostOffset]; decide)
  have yields := emission _ _ failed.bind_error #[]
  have reachable := leapt.reachable.emitBlock 0x200 [⟨0x200, .blr⟩] #[]
  rw [yields] at reachable
  obtain ⟨routes, -, -, invalidates⟩ := reachable.links_stay_safe confined_shortJumps
  refine ⟨c, _, confined_shortJumps, leapt.reachable, yields, ?_, exit, routes _ _ _ exit,
    invalidates _ _ _⟩
  rw [← leapt.next]
  exact lookup_published_self

end ShortJumps

end Dynarec.Engine
