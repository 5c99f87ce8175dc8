import Dynarec.Proofs.Withdrawal

/-!
Linking a new block: its exits are linked or begin to wait, and then the exits are linked that have
waited for it. Until its turn comes an exit is postponed.
-/
namespace Dynarec.Engine

open Traced

variable {e c : Engine} {src : Nat → List Insn} {P H : BlockId → Nat → Prop}
  {s id d : BlockId} {k : Nat} {x : ExitSlot} {b : Block}

/-- The number of exits that are listed as incoming. -/
def incomingCount (e : Engine) : Nat := (e.cache.blocks.toList.map (·.incoming.length)).sum

theorem sum_map_modify {α : Type} {g : α → Nat} {f : α → α} {n : Nat}
    (grows : ∀ a, g (f a) = g a + n) {xs : List α} {i : Nat} (inside : i < xs.length) :
    ((xs.modify i f).map g).sum = (xs.map g).sum + n := by
  induction xs generalizing i with
  | nil => cases inside
  | cons a xs ih =>
    cases i with
    | zero =>
      simp only [List.modify_zero_cons, List.map_cons, List.sum_cons, grows]
      omega
    | succ i =>
      have := ih (Nat.lt_of_succ_lt_succ inside)
      simp only [List.modify_succ_cons, List.map_cons, List.sum_cons, this]
      omega

theorem incomingCount_modifyBlock {f : Block → Block} {n : Nat}
    (grows : ∀ b, (f b).incoming.length = b.incoming.length + n)
    (stored : ∃ b, e.block? id = some b) :
    (e.modifyBlock id f).incomingCount = e.incomingCount + n := by
  obtain ⟨b, hb⟩ := stored
  have inside := (Array.getElem?_eq_some_iff.1 hb).1
  simp only [incomingCount, modifyBlock, BlockCache.modify, Array.toList_modify]
  exact sum_map_modify grows inside

theorem incomingCount_linkTo (source : ∃ b, e.block? s = some b)
    (stored : ∃ b, e.block? d = some b) :
    (e.linkTo s k x d).incomingCount = e.incomingCount + 1 := by
  have kept : (e.retarget s k x (some d)).incomingCount = e.incomingCount + 0 :=
    incomingCount_modifyBlock (e := e) (fun b => congrArg List.length (incoming_refresh _)) source
  have stored' : ∃ b, (e.retarget s k x (some d)).block? d = some b := by
    simp only [← Option.isSome_iff_exists, block?_retarget] at stored ⊢
    split <;> simp [stored]
  have added : (e.linkTo s k x d).incomingCount = (e.retarget s k x (some d)).incomingCount + 1 :=
    incomingCount_modifyBlock (e := e.retarget s k x (some d))
      (fun b => by simp [Block.addIncoming]) stored'
  rw [added, kept, Nat.add_zero]

/-- The engines differ in links and open exits only. -/
structure Relinked (e c : Engine) : Prop where
  frame : c.frame = e.frame
  bodies : c.bodies = e.bodies
  valid : ∀ i, (c.block? i).map (·.isValid) = (e.block? i).map (·.isValid)
  index : c.cache.index = e.cache.index
  cursor : c.buffer.cursor = e.buffer.cursor
  flushes : c.stats.flushes = e.stats.flushes
  /-- The counter of links grows with the lists of incoming exits. -/
  tally : c.stats.chainLinks + e.incomingCount = e.stats.chainLinks + c.incomingCount

namespace Relinked

theorem refl (e : Engine) : e.Relinked e := ⟨rfl, rfl, fun _ => rfl, rfl, rfl, rfl, rfl⟩

theorem symm (h : e.Relinked c) : c.Relinked e :=
  ⟨h.frame.symm, h.bodies.symm, fun i => (h.valid i).symm, h.index.symm, h.cursor.symm,
    h.flushes.symm, h.tally.symm⟩

theorem trans {e' : Engine} (h : e.Relinked c) (h' : c.Relinked e') : e.Relinked e' where
  frame := h'.frame.trans h.frame
  bodies := h'.bodies.trans h.bodies
  valid i := (h'.valid i).trans (h.valid i)
  index := h'.index.trans h.index
  cursor := h'.cursor.trans h.cursor
  flushes := h'.flushes.trans h.flushes
  tally := by
    have := h.tally
    have := h'.tally
    omega

theorem linkTo (source : ∃ b, e.block? s = some b) (stored : ∃ b, e.block? d = some b) :
    e.Relinked (e.linkTo s k x d) where
  frame := frame_linkTo
  bodies := bodies_linkTo
  valid := valid_linkTo
  index := index_linkTo
  cursor := cursor_linkTo
  flushes := rfl
  tally := by
    have links : (e.linkTo s k x d).stats.chainLinks = e.stats.chainLinks + 1 := rfl
    rw [links, incomingCount_linkTo source stored]
    omega

theorem withChains (chains : ChainTable) : e.Relinked { e with chains } :=
  ⟨rfl, rfl, fun _ => rfl, rfl, rfl, rfl, rfl⟩

theorem block (h : e.Relinked c) (hb : e.block? id = some b) :
    ∃ b', c.block? id = some b' ∧ b'.body = b.body ∧ b'.isValid = b.isValid := by
  obtain ⟨b', hb', body⟩ := block?_of_bodies h.bodies.symm hb
  have valid := h.valid id
  rw [hb, hb'] at valid
  exact ⟨b', hb', body, Option.some.inj valid⟩

theorem hasExit (h : e.Relinked c) (hx : e.HasExit s k x) :
    ∃ y, c.HasExit s k y ∧ y.target = x.target := by
  obtain ⟨b, hb, valid, hx⟩ := hx
  obtain ⟨b', hb', body, valid'⟩ := h.block hb
  have hexits := congrArg (·[k]?) (Block.exits_of_body body)
  simp only [List.getElem?_map, hx, Option.map_some] at hexits
  obtain ⟨y, hy, bare⟩ := Option.map_eq_some_iff.1 hexits
  refine ⟨y, ⟨b', hb', valid'.trans valid, hy⟩, ?_⟩
  exact (show y.bare.target = x.bare.target by rw [bare])

end Relinked

/-- A new exit is linked if its target is resident, and waits otherwise. -/
theorem Sound.yields_linkOrWait (h : e.Sound src P H) (hx : e.HasExit s k x) (hp : P s k)
    (hh : H s k) :
    ∃ c, Yields (EngineM.linkOrWait s k x.target) e (.ok ()) c ∧ e.Relinked c ∧
      c.Sound src (fun i j => P i j ∧ (i, j) ≠ (s, k)) (fun i j => H i j ∧ (i, j) ≠ (s, k)) ∧
      ∀ w ∈ e.chains.waiting, w ∈ c.chains.waiting := by
  cases found : e.cache.index[x.target]? with
  | some d =>
    obtain ⟨b, hb, -, -⟩ := h.indexed.index.1 found
    refine ⟨e.linkTo s k x d, yields_get.bind ?_, .linkTo hx.block ⟨b, hb⟩, h.linkTo hx hp hh found,
      fun w hw => ?_⟩
    · rw [h.indexed.lookup, found]
      exact yields_link h.placed hx (h.graph.postponed hx.stored hp) hb
    · rw [chains_linkTo]
      exact hw
  | none =>
    refine ⟨{ e with chains := e.chains.add x.target s k }, yields_get.bind ?_, .withChains _,
      h.wait hx hp found, fun w hw => ChainTable.mem_add.2 (.inl hw)⟩
    rw [h.indexed.lookup, found]
    exact yields_modify _

/-- On the way from `e` to `c` the first `n` exits of the new block `id` have been linked. Exits in
`Q`, which belong to other blocks, are postponed. -/
structure Linking (e : Engine) (src : Nat → List Insn) (Q : BlockId → Nat → Prop) (id : BlockId)
    (n : Nat) (c : Engine) : Prop where
  relinked : e.Relinked c
  sound : c.Sound src (fun i j => (i = id ∧ n ≤ j) ∨ Q i j) fun i j => i = id ∧ n ≤ j
  kept : ∀ w ∈ e.chains.waiting, w ∈ c.chains.waiting

variable {Q : BlockId → Nat → Prop}

theorem Linking.step (h : e.Linking src Q id k c) (other : ∀ j, ¬ Q id j) (hx : e.HasExit id k x) :
    ∃ c', Yields (EngineM.linkOrWait id k x.target) c (.ok ()) c' ∧
      e.Linking src Q id (k + 1) c' := by
  obtain ⟨y, hy, target⟩ := h.relinked.hasExit hx
  obtain ⟨c', yields, relinked, sound, kept⟩ :=
    h.sound.yields_linkOrWait hy (.inl ⟨rfl, Nat.le_refl k⟩) ⟨rfl, Nat.le_refl k⟩
  rw [target] at yields
  refine ⟨c', yields, h.relinked.trans relinked, sound.congr ?_ ?_,
    fun w hw => kept w (h.kept w hw)⟩
  · intro i j _ _
    have := other k
    simp only [ne_eq, Prod.mk.injEq]
    grind
  · intro i j _ _
    simp only [ne_eq, Prod.mk.injEq]
    grind

/-- All exits of a new block are linked or wait. -/
theorem Sound.yields_linkExits (h : e.Sound src (fun i j => i = id ∨ Q i j) fun i _ => i = id)
    (other : ∀ j, ¬ Q id j) (hb : e.block? id = some b) (valid : b.isValid = true) :
    ∃ c, Yields (b.exits.zipIdx.forM fun (exit, k) => EngineM.linkOrWait id k exit.target) e
      (.ok ()) c ∧ e.Relinked c ∧ c.Sound src Q (fun _ _ => False) ∧
      ∀ w ∈ e.chains.waiting, w ∈ c.chains.waiting := by
  have linking :
      ∃ c, Yields (b.exits.zipIdx.forM fun (exit, k) => EngineM.linkOrWait id k exit.target)
        e (.ok ()) c ∧ e.Linking src Q id b.exits.zipIdx.length c := by
    refine yields_forM (I := fun done c => e.Linking src Q id done.length c)
      ⟨.refl e, h.congr (fun _ _ _ _ => by simp) (fun _ _ _ _ => by simp), fun _ hw => hw⟩ ?_
    rintro done ⟨x, k⟩ rest c hsplit hc
    have hx : b.exits.zipIdx[done.length]? = some (x, k) := by rw [hsplit]; simp
    rw [List.getElem?_zipIdx] at hx
    obtain ⟨x', hx', heq⟩ := Option.map_eq_some_iff.1 hx
    obtain ⟨rfl, rfl⟩ := Prod.mk.inj heq
    rw [List.length_append, Nat.zero_add]
    exact hc.step other ⟨b, hb, valid, hx'⟩
  obtain ⟨c, yields, hc⟩ := linking
  obtain ⟨b', hb', body, -⟩ := hc.relinked.block hb
  have length : b'.exits.length = b.exits.zipIdx.length := by
    have := congrArg List.length (Block.exits_of_body body)
    rw [List.length_zipIdx]
    simpa using this
  have inside : ∀ {i j y}, c.StoredExit i j y → ¬ (i = id ∧ b.exits.zipIdx.length ≤ j) := by
    rintro i j y ⟨c', hc', hy⟩ ⟨rfl, hj⟩
    obtain rfl := Option.some.inj (hb'.symm.trans hc')
    have := (List.getElem?_eq_some_iff.1 hy).1
    omega
  refine ⟨c, yields, hc.relinked, hc.sound.congr ?_ ?_, hc.kept⟩
  · exact fun i j y hy => ⟨fun h => h.resolve_left (inside hy), .inr⟩
  · exact fun i j y hy => iff_false_intro (inside hy.stored)

/-- The exits that wait for an address are taken out of the table. -/
theorem Sound.take {pc : UInt32}
    (h : e.Sound src (fun i j => ⟨pc, i, j⟩ ∈ e.chains.waiting) fun _ _ => False) :
    Engine.Sound { e with chains := (e.chains.take pc).2 } src
      (fun i j => ⟨pc, i, j⟩ ∈ e.chains.waiting) fun i j => ⟨pc, i, j⟩ ∈ e.chains.waiting where
  placed := h.placed.congr rfl rfl rfl
  coded := h.coded.withChains h.placed _
  indexed := h.indexed.congr rfl rfl (fun _ => rfl) rfl rfl
  graph :=
    { named := h.graph.named
      postponed := h.graph.postponed
      linked := h.graph.linked
      waiting := by
        intro w
        simp only [ChainTable.take, ChainTable.mem_drop]
        constructor
        · rintro ⟨hw, target⟩
          obtain ⟨y, hy, hyw, unlinked, -⟩ := h.graph.waiting.1 hw
          refine ⟨y, hy, hyw, unlinked, fun hpc => target ?_⟩
          obtain ⟨z, hz, hzw, -⟩ := h.graph.waiting.1 hpc
          obtain rfl := HasExit.unique hy hz
          exact hyw.symm.trans hzw
        · rintro ⟨y, hy, hyw, unlinked, hidden⟩
          have hw := h.graph.waiting.2 ⟨y, hy, hyw, unlinked, not_false⟩
          exact ⟨hw, fun target => hidden (target ▸ hw)⟩
      waiting_nodup := ChainTable.nodup_waiting _
      incoming := h.graph.incoming
      incoming_nodup := h.graph.incoming_nodup
      state := h.graph.state }

/-- On the way from `e` to `c` the exits in `done` have been linked of those that waited for
`pc`. -/
structure Resolving (e : Engine) (src : Nat → List Insn) (pc : UInt32) (done : List OpenExit)
    (c : Engine) : Prop where
  relinked : e.Relinked c
  sound : c.Sound src (fun i j => ⟨pc, i, j⟩ ∈ e.chains.waiting ∧ (⟨pc, i, j⟩ : OpenExit) ∉ done)
    fun i j => ⟨pc, i, j⟩ ∈ e.chains.waiting ∧ (⟨pc, i, j⟩ : OpenExit) ∉ done

theorem Resolving.step {pc : UInt32} {done : List OpenExit} (h : e.Resolving src pc done c)
    (hb : e.block? id = some b) (found : e.cache.index[pc]? = some id) (hx : e.HasExit s k x)
    (target : x.target = pc) (waits : ⟨pc, s, k⟩ ∈ e.chains.waiting)
    (fresh : (⟨pc, s, k⟩ : OpenExit) ∉ done) :
    ∃ c', Yields (do if (← EngineM.getBlock s).isValid then EngineM.link s k id) c (.ok ()) c' ∧
      e.Resolving src pc (done ++ [⟨pc, s, k⟩]) c' := by
  obtain ⟨y, hy, same⟩ := h.relinked.hasExit hx
  obtain ⟨b', hb', -⟩ := h.relinked.block hb
  have unlinked := h.sound.graph.postponed hy.stored ⟨waits, fresh⟩
  have found' : c.cache.index[y.target]? = some id := by
    rw [h.relinked.index, same, target]; exact found
  have next (i : BlockId) (j : Nat) :
      ((⟨pc, i, j⟩ ∈ e.chains.waiting ∧ (⟨pc, i, j⟩ : OpenExit) ∉ done) ∧ (i, j) ≠ (s, k)) ↔
        ⟨pc, i, j⟩ ∈ e.chains.waiting ∧ (⟨pc, i, j⟩ : OpenExit) ∉ done ++ [⟨pc, s, k⟩] := by
    simp [and_assoc]
  refine ⟨c.linkTo s k y id, ?_, h.relinked.trans (.linkTo hy.block ⟨b', hb'⟩),
    (h.sound.linkTo hy ⟨waits, fresh⟩ ⟨waits, fresh⟩ found').congr (fun i j _ _ => next i j)
      fun i j _ _ => next i j⟩
  have link := yields_link h.sound.placed hy unlinked hb'
  obtain ⟨sb, hsb, valid, -⟩ := hy
  refine (yields_getBlock hsb).bind ?_
  rw [valid]
  exact link

/-- Every exit that has waited for a new block is linked to it. -/
theorem Sound.yields_resolvePending {pc : UInt32}
    (h : e.Sound src (fun i j => ⟨pc, i, j⟩ ∈ e.chains.waiting) fun _ _ => False)
    (hb : e.block? id = some b) (entry : b.entry = pc) (found : e.cache.index[pc]? = some id) :
    ∃ c, Yields (EngineM.resolvePending id) e (.ok ()) c ∧ e.Relinked c ∧
      c.Sound src (fun _ _ => False) fun _ _ => False := by
  have pending : ∀ w ∈ e.chains.pendingFor pc, w ∈ e.chains.waiting ∧ w.target = pc :=
    fun w hw => ChainTable.mem_pendingFor_iff.1 hw
  have nodup := e.chains.nodup_pendingFor pc
  have resolved : ∃ c, Yields ((e.chains.pendingFor pc).forM fun w => do
      if (← EngineM.getBlock w.src).isValid then EngineM.link w.src w.exit id)
      { e with chains := (e.chains.take pc).2 } (.ok ()) c ∧
      e.Resolving src pc (e.chains.pendingFor pc) c := by
    refine yields_forM (I := e.Resolving src pc)
      ⟨.withChains _, h.take.congr (fun _ _ _ _ => by simp) (fun _ _ _ _ => by simp)⟩ ?_
    rintro done ⟨target, s, k⟩ rest c hsplit hc
    obtain ⟨waits, rfl⟩ := pending ⟨target, s, k⟩ (by rw [hsplit]; simp)
    obtain ⟨x, hx, target, -⟩ := h.graph.waiting.1 waits
    refine hc.step hb found hx target waits ?_
    rw [hsplit] at nodup
    exact fun mem => (List.nodup_append.1 nodup).2.2 _ mem _ (by simp) rfl
  obtain ⟨c, yields, hc⟩ := resolved
  have none_left (i : BlockId) (j : Nat) : ¬ (⟨pc, i, j⟩ ∈ e.chains.waiting ∧
      (⟨pc, i, j⟩ : OpenExit) ∉ e.chains.pendingFor pc) := by
    rintro ⟨waits, absent⟩
    exact absent (ChainTable.mem_pendingFor_iff.2 ⟨waits, rfl⟩)
  refine ⟨c, ?_, hc.relinked, hc.sound.congr (fun i j _ _ => iff_false_intro (none_left i j))
    fun i j _ _ => iff_false_intro (none_left i j)⟩
  refine yields_get.bind ((yields_getBlock hb).bind ?_)
  rw [entry]
  exact (yields_modify _).bind yields

end Dynarec.Engine
