import Dynarec.Proofs.Residence

/-!
The graph of chained blocks: links, lists of incoming exits, the table of open exits and the index
agree. While a block is being linked, some exits are still postponed.
-/
namespace Dynarec.Engine

/-- `x` is exit `k` of the stored block `s`. -/
def StoredExit (e : Engine) (s : BlockId) (k : Nat) (x : ExitSlot) : Prop :=
  ∃ b, e.block? s = some b ∧ b.exits[k]? = some x

/-- `x` is exit `k` of the resident block `s`. -/
def HasExit (e : Engine) (s : BlockId) (k : Nat) (x : ExitSlot) : Prop :=
  ∃ b, e.block? s = some b ∧ b.isValid = true ∧ b.exits[k]? = some x

/-- Exits in `P` are postponed: they lead to the dispatch stub even if their target is resident.
Exits in `H` are hidden: they do not wait in the table of open exits. -/
structure Graph (e : Engine) (P H : BlockId → Nat → Prop) : Prop where
  named : ∀ {s k x d}, e.StoredExit s k x → x.linked = some d → ∃ b, e.block? d = some b
  postponed : ∀ {s k x}, e.StoredExit s k x → P s k → x.linked = none
  linked : ∀ {s k x}, e.HasExit s k x → ¬ P s k → x.linked = e.cache.index[x.target]?
  waiting : ∀ {w : OpenExit}, w ∈ e.chains.waiting ↔ ∃ x, e.HasExit w.src w.exit x ∧
    x.target = w.target ∧ x.linked = none ∧ ¬ H w.src w.exit
  waiting_nodup : e.chains.waiting.Nodup
  incoming : ∀ {d b s k}, e.block? d = some b → ((s, k) ∈ b.incoming ↔
    b.isValid = true ∧ ∃ x, e.HasExit s k x ∧ x.linked = some d)
  incoming_nodup : ∀ {d b}, e.block? d = some b → b.incoming.Nodup
  state : ∀ {d b}, e.block? d = some b → b.isValid = true → b.state = b.linkState

variable {e : Engine} {P H P' H' : BlockId → Nat → Prop} {s d : BlockId} {k : Nat} {x y : ExitSlot}

/-- The exits of resident blocks are stored. -/
theorem HasExit.stored (hx : e.HasExit s k x) : e.StoredExit s k x := by
  obtain ⟨b, hb, -, hx⟩ := hx
  exact ⟨b, hb, hx⟩

theorem StoredExit.block (hx : e.StoredExit s k x) : ∃ b, e.block? s = some b := by
  obtain ⟨b, hb, -⟩ := hx
  exact ⟨b, hb⟩

theorem HasExit.block (hx : e.HasExit s k x) : ∃ b, e.block? s = some b := hx.stored.block

/-- An exit is known by its block and its number. -/
theorem StoredExit.unique (hx : e.StoredExit s k x) (hy : e.StoredExit s k y) : x = y := by
  obtain ⟨b, hb, hx⟩ := hx
  obtain ⟨c, hc, hy⟩ := hy
  obtain rfl : b = c := Option.some.inj (hb.symm.trans hc)
  exact Option.some.inj (hx.symm.trans hy)

theorem HasExit.unique (hx : e.HasExit s k x) (hy : e.HasExit s k y) : x = y :=
  StoredExit.unique hx.stored hy.stored

/-- It matters only for existing exits which are postponed or hidden. -/
theorem Graph.congr (h : e.Graph P H) (hP : ∀ s k x, e.StoredExit s k x → (P s k ↔ P' s k))
    (hH : ∀ s k x, e.HasExit s k x → (H s k ↔ H' s k)) : e.Graph P' H' where
  named := h.named
  postponed hx hp := h.postponed hx ((hP _ _ _ hx).2 hp)
  linked hx hp := h.linked hx fun hp' => hp ((hP _ _ _ hx.stored).1 hp')
  waiting := by
    intro w
    refine h.waiting.trans (exists_congr fun x => and_congr_right fun hx => ?_)
    rw [hH _ _ _ hx]
  waiting_nodup := h.waiting_nodup
  incoming := h.incoming
  incoming_nodup := h.incoming_nodup
  state := h.state

section Wait

/-- An exit without a resident target begins to wait. -/
theorem Graph.wait (h : e.Graph P H) (hx : e.HasExit s k x) (hp : P s k)
    (absent : e.cache.index[x.target]? = none) :
    Engine.Graph { e with chains := e.chains.add x.target s k }
      (fun i j => P i j ∧ (i, j) ≠ (s, k)) (fun i j => H i j ∧ (i, j) ≠ (s, k)) where
  named := h.named
  postponed hy hp' := h.postponed hy hp'.1
  linked {i j y} hy hp' := by
    by_cases same : (i, j) = (s, k)
    · cases same
      obtain rfl := HasExit.unique hx hy
      exact (h.postponed hx.stored hp).trans absent.symm
    · exact h.linked hy fun hp => hp' ⟨hp, same⟩
  waiting {w} := by
    rw [ChainTable.mem_add, h.waiting]
    constructor
    · rintro (⟨y, hy, target, unlinked, hidden⟩ | rfl)
      · exact ⟨y, hy, target, unlinked, fun hh => hidden hh.1⟩
      · exact ⟨x, hx, rfl, h.postponed hx.stored hp, fun hh => hh.2 rfl⟩
    · rintro ⟨y, hy, target, unlinked, hidden⟩
      by_cases same : (w.src, w.exit) = (s, k)
      · obtain ⟨hs, hk⟩ := Prod.mk.inj same
        obtain rfl := HasExit.unique hx (hs ▸ hk ▸ hy)
        right
        cases w
        simp_all
      · exact .inl ⟨y, hy, target, unlinked, fun hh => hidden ⟨hh, same⟩⟩
  waiting_nodup := ChainTable.nodup_waiting _
  incoming := h.incoming
  incoming_nodup := h.incoming_nodup
  state := h.state

end Wait

section Valid

variable {b : Block} {id : BlockId} {f : Block → Block} {l : Option BlockId} {i : BlockId} {j : Nat}

theorem isValid_linkState (b : Block) : Block.isValid { b with state := b.linkState } = true := by
  unfold Block.linkState
  split <;> rfl

theorem isValid_refresh (b : Block) : b.refresh.isValid = b.isValid := by
  unfold Block.refresh
  split
  · next valid => rw [isValid_linkState, valid]
  · rfl

/-- A block that has been refreshed is in the state that its links ask for. -/
theorem state_refresh (h : b.isValid = true) : b.refresh.state = b.refresh.linkState := by
  rw [Block.refresh, if_pos h]
  rfl

theorem hasExit_modifyBlock (hvalid : ∀ b, (f b).isValid = b.isValid)
    (hexits : ∀ b, (f b).exits = b.exits) :
    (e.modifyBlock id f).HasExit s k x ↔ e.HasExit s k x := by
  unfold HasExit
  rw [block?_modifyBlock]
  split
  · constructor
    · rintro ⟨_, hb, valid, hx⟩
      obtain ⟨b₀, hb₀, rfl⟩ := Option.map_eq_some_iff.1 hb
      exact ⟨b₀, hb₀, hvalid b₀ ▸ valid, hexits b₀ ▸ hx⟩
    · rintro ⟨b, hb, valid, hx⟩
      exact ⟨f b, by rw [hb]; rfl, (hvalid b).symm ▸ valid, (hexits b).symm ▸ hx⟩
  · rfl

/-- Pointing an exit elsewhere changes its own link and no other. -/
theorem hasExit_retarget : (e.retarget s k x l).HasExit i j y ↔ ∃ y₀, e.HasExit i j y₀ ∧
    (((i, j) = (s, k) ∧ y = { y₀ with linked := l }) ∨ ((i, j) ≠ (s, k) ∧ y = y₀)) := by
  constructor
  · rintro ⟨b, hb, valid, hy⟩
    obtain ⟨b₀, y₀, hb₀, hy₀, change⟩ := exit_of_retarget hb hy
    refine ⟨y₀, ⟨b₀, hb₀, ?_, hy₀⟩, change⟩
    rw [block?_retarget] at hb
    split at hb
    · rw [hb₀] at hb
      cases hb
      rwa [isValid_refresh] at valid
    · rwa [← Option.some.inj (hb₀.symm.trans hb)] at valid
  · rintro ⟨y₀, ⟨b, hb, valid, hy₀⟩, change⟩
    by_cases hi : i = s
    · refine ⟨(b.setLink k l).refresh, ?_, ?_, ?_⟩
      · rw [block?_retarget, if_pos hi, hb]
        rfl
      · rw [isValid_refresh]
        exact valid
      · rw [exits_refresh, getElem?_setLink, hy₀]
        obtain ⟨same, rfl⟩ | ⟨other, rfl⟩ := change
        · rw [if_pos (Prod.mk.inj same).2.symm]
          rfl
        · rw [if_neg fun hk => other (by rw [hi, hk])]
    · refine ⟨b, by rw [block?_retarget, if_neg hi, hb], valid, ?_⟩
      obtain ⟨same, -⟩ | ⟨-, rfl⟩ := change
      · exact absurd (Prod.mk.inj same).1 hi
      · exact hy₀

end Valid

/-- The engine with an exit linked to a block. -/
def linkTo (e : Engine) (s : BlockId) (k : Nat) (x : ExitSlot) (d : BlockId) : Engine :=
  { (e.retarget s k x (some d)).modifyBlock d (·.addIncoming s k) with
    stats := { e.stats with chainLinks := e.stats.chainLinks + 1 } }

theorem frame_linkTo : (e.linkTo s k x d).frame = e.frame := by
  simp only [frame, linkTo, retarget, modifyBlock, CodeBuffer.point, BlockCache.modify]

theorem bodies_linkTo : (e.linkTo s k x d).bodies = e.bodies := by
  refine Eq.trans (b := (e.retarget s k x (some d)).bodies) ?_ bodies_retarget
  exact bodies_modifyBlock fun _ _ => rfl

/-- Linking an exit changes its own link and no other. -/
theorem hasExit_linkTo {i : BlockId} {j : Nat} : (e.linkTo s k x d).HasExit i j y ↔
    ∃ y₀, e.HasExit i j y₀ ∧
      (((i, j) = (s, k) ∧ y = { y₀ with linked := some d }) ∨ ((i, j) ≠ (s, k) ∧ y = y₀)) :=
  Iff.trans (hasExit_modifyBlock (fun _ => rfl) (fun _ => rfl)) hasExit_retarget

theorem block?_linkTo (i : BlockId) : (e.linkTo s k x d).block? i =
    if i = d then ((e.retarget s k x (some d)).block? i).map (·.addIncoming s k)
    else (e.retarget s k x (some d)).block? i :=
  @block?_modifyBlock (e.retarget s k x (some d)) d (·.addIncoming s k) i

/-- Linking stores and drops no block. -/
theorem stored_linkTo {i : BlockId} :
    (∃ b, (e.linkTo s k x d).block? i = some b) ↔ ∃ b, e.block? i = some b := by
  simp only [← Option.isSome_iff_exists, block?_linkTo, block?_retarget]
  split <;> split <;> simp

theorem exit_of_linkTo {i : BlockId} {c : Block} {j : Nat}
    (hc : (e.linkTo s k x d).block? i = some c) (hy : c.exits[j]? = some y) :
    ∃ c₀ y₀, e.block? i = some c₀ ∧ c₀.exits[j]? = some y₀ ∧
      (((i, j) = (s, k) ∧ y = { y₀ with linked := some d }) ∨ ((i, j) ≠ (s, k) ∧ y = y₀)) := by
  rw [block?_linkTo] at hc
  split at hc
  · obtain ⟨c₁, hc₁, rfl⟩ := Option.map_eq_some_iff.1 hc
    exact exit_of_retarget hc₁ hy
  · exact exit_of_retarget hc hy

theorem incoming_refresh (b : Block) : b.refresh.incoming = b.incoming := by
  unfold Block.refresh
  split <;> rfl

/-- The state of a block keeps up with its links when an exit is pointed elsewhere. -/
theorem state_of_retarget {l : Option BlockId} {i : BlockId} {b : Block}
    (hb : (e.retarget s k x l).block? i = some b) :
    ∃ b₀, e.block? i = some b₀ ∧ b.isValid = b₀.isValid ∧ b.incoming = b₀.incoming ∧
      (b₀.isValid = true → b₀.state = b₀.linkState → b.state = b.linkState) := by
  rw [block?_retarget] at hb
  split at hb
  · obtain ⟨b₀, hb₀, rfl⟩ := Option.map_eq_some_iff.1 hb
    exact ⟨b₀, hb₀, isValid_refresh _, incoming_refresh _, fun valid _ => state_refresh valid⟩
  · exact ⟨b, hb, rfl, rfl, fun _ state => state⟩

/-- The state of a block keeps up with its links when an exit is linked, and the target gets one
more incoming exit. -/
theorem state_of_linkTo {i : BlockId} {b : Block} (hb : (e.linkTo s k x d).block? i = some b) :
    ∃ b₀, e.block? i = some b₀ ∧ b.isValid = b₀.isValid ∧
      b.incoming = b₀.incoming ++ (if i = d then [(s, k)] else []) ∧
      (b₀.isValid = true → b₀.state = b₀.linkState → b.state = b.linkState) := by
  rw [block?_linkTo] at hb
  split at hb
  · next hi =>
    obtain ⟨b₁, hb₁, rfl⟩ := Option.map_eq_some_iff.1 hb
    obtain ⟨b₀, hb₀, valid, incoming, state⟩ := state_of_retarget hb₁
    exact ⟨b₀, hb₀, valid, by simp [Block.addIncoming, incoming, hi], state⟩
  · next hi =>
    obtain ⟨b₀, hb₀, valid, incoming, state⟩ := state_of_retarget hb
    exact ⟨b₀, hb₀, valid, by simp [incoming, hi], state⟩

theorem index_linkTo : (e.linkTo s k x d).cache.index = e.cache.index := by
  simp only [linkTo, retarget, modifyBlock, BlockCache.modify]

theorem chains_linkTo : (e.linkTo s k x d).chains = e.chains := by
  simp only [linkTo, retarget, modifyBlock]

section Keep

variable {src : Nat → List Insn} {b : Block}

theorem cursor_linkTo : (e.linkTo s k x d).buffer.cursor = e.buffer.cursor := by
  simp only [linkTo, retarget, modifyBlock, CodeBuffer.cursor_point]

theorem Placed.linkTo (h : e.Placed src) : (e.linkTo s k x d).Placed src :=
  h.congr frame_linkTo bodies_linkTo cursor_linkTo

/-- A linked exit jumps to the block that it is linked to, and no other code changes. -/
theorem Coded.linkTo (h : e.Coded src) (placed : e.Placed src) (hx : e.HasExit s k x) :
    (e.linkTo s k x d).Coded src := by
  obtain ⟨b, hb, -, hx⟩ := hx
  have retargeted : (e.retarget s k x (some d)).Coded src := h.retarget placed hb hx
  refine retargeted.congr placed.retarget (frame_linkTo.trans frame_retarget.symm)
    (bodies_linkTo.trans bodies_retarget.symm) (by simp only [Engine.linkTo, modifyBlock]) ?_
  intro i c hc
  rw [block?_linkTo] at hc
  split at hc
  · obtain ⟨c₀, hc₀, rfl⟩ := Option.map_eq_some_iff.1 hc
    exact ⟨c₀, hc₀, rfl⟩
  · exact ⟨c, hc, rfl⟩

theorem valid_linkTo (i : BlockId) : ((e.linkTo s k x d).block? i).map (·.isValid) =
    (e.block? i).map (·.isValid) := by
  rw [block?_linkTo, block?_retarget]
  cases e.block? i with
  | none => split <;> split <;> rfl
  | some b =>
    have hvalid := isValid_refresh (b.setLink k (some d))
    split <;> split <;> simp_all [Block.addIncoming, Block.isValid, Block.setLink]

/-- Linking leaves the index alone. -/
theorem Indexed.linkTo (h : e.Indexed) : (e.linkTo s k x d).Indexed :=
  h.congr frame_linkTo bodies_linkTo valid_linkTo index_linkTo
    (by simp only [Engine.linkTo, retarget, modifyBlock, BlockCache.modify])

end Keep

section Yields

open Traced

variable {b c : Block} {id : BlockId} {src : Nat → List Insn}

theorem yields_getBlock (hb : e.block? id = some b) : Yields (EngineM.getBlock id) e (.ok b) e := by
  refine yields_get.bind ?_
  rw [get_eq_ok.2 hb]
  exact yields_lift _

theorem yields_modifyBlock (f : Block → Block) :
    Yields (EngineM.modifyBlock id f) e (.ok ()) (e.modifyBlock id f) := yields_modify _

theorem exit_eq_ok (hx : b.exits[k]? = some x) : b.exit k = .ok x := by simp [Block.exit, hx]

theorem landing_some (hd : e.block? d = some c) : e.landing (some d) = c.hostOffset := by
  simp [landing, hd]

/-- The field of a stored exit can be pointed at any block and at the dispatch stub. -/
theorem Placed.yields_redirect (placed : e.Placed src) (hb : e.block? s = some b)
    (hx : b.exits[k]? = some x) (l : Option BlockId) :
    Yields (EngineM.onBuffer (CodeBuffer.redirect x.site (e.landing l))) e (.ok ())
      { e with buffer := e.buffer.point x.site (e.landing l) } := by
  have within := placed.within hb (List.mem_of_getElem? hx)
  have inside := placed.stop_le hb
  have target_le := placed.landing_le l
  exact (CodeBuffer.yields_redirect placed.bounded (within.has placed.bounded inside) target_le
    (within.spans placed.bounded placed.hosted.reach inside target_le)).zoom

/-- An exit that leads to the dispatch stub is linked to a block, if its field can be pointed
there. -/
theorem yields_link_of_redirect (hx : e.StoredExit s k x) (unlinked : x.linked = none)
    (hd : e.block? d = some c)
    (redirects : Yields (EngineM.onBuffer (CodeBuffer.redirect x.site c.hostOffset)) e (.ok ())
      { e with buffer := e.buffer.point x.site c.hostOffset }) :
    Yields (EngineM.link s k d) e (.ok ()) (e.linkTo s k x d) := by
  obtain ⟨b, hb, hx⟩ := hx
  refine (yields_getBlock hd).bind ((yields_getBlock hb).bind ?_)
  rw [exit_eq_ok hx]
  refine (yields_lift _).bind ?_
  rw [if_neg (by simp [unlinked]), unlinked]
  refine redirects.bind ?_
  rw [← landing_some hd]
  refine (yields_modifyBlock _).bind ((yields_modifyBlock _).bind ((yields_modify _).bind ?_))
  exact yields_report _

/-- An exit of a resident block can be linked to any stored block. -/
theorem yields_link (placed : e.Placed src) (hx : e.HasExit s k x) (unlinked : x.linked = none)
    (hd : e.block? d = some c) : Yields (EngineM.link s k d) e (.ok ()) (e.linkTo s k x d) := by
  refine yields_link_of_redirect hx.stored unlinked hd ?_
  obtain ⟨b, hb, -, hx⟩ := hx
  rw [← landing_some hd]
  exact placed.yields_redirect hb hx (some d)

/-- An exit goes back to the dispatch stub, if its field can be pointed there. -/
theorem yields_unlink_of_redirect (hx : e.StoredExit s k x)
    (redirects : Yields (EngineM.onBuffer (CodeBuffer.redirect x.site e.stubs.dispatch)) e (.ok ())
      { e with buffer := e.buffer.point x.site e.stubs.dispatch }) :
    Yields (EngineM.unlink s k) e (.ok ()) (e.retarget s k x none) := by
  obtain ⟨b, hb, hx⟩ := hx
  refine (yields_getBlock hb).bind ?_
  rw [exit_eq_ok hx]
  refine (yields_lift _).bind (yields_get.bind ?_)
  exact redirects.bind ((yields_modifyBlock _).bind (yields_report _))

/-- An exit of a resident block can go back to the dispatch stub. -/
theorem yields_unlink (placed : e.Placed src) (hx : e.HasExit s k x) :
    Yields (EngineM.unlink s k) e (.ok ()) (e.retarget s k x none) := by
  refine yields_unlink_of_redirect hx.stored ?_
  obtain ⟨b, hb, -, hx⟩ := hx
  exact placed.yields_redirect hb hx none

end Yields

/-- A postponed exit is linked to the resident block at its target. -/
theorem Graph.linkTo (h : e.Graph P H) (hx : e.HasExit s k x) (hp : P s k) (hh : H s k)
    (found : e.cache.index[x.target]? = some d) {c : Block} (hd : e.block? d = some c)
    (valid : c.isValid = true) :
    (e.linkTo s k x d).Graph (fun i j => P i j ∧ (i, j) ≠ (s, k))
      (fun i j => H i j ∧ (i, j) ≠ (s, k)) := by
  have unlinked := h.postponed hx.stored hp
  refine ⟨?_, ?_, ?_, ?_, ?_, ?_, ?_, ?_⟩
  · rintro i j y d' ⟨b, hb, hy⟩ hlink
    obtain ⟨b₀, y₀, hb₀, hy₀, ⟨-, rfl⟩ | ⟨-, rfl⟩⟩ := exit_of_linkTo hb hy
    · cases hlink
      exact stored_linkTo.2 ⟨c, hd⟩
    · exact stored_linkTo.2 (h.named ⟨b₀, hb₀, hy₀⟩ hlink)
  · rintro i j y ⟨b, hb, hy⟩ hp'
    obtain ⟨b₀, y₀, hb₀, hy₀, ⟨same, -⟩ | ⟨-, rfl⟩⟩ := exit_of_linkTo hb hy
    · exact absurd same hp'.2
    · exact h.postponed ⟨b₀, hb₀, hy₀⟩ hp'.1
  · intro i j y hy hp'
    rw [index_linkTo]
    obtain ⟨y₀, hy₀, ⟨same, rfl⟩ | ⟨other, rfl⟩⟩ := hasExit_linkTo.1 hy
    · cases same
      obtain rfl := HasExit.unique hx hy₀
      exact found.symm
    · exact h.linked hy₀ fun hp => hp' ⟨hp, other⟩
  · intro w
    rw [chains_linkTo, h.waiting]
    constructor
    · rintro ⟨y, hy, target, none, hidden⟩
      have other : (w.src, w.exit) ≠ (s, k) := by
        intro same
        obtain ⟨hs, hk⟩ := Prod.mk.inj same
        exact hidden (hs.symm ▸ hk.symm ▸ hh)
      exact ⟨y, hasExit_linkTo.2 ⟨y, hy, .inr ⟨other, rfl⟩⟩, target, none, fun hh' => hidden hh'.1⟩
    · rintro ⟨y, hy, target, none, hidden⟩
      obtain ⟨y₀, hy₀, ⟨-, rfl⟩ | ⟨other, rfl⟩⟩ := hasExit_linkTo.1 hy
      · cases none
      · exact ⟨y, hy₀, target, none, fun hh' => hidden ⟨hh', other⟩⟩
  · rw [chains_linkTo]
    exact h.waiting_nodup
  · intro i b j l hb
    obtain ⟨b₀, hb₀, valid₀, incoming, -⟩ := state_of_linkTo hb
    rw [incoming, valid₀, List.mem_append, h.incoming hb₀]
    constructor
    · rintro (⟨hvalid, y, hy, hlink⟩ | new)
      · refine ⟨hvalid, y, hasExit_linkTo.2 ⟨y, hy, .inr ⟨?_, rfl⟩⟩, hlink⟩
        intro same
        cases same
        obtain rfl := HasExit.unique hx hy
        exact absurd (unlinked.symm.trans hlink) nofun
      · split at new
        · next hi =>
          cases List.mem_singleton.1 new
          subst hi
          exact ⟨Option.some.inj (hd.symm.trans hb₀) ▸ valid, _,
            hasExit_linkTo.2 ⟨x, hx, .inl ⟨rfl, rfl⟩⟩, rfl⟩
        · simp at new
    · rintro ⟨hvalid, y, hy, hlink⟩
      obtain ⟨y₀, hy₀, ⟨same, rfl⟩ | ⟨-, rfl⟩⟩ := hasExit_linkTo.1 hy
      · right
        rw [if_pos (Option.some.inj hlink).symm, same]
        exact List.mem_singleton.2 rfl
      · exact .inl ⟨hvalid, y, hy₀, hlink⟩
  · intro i b hb
    obtain ⟨b₀, hb₀, -, incoming, -⟩ := state_of_linkTo hb
    rw [incoming]
    split
    · refine List.nodup_append.2 ⟨h.incoming_nodup hb₀, by simp, ?_⟩
      rintro _ old _ new rfl
      rw [List.mem_singleton.1 new, h.incoming hb₀] at old
      obtain ⟨-, y, hy, hlink⟩ := old
      obtain rfl := HasExit.unique hx hy
      exact absurd (unlinked.symm.trans hlink) nofun
    · rw [List.append_nil]
      exact h.incoming_nodup hb₀
  · intro i b hb hvalid
    obtain ⟨b₀, hb₀, valid₀, -, state⟩ := state_of_linkTo hb
    exact state (valid₀ ▸ hvalid) (h.state hb₀ (valid₀ ▸ hvalid))

/-- All that holds of an engine while exits in `P` are postponed and exits in `H` hidden. -/
structure Sound (e : Engine) (src : Nat → List Insn) (P H : BlockId → Nat → Prop) : Prop where
  placed : e.Placed src
  coded : e.Coded src
  indexed : e.Indexed
  graph : e.Graph P H

/-- What holds of an engine between operations: with chaining every exit has its link or waits for
one, and without it none does. -/
def Resting (e : Engine) (src : Nat → List Insn) : Prop :=
  e.Sound src (fun _ _ => e.config.directChaining = false) fun _ _ =>
    e.config.directChaining = false

variable {src : Nat → List Insn}

/-- An exit that is linked to the resident block at its target is neither postponed nor hidden any
more. -/
theorem Sound.linkTo (h : e.Sound src P H) (hx : e.HasExit s k x) (hp : P s k) (hh : H s k)
    (found : e.cache.index[x.target]? = some d) :
    (e.linkTo s k x d).Sound src (fun i j => P i j ∧ (i, j) ≠ (s, k))
      (fun i j => H i j ∧ (i, j) ≠ (s, k)) := by
  obtain ⟨b, hb, valid, -⟩ := h.indexed.index.1 found
  exact ⟨h.placed.linkTo, h.coded.linkTo h.placed hx, h.indexed.linkTo,
    h.graph.linkTo hx hp hh found hb valid⟩

/-- An exit that begins to wait is not postponed any more. -/
theorem Sound.wait (h : e.Sound src P H) (hx : e.HasExit s k x) (hp : P s k)
    (absent : e.cache.index[x.target]? = none) :
    Engine.Sound { e with chains := e.chains.add x.target s k } src
      (fun i j => P i j ∧ (i, j) ≠ (s, k)) (fun i j => H i j ∧ (i, j) ≠ (s, k)) :=
  ⟨h.placed.congr rfl rfl rfl, h.coded.congr h.placed rfl rfl rfl fun _ b hb => ⟨b, hb, rfl⟩,
    h.indexed.congr rfl rfl (fun _ => rfl) rfl rfl, h.graph.wait hx hp absent⟩

theorem Sound.congr (h : e.Sound src P H) (hP : ∀ s k x, e.StoredExit s k x → (P s k ↔ P' s k))
    (hH : ∀ s k x, e.HasExit s k x → (H s k ↔ H' s k)) : e.Sound src P' H' :=
  ⟨h.placed, h.coded, h.indexed, h.graph.congr hP hH⟩

end Dynarec.Engine
