import Dynarec.Proofs.Emission

/-!
Engines that operations lead to. A new engine is at rest, and every operation leads from rest to
rest, whatever its outcome.
-/
namespace Dynarec
namespace Engine

open Traced

variable {e c : Engine} {src : Nat → List Insn} {id : BlockId} {b : Block}

/-- A new engine is at rest, whatever its blocks will be made from. -/
theorem resting_of_create {base : Nat} {config : Config}
    (h : create base X86.registry config = .ok e) : e.Resting src := by
  obtain ⟨capacity, rfl, room, reach, mapped⟩ := create_inv h
  have hosted : (fresh base capacity config).Hosted := ⟨rfl, rfl, rfl, room, mapped, reach⟩
  refine resting_of_empty hosted rfl X86.length_stubBytes ?_ rfl (fun pc => ?_) (fun pc => ?_)
    ChainTable.waiting_empty
  · exact @CodeBuffer.holds_of_toList _ [] _ rfl
  · simp [fresh]
  · simp [fresh]

/-- The engine with another jump cache. -/
def withJumps (e : Engine) (jumps : JumpCache) : Engine :=
  { e with cache := { e.cache with jumps } }

theorem Resting.withJumps (h : e.Resting src) {jumps : JumpCache}
    (line : ∀ {pc l}, jumps.line? pc = some l → JumpCache.index l.tag = JumpCache.index pc ∧
      ∃ b, e.block? l.id = some b ∧ b.isValid = true ∧ b.entry = l.tag ∧
        l.host = .ofNat (e.buffer.base + b.hostOffset)) : (e.withJumps jumps).Resting src where
  placed := h.placed.congr rfl rfl rfl
  coded := h.coded.congr h.placed rfl rfl rfl fun _ b hb => ⟨b, hb, rfl⟩
  indexed := ⟨h.indexed.index, line⟩
  graph :=
    ⟨h.graph.named, h.graph.postponed, h.graph.linked, h.graph.waiting, h.graph.waiting_nodup,
    h.graph.incoming, h.graph.incoming_nodup, h.graph.state⟩

theorem Placed.hostEntry (h : e.Placed src) (hb : e.block? id = some b) :
    e.cache.hostEntry b = .ok (.ofNat (e.buffer.base + b.hostOffset)) := by
  have := h.stop_le hb
  have := h.cursor_le
  have := h.hosted.mapped
  have sum : addSizes e.cache.codeBase b.hostOffset = .ok (e.buffer.base + b.hostOffset) := by
    rw [h.codeBase, addSizes, if_pos (by rw [wordBound]; omega)]
  exact bind_eq_ok.2 ⟨_, sum, rfl⟩

/-- Looking a block up finds the one in the index, and at most refills a line of the jump cache. -/
theorem Resting.yields_find (h : e.Resting src) (pc : UInt32) :
    ∃ jumps, Yields (EngineM.find pc) e (.ok e.cache.index[pc]?) (e.withJumps jumps) ∧
      (e.withJumps jumps).Resting src := by
  have found {cache : BlockCache} (hfind : e.cache.find pc = .ok (e.cache.index[pc]?, cache)) :
      Yields (EngineM.find pc) e (.ok e.cache.index[pc]?) { e with cache } :=
    yields_get.bind ((yields_lift_ok hfind).bind ((yields_modify _).bind (yields_pure _)))
  cases hit : e.cache.jumps.lookup pc with
  | some id =>
    refine ⟨e.cache.jumps, found ?_, h⟩
    have hindex := h.indexed.lookup pc
    rw [Engine.lookup, BlockCache.lookup, hit] at hindex
    rw [BlockCache.find, hit, ← hindex]
    rfl
  | none =>
    cases hindex : e.cache.index[pc]? with
    | none =>
      rw [hindex] at found
      refine ⟨e.cache.jumps, found ?_, h⟩
      rw [BlockCache.find, hit]
      simp only [hindex]
      rfl
    | some id =>
      rw [hindex] at found
      obtain ⟨b, hb, valid, entry⟩ := h.indexed.index.1 hindex
      refine ⟨e.cache.jumps.insert pc id (.ofNat (e.buffer.base + b.hostOffset)), found ?_,
        h.withJumps ?_⟩
      · rw [BlockCache.find, hit]
        simp only [hindex]
        exact bind_eq_ok.2 ⟨b, get_eq_ok.2 hb, bind_eq_ok.2 ⟨_, h.placed.hostEntry hb, rfl⟩⟩
      · intro pc' l hl
        rw [JumpCache.line?_insert] at hl
        split at hl
        · next same =>
          obtain rfl := Option.some.inj hl
          exact ⟨same.symm, b, hb, valid, entry, rfl⟩
        · exact h.indexed.line hl

theorem Placed.yields_entryOf (h : e.Placed src) (hb : e.block? id = some b) :
    Yields (EngineM.entryOf id) e (.ok (.ofNat (e.buffer.base + b.hostOffset))) e := by
  have := h.stop_le hb
  have := h.cursor_le
  have address : e.buffer.addrAt b.hostOffset = .ok (.ofNat (e.buffer.base + b.hostOffset)) :=
    CodeBuffer.addrAt_eq_ok (by omega)
  exact yields_get.bind ((yields_getBlock hb).bind (yields_lift_ok address))

/-- The engines that operations lead to from a new one over the x86-64 table, whatever the outcome
of each. -/
inductive Reachable : Engine → Prop
  | create {base : Nat} {config : Config} {e : Engine}
      (created : create base X86.registry config = .ok e) : Reachable e
  | emitBlock {e : Engine} (h : Reachable e) (pc : UInt32) (insns : List Insn) (log : Array Event) :
      Reachable ((EngineM.emitBlock pc insns).perform e log).1.2
  | invalidateRange {e : Engine} (h : Reachable e) (start : UInt32) (stop : Nat)
      (log : Array Event) : Reachable ((EngineM.invalidateRange start stop).perform e log).1.2
  | invalidateAll {e : Engine} (h : Reachable e) (log : Array Event) :
      Reachable (EngineM.invalidateAll.perform e log).1.2
  | run {σ : Type} {s : Session σ} (h : Reachable s.engine) (t : Translator σ) (handlers : Handlers)
      (fuel : Nat) : Reachable (s.run t handlers fuel).2.engine

/-- The engine has been made by operations, and block `n` from the instructions `src n`. -/
inductive Made : Engine → (Nat → List Insn) → Prop
  | create {base : Nat} {config : Config} {e : Engine} (src : Nat → List Insn)
      (created : create base X86.registry config = .ok e) : Made e src
  | emitBlock {e e' : Engine} {src : Nat → List Insn} (h : Made e src) {pc : UInt32}
      {insns : List Insn} {log : Array Event} {id : BlockId}
      (done : ((EngineM.emitBlock pc insns).perform e log).1 = (.ok id, e')) :
      Made e' (noted src id insns)
  | refuse {e e' : Engine} {src : Nat → List Insn} (h : Made e src) {pc : UInt32}
      {insns : List Insn} {log : Array Event} {fault : Fault}
      (failed : ((EngineM.emitBlock pc insns).perform e log).1 = (.error fault, e')) : Made e' src
  | invalidateRange {e : Engine} {src : Nat → List Insn} (h : Made e src)
      (start : UInt32) (stop : Nat) (log : Array Event) :
      Made ((EngineM.invalidateRange start stop).perform e log).1.2 src
  | invalidateAll {e : Engine} {src : Nat → List Insn} (h : Made e src) (log : Array Event) :
      Made (EngineM.invalidateAll.perform e log).1.2 src
  | find {e : Engine} {src : Nat → List Insn} (h : Made e src) (pc : UInt32) (log : Array Event) :
      Made ((EngineM.find pc).perform e log).1.2 src

section Induction

variable {P : Engine → (Nat → List Insn) → Prop}
  (fresh : ∀ {base config e} src, Engine.create base X86.registry config = .ok e → P e src)
  (emitted : ∀ {e src pc insns id c}, e.Resting src → P e src → e.Emitted src pc insns id c →
    P c (noted src id insns))
  (removed : ∀ {e src victims c}, e.Resting src → P e src →
    e.Operated src (.removal e victims victims) c → P c src)
  (emptied : ∀ {e src c}, e.Resting src → P e src → e.Emptied c → P c src)
  (refilled : ∀ {e src} jumps, P e src → P (e.withJumps jumps) src)
include fresh emitted removed emptied refilled

-- Rest is carried along, since only at rest it is known what an operation does.
theorem Made.resting_and (h : e.Made src) : e.Resting src ∧ P e src := by
  induction h with
  | create src created => exact ⟨resting_of_create created, fresh src created⟩
  | @emitBlock e e' src _ pc insns log id done ih =>
    obtain ⟨resting, holds⟩ := ih
    obtain ⟨fault, -, yields⟩ | ⟨-, id', c, yields, new⟩ := resting.yields_emitBlock pc insns
    · cases (yields log).symm.trans done
    · cases (yields log).symm.trans done
      exact ⟨new.resting, emitted resting holds new⟩
  | @refuse e e' src _ pc insns log fault failed ih =>
    obtain ⟨fault', -, yields⟩ | ⟨-, id', c, yields, -⟩ := ih.1.yields_emitBlock pc insns
    · cases (yields log).symm.trans failed
      exact ih
    · cases (yields log).symm.trans failed
  | invalidateRange _ start stop log ih =>
    obtain ⟨resting, holds⟩ := ih
    obtain ⟨c, yields, gone⟩ := resting.yields_invalidateRange start stop
    rw [yields log]
    exact ⟨gone.resting resting, removed resting holds gone⟩
  | @invalidateAll e src _ log ih =>
    obtain ⟨resting, holds⟩ := ih
    obtain ⟨c, yields, gone⟩ := yields_invalidateAll (e := e)
    rw [yields log]
    exact ⟨gone.resting resting.placed resting.coded src, emptied resting holds gone⟩
  | find _ pc log ih =>
    obtain ⟨jumps, yields, resting⟩ := ih.1.yields_find pc
    rw [yields log]
    exact ⟨resting, refilled jumps ih.2⟩

/-- To hold of every engine that operations make, it is enough to hold of new ones and to survive
each way in which an operation can change an engine. -/
theorem Made.induct (h : e.Made src) : P e src :=
  (Made.resting_and fresh emitted removed emptied refilled h).2

end Induction

theorem Made.resting (h : e.Made src) : e.Resting src := by
  refine (Made.resting_and (P := fun _ _ => True) ?_ ?_ ?_ ?_ ?_ h).1
  all_goals intros; trivial

theorem Made.find_of_yields (h : e.Made src) {pc : UInt32} {o : Except Fault (Option BlockId)}
    (yields : Yields (EngineM.find pc) e o c) : c.Made src := by
  have := h.find pc #[]
  rwa [yields #[]] at this

theorem emissionFault?_of_frame (h : c.frame = e.frame) (pc : UInt32) (insns : List Insn) :
    c.emissionFault? pc insns = e.emissionFault? pc insns := by
  rw [emissionFault?, emissionFault?, plan_of_frame h, CodeBuffer.usable, CodeBuffer.usable,
    capacity_of_frame h, codeStart_of_frame h]

theorem Kin.emissionFault? (h : c.Kin e) (pc : UInt32) (insns : List Insn) :
    c.emissionFault? pc insns = e.emissionFault? pc insns :=
  show c.unchained.emissionFault? pc insns = e.unchained.emissionFault? pc insns from
    emissionFault?_of_frame h pc insns

end Engine

namespace Session

open Traced Engine

variable {σ α : Type} {s : Session σ} {t : Translator σ} {src : Nat → List Insn}

theorem perform_of_yields {x : EngineM α} {o : Except Fault α} {e : Engine}
    (h : Yields x s.engine o e) : ∃ log, s.perform x = (o, { s with engine := e, log }) := by
  have := h s.log
  unfold perform
  generalize Traced.perform x s.engine s.log = result at this ⊢
  obtain ⟨⟨o', e'⟩, log⟩ := result
  cases this
  exact ⟨log, rfl⟩

/-- The instructions that the translator has for the program counter. -/
def fetched (s : Session σ) (t : Translator σ) : List Insn :=
  (t.translate s.source s.guest.cpu.pc s.engine.config.maxBlockInsns).1

/-- The code for the program counter is at `entry` in `s'`. It was there before or is new. -/
structure Resolved (s : Session σ) (t : Translator σ) (src : Nat → List Insn) (entry : UInt64)
    (s' : Session σ) (src' : Nat → List Insn) : Prop where
  guest : s'.guest = s.guest
  frame : s'.engine.frame = s.engine.frame
  made : s'.engine.Made src'
  block : ∃ id b, s'.engine.block? id = some b ∧ b.isValid = true ∧ b.entry = s.guest.cpu.pc ∧
    entry = .ofNat (s'.engine.buffer.base + b.hostOffset)
  source : ∀ {i b}, s'.engine.block? i = some b → b.isValid = true →
    (src' i.index = src i.index ∧
      ∃ b₀, s.engine.block? i = some b₀ ∧ b₀.isValid = true ∧ b₀.entry = b.entry) ∨
    (b.entry = s.guest.cpu.pc ∧ src' i.index = s.fetched t)

/-- The session with another state of the engine, once the translator has been asked. -/
def asking (s : Session σ) (t : Translator σ) (engine : Engine) (log : Array Event) : Session σ :=
  { s with engine, log,
           source := (t.translate s.source s.guest.cpu.pc s.engine.config.maxBlockInsns).2 }

/-- Code that is there is found, and at most a line of the jump cache is refilled. -/
theorem resolve_found (h : s.engine.Made src) {id : BlockId}
    (found : s.engine.lookup s.guest.cpu.pc = some id) :
    ∃ entry jumps log,
    s.resolve t = (.ok entry, { s with engine := s.engine.withJumps jumps, log }) ∧
      s.Resolved t src entry { s with engine := s.engine.withJumps jumps, log } src := by
  obtain ⟨jumps, yields, resting⟩ := h.resting.yields_find s.guest.cpu.pc
  obtain ⟨log, hfind⟩ := perform_of_yields yields
  rw [h.resting.indexed.lookup] at found
  obtain ⟨b, hb, valid, entry⟩ := h.resting.indexed.index.1 found
  obtain ⟨log', hentry⟩ := perform_of_yields
    (s := { s with engine := s.engine.withJumps jumps, log })
    (@Placed.yields_entryOf _ _ id _ resting.placed hb)
  refine ⟨_, jumps, log', ?_, rfl, rfl, h.find_of_yields yields, ⟨id, b, hb, valid, entry, rfl⟩,
    fun hb valid => .inl ⟨rfl, _, hb, valid, rfl⟩⟩
  unfold resolve
  simp only [hfind, found]
  exact hentry

/-- Code that is not there is made from what the translator has for it, if that can be emitted. -/
theorem resolve_new (h : s.engine.Made src) (absent : s.engine.lookup s.guest.cpu.pc = none) :
    ∃ jumps log, (s.engine.withJumps jumps).Made src ∧
      ((∃ fault, s.engine.emissionFault? s.guest.cpu.pc (s.fetched t) = some fault ∧
        Yields (EngineM.emitBlock s.guest.cpu.pc (s.fetched t)) (s.engine.withJumps jumps)
          (.error fault) (s.engine.withJumps jumps) ∧
        s.resolve t = (.error fault, s.asking t (s.engine.withJumps jumps) log)) ∨
      ∃ entry id c, Yields (EngineM.emitBlock s.guest.cpu.pc (s.fetched t))
        (s.engine.withJumps jumps) (.ok id) c ∧ s.resolve t = (.ok entry, s.asking t c log) ∧
        c.lookup s.guest.cpu.pc = some id ∧
        s.Resolved t src entry (s.asking t c log) (noted src id (s.fetched t))) := by
  obtain ⟨jumps, yields, resting⟩ := h.resting.yields_find s.guest.cpu.pc
  obtain ⟨log, hfind⟩ := perform_of_yields yields
  have made := h.find_of_yields yields
  rw [h.resting.indexed.lookup] at absent
  have frame : (s.engine.withJumps jumps).frame = s.engine.frame := rfl
  have emits {o : Except Fault UInt64} {c : Engine}
      (done : Yields (do EngineM.entryOf (← EngineM.emitBlock s.guest.cpu.pc (s.fetched t)))
        (s.engine.withJumps jumps) o c) : ∃ log', s.resolve t = (o, s.asking t c log') := by
    obtain ⟨log', performed⟩ :=
      perform_of_yields (s := s.asking t (s.engine.withJumps jumps) log) done
    refine ⟨log', ?_⟩
    unfold resolve
    simp only [hfind, absent]
    exact performed
  obtain ⟨fault, hfault, failed⟩ | ⟨-, id, c, done, emitted⟩ :=
    resting.yields_emitBlock s.guest.cpu.pc (s.fetched t)
  · obtain ⟨log', resolve⟩ := emits failed.bind_error
    exact ⟨jumps, log', made,
      .inl ⟨fault, (emissionFault?_of_frame frame ..).symm.trans hfault, failed, resolve⟩⟩
  · obtain ⟨b, hb, valid, entry⟩ := emitted.block
    obtain ⟨log', resolve⟩ := emits (done.bind (emitted.resting.placed.yields_entryOf hb))
    have found : c.lookup s.guest.cpu.pc = some id := by
      rw [emitted.resting.indexed.lookup]
      exact emitted.resting.indexed.index.2 ⟨b, hb, valid, entry⟩
    refine ⟨jumps, log', made, .inr ⟨_, id, c, done, resolve, found, rfl, emitted.frame.trans frame,
      made.emitBlock (done #[]), ⟨id, b, hb, valid, entry, rfl⟩, ?_⟩⟩
    intro i b' hb' valid'
    by_cases hi : i = id
    · subst hi
      obtain rfl := Option.some.inj (hb.symm.trans hb')
      exact .inr ⟨entry, noted_self⟩
    · exact .inl ⟨noted_of_ne hi, emitted.old hb' valid' hi⟩

/-- The code for the program counter is found or made, unless its instructions cannot be emitted. -/
theorem resolve_cases (h : s.engine.Made src) :
    (∃ fault s', s.resolve t = (.error fault, s') ∧ s'.guest = s.guest ∧ s'.engine.Made src ∧
      s.engine.emissionFault? s.guest.cpu.pc (s.fetched t) = some fault) ∨
    ∃ entry s' src', s.resolve t = (.ok entry, s') ∧ s.Resolved t src entry s' src' := by
  cases found : s.engine.lookup s.guest.cpu.pc with
  | some id =>
    obtain ⟨entry, jumps, log, resolve, resolved⟩ := resolve_found h found (t := t)
    exact .inr ⟨entry, _, src, resolve, resolved⟩
  | none =>
    obtain ⟨jumps, log, made,
        ⟨fault, hfault, -, resolve⟩ | ⟨entry, id, c, -, resolve, -, resolved⟩⟩ :=
      resolve_new h found (t := t)
    · exact .inl ⟨fault, _, resolve, rfl, made, hfault⟩
    · exact .inr ⟨entry, _, _, resolve, resolved⟩

/-- What an instruction has asked for: the blocks go that the cache line of its address touches, and
nothing else happens. -/
theorem invalidateLine_removes (h : s.engine.Made src) {line : UInt32} {stop : Nat}
    (hline : s.guest.cpu.icbiEa &&& ~~~(cacheLine - 1) = line)
    (hstop : line.toNat + cacheLine.toNat = stop) :
    ∃ s', s.invalidateLine = (.ok (s.engine.cache.affectedBy line stop).length, s') ∧
      s'.guest = s.guest ∧ s'.source = s.source ∧ s'.engine.Made src ∧
      s.engine.Operated src (.removal s.engine (s.engine.cache.affectedBy line stop)
        (s.engine.cache.affectedBy line stop)) s'.engine := by
  obtain ⟨c, yields, removed⟩ := h.resting.yields_invalidateRange line stop
  obtain ⟨log, performed⟩ := perform_of_yields yields
  have made := h.invalidateRange line stop #[]
  rw [yields #[]] at made
  refine ⟨{ s with engine := c, log }, ?_, rfl, rfl, made, removed⟩
  rw [invalidateLine, hline, hstop, performed]

theorem invalidateLine_cases (h : s.engine.Made src) :
    ∃ n s', s.invalidateLine = (.ok n, s') ∧ s'.guest = s.guest ∧ s.engine.Shrunk s'.engine ∧
      s'.engine.Made src := by
  obtain ⟨s', done, guest, -, made, removed⟩ := invalidateLine_removes h rfl rfl
  exact ⟨_, s', done, guest, removed.shrunk, made⟩

/-- A run makes its engine by the same operations. -/
theorem made_run (h : s.engine.Made src) (handlers : Handlers) (fuel : Nat) :
    ∃ src', (s.run t handlers fuel).2.engine.Made src' := by
  induction fuel generalizing s src with
  | zero => exact ⟨src, h⟩
  | succ fuel ih =>
    unfold run
    split
    · exact ⟨src, h⟩
    · obtain ⟨fault, s', hresolve, -, made, -⟩ | ⟨entry, s', src', hresolve, resolved⟩ :=
        resolve_cases h (t := t)
      · rw [hresolve]
        exact ⟨src, made⟩
      · rw [hresolve]
        have made := resolved.made
        dsimp only
        split
        · exact ⟨src', made⟩
        · exact ⟨src', made⟩
        · next code guest _ =>
          split
          · exact ih (s := report { s' with guest } _) made
          · exact ⟨src', made⟩
          · exact ⟨src', made⟩
          · obtain ⟨n, s'', hline, -, -, made'⟩ :=
              invalidateLine_cases (s := { s' with guest }) made
            rw [hline]
            exact ih made'
          · exact ⟨src', made⟩

end Session

theorem Engine.Reachable.made {e : Engine} (h : e.Reachable) : ∃ src, e.Made src := by
  induction h with
  | create created => exact ⟨fun _ => [], .create _ created⟩
  | @emitBlock e _ pc insns log ih =>
    obtain ⟨src, made⟩ := ih
    cases hperform : ((EngineM.emitBlock pc insns).perform e log).1 with
    | mk outcome e' =>
      cases outcome with
      | ok id => exact ⟨_, made.emitBlock hperform⟩
      | error fault => exact ⟨src, made.refuse hperform⟩
  | invalidateRange _ start stop log ih =>
    obtain ⟨src, made⟩ := ih
    exact ⟨src, made.invalidateRange start stop log⟩
  | invalidateAll _ log ih =>
    obtain ⟨src, made⟩ := ih
    exact ⟨src, made.invalidateAll log⟩
  | run _ t handlers fuel ih =>
    obtain ⟨src, made⟩ := ih
    exact Session.made_run made handlers fuel

end Dynarec
