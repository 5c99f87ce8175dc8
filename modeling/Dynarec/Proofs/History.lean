import Dynarec.Proofs.Reachability

/-!
Histories of an engine. A run of a guest changes its engine by the same operations that an owner can
call, so what each of them keeps every history keeps.
-/
namespace Dynarec

namespace Engine

open Traced

variable {e c : Engine} {src src' : Nat → List Insn} {id : BlockId} {b : Block}

/-- The engine that operations have started from. -/
theorem Made.origin (h : e.Made src) :
    ∃ e₀, Engine.create e.buffer.base X86.registry e.config = .ok e₀ ∧ e.frame = e₀.frame := by
  have carry {e c : Engine} (frame : c.frame = e.frame)
      (ih : ∃ e₀, Engine.create e.buffer.base X86.registry e.config = .ok e₀ ∧ e.frame = e₀.frame) :
      ∃ e₀, Engine.create c.buffer.base X86.registry c.config = .ok e₀ ∧ c.frame = e₀.frame := by
    obtain ⟨e₀, created, same⟩ := ih
    rw [base_of_frame frame, config_of_frame frame]
    exact ⟨e₀, created, frame.trans same⟩
  refine Made.induct
    (P := fun e _ => ∃ e₀, Engine.create e.buffer.base X86.registry e.config = .ok e₀ ∧
      e.frame = e₀.frame) ?_ ?_ ?_ ?_ ?_ h
  · intro base config e src created
    obtain ⟨capacity, rfl, -⟩ := create_inv created
    exact ⟨_, created, rfl⟩
  · exact fun _ ih new => carry new.frame ih
  · exact fun _ ih gone => carry gone.frame ih
  · exact fun _ ih gone => carry gone.frame ih
  · exact fun _ ih => ih

/-- Engine `c` has come from `e`. As long as no flush has happened every block is where it was, and
made from what it was made from. -/
structure Continues (e : Engine) (src : Nat → List Insn) (c : Engine) (src' : Nat → List Insn) :
    Prop where
  frame : c.frame = e.frame
  flushes : e.stats.flushes ≤ c.stats.flushes
  kept : c.stats.flushes = e.stats.flushes → ∀ {id b}, e.block? id = some b →
    src' id.index = src id.index ∧ ∃ b', c.block? id = some b' ∧ b'.body = b.body

namespace Continues

theorem refl (e : Engine) (src : Nat → List Insn) : e.Continues src e src :=
  ⟨rfl, Nat.le_refl _, fun _ _ b hb => ⟨rfl, b, hb, rfl⟩⟩

theorem trans {m : Engine} {mid : Nat → List Insn} (h : e.Continues src m mid)
    (h' : m.Continues mid c src') : e.Continues src c src' where
  frame := h'.frame.trans h.frame
  flushes := Nat.le_trans h.flushes h'.flushes
  kept same := by
    intro id b hb
    have := h.flushes
    have := h'.flushes
    obtain ⟨source, b₁, hb₁, body⟩ := h.kept (by omega) hb
    obtain ⟨source', b₂, hb₂, body'⟩ := h'.kept (by omega) hb₁
    exact ⟨source'.trans source, b₂, hb₂, body'.trans body⟩

theorem of_retained (frame : c.frame = e.frame) (h : e.Retained c) : e.Continues src c src := by
  refine ⟨frame, Nat.le_of_eq h.flushes.symm, fun _ id b hb => ⟨rfl, ?_⟩⟩
  obtain ⟨b', hb', body⟩ := block?_of_bodies h.bodies.symm hb
  exact ⟨b', hb', body⟩

theorem of_emptied (h : e.Emptied c) : e.Continues src c src' := by
  have more : c.stats.flushes = e.stats.flushes + 1 := by rw [h]
  exact ⟨h.frame, by omega, fun same => by omega⟩

theorem of_emitted {pc : UInt32} {insns : List Insn} (h : e.Emitted src pc insns id c) :
    e.Continues src c (noted src id insns) := by
  obtain ⟨m, new, cleared, rfl, bodies, -, -, flushes⟩ := h.grown
  rcases cleared with kept | emptied
  · have same := kept.flushes
    refine ⟨h.frame, by omega, fun _ id b hb => ?_⟩
    obtain ⟨b₁, hb₁, body₁⟩ := block?_of_bodies kept.bodies.symm hb
    have old : m.bodies[id.index]? = some b₁.body := by
      rw [Engine.bodies, Array.getElem?_map]
      exact congrArg (Option.map Block.body) hb₁
    have inside := (Array.getElem?_eq_some_iff.1 old).1
    have there : c.bodies[id.index]? = some b₁.body := by
      rw [bodies, Array.getElem?_push, if_neg (by omega)]
      exact old
    rw [Engine.bodies, Array.getElem?_map] at there
    obtain ⟨b', hb', body'⟩ := Option.map_eq_some_iff.1 there
    exact ⟨noted_of_ne (ne_nextId hb₁), b', hb', body'.trans body₁⟩
  · have more : m.stats.flushes = e.stats.flushes + 1 := by rw [emptied]
    exact ⟨h.frame, by omega, fun same => by omega⟩

end Continues

/-- An engine that has come from `e`, which was made from `src`. -/
def Later (e : Engine) (src : Nat → List Insn) (c : Engine) : Prop :=
  ∃ src', c.Made src' ∧ e.Continues src c src'

theorem Later.start (h : e.Made src) : e.Later src e := ⟨src, h, .refl e src⟩

theorem Later.emitBlock (h : e.Later src c) (pc : UInt32) (insns : List Insn) (log : Array Event) :
    e.Later src ((EngineM.emitBlock pc insns).perform c log).1.2 := by
  obtain ⟨src', made, continues⟩ := h
  obtain ⟨fault, -, yields⟩ | ⟨-, id, c', yields, new⟩ := made.resting.yields_emitBlock pc insns
  · rw [yields log]
    exact ⟨src', made, continues⟩
  · rw [yields log]
    exact ⟨_, made.emitBlock (yields log), continues.trans (.of_emitted new)⟩

theorem Later.invalidateRange (h : e.Later src c) (start : UInt32) (stop : Nat)
    (log : Array Event) : e.Later src ((EngineM.invalidateRange start stop).perform c log).1.2 := by
  obtain ⟨src', made, continues⟩ := h
  obtain ⟨c', yields, gone⟩ := made.resting.yields_invalidateRange start stop
  refine ⟨src', made.invalidateRange start stop log, continues.trans ?_⟩
  rw [yields log]
  exact .of_retained gone.frame gone.retained

theorem Later.invalidateAll (h : e.Later src c) (log : Array Event) :
    e.Later src (EngineM.invalidateAll.perform c log).1.2 := by
  obtain ⟨src', made, continues⟩ := h
  obtain ⟨c', yields, gone⟩ := yields_invalidateAll (e := c)
  refine ⟨src', made.invalidateAll log, continues.trans ?_⟩
  rw [yields log]
  exact .of_emptied gone

theorem Later.find (h : e.Later src c) (pc : UInt32) (log : Array Event) :
    e.Later src ((EngineM.find pc).perform c log).1.2 := by
  obtain ⟨src', made, continues⟩ := h
  obtain ⟨jumps, yields, -⟩ := made.resting.yields_find pc
  refine ⟨src', made.find pc log, continues.trans ?_⟩
  rw [yields log]
  exact .of_retained rfl ⟨rfl, rfl, rfl⟩

/-- The engines that operations lead to from `e`. -/
inductive Reaches (e : Engine) : Engine → Prop
  | refl : Reaches e e
  | emitBlock {c : Engine} (h : Reaches e c) (pc : UInt32) (insns : List Insn) (log : Array Event) :
      Reaches e ((EngineM.emitBlock pc insns).perform c log).1.2
  | invalidateRange {c : Engine} (h : Reaches e c) (start : UInt32) (stop : Nat)
      (log : Array Event) : Reaches e ((EngineM.invalidateRange start stop).perform c log).1.2
  | invalidateAll {c : Engine} (h : Reaches e c) (log : Array Event) :
      Reaches e (EngineM.invalidateAll.perform c log).1.2
  | run {σ : Type} {s : Session σ} (h : Reaches e s.engine) (t : Translator σ) (handlers : Handlers)
      (fuel : Nat) : Reaches e (s.run t handlers fuel).2.engine

end Engine

/-- What the operations keep that a run is made of. -/
structure Engine.Lasting (P : Engine → Prop) : Prop where
  find : ∀ {e}, P e → ∀ pc log, P ((EngineM.find pc).perform e log).1.2
  emitBlock : ∀ {e}, P e → ∀ pc insns log, P ((EngineM.emitBlock pc insns).perform e log).1.2
  invalidateRange : ∀ {e}, P e →
    ∀ start stop log, P ((EngineM.invalidateRange start stop).perform e log).1.2

namespace Session

open Traced Engine

variable {σ : Type} {s : Session σ} {t : Translator σ} {P : Engine → Prop}

theorem state_entryOf (id : BlockId) (e : Engine) (log : Array Event) :
    ((EngineM.entryOf id).perform e log).1.2 = e := by
  cases hb : e.cache.get id with
  | error fault =>
    have yields : Yields (EngineM.entryOf id) e (.error fault) e := by
      refine yields_get.bind (Yields.bind_error (yields_get.bind ?_))
      rw [hb]
      exact yields_lift _
    rw [yields log]
  | ok b =>
    have found : Yields (EngineM.getBlock id) e (.ok b) e := yields_getBlock (get_eq_ok.1 hb)
    have yields : Yields (EngineM.entryOf id) e (e.buffer.addrAt b.hostOffset) e :=
      yields_get.bind (found.bind (yields_lift _))
    rw [yields log]

/-- What reads the state only does not count. -/
theorem state_bind {α β : Type} (x : EngineM α) {f : α → EngineM β}
    (reads : ∀ a e log, ((f a).perform e log).1.2 = e) (e : Engine) (log : Array Event) :
    ((x >>= f).perform e log).1.2 = (x.perform e log).1.2 := by
  rw [perform_bind]
  split
  · next heq => rw [reads, heq]
  · next heq => rw [heq]

theorem engine_resolve (lasting : Lasting P) (h : P s.engine) : P (s.resolve t).2.engine := by
  have found := lasting.find h s.guest.cpu.pc s.log
  simp only [resolve]
  change P (s.perform (EngineM.find s.guest.cpu.pc)).2.engine at found
  split
  · next heq =>
    rw [heq] at found
    exact found
  · next id s' heq =>
    rw [heq] at found
    show P ((EngineM.entryOf id).perform s'.engine s'.log).1.2
    rw [state_entryOf]
    exact found
  · next s' heq =>
    rw [heq] at found
    have emitted := lasting.emitBlock found s.guest.cpu.pc
      (t.translate s'.source s.guest.cpu.pc s'.engine.config.maxBlockInsns).1 s'.log
    rw [← state_bind _ state_entryOf] at emitted
    exact emitted

/-- What the operations keep a run keeps. -/
theorem engine_run (lasting : Lasting P) (h : P s.engine) (handlers : Handlers) (fuel : Nat) :
    P (s.run t handlers fuel).2.engine := by
  induction fuel generalizing s with
  | zero => exact h
  | succ fuel ih =>
    unfold run
    split
    · exact h
    · have resolved := engine_resolve (t := t) lasting h
      split
      · next heq =>
        rw [heq] at resolved
        exact resolved
      · next entry s' heq =>
        rw [heq] at resolved
        split
        · exact resolved
        · exact resolved
        · next code guest _ =>
          dsimp only
          split
          · exact ih resolved
          · exact resolved
          · exact resolved
          · have cleared : P ({ s' with guest } : Session σ).invalidateLine.2.engine :=
              lasting.invalidateRange resolved _ _ _
            split
            · next heq =>
              rw [heq] at cleared
              exact cleared
            · next heq =>
              rw [heq] at cleared
              exact ih cleared
          · exact resolved

end Session

theorem Engine.Reaches.later {e c : Engine} {src : Nat → List Insn} (h : e.Reaches c)
    (made : e.Made src) : e.Later src c := by
  have lasting : Lasting (e.Later src) := ⟨Later.find, Later.emitBlock, Later.invalidateRange⟩
  induction h with
  | refl => exact .start made
  | emitBlock _ pc insns log ih => exact ih.emitBlock pc insns log
  | invalidateRange _ start stop log ih => exact ih.invalidateRange start stop log
  | invalidateAll _ log ih => exact ih.invalidateAll log
  | run _ t handlers fuel ih => exact Session.engine_run lasting ih handlers fuel

end Dynarec
