import Dynarec.Proofs.BlockExecution

/-!
Blocks, links and caches cannot be seen from the guest: a run ends as the dispatcher without code
ends, which carries out instructions one by one.
-/
namespace Dynarec

namespace Reference

variable {e e' : Engine} {handlers : Handlers} {program : UInt32 → Nat → List Insn} {n k : Nat}
  {g g₁ g' : GuestState}

theorem run_of_frame (h : e'.frame = e.frame) (fuel : Nat) (g : GuestState) :
    run e' handlers program fuel g = run e handlers program fuel g := by
  induction fuel generalizing g with
  | zero => rfl
  | succ fuel ih =>
    simp only [run, Engine.config_of_frame h, Engine.emissionFault?_of_frame h, ih]

section Step

variable (quiet : g.events.check = false)
include quiet

theorem run_failed {fault : Fault}
    (failed : e.emissionFault? g.cpu.pc (program g.cpu.pc e.config.maxBlockInsns) = some fault)
    (fuel : Nat) : run e handlers program (fuel + 1) g = (.failed fault, g) := by
  simp only [run, quiet, failed, Bool.false_eq_true, if_false]

variable (possible : e.emissionFault? g.cpu.pc (program g.cpu.pc e.config.maxBlockInsns) = none)
include possible

theorem run_syscall
    (ran : Platform.runBlock ⟨e.config, handlers⟩ g (program g.cpu.pc e.config.maxBlockInsns) =
      some (g', .syscall)) (fuel : Nat) :
    run e handlers program (fuel + 1) g = (.finished .systemCall, g') := by
  simp only [run, quiet, possible, ran, Bool.false_eq_true, if_false]

theorem run_block {c : Control}
    (ran : Platform.runBlock ⟨e.config, handlers⟩ g (program g.cpu.pc e.config.maxBlockInsns) =
      some (g', c)) (hc : c ≠ .syscall) (fuel : Nat) :
    run e handlers program (fuel + 1) g = run e handlers program fuel g' := by
  simp only [run, quiet, possible, ran, Bool.false_eq_true, if_false]

end Step

theorem run_pending (pending : g.events.check = true) (fuel : Nat) :
    run e handlers program (fuel + 1) g = (.finished (.preempted g.events.bits), g) := by
  simp only [run, pending, if_true]

/-- With some fuel the dispatcher answers at once or goes on behind a block. -/
theorem run_succ_cases (e : Engine) (handlers : Handlers) (program : UInt32 → Nat → List Insn)
    (g : GuestState) :
    (∃ answer, ∀ fuel, run e handlers program (fuel + 1) g = answer) ∨
      ∃ g', ∀ fuel, run e handlers program (fuel + 1) g = run e handlers program fuel g' := by
  cases quiet : g.events.check with
  | true => exact .inl ⟨_, run_pending quiet⟩
  | false =>
    cases possible : e.emissionFault? g.cpu.pc (program g.cpu.pc e.config.maxBlockInsns) with
    | some fault => exact .inl ⟨_, run_failed quiet possible⟩
    | none =>
      cases ran : Platform.runBlock ⟨e.config, handlers⟩ g (program g.cpu.pc e.config.maxBlockInsns)
        with
      | none =>
        left
        refine ⟨(.failed (.violation .assertionFailed), g), fun fuel => ?_⟩
        simp only [run, quiet, possible, ran, Bool.false_eq_true, if_false]
      | some done =>
        obtain ⟨g', c⟩ := done
        by_cases hc : c = .syscall
        · subst hc
          exact .inl ⟨_, run_syscall quiet possible ran⟩
        · exact .inr ⟨g', run_block quiet possible ran hc⟩

/-- More fuel keeps an answer. -/
theorem run_add (h : (run e handlers program n g).1 ≠ .outOfFuel) (k : Nat) :
    run e handlers program (n + k) g = run e handlers program n g := by
  induction n generalizing g with
  | zero => exact absurd rfl h
  | succ n ih =>
    rw [Nat.add_right_comm]
    obtain ⟨answer, same⟩ | ⟨g', goes⟩ := run_succ_cases e handlers program g
    · rw [same, same]
    · rw [goes] at h
      rw [goes, goes]
      exact ih h

/-- The dispatcher goes from `g` to `g'` in `n` blocks. -/
def Passes (e : Engine) (handlers : Handlers) (program : UInt32 → Nat → List Insn) (n : Nat)
    (g g' : GuestState) : Prop :=
  ∀ fuel, run e handlers program (n + fuel) g = run e handlers program fuel g'

/-- Translated code that leaves with the given exit code has taken the guest from `g` to `g'`, as
the dispatcher does in `n` blocks. -/
inductive Accounts (e : Engine) (handlers : Handlers) (program : UInt32 → Nat → List Insn) (n : Nat)
    (g g' : GuestState) : ExitCode → Prop
  | dispatch (passes : Passes e handlers program n g g') :
      Accounts e handlers program n g g' .dispatch
  | preempt (passes : Passes e handlers program n g g') (pending : g'.events.check = true) :
      Accounts e handlers program n g g' .preempt
  | syscall (ends : ∀ fuel, run e handlers program (n + fuel) g = (.finished .systemCall, g')) :
      Accounts e handlers program n g g' .syscall
  | invalidate (passes : Passes e handlers program n g g') :
      Accounts e handlers program n g g' .invalidate

theorem Passes.trans (h : Passes e handlers program n g g₁)
    (h' : Passes e handlers program k g₁ g') : Passes e handlers program (n + k) g g' := by
  intro fuel
  rw [Nat.add_assoc, h, h']

theorem Passes.accounts {code : ExitCode} (h : Passes e handlers program n g g₁)
    (h' : Accounts e handlers program k g₁ g' code) :
    Accounts e handlers program (n + k) g g' code := by
  cases h' with
  | dispatch passes => exact .dispatch (h.trans passes)
  | preempt passes pending => exact .preempt (h.trans passes) pending
  | invalidate passes => exact .invalidate (h.trans passes)
  | syscall ends =>
    refine .syscall fun fuel => ?_
    rw [Nat.add_assoc, h, ends]

end Reference

namespace X86

variable {cx : Context} {m m₁ : Machine} {n : Nat} {code : ExitCode} {g : GuestState}

/-- The machine when the code at offset `prologue` is called. -/
def boot (prologue : Nat) (entry : UInt64) (guest : GuestState) : Machine where
  ip := prologue
  regs := { rdi := .ptr .registerFile 0, rsi := .num entry }
  guest

theorem call_eq_run (cx : Context) (prologue : Nat) (entry : UInt64) (g : GuestState) (fuel : Nat) :
    call cx prologue entry g fuel = run cx fuel (boot prologue entry g) := rfl

/-- The machine leaves translated code in the end, with an exit code and the guest in state `g`. -/
def Departs (cx : Context) (m : Machine) (code : ExitCode) (g : GuestState) : Prop :=
  ∃ n m', m.Reaches cx n m' ∧ m'.step cx = some (.leave code.code g)

theorem Departs.of_reaches (h : m.Reaches cx n m₁) (h' : Departs cx m₁ code g) :
    Departs cx m code g := by
  obtain ⟨k, m', reaches, leave⟩ := h'
  exact ⟨n + k, m', h.trans reaches, leave⟩

theorem Departs.run_eq (h : Departs cx m code g) :
    ∃ n, ∀ fuel, run cx (n + fuel) m = .left code.code g := by
  obtain ⟨n, m', reaches, leave⟩ := h
  refine ⟨n + 1, fun fuel => ?_⟩
  rw [Nat.add_assoc, reaches.run_eq, Nat.add_comm 1, run]
  simp only [leave]

/-- A run of such a machine has no other end. -/
theorem Departs.run_cases (h : Departs cx m code g) (fuel : Nat) :
    run cx fuel m = .outOfFuel ∨ run cx fuel m = .left code.code g := by
  obtain ⟨n, m', reaches, leave⟩ := h
  by_cases short : fuel ≤ n
  · exact .inl (reaches.run_short short)
  · obtain ⟨rest, rfl⟩ : ∃ rest, fuel = n + (rest + 1) := ⟨fuel - n - 1, by omega⟩
    right
    rw [reaches.run_eq, run]
    simp only [leave]

end X86

/-- A branch goes on in another block, or with the dispatcher. -/
def Control.isBranch : Control → Bool
  | .exit _ | .indirect => true
  | .next | .syscall | .invalidate => false

/-- The code with which translated code may leave when a block has been left in the given way and
the guest is in state `g`. -/
inductive ExitCode.Fits (g : GuestState) : Control → ExitCode → Prop
  | preempt {c : Control} (branch : c.isBranch = true) (pending : g.events.check = true) :
      Fits g c .preempt
  | dispatch {c : Control} (branch : c.isBranch = true) (quiet : g.events.check = false) :
      Fits g c .dispatch
  | syscall : Fits g .syscall .syscall
  | invalidate : Fits g .invalidate .invalidate

namespace Engine

open X86 (Machine Departs)
open Reference (Passes Accounts)

/-- Every resident block was made from the instructions that the program has for its address. -/
def Mirrors (e : Engine) (src : Nat → List Insn) (program : UInt32 → Nat → List Insn) : Prop :=
  ∀ {id b}, e.block? id = some b → b.isValid = true →
    src id.index = program b.entry e.config.maxBlockInsns

theorem Shrunk.mirrors {e c : Engine} {src : Nat → List Insn} {program : UInt32 → Nat → List Insn}
    (h : e.Shrunk c) (mirrors : e.Mirrors src program) : c.Mirrors src program := by
  intro id b hb valid
  obtain ⟨b₀, hb₀, valid₀, entry⟩ := h.resident hb valid
  rw [mirrors hb₀ valid₀, entry, config_of_frame h.frame]

/-- The machine is about to run the code of the resident block at the program counter. -/
structure Entering (e : Engine) (handlers : Handlers) (m : Machine) : Prop where
  poised : m.Poised (e.context handlers)
  framed : ∃ r, m.stack = X86.frameOf r
  quiet : m.guest.events.check = false
  block : ∃ id b, e.block? id = some b ∧ b.isValid = true ∧ b.entry = m.guest.cpu.pc ∧
    m.ip = b.hostOffset

variable {e : Engine} {src : Nat → List Insn} {handlers : Handlers}
  {program : UInt32 → Nat → List Insn} {m : Machine}

theorem Placed.emissionFault? (h : e.Placed src) {id : BlockId} {b : Block}
    (hb : e.block? id = some b) : e.emissionFault? b.entry (src id.index) = none := by
  obtain ⟨p, follows⟩ := h.follows hb
  rw [Engine.emissionFault?, follows.planned]
  exact if_neg (Nat.not_lt.2 follows.usable)

/-- One block of translated code: it does what the block's instructions do. Control is then at
another block, with no event pending, or leaves with a code that fits. -/
theorem Resting.step_block (h : e.Resting src) {id : BlockId} {b : Block}
    (hb : e.block? id = some b) (valid : b.isValid = true) (covers : Covers handlers (src id.index))
    (poised : m.Poised (e.context handlers)) {r : X86.Regs} (framed : m.stack = X86.frameOf r)
    (hip : m.ip = b.hostOffset) :
    ∃ g c, Platform.runBlock ⟨e.config, handlers⟩ m.guest (src id.index) = some (g, c) ∧
      ((∃ code, ExitCode.Fits g c code ∧ Departs (e.context handlers) m code g) ∨
        c.isBranch = true ∧ ∃ n m', 0 < n ∧ m.Reaches (e.context handlers) n m' ∧
          e.Entering handlers m' ∧ m'.guest = g) := by
  obtain ⟨g, c, q, ran, goesOn, goes⟩ := h.goes_block hb valid covers m.guest
  obtain ⟨n, m', pos, reaches, poised', hip', rfl, hstack⟩ := goes m poised hip rfl
  have framed' : m'.stack = X86.frameOf r := hstack.trans framed
  have departs (code : ExitCode) (stub : q = e.stubs.exit code) :
      Departs (e.context handlers) m code m'.guest :=
    .of_reaches reaches (h.leaves handlers code m' r (hip'.trans stub) framed')
  refine ⟨m'.guest, c, ran, ?_⟩
  cases goesOn with
  | preemptedExit pending => exact .inl ⟨_, .preempt rfl pending, departs .preempt rfl⟩
  | preempted pending => exact .inl ⟨_, .preempt rfl pending, departs .preempt rfl⟩
  | linked quiet _ _ _ stored valid' entry =>
    exact .inr ⟨rfl, n, m', pos, reaches,
      ⟨poised', ⟨r, framed'⟩, quiet, _, _, stored, valid', entry, hip'⟩, rfl⟩
  | unlinked quiet => exact .inl ⟨_, .dispatch rfl quiet, departs .dispatch rfl⟩
  | hit quiet _ stored valid' entry =>
    exact .inr ⟨rfl, n, m', pos, reaches,
      ⟨poised', ⟨r, framed'⟩, quiet, _, _, stored, valid', entry, hip'⟩, rfl⟩
  | miss quiet => exact .inl ⟨_, .dispatch rfl quiet, departs .dispatch rfl⟩
  | invalidate => exact .inl ⟨_, .invalidate, departs .invalidate rfl⟩
  | syscall => exact .inl ⟨_, .syscall, departs .syscall rfl⟩

/-- One block of translated code is one block of the dispatcher. Control is then at another block or
leaves. -/
theorem Resting.enter_block (h : e.Resting src) (mirrors : e.Mirrors src program)
    (covers : ∀ pc, Covers handlers (program pc e.config.maxBlockInsns))
    (entering : e.Entering handlers m) :
    (∃ code g', Departs (e.context handlers) m code g' ∧
      Accounts e handlers program 1 m.guest g' code) ∨
      ∃ n m', 0 < n ∧ m.Reaches (e.context handlers) n m' ∧ e.Entering handlers m' ∧
        Passes e handlers program 1 m.guest m'.guest := by
  obtain ⟨poised, ⟨r, framed⟩, quiet, id, b, hb, valid, entry, hip⟩ := entering
  have source : src id.index = program m.guest.cpu.pc e.config.maxBlockInsns :=
    entry ▸ mirrors hb valid
  have possible := h.placed.emissionFault? hb
  rw [entry, source] at possible
  obtain ⟨g, c, ran, next⟩ := h.step_block hb valid (source ▸ covers _) poised framed hip
  rw [source] at ran
  have passes (hc : c ≠ .syscall) : Passes e handlers program 1 m.guest g := by
    intro fuel
    rw [Nat.add_comm]
    exact Reference.run_block quiet possible ran hc fuel
  have branches (hc : c.isBranch = true) : c ≠ .syscall := by
    rintro rfl
    cases hc
  obtain ⟨code, fits, departs⟩ | ⟨branch, n, m', pos, reaches, entering', rfl⟩ := next
  · refine .inl ⟨code, g, departs, ?_⟩
    cases fits with
    | preempt branch pending => exact .preempt (passes (branches branch)) pending
    | dispatch branch => exact .dispatch (passes (branches branch))
    | invalidate => exact .invalidate (passes nofun)
    | syscall =>
      refine .syscall fun fuel => ?_
      rw [Nat.add_comm]
      exact Reference.run_syscall quiet possible ran fuel
  · exact .inr ⟨n, m', pos, reaches, entering', passes (branches branch)⟩

/-- Within `k` blocks of the dispatcher translated code leaves, or it has run as many blocks
itself. -/
theorem Resting.enter_blocks (h : e.Resting src) (mirrors : e.Mirrors src program)
    (covers : ∀ pc, Covers handlers (program pc e.config.maxBlockInsns))
    (entering : e.Entering handlers m) (k : Nat) :
    (∃ n code g', 0 < n ∧ n ≤ k ∧ Departs (e.context handlers) m code g' ∧
        Accounts e handlers program n m.guest g' code) ∨
      ∃ n m', k ≤ n ∧ m.Reaches (e.context handlers) n m' ∧ e.Entering handlers m' ∧
        Passes e handlers program k m.guest m'.guest := by
  induction k generalizing m with
  | zero =>
    refine .inr ⟨0, m, Nat.le_refl 0, .refl m, entering, fun fuel => ?_⟩
    rw [Nat.zero_add]
  | succ k ih =>
    obtain ⟨code, g', departs, accounts⟩ | ⟨n, m₁, pos, reaches, entering₁, passes⟩ :=
      h.enter_block mirrors covers entering
    · exact .inl ⟨1, code, g', Nat.one_pos, by omega, departs, accounts⟩
    · rw [Nat.add_comm k 1]
      obtain ⟨j, code, g', -, le, departs, accounts⟩ | ⟨n', m', le, reaches', entering', passes'⟩ :=
        ih entering₁
      · exact .inl ⟨1 + j, code, g', by omega, by omega, .of_reaches reaches departs,
          passes.accounts accounts⟩
      · exact .inr ⟨n + n', m', by omega, reaches.trans reaches', entering', passes.trans passes'⟩

section Call

variable {id : BlockId} {b : Block} {g : GuestState} (h : e.Resting src) (hb : e.block? id = some b)
  (valid : b.isValid = true) (entry : b.entry = g.cpu.pc) (quiet : g.events.check = false)
include h hb valid entry quiet

/-- The entry code leads to the block whose address it is called with. -/
theorem Resting.call_enters (handlers : Handlers) :
    ∃ n m, (X86.boot e.stubs.prologue (.ofNat (e.buffer.base + b.hostOffset)) g).Reaches
      (e.context handlers) n m ∧ e.Entering handlers m ∧ m.guest = g := by
  have offset : e.buffer.offsetOf? (.ofNat (e.buffer.base + b.hostOffset)) = some b.hostOffset :=
    CodeBuffer.offsetOf?_eq_some h.placed.hosted.mapped (h.placed.offset_lt hb)
  have prologue : e.stubs.prologue = 0 := by
    rw [h.placed.hosted.stubs]
    rfl
  have stubs : (e.context handlers).code.Holds 0 X86.stubBytes := h.coded.stubs
  obtain ⟨n, m, reaches, poised, hip, hguest, hstack⟩ := X86.enters stubs
    (m := X86.boot e.stubs.prologue (.ofNat (e.buffer.base + b.hostOffset)) g) prologue
      rfl rfl offset
  refine ⟨n, m, reaches, ⟨poised, ⟨_, hstack.trans (List.append_nil _)⟩, ?_, ?_⟩, hguest⟩
  · exact hguest ▸ quiet
  · exact ⟨id, b, hb, valid, hguest ▸ entry, hip⟩

variable (mirrors : e.Mirrors src program)
  (covers : ∀ pc, Covers handlers (program pc e.config.maxBlockInsns))
include mirrors covers

/-- A call of translated code that ends leaves as the dispatcher accounts for. -/
theorem Resting.call_cases (fuel : Nat) :
    X86.call (e.context handlers) e.stubs.prologue (.ofNat (e.buffer.base + b.hostOffset)) g fuel =
        .outOfFuel ∨
      ∃ n code g', Accounts e handlers program n g g' code ∧
        X86.call (e.context handlers) e.stubs.prologue (.ofNat (e.buffer.base + b.hostOffset))
          g fuel = .left code.code g' := by
  obtain ⟨n₀, m, reaches, entering, rfl⟩ := h.call_enters hb valid entry quiet handlers
  rw [X86.call_eq_run]
  obtain ⟨n, code, g', -, -, departs, accounts⟩ | ⟨n, m', le, reaches', -, -⟩ :=
    h.enter_blocks mirrors covers entering fuel
  · obtain short | left := (departs.of_reaches reaches).run_cases fuel
    · exact .inl short
    · exact .inr ⟨n, code, g', accounts, left⟩
  · exact .inl ((reaches.trans reaches').run_short (by omega))

/-- Translated code leaves where the dispatcher ends. -/
theorem Resting.call_leaves {k : Nat}
    (ends : (Reference.run e handlers program k g).1 ≠ .outOfFuel) :
    ∃ n code g' fuel₀, 0 < n ∧ n ≤ k ∧ Accounts e handlers program n g g' code ∧ ∀ fuel,
      X86.call (e.context handlers) e.stubs.prologue (.ofNat (e.buffer.base + b.hostOffset)) g
        (fuel₀ + fuel) = .left code.code g' := by
  obtain ⟨n₀, m, reaches, entering, rfl⟩ := h.call_enters hb valid entry quiet handlers
  obtain ⟨n, code, g', pos, le, departs, accounts⟩ | ⟨n, m', -, -, -, passes⟩ :=
    h.enter_blocks mirrors covers entering k
  · obtain ⟨fuel₀, left⟩ := (departs.of_reaches reaches).run_eq
    exact ⟨n, code, g', fuel₀, pos, le, accounts, left⟩
  · have := passes 0
    rw [Nat.add_zero] at this
    exact absurd (congrArg Prod.fst this) ends

end Call

end Engine

namespace Session

open Reference (Passes Accounts)

variable {σ : Type} {s : Session σ} {t : Translator σ} {handlers : Handlers} {src : Nat → List Insn}
  {program : UInt32 → Nat → List Insn}

/-- The engine has been made by operations, from blocks of the program. -/
structure Faithful (s : Session σ) (src : Nat → List Insn) (program : UInt32 → Nat → List Insn) :
    Prop where
  made : s.engine.Made src
  mirrors : s.engine.Mirrors src program

/-- What the dispatcher does when translated code has left. -/
def resume (t : Translator σ) (handlers : Handlers) (fuel : Nat) (s : Session σ) :
    ExitCode → RunResult × Session σ
  | .dispatch => run t handlers fuel (s.report (.dispatched s.guest.cpu.pc))
  | .preempt => (.finished (.preempted s.guest.events.bits), s)
  | .syscall => (.finished .systemCall, s)
  | .invalidate =>
    match s.invalidateLine with
    | (.error f, s) => (.failed f, s)
    | (.ok _, s) => run t handlers fuel s

theorem run_eq_resume {s' : Session σ} {entry : UInt64} {fuel : Nat} {code : ExitCode}
    {g : GuestState} (quiet : s.guest.events.check = false)
    (resolve : s.resolve t = (.ok entry, s'))
    (left : X86.call (s'.engine.context handlers) s'.engine.stubs.prologue entry s'.guest fuel =
      .left code.code g) :
    s.run t handlers (fuel + 1) = resume t handlers fuel { s' with guest := g } code := by
  have left' : X86.call (s'.context handlers) s'.engine.stubs.prologue entry s'.guest fuel =
    .left code.code g := left
  simp only [run, quiet, resolve, left', ExitCode.ofCode?_code, Bool.false_eq_true, if_false]
  cases code <;> rfl

theorem run_eq_outOfFuel {s' : Session σ} {entry : UInt64} {fuel : Nat}
    (quiet : s.guest.events.check = false) (resolve : s.resolve t = (.ok entry, s'))
    (short : X86.call (s'.engine.context handlers) s'.engine.stubs.prologue entry s'.guest fuel =
      .outOfFuel) :
    s.run t handlers (fuel + 1) = (.outOfFuel, s') := by
  have short' : X86.call (s'.context handlers) s'.engine.stubs.prologue entry s'.guest fuel =
    .outOfFuel := short
  simp only [run, quiet, resolve, short', Bool.false_eq_true, if_false]

theorem Faithful.resolve_cases (h : s.Faithful src program)
    (pure : ∀ source pc n, (t.translate source pc n).1 = program pc n) :
    (∃ fault s', s.resolve t = (.error fault, s') ∧ s'.guest = s.guest ∧
      s.engine.emissionFault? s.guest.cpu.pc
        (program s.guest.cpu.pc s.engine.config.maxBlockInsns) =
        some fault) ∨
    ∃ entry s' src', s.resolve t = (.ok entry, s') ∧ s.Resolved t src entry s' src' ∧
      s'.Faithful src' program := by
  have fetched : s.fetched t = program s.guest.cpu.pc s.engine.config.maxBlockInsns := pure ..
  obtain ⟨fault, s', hresolve, guest, -, failed⟩ | ⟨entry, s', src', hresolve, resolved⟩ :=
    Session.resolve_cases h.made (t := t)
  · exact .inl ⟨fault, s', hresolve, guest, fetched ▸ failed⟩
  · refine .inr ⟨entry, s', src', hresolve, resolved, resolved.made, ?_⟩
    intro id b hb valid
    rw [Engine.config_of_frame resolved.frame]
    obtain ⟨same, b₀, hb₀, valid₀, entry₀⟩ | ⟨atPc, new⟩ := resolved.source hb valid
    · rw [same, h.mirrors hb₀ valid₀, entry₀]
    · rw [new, fetched, atPc]

/-- Behind translated code the run ends as the dispatcher does, or goes on where that goes on. -/
theorem Faithful.resume_cases (h : s.Faithful src program) {n : Nat} {g : GuestState}
    {code : ExitCode} (accounts : Accounts s.engine handlers program n g s.guest code) :
    (∃ result s', result ≠ .outOfFuel ∧ (∀ fuel, s.resume t handlers fuel code = (result, s')) ∧
      ∀ fuel, Reference.run s.engine handlers program (n + 1 + fuel) g = (result, s'.guest)) ∨
    ∃ s' : Session σ, s'.Faithful src program ∧ s'.engine.frame = s.engine.frame ∧
      (∀ fuel, s.resume t handlers fuel code = s'.run t handlers fuel) ∧
      Passes s.engine handlers program n g s'.guest := by
  cases accounts with
  | dispatch passes =>
    exact .inr ⟨s.report (.dispatched s.guest.cpu.pc), ⟨h.made, h.mirrors⟩, rfl,
      fun _ => rfl, passes⟩
  | preempt passes pending =>
    refine .inl ⟨.finished (.preempted s.guest.events.bits), s, nofun, fun _ => rfl, fun fuel => ?_⟩
    rw [Nat.add_assoc, passes, Nat.add_comm]
    exact Reference.run_pending pending fuel
  | syscall ends =>
    refine .inl ⟨.finished .systemCall, s, nofun, fun _ => rfl, fun fuel => ?_⟩
    rw [Nat.add_assoc]
    exact ends _
  | invalidate passes =>
    obtain ⟨removed, s', hline, guest, shrunk, made⟩ := invalidateLine_cases h.made
    refine .inr ⟨s', ⟨made, shrunk.mirrors h.mirrors⟩, shrunk.frame, fun fuel => ?_, guest ▸ passes⟩
    simp only [resume, hline]

/-- One round of the dispatcher: when the code that it has entered leaves, the run ends as the
dispatcher without code does, or goes on where that goes on. -/
theorem Resolved.round {entry : UInt64} {s₁ : Session σ} {src₁ : Nat → List Insn} {n : Nat}
    {g : GuestState} {code : ExitCode} (resolved : s.Resolved t src entry s₁ src₁)
    (faithful : s₁.Faithful src₁ program) (quiet : s.guest.events.check = false)
    (resolve : s.resolve t = (.ok entry, s₁))
    (accounts : Accounts s₁.engine handlers program n s₁.guest g code) :
    (∃ result s', result ≠ .outOfFuel ∧
      (∀ fuel, X86.call (s₁.engine.context handlers) s₁.engine.stubs.prologue entry s₁.guest fuel =
        .left code.code g → s.run t handlers (fuel + 1) = (result, s')) ∧
      ∀ fuel, Reference.run s.engine handlers program (n + 1 + fuel) s.guest = (result, s'.guest)) ∨
    ∃ s' : Session σ, s'.Faithful src₁ program ∧ s'.engine.frame = s.engine.frame ∧
      (∀ fuel, X86.call (s₁.engine.context handlers) s₁.engine.stubs.prologue entry s₁.guest fuel =
        .left code.code g → s.run t handlers (fuel + 1) = s'.run t handlers fuel) ∧
      Passes s.engine handlers program n s.guest s'.guest := by
  have faithful' : Faithful { s₁ with guest := g } src₁ program := ⟨faithful.made, faithful.mirrors⟩
  obtain ⟨result, s', returns, same, answer⟩ | ⟨s', faithful', frame, same, passes⟩ :=
    faithful'.resume_cases accounts (t := t)
  · refine .inl ⟨result, s', returns, fun fuel left => ?_, fun fuel => ?_⟩
    · rw [run_eq_resume quiet resolve left, same]
    · rw [← resolved.guest, ← Reference.run_of_frame resolved.frame]
      exact answer fuel
  · refine .inr ⟨s', faithful', frame.trans resolved.frame, fun fuel left => ?_, fun fuel => ?_⟩
    · rw [run_eq_resume quiet resolve left, same]
    · rw [← resolved.guest, ← Reference.run_of_frame resolved.frame,
        ← Reference.run_of_frame resolved.frame]
      exact passes fuel

section Run

variable (pure : ∀ source pc n, (t.translate source pc n).1 = program pc n)
  (covers : ∀ pc n, Covers handlers (program pc n))
include pure covers

/-- A run that ends ends as the dispatcher without code. -/
theorem Faithful.run_ends (h : s.Faithful src program) {fuel : Nat} {result : RunResult}
    {s' : Session σ} (ran : s.run t handlers fuel = (result, s')) (returns : result ≠ .outOfFuel) :
    ∃ n, ∀ k, Reference.run s.engine handlers program (n + k) s.guest = (result, s'.guest) := by
  induction fuel generalizing s src with
  | zero =>
    cases ran
    exact absurd rfl returns
  | succ fuel ih =>
    cases quiet : s.guest.events.check with
    | true =>
      simp only [run, quiet, if_true] at ran
      cases ran
      exact ⟨1, fun k => Nat.add_comm k 1 ▸ Reference.run_pending quiet k⟩
    | false =>
      obtain ⟨fault, s₁, resolve, guest, failed⟩ | ⟨entry, s₁, src₁, resolve, resolved, faithful⟩ :=
        h.resolve_cases pure
      · simp only [run, quiet, resolve, Bool.false_eq_true, if_false] at ran
        cases ran
        exact ⟨1, fun k => guest.symm ▸ Nat.add_comm k 1 ▸ Reference.run_failed quiet failed k⟩
      · obtain ⟨id, b, hb, valid, atPc, rfl⟩ := resolved.block
        obtain short | ⟨n, code, g, accounts, left⟩ := faithful.made.resting.call_cases hb valid
          (resolved.guest ▸ atPc) (resolved.guest ▸ quiet) faithful.mirrors
            (fun pc => covers pc _) fuel
        · rw [run_eq_outOfFuel quiet resolve short] at ran
          cases ran
          exact absurd rfl returns
        · obtain ⟨_, _, -, ends, answer⟩ | ⟨s₂, faithful₂, frame, goes, passes⟩ :=
            resolved.round faithful quiet resolve accounts
          · cases (ends fuel left).symm.trans ran
            exact ⟨n + 1, answer⟩
          · obtain ⟨n', later⟩ := ih faithful₂ ((goes fuel left).symm.trans ran)
            refine ⟨n + n', fun k => ?_⟩
            rw [Nat.add_assoc, passes, ← later k, Reference.run_of_frame frame]

/-- A run ends where the dispatcher without code ends. -/
theorem Faithful.run_returns (h : s.Faithful src program) {n : Nat}
    (ends : (Reference.run s.engine handlers program n s.guest).1 ≠ .outOfFuel) :
    ∃ fuel₀, ∀ fuel, (s.run t handlers (fuel₀ + fuel)).1 ≠ .outOfFuel := by
  induction n using Nat.strongRecOn generalizing s src with
  | ind n ih =>
    cases quiet : s.guest.events.check with
    | true =>
      refine ⟨1, fun fuel => ?_⟩
      rw [Nat.add_comm]
      simp only [run, quiet, if_true]
      rintro ⟨⟩
    | false =>
      obtain ⟨fault, s₁, resolve, guest, failed⟩ | ⟨entry, s₁, src₁, resolve, resolved, faithful⟩ :=
        h.resolve_cases pure
      · refine ⟨1, fun fuel => ?_⟩
        rw [Nat.add_comm]
        simp only [run, quiet, resolve, Bool.false_eq_true, if_false]
        rintro ⟨⟩
      · obtain ⟨id, b, hb, valid, atPc, rfl⟩ := resolved.block
        have ends₁ : (Reference.run s₁.engine handlers program n s₁.guest).1 ≠ .outOfFuel := by
          rw [Reference.run_of_frame resolved.frame, resolved.guest]
          exact ends
        obtain ⟨j, code, g, fuel₀, pos, le, accounts, left⟩ :=
          faithful.made.resting.call_leaves hb valid
            (resolved.guest ▸ atPc) (resolved.guest ▸ quiet) faithful.mirrors
              (fun pc => covers pc _) ends₁
        obtain ⟨_, _, returns, answer, -⟩ | ⟨s₂, faithful₂, frame, goes, passes⟩ :=
          resolved.round faithful quiet resolve accounts
        · refine ⟨fuel₀ + 1, fun fuel => ?_⟩
          rw [Nat.add_right_comm, answer _ (left fuel)]
          exact returns
        · have rest := passes (n - j)
          rw [Nat.add_sub_cancel' le] at rest
          have ends₂ :
              (Reference.run s₂.engine handlers program (n - j) s₂.guest).1 ≠ .outOfFuel := by
            rw [Reference.run_of_frame frame, ← rest]
            exact ends
          obtain ⟨fuel₁, later⟩ := ih (n - j) (by omega) faithful₂ ends₂
          -- Enough for the code that is entered now, and for all that comes behind it.
          refine ⟨fuel₀ + fuel₁ + 1, fun fuel => ?_⟩
          have now : fuel₀ + fuel₁ + 1 + fuel = fuel₀ + (fuel₁ + fuel) + 1 := by omega
          have behind : fuel₀ + (fuel₁ + fuel) = fuel₁ + (fuel₀ + fuel) := by omega
          rw [now, goes _ (left _), behind]
          exact later _

end Run

/-- A run over code that was made from a program ends if and as the dispatcher without code ends:
with the same result, and with the guest in the same state. -/
theorem run_eq_iff_reference (made : s.engine.Made src) (mirrors : s.engine.Mirrors src program)
    (pure : ∀ source pc n, (t.translate source pc n).1 = program pc n)
    (covers : ∀ pc n, Covers handlers (program pc n)) {result : RunResult}
    (returns : result ≠ .outOfFuel) (g : GuestState) :
    (∃ fuel s', s.run t handlers fuel = (result, s') ∧ s'.guest = g) ↔
      ∃ fuel, Reference.run s.engine handlers program fuel s.guest = (result, g) := by
  have faithful : s.Faithful src program := ⟨made, mirrors⟩
  constructor
  · rintro ⟨fuel, s', ran, rfl⟩
    obtain ⟨n, ends⟩ := faithful.run_ends pure covers ran returns
    exact ⟨n, ends 0⟩
  · rintro ⟨n, ends⟩
    obtain ⟨fuel, done⟩ := faithful.run_returns pure covers (n := n) (by rw [ends]; exact returns)
    obtain ⟨k, ends'⟩ := faithful.run_ends pure covers rfl (done 0)
    have same := Reference.run_add (by rw [ends]; exact returns) k
    rw [Nat.add_comm, ends' n, ends] at same
    obtain ⟨hresult, hguest⟩ := Prod.ext_iff.1 same
    exact ⟨fuel, _, Prod.ext hresult rfl, hguest⟩

/-- The loop, and a system call everywhere else. -/
def loopProgram (pc : UInt32) (_ : Nat) : List Insn :=
  if pc = 0x100 then Engine.countdown else [⟨pc, .sc⟩]

/-- Three turns of the loop are left. -/
def loopSession : Session Unit where
  engine := Engine.onePage
  guest := { cpu := { ctr := 3, pc := 0x100 } }
  source := ()

theorem loop_runs_to_system_call :
    (∃ src, loopSession.engine.Made src ∧ loopSession.engine.Mirrors src loopProgram) ∧
    (∀ pc n, Covers Engine.notingHandlers (loopProgram pc n)) ∧
    ∃ fuel s',
      loopSession.run ⟨fun source pc n => (loopProgram pc n, source)⟩ Engine.notingHandlers fuel =
        (.finished .systemCall, s') ∧
      s'.guest.cpu = { gpr := (Vector.replicate 32 0).setIfInBounds 3 5,
                       xer := 9, pc := 0x110, icbiEa := 0x104 } := by
  obtain ⟨src, made⟩ := Engine.reachable_onePage.made
  have mirrors : Engine.onePage.Mirrors src loopProgram := nofun
  have covers (pc : UInt32) (n : Nat) : Covers Engine.notingHandlers (loopProgram pc n) :=
    fun _ _ _ _ _ => rfl
  have returns : RunResult.finished .systemCall ≠ .outOfFuel := nofun
  obtain ⟨g, ends, cpu⟩ : ∃ g, Reference.run Engine.onePage Engine.notingHandlers loopProgram 4
      loopSession.guest = (.finished .systemCall, g) ∧
      g.cpu = { gpr := (Vector.replicate 32 0).setIfInBounds 3 5,
                xer := 9, pc := 0x110, icbiEa := 0x104 } :=
    ⟨_, rfl, by decide⟩
  obtain ⟨fuel, s', ran, rfl⟩ := (run_eq_iff_reference (s := loopSession)
    (t := ⟨fun source pc n => (loopProgram pc n, source)⟩) made mirrors (fun _ _ _ => rfl) covers
    returns g).2 ⟨4, ends⟩
  exact ⟨⟨src, made, mirrors⟩, covers, fuel, s', ran, cpu⟩

end Session
end Dynarec
