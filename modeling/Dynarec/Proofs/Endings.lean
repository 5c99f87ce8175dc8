import Dynarec.Proofs.Operations

/-!
The ends of blocks: how control leaves translated code, and that a whole plan does what its
instructions mean.
-/
namespace Dynarec

open X86 (Context Goes)
open X86.Templates

variable {e : Engine} {cx : Context} {w : Wiring} {p k : Nat} {g : GuestState}
  {steps : List PlanStep}

/-- The step that polls the preemption word. -/
def pollStep (e : Engine) : PlanStep :=
  .place preemptCheck [LinkField.preempt.value, .stub e.stubs.preempt]

def exitSteps (e : Engine) (target : UInt32) : List PlanStep :=
  [storeStep .pc target, pollStep e, .place chainJump [.exit target]]

def leaveSteps (stub : Nat) (next : UInt32) : List PlanStep :=
  [storeStep .pc next, .place chainJump [.stub stub]]

def indirectSteps (e : Engine) (src : CpuField) : List PlanStep :=
  [.place indirectTarget [src.value, CpuField.pc.value], pollStep e,
    .place indirectLookup [CpuField.pc.value, .imm (.ofNat (jumpCacheSize - 1)),
      LinkField.jumpCache.value, .stub e.stubs.dispatch]]

namespace Engine.Hosted

theorem planPreemptCheck (h : e.Hosted) : e.planPreemptCheck = .ok [pollStep e] :=
  h.planPlace rfl rfl

/-- Over the host's table an exit can always be planned. -/
theorem planExit (h : e.Hosted) (target : UInt32) :
    e.planExit target = .ok (exitSteps e target) := by
  have hjump : e.planPlace ⟨.chainJump, .direct⟩ [.exit target] =
    .ok [.place chainJump [.exit target]] := h.planPlace rfl rfl
  rw [Engine.planExit, h.planStore, h.planPreemptCheck, hjump]
  rfl

theorem planLeave (h : e.Hosted) (stub : Nat) (next : UInt32) :
    e.planLeave stub next = .ok (leaveSteps stub next) := by
  have hjump : e.planPlace ⟨.chainJump, .direct⟩ [.stub stub] =
    .ok [.place chainJump [.stub stub]] := h.planPlace rfl rfl
  rw [Engine.planLeave, h.planStore, hjump]
  rfl

/-- Over the host's table an indirect branch can always be planned. -/
theorem planIndirect (h : e.Hosted) (src : CpuField) :
    e.planIndirect src = .ok (indirectSteps e src) := by
  rw [Engine.planIndirect, h.planPlace rfl rfl, h.planPreemptCheck, h.planPlace rfl rfl]
  rfl

/-- The stubs stand in front of all blocks. -/
theorem stub_le (h : e.Hosted) {stub : Nat} (hstub : stub ≤ X86.stubsSize) :
    stub ≤ e.buffer.capacity :=
  Nat.le_trans hstub h.room

/-- The stubs lie in the buffer. -/
theorem dispatch_le (h : e.Hosted) : e.stubs.dispatch ≤ e.buffer.capacity :=
  h.stub_le (h.stubs ▸ by decide)

theorem preempt_le (h : e.Hosted) : e.stubs.preempt ≤ e.buffer.capacity :=
  h.stub_le (h.stubs ▸ by decide)

/-- The dispatch stub stands before every block. -/
theorem dispatch_lt (h : e.Hosted) (behind : X86.stubsSize ≤ p) : e.stubs.dispatch < p := by
  rw [h.stubs]
  exact Nat.lt_of_lt_of_le (by decide) behind

end Engine.Hosted

section Fits

theorem fits_pollStep (hosted : e.Hosted) : (pollStep e).Fits e :=
  @fits_of_lookup e ⟨.preemptCheck, .fixed⟩ _ _ rfl ⟨.imm _ _, .stub _ hosted.preempt_le, trivial⟩

/-- The values of an exit fit their slots, wherever it is written. -/
theorem fits_exitSteps (hosted : e.Hosted) (target : UInt32) :
    ∀ s ∈ exitSteps e target, s.Fits e := by
  simp only [exitSteps, List.forall_mem_cons]
  exact ⟨fits_storeStep, fits_pollStep hosted,
    @fits_of_lookup e ⟨.chainJump, .direct⟩ _ _ rfl ⟨.exit _ _, trivial⟩, nofun⟩

theorem fits_leaveSteps {stub : Nat} (h : stub ≤ e.buffer.capacity) (next : UInt32) :
    ∀ s ∈ leaveSteps stub next, s.Fits e := by
  simp only [leaveSteps, List.forall_mem_cons]
  exact ⟨fits_storeStep,
    @fits_of_lookup e ⟨.chainJump, .direct⟩ _ _ rfl ⟨.leave _ h, trivial⟩, nofun⟩

/-- The values of an indirect branch fit their slots, wherever it is written. -/
theorem fits_indirectSteps (hosted : e.Hosted) (src : CpuField) :
    ∀ s ∈ indirectSteps e src, s.Fits e := by
  simp only [indirectSteps, List.forall_mem_cons]
  exact ⟨@fits_of_lookup e ⟨.indirectTarget, .reg⟩ _ _ rfl ⟨.imm _ _, .imm _ _, trivial⟩,
    fits_pollStep hosted, @fits_of_lookup e ⟨.indirectLookup, .fixed⟩ _ _ rfl
      ⟨.imm _ _, .imm _ _, .imm _ _, .stub _ hosted.dispatch_le, trivial⟩, nofun⟩

theorem straight_exitSteps (target : UInt32) : ∀ s ∈ exitSteps e target, s.Straight := by
  simp only [exitSteps, List.forall_mem_cons]
  exact ⟨straight_storeStep, by simp [pollStep, PlanStep.Straight, LinkField.value],
    by simp [PlanStep.Straight], nofun⟩

theorem straight_leaveSteps (stub : Nat) (next : UInt32) :
    ∀ s ∈ leaveSteps stub next, s.Straight := by
  simp only [leaveSteps, List.forall_mem_cons]
  exact ⟨straight_storeStep, by simp [PlanStep.Straight], nofun⟩

theorem straight_indirectSteps (src : CpuField) : ∀ s ∈ indirectSteps e src, s.Straight := by
  simp [indirectSteps, pollStep, PlanStep.Straight, CpuField.value, LinkField.value]

end Fits

theorem stepsSize_exitSteps (target : UInt32) : stepsSize (exitSteps e target) = 32 := by
  simp only [exitSteps, stepsSize_cons, size_storeStep]
  rfl

theorem stepsSize_leaveSteps (stub : Nat) (next : UInt32) :
    stepsSize (leaveSteps stub next) = 15 := by
  simp only [leaveSteps, stepsSize_cons, size_storeStep]
  rfl

theorem stepsSize_indirectSteps (src : CpuField) : stepsSize (indirectSteps e src) = 72 := rfl

/-- Where control lands that leaves a block in a way, with the guest in state `g`. Exits and
indirect branches poll the preemption word. -/
inductive Lands (e : Engine) (cx : Context) (w : Wiring) (g : GuestState) : Control → Nat → Prop
  | exit {k : Nat} (quiet : g.events.check = false) : Lands e cx w g (.exit k) (w.lands k)
  | exitPreempted {k : Nat} (pending : g.events.check = true) :
      Lands e cx w g (.exit k) e.stubs.preempt
  | hit {l : JumpLine} {q : Nat} (quiet : g.events.check = false)
      (line : cx.jumps.line? g.cpu.pc = some l) (tag : l.tag = g.cpu.pc)
      (host : cx.code.offsetOf? l.host = some q) : Lands e cx w g .indirect q
  | miss (quiet : g.events.check = false)
      (miss : ∀ l, cx.jumps.line? g.cpu.pc = some l → l.tag ≠ g.cpu.pc) :
      Lands e cx w g .indirect e.stubs.dispatch
  | indirectPreempted (pending : g.events.check = true) : Lands e cx w g .indirect e.stubs.preempt
  | syscall : Lands e cx w g .syscall e.stubs.syscall
  | invalidate : Lands e cx w g .invalidate e.stubs.invalidate

section Goes

variable {q : Nat} (hosted : e.Hosted) (attached : Attached e cx w)
include hosted attached

theorem goes_pollStep (room : p + 17 ≤ e.buffer.capacity)
    (holds : cx.code.Holds p (w.code p k (pollStep e))) :
    Goes cx p g (if g.events.check then e.stubs.preempt else p + 17) g :=
  X86.goes_preemptCheck (attached.spans hosted) (attached.capacity ▸ room) rfl
    (attached.capacity ▸ hosted.preempt_le) holds

/-- An exit sets the program counter, and leaves for the preempt stub or for where its field
leads. -/
theorem goes_exitSteps {target : UInt32} (room : p + 32 ≤ e.buffer.capacity)
    (holds : cx.code.Holds p (w.codes p k (exitSteps e target)))
    (lands : Lands e cx w (g.setPc target) (.exit k) q) : Goes cx p g q (g.setPc target) := by
  obtain ⟨fitsStore, fitsPoll, -⟩ :=
    List.forall_mem_cons.1 (fits_exitSteps hosted target) |>.imp_right
      List.forall_mem_cons.1
  obtain ⟨store, rest⟩ :=
    (attached.holds_cons hosted fitsStore (by rw [size_storeStep]; omega)).1 holds
  rw [size_storeStep, exitCount_storeStep] at rest
  obtain ⟨poll, jump⟩ := (attached.holds_cons hosted fitsPoll
    (Nat.le_trans (Nat.add_le_add_left (by decide : (17 : Nat) ≤ 22) _) room)).1 rest
  simp only [Wiring.codes, List.append_nil] at jump
  have first : Goes cx p g (p + 10) (g.setPc target) := goes_storeStep store
  have second := first.trans (goes_pollStep hosted attached (by omega) poll)
  cases lands with
  | exitPreempted pending => rwa [if_pos pending] at second
  | exit quiet =>
    rw [if_neg (by simp [quiet])] at second
    exact second.trans (X86.goes_chainJump (attached.spans hosted)
      (attached.capacity ▸ by omega) rfl (attached.capacity ▸ attached.wiring.lands k) jump)

/-- A way out through a stub. -/
theorem goes_leaveSteps {stub : Nat} {next : UInt32} (hstub : stub ≤ e.buffer.capacity)
    (room : p + 15 ≤ e.buffer.capacity)
    (holds : cx.code.Holds p (w.codes p k (leaveSteps stub next))) :
    Goes cx p g stub (g.setPc next) := by
  have fitsStore := (List.forall_mem_cons.1 (fits_leaveSteps hstub next)).1
  obtain ⟨store, jump⟩ :=
    (attached.holds_cons hosted fitsStore (by rw [size_storeStep]; omega)).1 holds
  rw [size_storeStep] at jump
  simp only [Wiring.codes, List.append_nil] at jump
  have first : Goes cx p g (p + 10) (g.setPc next) := goes_storeStep store
  exact first.trans (X86.goes_chainJump (attached.spans hosted) (attached.capacity ▸ by omega) rfl
    (attached.capacity ▸ hstub) jump)

/-- The code of an indirect branch is its target, the poll, the lookup and the jump for misses. -/
theorem holds_indirectSteps {src : CpuField} (room : p + 72 ≤ e.buffer.capacity)
    (holds : cx.code.Holds p (w.codes p k (indirectSteps e src))) :
    cx.code.Holds p (w.code p k (.place indirectTarget [src.value, CpuField.pc.value])) ∧
    cx.code.Holds (p + 15) (w.code (p + 15) k (pollStep e)) ∧
    cx.code.Holds (p + 15 + 17) (w.code (p + 15 + 17) k (.place indirectLookup
      [CpuField.pc.value, .imm (.ofNat (jumpCacheSize - 1)), LinkField.jumpCache.value,
        .stub e.stubs.dispatch])) := by
  obtain ⟨fitsAlign, fitsPoll, -⟩ :=
    List.forall_mem_cons.1 (fits_indirectSteps hosted src) |>.imp_right
      List.forall_mem_cons.1
  obtain ⟨align, rest⟩ := (attached.holds_cons hosted fitsAlign
    (Nat.le_trans (Nat.add_le_add_left (by decide : (15 : Nat) ≤ 72) _) room)).1 holds
  obtain ⟨poll, probe⟩ := (attached.holds_cons hosted fitsPoll
    (Nat.le_trans (Nat.add_le_add_left (by decide : (17 : Nat) ≤ 57) _) room)).1 rest
  simp only [Wiring.codes, List.append_nil] at probe
  exact ⟨align, poll, probe⟩

/-- An indirect branch polls first, and then goes to the code that the jump cache has for its target
or to the dispatch stub. -/
theorem goes_indirectSteps {src : CpuField} (room : p + 72 ≤ e.buffer.capacity)
    (behind : X86.stubsSize ≤ p) (holds : cx.code.Holds p (w.codes p k (indirectSteps e src)))
    (lands : Lands e cx w (g.setPc (g.cpu.get src &&& ~~~3)) .indirect q) :
    Goes cx p g q (g.setPc (g.cpu.get src &&& ~~~3)) := by
  obtain ⟨align, poll, probe⟩ := holds_indirectSteps hosted attached room holds
  have first : Goes cx p g (p + 15) (g.setPc (g.cpu.get src &&& ~~~3)) :=
    X86.goes_indirectTarget src align
  have second := first.trans (goes_pollStep hosted attached (by omega) poll)
  have inside : p + 15 + 17 + 40 ≤ cx.code.capacity := attached.capacity ▸ room
  have target_le : e.stubs.dispatch ≤ cx.code.capacity := attached.capacity ▸ hosted.dispatch_le
  cases lands with
  | indirectPreempted pending => rwa [if_pos pending] at second
  | hit quiet line tag host =>
    rw [if_neg (by simp [quiet])] at second
    exact second.trans
      (X86.goes_lookup_hit (attached.spans hosted) inside rfl target_le probe line tag host)
  | miss quiet miss =>
    rw [if_neg (by simp [quiet])] at second
    have below : e.stubs.dispatch < p + 15 + 17 := hosted.dispatch_lt (by omega)
    exact second.trans
      (X86.goes_lookup_miss (attached.spans hosted) inside rfl target_le probe miss below)

end Goes

section Exits

theorem exits_storeStep (f : CpuField) (v : UInt32) (offset : Nat) :
    (storeStep f v).exits offset = [] := by
  unfold storeStep
  split <;> rfl

theorem exits_eq_nil {t : Template} {values : List SlotValue} {offset : Nat}
    (h : PlanStep.exitCount (.place t values) = 0) :
    PlanStep.exits offset (.place t values) = [] := by
  have none : ∀ v ∈ values, ¬ v.isExit := List.countP_eq_zero.1 h
  simp only [PlanStep.exits, SlotValue.exitsOf, List.flatMap_eq_nil_iff]
  intro x hx
  cases hv : x.2 with
  | exit => exact absurd (hv ▸ rfl) (none x.2 (List.of_mem_zip hx).2)
  | _ => rfl

/-- An exit has one field, at the end of its jump. -/
theorem allExits_exitSteps (target : UInt32) (p : Nat) :
    PlanStep.allExits p (exitSteps e target) =
      [{ target, site := { start := p + 28, anchor := p + 32, width := .w32 } }] := by
  simp only [exitSteps, PlanStep.allExits, exits_storeStep, size_storeStep]
  rfl

theorem exitTotal_exitSteps (target : UInt32) : exitTotal (exitSteps e target) = 1 := by
  simp only [exitTotal, exitSteps, exitCount_storeStep]
  rfl

/-- An exit stands in a jump of its own. -/
def PlanStep.Plain (s : PlanStep) : Prop :=
  s.exitCount = 0 ∨ ∃ target, s = .place chainJump [.exit target]

theorem plain_exitSteps (target : UInt32) : ∀ s ∈ exitSteps e target, s.Plain := by
  simp only [exitSteps, List.forall_mem_cons]
  exact ⟨.inl exitCount_storeStep, .inl rfl, .inr ⟨target, rfl⟩, nofun⟩

theorem plain_leaveSteps (stub : Nat) (next : UInt32) : ∀ s ∈ leaveSteps stub next, s.Plain := by
  simp only [leaveSteps, List.forall_mem_cons]
  exact ⟨.inl exitCount_storeStep, .inl rfl, nofun⟩

end Exits

/-- The routines are there that the instructions of a block call. -/
def Covers (handlers : Handlers) (insns : List Insn) : Prop :=
  ∀ i ∈ basicBlock insns, ∀ addr word, i.op = .call addr word → (handlers addr).isSome

/-- The steps do what the instructions of a block mean, wherever they are written: control lands
behind the block with the guest in the state behind its instructions. -/
structure Translates (e : Engine) (insns : List Insn) (steps : List PlanStep) : Prop where
  fits : ∀ s ∈ steps, s.Fits e
  shaped : Shaped steps
  plain : ∀ s ∈ steps, s.Plain
  positive : 0 < stepsSize steps
  performs : ∀ handlers, Covers handlers insns → ∀ g, ∃ g' c,
    Platform.runBlock ⟨e.config, handlers⟩ g insns = some (g', c) ∧
    (∀ k, c = .exit k → ∀ p,
      (PlanStep.allExits p steps)[k]?.map (·.target) = some g'.cpu.pc) ∧
    ∀ cx w p pc q, cx.handlers = handlers → Attached e cx w →
      w.label = PlanStep.label none p steps → X86.stubsSize ≤ p →
      p + stepsSize steps ≤ e.buffer.capacity → cx.code.Holds p (w.codes p 0 steps) →
      Lands e cx w g' c q → Goes cx p (g.setPc pc) q g'

/-- A block ends with the first instruction that does not go on behind itself. -/
theorem Platform.runBlock_terminal {x : Platform} {i : Insn} {g' : GuestState} {c : Control}
    (h : x.step g i = some (g', c)) (hc : c ≠ .next) (rest : List Insn) :
    x.runBlock g (i :: rest) = some (g', c) := by
  rw [runBlock, h]
  cases c with
  | next => exact absurd rfl hc
  | _ => rfl

section Terminal

variable {i : Insn} {rest : List Insn} {f : GuestState → GuestState} {c : Control}

/-- An instruction that ends a block in one way only. -/
theorem Translates.of_terminal (fits : ∀ s ∈ steps, s.Fits e) (straight : ∀ s ∈ steps, s.Straight)
    (plain : ∀ s ∈ steps, s.Plain) (positive : 0 < stepsSize steps) (hc : c ≠ .next)
    (means : ∀ handlers g, Platform.step ⟨e.config, handlers⟩ g i = some (f g, c))
    (target : ∀ k, c = .exit k →
      ∀ g p, (PlanStep.allExits p steps)[k]?.map (·.target) = some (f g).cpu.pc)
    (goes : ∀ cx w p g q pc, Attached e cx w → X86.stubsSize ≤ p →
      p + stepsSize steps ≤ e.buffer.capacity → cx.code.Holds p (w.codes p 0 steps) →
        Lands e cx w (f g) c q → Goes cx p (g.setPc pc) q (f g)) :
    Translates e (i :: rest) steps where
  fits := fits
  shaped := .straight straight
  plain := plain
  positive := positive
  performs handlers _ g :=
    ⟨f g, c, Platform.runBlock_terminal (means handlers g) hc rest, fun k hk p => target k hk g p,
      fun cx w p pc q _ attached _ => goes cx w p g q pc attached⟩

/-- A branch is an exit to its target. -/
theorem translates_b {target : UInt32} (hosted : e.Hosted) (hop : i.op = .b target) :
    Translates e (i :: rest) (exitSteps e target) := by
  refine .of_terminal (fits_exitSteps hosted target) (straight_exitSteps target)
    (plain_exitSteps target) (by rw [stepsSize_exitSteps]; decide) nofun (f := (·.setPc target))
    (c := .exit 0) ?_ ?_ ?_
  · intro handlers g
    simp only [Platform.step, Platform.apply, hop]
    rfl
  · rintro _ ⟨⟩ g p
    rw [allExits_exitSteps]
    rfl
  · intro cx w p g q pc attached _ room holds lands
    rw [stepsSize_exitSteps] at room
    exact goes_exitSteps hosted attached room holds lands

/-- Steps in front of an ending do their work first. -/
theorem goes_front {front : List PlanStep} {q : Nat} {g' : GuestState} {z : GuestState → GuestState}
    (hosted : e.Hosted) (attached : Attached e cx w) (fits : ∀ s ∈ front, s.Fits e)
    (performs : Performs e cx.handlers front z)
    (room : p + stepsSize (front ++ steps) ≤ e.buffer.capacity)
    (holds : cx.code.Holds p (w.codes p k (front ++ steps)))
    (goes : cx.code.Holds (p + stepsSize front)
      (w.codes (p + stepsSize front) (k + exitTotal front) steps) →
      Goes cx (p + stepsSize front) (z g) q g') : Goes cx p g q g' := by
  rw [stepsSize_append] at room
  obtain ⟨first, second⟩ := (attached.holds_append hosted fits (by omega)).1 holds
  exact (performs cx w p k g rfl attached (by omega) first).trans (goes second)

/-- A branch that links notes the address behind it before it leaves. -/
theorem translates_bl {target : UInt32} (hosted : e.Hosted) (hop : i.op = .bl target) :
    Translates e (i :: rest) ([storeStep .lr i.next] ++ exitSteps e target) := by
  refine .of_terminal (f := fun g => (g.put .lr i.next).setPc target) (c := .exit 0)
    (List.forall_mem_cons.2 ⟨fits_storeStep, fits_exitSteps hosted target⟩)
    (List.forall_mem_cons.2 ⟨straight_storeStep, straight_exitSteps target⟩)
    (List.forall_mem_cons.2 ⟨.inl exitCount_storeStep, plain_exitSteps target⟩)
    (by rw [stepsSize_append, stepsSize_exitSteps]; omega) nofun ?_ ?_ ?_
  · intro handlers g
    simp only [Platform.step, Platform.apply, hop]
    rfl
  · rintro _ ⟨⟩ g p
    rw [PlanStep.allExits_append, allExits_exitSteps]
    simp only [PlanStep.allExits, exits_storeStep]
    rfl
  · intro cx w p g q pc attached _ room holds lands
    refine goes_front hosted attached (by simpa using fits_storeStep)
      performs_storeStep room holds ?_
    intro holds
    rw [stepsSize_append, stepsSize_exitSteps] at room
    exact goes_exitSteps hosted attached (by omega)
      (by simpa [exitTotal, exitCount_storeStep] using holds) lands

/-- The branches to the link and the count register differ in their source only. -/
theorem translates_indirect {src : CpuField} (hosted : e.Hosted) (hsrc : src ≠ .pc)
    (means : ∀ handlers g, Platform.apply ⟨e.config, handlers⟩ g i.op =
      some (g.setPc (g.cpu.get src &&& ~~~3), .indirect)) :
    Translates e (i :: rest) (indirectSteps e src) := by
  refine .of_terminal (f := fun g => g.setPc (g.cpu.get src &&& ~~~3)) (c := .indirect)
    (fits_indirectSteps hosted src) (straight_indirectSteps src) ?_
    (by rw [stepsSize_indirectSteps]; decide) nofun ?_ nofun ?_
  · simp only [indirectSteps, List.forall_mem_cons]
    exact ⟨.inl rfl, .inl rfl, .inl rfl, nofun⟩
  · intro handlers g
    rw [Platform.step, means, GuestState.get_setPc hsrc]
    rfl
  · intro cx w p g q pc attached behind room holds lands
    have hget := GuestState.get_setPc hsrc g pc
    have := goes_indirectSteps (g := g.setPc pc) (q := q) hosted attached room behind holds
    rw [hget] at this
    exact this lands

/-- A system call leaves through its stub with the program counter behind it. -/
theorem translates_sc (hosted : e.Hosted) (hop : i.op = .sc) :
    Translates e (i :: rest) (leaveSteps e.stubs.syscall i.next) := by
  have hstub : e.stubs.syscall ≤ e.buffer.capacity := hosted.stub_le (hosted.stubs ▸ by decide)
  refine .of_terminal (f := (·.setPc i.next)) (c := .syscall) (fits_leaveSteps hstub i.next)
    (straight_leaveSteps _ i.next) (plain_leaveSteps _ i.next)
    (by rw [stepsSize_leaveSteps]; decide) nofun ?_ nofun ?_
  · intro handlers g
    simp only [Platform.step, Platform.apply, hop]
    rfl
  · rintro cx w p g q pc attached _ room holds ⟨⟩
    rw [stepsSize_leaveSteps] at room
    exact goes_leaveSteps hosted attached hstub room holds

/-- A cache line is invalidated behind a step that puts its address into its register. -/
theorem translates_icbi {s : PlanStep} {v : GuestState → UInt32} (hosted : e.Hosted)
    (fits : s.Fits e) (straight : s.Straight) (exits : s.exitCount = 0)
    (performs : ∀ handlers, Performs e handlers [s] fun g => g.put .icbiEa (v g))
    (stable : ∀ g pc, v (g.setPc pc) = v g)
    (means : ∀ handlers g, Platform.apply ⟨e.config, handlers⟩ g i.op =
      some ((g.put .icbiEa (v g)).setPc (g.cpu.pc + 4), .invalidate)) :
    Translates e (i :: rest) ([s] ++ leaveSteps e.stubs.invalidate i.next) := by
  have hstub : e.stubs.invalidate ≤ e.buffer.capacity := hosted.stub_le (hosted.stubs ▸ by decide)
  refine .of_terminal (f := fun g => (g.put .icbiEa (v g)).setPc i.next) (c := .invalidate)
    (List.forall_mem_cons.2 ⟨fits, fits_leaveSteps hstub i.next⟩)
    (List.forall_mem_cons.2 ⟨straight, straight_leaveSteps _ i.next⟩)
    (List.forall_mem_cons.2 ⟨.inl exits, plain_leaveSteps _ i.next⟩)
    (by rw [stepsSize_append, stepsSize_leaveSteps]; omega) nofun ?_ nofun ?_
  · intro handlers g
    rw [Platform.step, means, stable]
    rfl
  · rintro cx w p g q pc attached _ room holds ⟨⟩
    refine goes_front hosted attached (by simpa using fits) (performs _) room holds fun holds => ?_
    rw [stepsSize_append, stepsSize_leaveSteps] at room
    rw [stable]
    exact goes_leaveSteps hosted attached hstub (by omega) holds

/-- The steps of a conditional branch. -/
def branchSteps (e : Engine) (t : Template) (values : List SlotValue) (target next : UInt32) :
    List PlanStep :=
  .place t (values ++ [.fallthrough]) :: (exitSteps e target ++ .fallthrough :: exitSteps e next)

section Branch

variable {t : Template} {values : List SlotValue} {target next : UInt32}

/-- The fallthrough code of a branch starts behind the exit of the branch that is taken. -/
theorem label_branchSteps (p : Nat) :
    PlanStep.label none p (branchSteps e t values target next) = some (p + t.size + 32) := by
  rw [branchSteps, PlanStep.label, PlanStep.label_append,
    PlanStep.label_straight (straight_exitSteps target), stepsSize_exitSteps, PlanStep.label,
    PlanStep.label_straight (straight_exitSteps next)]

theorem shaped_branchSteps (plain : .fallthrough ∉ values) :
    Shaped (branchSteps e t values target next) :=
  @Shaped.forked [] _ _ _ _ nofun plain (straight_exitSteps target) (straight_exitSteps next)

theorem fits_branchSteps (hosted : e.Hosted)
    (fits : PlanStep.Fits e (.place t (values ++ [.fallthrough]))) :
    ∀ s ∈ branchSteps e t values target next, s.Fits e := by
  refine List.forall_mem_cons.2 ⟨fits, List.forall_mem_append.2 ⟨fits_exitSteps hosted target, ?_⟩⟩
  exact List.forall_mem_cons.2 ⟨trivial, fits_exitSteps hosted next⟩

theorem plain_branchSteps (exits : PlanStep.exitCount (.place t (values ++ [.fallthrough])) = 0) :
    ∀ s ∈ branchSteps e t values target next, s.Plain := by
  refine List.forall_mem_cons.2 ⟨.inl exits, List.forall_mem_append.2 ⟨plain_exitSteps target, ?_⟩⟩
  exact List.forall_mem_cons.2 ⟨.inl rfl, plain_exitSteps next⟩

theorem stepsSize_branchSteps : stepsSize (branchSteps e t values target next) = t.size + 64 := by
  rw [branchSteps, stepsSize_cons, stepsSize_append, stepsSize_cons, stepsSize_exitSteps,
    stepsSize_exitSteps]
  rfl

/-- The code behind the test of a conditional branch, when it is taken and when it is not. -/
theorem holds_branchSteps (hosted : e.Hosted) (attached : Attached e cx w)
    (fits : PlanStep.Fits e (.place t (values ++ [.fallthrough])))
    (exits : PlanStep.exitCount (.place t (values ++ [.fallthrough])) = 0)
    (room : p + t.size + 64 ≤ e.buffer.capacity)
    (holds : cx.code.Holds p (w.codes p 0 (branchSteps e t values target next))) :
    cx.code.Holds p (w.code p 0 (.place t (values ++ [.fallthrough]))) ∧
      cx.code.Holds (p + t.size) (w.codes (p + t.size) 0 (exitSteps e target)) ∧
      cx.code.Holds (p + t.size + 32) (w.codes (p + t.size + 32) 1 (exitSteps e next)) := by
  obtain ⟨test, rest⟩ :=
    (attached.holds_cons hosted fits (by simp only [PlanStep.size]; omega)).1 holds
  rw [exits] at rest
  obtain ⟨taken, rest⟩ := (attached.holds_append hosted (fits_exitSteps hosted target)
    (by rw [stepsSize_exitSteps]; simp only [PlanStep.size]; omega)).1 rest
  rw [stepsSize_exitSteps, exitTotal_exitSteps] at rest
  exact ⟨test, taken, rest⟩

/-- The template tests the condition of a branch: its code goes on behind it when the branch is
taken, and at the fallthrough code when it is not. -/
structure Tests (e : Engine) (cond : BranchCond) (t : Template) (values : List SlotValue) :
    Prop where
  fits : PlanStep.Fits e (.place t (values ++ [.fallthrough]))
  settled : .fallthrough ∉ values
  exits : PlanStep.exitCount (.place t (values ++ [.fallthrough])) = 0
  performs : ∀ g : GuestState, ∃ taken, ∃ g' : GuestState,
    (∀ pc, Platform.branch? (g.setPc pc) cond = some (taken, g'.setPc pc)) ∧
    ∀ cx w p pc label, Attached e cx w → w.label = some label → p + t.size ≤ e.buffer.capacity →
      cx.code.Holds p (w.code p 0 (.place t (values ++ [.fallthrough]))) →
      Goes cx p (g.setPc pc) (if taken then p + t.size else label) (g'.setPc pc)

/-- A template that tests the condition makes a conditional branch, with an exit for each
outcome. -/
theorem translates_bc {cond : BranchCond} (hosted : e.Hosted) (hop : i.op = .bc cond target)
    (tests : Tests e cond t values) :
    Translates e (i :: rest) (branchSteps e t values target i.next) where
  fits := fits_branchSteps hosted tests.fits
  shaped := shaped_branchSteps tests.settled
  plain := plain_branchSteps tests.exits
  positive := by rw [stepsSize_branchSteps]; omega
  performs handlers _ g := by
    obtain ⟨taken, g', hbranch, goes⟩ := tests.performs g
    have step : Platform.step ⟨e.config, handlers⟩ g i =
        if taken then some (g'.setPc target, .exit 0) else some (g'.setPc i.next, .exit 1) := by
      simp only [Platform.step, Platform.apply, hop, hbranch]
      rfl
    have exits (p : Nat) :
        (PlanStep.allExits p (branchSteps e t values target i.next)).map (·.target) =
        [target, i.next] := by
      simp only [branchSteps, PlanStep.allExits, PlanStep.allExits_append, allExits_exitSteps]
      rw [exits_eq_nil tests.exits]
      rfl
    cases taken with
    | true =>
      refine ⟨_, _, Platform.runBlock_terminal step (by simp) rest, ?_, ?_⟩
      · rintro _ ⟨⟩ p
        rw [← List.getElem?_map, exits]
        rfl
      · intro cx w p pc q _ attached hlabel _ room holds lands
        rw [stepsSize_branchSteps] at room
        rw [label_branchSteps] at hlabel
        obtain ⟨test, code, -⟩ :=
          holds_branchSteps hosted attached tests.fits tests.exits (by omega) holds
        have first : Goes cx p (g.setPc pc) (p + t.size) (g'.setPc pc) :=
          goes cx w p pc _ attached hlabel (by omega) test
        exact first.trans (goes_exitSteps hosted attached (by omega) code lands)
    | false =>
      refine ⟨_, _, Platform.runBlock_terminal step (by simp) rest, ?_, ?_⟩
      · rintro _ ⟨⟩ p
        rw [← List.getElem?_map, exits]
        rfl
      · intro cx w p pc q _ attached hlabel _ room holds lands
        rw [stepsSize_branchSteps] at room
        rw [label_branchSteps] at hlabel
        obtain ⟨test, -, code⟩ :=
          holds_branchSteps hosted attached tests.fits tests.exits (by omega) holds
        have first : Goes cx p (g.setPc pc) (p + t.size + 32) (g'.setPc pc) :=
          goes cx w p pc _ attached hlabel (by omega) test
        exact first.trans (goes_exitSteps hosted attached (by omega) code lands)

/-- Counting down and testing for zero is what the condition on the counter asks for. -/
theorem tests_ctr (hosted : e.Hosted) : Tests e .decCtrNonZero branchCtr [CpuField.ctr.value] where
  fits := @fits_of_lookup e ⟨.condBranch, .ctrNonZero⟩ _ _ rfl ⟨.imm _ _, .label _, trivial⟩
  settled := by simp [CpuField.value]
  exits := rfl
  performs g := by
    refine ⟨g.cpu.ctr - 1 ≠ 0, g.put .ctr (g.cpu.ctr - 1), fun pc => rfl, ?_⟩
    intro cx w p pc label attached hlabel room holds
    have hraw : w.raw 0 .fallthrough = some (.ofNat (w.base + label)) := by
      simp [Wiring.raw, hlabel]
    simp only [decide_eq_true_eq, ne_eq, ite_not]
    exact X86.goes_branchCtr (attached.spans hosted) (attached.capacity ▸ room) hraw
      (attached.capacity ▸ attached.wiring.label label hlabel) holds

theorem tests_crSet {bit : UInt8} {mask : UInt32} (hosted : e.Hosted)
    (hmask : ConditionRegister.bitMask bit = .ok mask) :
    Tests e (.crSet bit) branchSet [CpuField.cr.value, .word mask] where
  fits := @fits_of_lookup e ⟨.condBranch, .crSet⟩ _ _ rfl ⟨.imm _ _, .imm _ _, .label _, trivial⟩
  settled := by simp [CpuField.value, SlotValue.word]
  exits := rfl
  performs g := by
    refine ⟨g.cpu.cr &&& mask ≠ 0, g, fun pc => by rw [Platform.branch?, hmask]; rfl, ?_⟩
    intro cx w p pc label attached hlabel room holds
    have hraw : w.raw 0 .fallthrough = some (.ofNat (w.base + label)) := by
      simp [Wiring.raw, hlabel]
    simp only [decide_eq_true_eq, ne_eq, ite_not]
    exact X86.goes_branchSet mask (attached.spans hosted) (attached.capacity ▸ room) hraw
      (attached.capacity ▸ attached.wiring.label label hlabel) holds

theorem tests_crClear {bit : UInt8} {mask : UInt32} (hosted : e.Hosted)
    (hmask : ConditionRegister.bitMask bit = .ok mask) :
    Tests e (.crClear bit) branchClear [CpuField.cr.value, .word mask] where
  fits := @fits_of_lookup e ⟨.condBranch, .crClear⟩ _ _ rfl ⟨.imm _ _, .imm _ _, .label _, trivial⟩
  settled := by simp [CpuField.value, SlotValue.word]
  exits := rfl
  performs g := by
    refine ⟨g.cpu.cr &&& mask = 0, g, fun pc => by rw [Platform.branch?, hmask]; rfl, ?_⟩
    intro cx w p pc label attached hlabel room holds
    have hraw : w.raw 0 .fallthrough = some (.ofNat (w.base + label)) := by
      simp [Wiring.raw, hlabel]
    simp only [decide_eq_true_eq]
    exact X86.goes_branchClear mask (attached.spans hosted) (attached.capacity ▸ room) hraw
      (attached.capacity ▸ attached.wiring.label label hlabel) holds

/-- Every condition that can be planned is tested by the template of its plan. -/
theorem Engine.Hosted.planCond {cond : BranchCond} (hosted : e.Hosted)
    (planned : e.planCond cond = .ok steps) :
    ∃ t values, steps = [.place t (values ++ [.fallthrough])] ∧ Tests e cond t values := by
  have hbit {shape : Shape} {t : Template} {bit : UInt8}
      (found : X86.Templates.lookup ⟨.condBranch, shape⟩ = some t) (count : t.slots.length = 3)
      (planned : Engine.planCond.bitTest e shape bit = .ok steps) :
      ∃ mask, ConditionRegister.bitMask bit = .ok mask ∧
        steps = [.place t [CpuField.cr.value, .word mask, .fallthrough]] := by
    obtain ⟨_, _, planned⟩ := bind_eq_ok.1 planned
    obtain ⟨mask, hmask, planned⟩ := bind_eq_ok.1 planned
    rw [hosted.planPlace found (by exact count)] at planned
    cases planned
    exact ⟨mask, hmask, rfl⟩
  cases cond with
  | decCtrNonZero =>
    simp only [Engine.planCond] at planned
    rw [hosted.planPlace rfl rfl] at planned
    cases planned
    exact ⟨branchCtr, _, rfl, tests_ctr hosted⟩
  | crSet bit =>
    obtain ⟨mask, hmask, rfl⟩ := hbit rfl rfl planned
    exact ⟨branchSet, _, rfl, tests_crSet hosted hmask⟩
  | crClear bit =>
    obtain ⟨mask, hmask, rfl⟩ := hbit rfl rfl planned
    exact ⟨branchClear, _, rfl, tests_crClear hosted hmask⟩

end Branch

/-- What an instruction that ends a block is planned as. -/
theorem translates_of_planInsn (hosted : e.Hosted) (terminal : i.op.isTerminal = true)
    (planned : e.planInsn i = .ok steps) (rest : List Insn) : Translates e (i :: rest) steps := by
  obtain ⟨pc, op⟩ := i
  cases op with
  | b target =>
    simp only [Engine.planInsn] at planned
    rw [hosted.planExit] at planned
    cases planned
    exact translates_b hosted rfl
  | bl target =>
    simp only [Engine.planInsn] at planned
    rw [hosted.planStore, hosted.planExit] at planned
    cases planned
    exact translates_bl hosted rfl
  | bc cond target =>
    obtain ⟨test, htest, planned⟩ := bind_eq_ok.1 planned
    rw [hosted.planExit, hosted.planExit] at planned
    cases planned
    obtain ⟨t, values, rfl, tests⟩ := hosted.planCond htest
    have := @translates_bc e ⟨pc, .bc cond target⟩ rest t values target cond hosted rfl tests
    simpa [branchSteps] using this
  | blr =>
    simp only [Engine.planInsn] at planned
    rw [hosted.planIndirect] at planned
    cases planned
    exact translates_indirect hosted (by simp) fun _ _ => rfl
  | bctr =>
    simp only [Engine.planInsn] at planned
    rw [hosted.planIndirect] at planned
    cases planned
    exact translates_indirect hosted (by simp) fun _ _ => rfl
  | sc =>
    simp only [Engine.planInsn] at planned
    rw [hosted.planLeave] at planned
    cases planned
    exact translates_sc hosted rfl
  | icbi ra rb =>
    simp only [Engine.planInsn] at planned
    rw [hosted.planLeave] at planned
    split at planned
    · next zero =>
      obtain ⟨src, hsrc, planned⟩ := bind_eq_ok.1 planned
      rw [hosted.planMove] at planned
      cases planned
      refine translates_icbi (v := (·.cpu.get src)) hosted fits_move
        (by simp [PlanStep.Straight, CpuField.value]) rfl
        (fun _ => performs_single fun _ _ _ _ _ _ _ _ holds => X86.goes_move src .icbiEa holds)
        (fun g pc => GuestState.get_setPc (ne_pc_of_gprField hsrc) g pc) fun _ g => ?_
      simp [Platform.apply, GuestState.base?, zero, GuestState.gpr?_eq hsrc, GuestState.put]
    · next nonzero =>
      obtain ⟨l, hl, planned⟩ := bind_eq_ok.1 planned
      obtain ⟨r, hr, planned⟩ := bind_eq_ok.1 planned
      have found : X86.Templates.lookup ⟨.add, .reg⟩ =
        some (aluReg "add" (X86.AluOp.add.opcode 3)) := rfl
      rw [hosted.planPlace found rfl] at planned
      cases planned
      refine translates_icbi (v := fun g => g.cpu.get l + g.cpu.get r) hosted
        (fits_of_lookup found ⟨.imm _ _, .imm _ _, .imm _ _, trivial⟩)
        (by simp [PlanStep.Straight, CpuField.value]) rfl
        (fun _ => performs_single fun _ _ _ _ _ _ _ _ holds =>
          X86.goes_aluReg "add" .add (by simp) l r .icbiEa holds) ?_ fun _ g => ?_
      · intro g pc
        rw [GuestState.get_setPc (ne_pc_of_gprField hl),
          GuestState.get_setPc (ne_pc_of_gprField hr)]
      · simp [Platform.apply, GuestState.base?, nonzero, GuestState.gpr?_eq hl,
          GuestState.gpr?_eq hr, GuestState.put]
  | _ => cases terminal

end Terminal

section Plan

variable {i : Insn} {rest : List Insn} {front : List PlanStep}

/-- Steps without a branch can stand in front of a plan. -/
theorem Shaped.straight_append (h : Shaped steps) (straight : ∀ s ∈ front, s.Straight) :
    Shaped (front ++ steps) := by
  cases h with
  | straight h => exact .straight (List.forall_mem_append.2 ⟨straight, h⟩)
  | @forked head _ _ _ _ hfront hvalues hmid hback =>
    rw [← List.append_assoc]
    exact .forked (List.forall_mem_append.2 ⟨straight, hfront⟩) hvalues hmid hback

/-- Steps that count no exit have none. -/
theorem allExits_eq_nil (h : exitTotal steps = 0) (p : Nat) : PlanStep.allExits p steps = [] := by
  induction steps generalizing p with
  | nil => rfl
  | cons s steps ih =>
    simp only [exitTotal, Nat.add_eq_zero_iff] at h
    rw [PlanStep.allExits, ih h.2]
    cases s with
    | place => rw [exits_eq_nil h.1, List.append_nil]
    | fallthrough => rfl

theorem exitCount_eq_zero {s : PlanStep} (h : exitTotal steps = 0) (hs : s ∈ steps) :
    s.exitCount = 0 := by
  induction steps with
  | nil => cases hs
  | cons t steps ih =>
    simp only [exitTotal, Nat.add_eq_zero_iff] at h
    obtain rfl | hs := List.mem_cons.1 hs
    · exact h.1
    · exact ih h.2 hs

/-- A block without an end falls through behind its last instruction. -/
theorem Platform.runBlock_next {x : Platform} {g' : GuestState}
    (h : x.step g i = some (g', .next)) :
    x.runBlock g (i :: rest) =
      if rest.isEmpty then some (g'.setPc i.next, .exit 0) else x.runBlock g' rest := by
  rw [runBlock, h]

theorem Covers.head {handlers : Handlers} (h : Covers handlers (i :: rest)) (addr : UInt64)
    (word : UInt32) (hop : i.op = .call addr word) : (handlers addr).isSome := by
  refine h i ?_ addr word hop
  rw [basicBlock]
  split <;> simp

/-- Routines that are there for a block are there for the rest of it. -/
theorem Covers.tail {handlers : Handlers} (h : Covers handlers (i :: rest))
    (inner : i.op.isTerminal = false) : Covers handlers rest := by
  intro j hj
  refine h j ?_
  rw [basicBlock, inner]
  exact List.mem_cons_of_mem _ hj

/-- An instruction in front of a block that is already translated. -/
theorem translates_cons (hosted : e.Hosted) (inner : i.op.isTerminal = false)
    (lowers : Lowers e i front) (translates : Translates e rest steps) :
    Translates e (i :: rest) (front ++ steps) where
  fits := List.forall_mem_append.2 ⟨lowers.fits, translates.fits⟩
  shaped := translates.shaped.straight_append lowers.straight
  plain := List.forall_mem_append.2
    ⟨fun _ hs => .inl (exitCount_eq_zero lowers.exits hs), translates.plain⟩
  positive := by
    have := translates.positive
    rw [stepsSize_append]
    omega
  performs handlers covered g := by
    obtain ⟨f, performs, means⟩ := lowers.performs handlers covered.head
    obtain ⟨g₁, -, hstep, -⟩ := means g 0
    obtain ⟨g', c, hrun, htarget, goes⟩ := translates.performs handlers (covered.tail inner) g₁
    refine ⟨g', c, ?_, ?_, ?_⟩
    · rw [Platform.runBlock_next hstep, ← hrun]
      cases rest with
      | nil => cases hrun
      | cons => rfl
    · intro k hk p
      rw [PlanStep.allExits_append, allExits_eq_nil lowers.exits]
      exact htarget k hk _
    · intro cx w p pc q hcx attached hlabel behind room holds lands
      obtain ⟨_, pc', hstep', hf⟩ := means g pc
      obtain rfl : g₁ = _ := (Prod.mk.inj (Option.some.inj (hstep.symm.trans hstep'))).1
      subst hcx
      refine goes_front hosted attached lowers.fits performs room holds fun holds => ?_
      rw [hf]
      rw [PlanStep.label_append, PlanStep.label_straight lowers.straight] at hlabel
      rw [lowers.exits] at holds
      rw [stepsSize_append] at room
      exact goes cx w _ pc' q rfl attached hlabel (by omega) (by omega) holds lands

/-- A block that no instruction ends goes on behind its last one, as if a branch stood there. -/
theorem translates_open (hosted : e.Hosted) (inner : i.op.isTerminal = false)
    (lowers : Lowers e i front) : Translates e [i] (front ++ exitSteps e i.next) := by
  have closed := translates_cons hosted inner lowers
    (@translates_b e ⟨i.next, .b i.next⟩ [] i.next hosted rfl)
  refine { closed with performs := fun handlers covered g => ?_ }
  obtain ⟨_, _, means⟩ := lowers.performs handlers covered.head
  obtain ⟨g₁, -, hstep, -⟩ := means g 0
  obtain ⟨g', c, hrun, rest⟩ :=
    closed.performs handlers (by simpa [Covers, basicBlock, inner] using covered) g
  refine ⟨g', c, ?_, rest⟩
  rw [Platform.runBlock_next hstep] at hrun ⊢
  rw [← hrun]
  rfl

theorem basicBlock_cons_ne_nil (i : Insn) (rest : List Insn) : basicBlock (i :: rest) ≠ [] := by
  rw [basicBlock]
  split <;> simp

/-- The plans of the instructions one behind the other, and an exit if none of them ends the block,
make a translation of the block. -/
theorem translates_basicBlock (hosted : e.Hosted) {insns : List Insn} {last : Insn}
    {parts : List (List PlanStep)} {tail : List PlanStep}
    (hlast : (basicBlock insns).getLast? = some last)
    (hparts : (basicBlock insns).mapM e.planInsn = .ok parts)
    (htail : (if last.op.isTerminal then pure [] else e.planExit last.next) = .ok tail) :
    Translates e insns (parts.flatten ++ tail) := by
  induction insns generalizing parts with
  | nil => cases hlast
  | cons i rest ih =>
    rw [basicBlock] at hlast hparts
    split at hlast
    · next terminal =>
      obtain rfl : i = last := Option.some.inj hlast
      rw [if_pos terminal, List.mapM_cons] at hparts
      obtain ⟨steps, hsteps, hparts⟩ := bind_eq_ok.1 hparts
      cases hparts
      rw [if_pos terminal] at htail
      cases htail
      simpa using translates_of_planInsn hosted terminal hsteps rest
    · next inner =>
      have inner : i.op.isTerminal = false := by simpa using inner
      rw [if_neg (by simp [inner]), List.mapM_cons] at hparts
      obtain ⟨steps, hsteps, hparts⟩ := bind_eq_ok.1 hparts
      obtain ⟨more, hmore, hparts⟩ := bind_eq_ok.1 hparts
      cases hparts
      have lowers := lowers_of_planInsn hosted inner hsteps
      rw [List.flatten_cons, List.append_assoc]
      cases rest with
      | nil =>
        obtain rfl : i = last := Option.some.inj hlast
        cases hmore
        rw [if_neg (by simp [inner]), hosted.planExit] at htail
        cases htail
        exact translates_open hosted inner lowers
      | cons j rest =>
        rw [List.getLast?_cons_of_ne_nil (basicBlock_cons_ne_nil j rest)] at hlast
        exact translates_cons hosted inner lowers (ih hlast hmore)

/-- A plan does what its instructions mean. -/
theorem translates_of_plan {pc : UInt32} {insns : List Insn} {x : Plan} (hosted : e.Hosted)
    (planned : e.plan pc insns = .ok x) : Translates e insns x.steps := by
  simp only [Engine.plan] at planned
  split at planned
  · cases planned
  · next last hlast =>
    obtain ⟨parts, hparts, planned⟩ := bind_eq_ok.1 planned
    split at planned
    · next terminal =>
      cases planned
      exact translates_basicBlock hosted hlast hparts (if_pos terminal)
    · next inner =>
      obtain ⟨tail, htail, planned⟩ := bind_eq_ok.1 planned
      cases planned
      exact translates_basicBlock hosted hlast hparts ((if_neg inner).trans htail)

end Plan

end Dynarec
