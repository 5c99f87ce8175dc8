import Dynarec.Engine.Reference
import Dynarec.Proofs.Effects

/-!
Lowered instructions: the steps that an instruction becomes over the x86-64 table can be written
anywhere in the code buffer, and their code does to a guest what the instruction means.
-/
namespace Dynarec

/-- Where the stubs stand in the code buffer of an x86-64 host. -/
def X86.stubOffsets : Stubs where
  prologue := 0
  epilogue := 33
  dispatch := 48
  preempt := 58
  syscall := 68
  invalidate := 78

/-- The end of the stubs. -/
def X86.stubsSize : Nat := 88

/-- What stays the same in an engine over the x86-64 table from its creation on. -/
structure Engine.Hosted (e : Engine) : Prop where
  registry : e.registry = X86.registry
  stubs : e.stubs = X86.stubOffsets
  codeStart : e.buffer.codeStart = X86.stubsSize
  room : X86.stubsSize ≤ e.buffer.capacity
  mapped : e.buffer.base + e.buffer.capacity < 2 ^ 64
  reach : e.buffer.capacity ≤ 2 ^ 30

/-- The wiring leads to places in the engine's buffer. -/
structure Wiring.Of (w : Wiring) (e : Engine) : Prop where
  base : w.base = e.buffer.base
  regions : w.regions = e.config.regions
  label : ∀ l, w.label = some l → l ≤ e.buffer.capacity
  lands : ∀ k, w.lands k ≤ e.buffer.capacity

/-- The value can go into a slot of this kind, wherever the template stands in the buffer. -/
inductive SlotValue.FitsKind (e : Engine) : SlotKind → SlotValue → Prop
  | imm (width : Width) (v : UInt64) : FitsKind e (.immediate width) (.imm v)
  | routine (width : Width) (addr : UInt64) : FitsKind e (.immediate width) (.handler addr)
  | near {addr : UInt64} (anchor : UInt16) (h : e.isNear addr = true) :
      FitsKind e (.relative .w32 anchor) (.handler addr)
  | label (anchor : UInt16) : FitsKind e (.relative .w32 anchor) .fallthrough
  | stub {offset : Nat} (anchor : UInt16) (h : offset ≤ e.buffer.capacity) :
      FitsKind e (.relative .w32 anchor) (.stub offset)
  | leave {offset : Nat} (anchor : UInt16) (h : offset ≤ e.buffer.capacity) :
      FitsKind e (.forward .w32 anchor) (.stub offset)
  | exit (anchor : UInt16) (target : UInt32) : FitsKind e (.forward .w32 anchor) (.exit target)
  | host {addr : UInt64} {r : Region × Int} (selector : RegionSelector)
      (h : e.config.regions.canonical addr .w32 = .ok r) :
      FitsKind e (.canonical .w32 selector) (.host addr)

/-- There is one value for each slot, and each can go into its slot. -/
def SlotValue.FitAll (e : Engine) : List Slot → List SlotValue → Prop
  | [], [] => True
  | s :: slots, v :: values => FitsKind e s.kind v ∧ FitAll e slots values
  | _, _ => False

/-- The step can be written anywhere in the buffer. -/
def PlanStep.Fits (e : Engine) : PlanStep → Prop
  | .place t values =>
    t.slots.length ≤ 32 ∧ (∀ s ∈ t.slots, s.InRange t.size) ∧ SlotValue.FitAll e t.slots values
  | .fallthrough => True

variable {e : Engine} {w : Wiring} {offset size k : Nat}

/-- Any two places in the buffer are near enough for a displacement of 32 bits. -/
theorem Engine.Hosted.fits_word (h : e.Hosted) {target n : Nat} (ht : target ≤ e.buffer.capacity)
    (ho : offset + n ≤ e.buffer.capacity) :
    Width.w32.Fits
      ((UInt64.ofNat (e.buffer.base + target)).toNat - (e.buffer.base + offset + n : Nat)) := by
  have := h.mapped
  have := h.reach
  rw [UInt64.toNat_ofNat_of_lt' (show e.buffer.base + target < 2 ^ 64 by omega)]
  constructor <;> simp only [Width.modulus] <;> omega

/-- Both ends of the buffer reach a near routine, so all places between them do. -/
theorem Engine.fits_near {addr : UInt64} {n : Nat} (near : e.isNear addr = true)
    (h : offset + n ≤ e.buffer.capacity) :
    Width.w32.Fits (addr.toNat - (e.buffer.base + offset + n : Nat)) := by
  obtain ⟨low, high⟩ := of_decide_eq_true near
  simp only [Width.Fits, Width.modulus] at low high ⊢
  omega

namespace SlotValue

theorem FitsKind.accepts {s : Slot} {v : SlotValue} {r : UInt64} (hosted : e.Hosted) (of : w.Of e)
    (fits : FitsKind e s.kind v) (inRange : s.InRange size)
    (room : offset + size ≤ e.buffer.capacity) (raw : w.raw k v = some r) :
    s.Accepts w.regions (w.base + offset) r := by
  obtain ⟨place, kind⟩ := s
  obtain ⟨_, anchored⟩ := inRange
  rw [of.base, of.regions]
  cases fits with
  | imm | routine => trivial
  | near anchor near =>
    obtain rfl := Option.some.inj raw
    exact e.fits_near near (by simp only at anchored; omega)
  | label anchor =>
    obtain ⟨l, hl, rfl⟩ := Option.map_eq_some_iff.1 raw
    rw [of.base]
    exact hosted.fits_word (of.label l hl) (by simp only at anchored; omega)
  | stub anchor h | leave anchor h =>
    obtain rfl := Option.some.inj raw
    rw [of.base]
    exact hosted.fits_word h (by simp only at anchored; omega)
  | exit anchor target =>
    obtain rfl := Option.some.inj raw
    rw [of.base]
    exact hosted.fits_word (of.lands k) (by simp only at anchored; omega)
  | host selector h =>
    obtain rfl := Option.some.inj raw
    exact ⟨_, h⟩

section FitAll

variable {slots : List Slot} {values : List SlotValue}

/-- Values that fit their slots are accepted by them wherever the copy is placed. -/
theorem FitAll.acceptAll (hosted : e.Hosted) (of : w.Of e) (fits : FitAll e slots values)
    (inRange : ∀ s ∈ slots, s.InRange size) (room : offset + size ≤ e.buffer.capacity) :
    AcceptAll w.regions (w.base + offset) slots (values.map (w.raw k)) := by
  induction slots generalizing values with
  | nil =>
    cases values with
    | nil => trivial
    | cons => exact fits.elim
  | cons s slots ih =>
    cases values with
    | nil => exact fits.elim
    | cons v values =>
      exact ⟨fun _ raw => fits.1.accepts hosted of (inRange s List.mem_cons_self) room raw,
        ih fits.2 fun s hs => inRange s (List.mem_cons_of_mem _ hs)⟩

theorem FitAll.stub_le (fits : FitAll e slots values) {o : Nat} (h : .stub o ∈ values) :
    o ≤ e.buffer.capacity := by
  induction slots generalizing values with
  | nil =>
    cases values with
    | nil => simp at h
    | cons => exact fits.elim
  | cons s slots ih =>
    cases values with
    | nil => exact fits.elim
    | cons v values =>
      obtain rfl | h := List.mem_cons.1 h
      · obtain ⟨first, _⟩ := fits
        generalize s.kind = kind at first
        cases first <;> assumption
      · exact ih fits.2 h

/-- Exits are given to slots of branches only. -/
theorem FitAll.isBranch (fits : FitAll e slots values) :
    ∀ p ∈ slots.zip values, p.2.isExit → p.1.IsBranch := by
  induction slots generalizing values with
  | nil => simp
  | cons s slots ih =>
    cases values with
    | nil => simp
    | cons v values =>
      intro p hp exit
      obtain rfl | hp := List.mem_cons.1 hp
      · obtain ⟨place, kind⟩ := s
        cases fits.1 with
        | exit => trivial
        | _ => cases exit
      · exact ih fits.2 p hp exit

end FitAll

end SlotValue

theorem PlanStep.Fits.suits {s : PlanStep} (hosted : e.Hosted) (of : w.Of e) (fits : s.Fits e)
    (room : offset + s.size ≤ e.buffer.capacity) : w.Suits e.buffer.capacity offset k s := by
  cases s with
  | fallthrough => trivial
  | place t values =>
    obtain ⟨few, inRange, fits⟩ := fits
    exact ⟨few, inRange, fits.acceptAll hosted of inRange room, fun o h => fits.stub_le h,
      fits.isBranch⟩

/-- Steps that fit suit any place with room for them. -/
theorem PlanStep.suitsAll {steps : List PlanStep} (hosted : e.Hosted) (of : w.Of e)
    (fits : ∀ s ∈ steps, s.Fits e) (room : offset + stepsSize steps ≤ e.buffer.capacity) :
    w.SuitsAll e.buffer.capacity offset k steps := by
  induction steps generalizing offset k with
  | nil => trivial
  | cons s steps ih =>
    rw [stepsSize_cons] at room
    exact ⟨(fits s List.mem_cons_self).suits hosted of (by omega),
      ih (fun s hs => fits s (List.mem_cons_of_mem _ hs)) (by omega)⟩

open X86 (Context Goes)

/-- The context and the wiring belong to the engine. -/
structure Attached (e : Engine) (cx : Context) (w : Wiring) : Prop where
  base : cx.code.base = e.buffer.base
  capacity : cx.code.capacity = e.buffer.capacity
  regions : cx.regions = e.config.regions
  wiring : w.Of e

theorem Attached.spans {cx : Context} (h : Attached e cx w) (hosted : e.Hosted) :
    X86.Spans cx w where
  base := h.wiring.base.trans h.base.symm
  mapped := by rw [h.base, h.capacity]; exact hosted.mapped
  reach := by rw [h.capacity]; exact hosted.reach

theorem Attached.wiring_regions {cx : Context} (h : Attached e cx w) : w.regions = cx.regions :=
  h.wiring.regions.trans h.regions.symm

/-- Code of steps one behind the other is the code of the first ones and, behind it, that of the
rest. -/
theorem Attached.holds_append {cx : Context} {xs ys : List PlanStep} (attached : Attached e cx w)
    (hosted : e.Hosted) (fits : ∀ s ∈ xs, s.Fits e)
    (room : offset + stepsSize xs ≤ e.buffer.capacity) :
    cx.code.Holds offset (w.codes offset k (xs ++ ys)) ↔
      cx.code.Holds offset (w.codes offset k xs) ∧ cx.code.Holds (offset + stepsSize xs)
        (w.codes (offset + stepsSize xs) (k + exitTotal xs) ys) := by
  rw [Wiring.codes_append, CodeBuffer.holds_append,
    Wiring.length_codes (PlanStep.suitsAll hosted attached.wiring fits room)]

/-- The code of several steps is that of the first with the others behind it. -/
theorem Attached.holds_cons {cx : Context} {s : PlanStep} {steps : List PlanStep}
    (attached : Attached e cx w) (hosted : e.Hosted) (fits : s.Fits e)
    (room : offset + s.size ≤ e.buffer.capacity) :
    cx.code.Holds offset (w.codes offset k (s :: steps)) ↔
      cx.code.Holds offset (w.code offset k s) ∧
      cx.code.Holds (offset + s.size) (w.codes (offset + s.size) (k + s.exitCount) steps) := by
  rw [Wiring.codes, CodeBuffer.holds_append,
    Wiring.length_code (fits.suits hosted attached.wiring room)]

/-- The code of the steps takes every guest from its start to its end, and changes it by `f`. -/
def Performs (e : Engine) (handlers : Handlers) (steps : List PlanStep)
    (f : GuestState → GuestState) : Prop :=
  ∀ cx w p k g, cx.handlers = handlers → Attached e cx w →
    p + stepsSize steps ≤ e.buffer.capacity → cx.code.Holds p (w.codes p k steps) →
    Goes cx p g (p + stepsSize steps) (f g)

section Performs

variable {handlers : Handlers} {xs ys : List PlanStep} {f g : GuestState → GuestState}

/-- Steps behind others perform one effect after the other. -/
theorem Performs.append (hosted : e.Hosted) (fits : ∀ s ∈ xs, s.Fits e)
    (hx : Performs e handlers xs f) (hy : Performs e handlers ys g) :
    Performs e handlers (xs ++ ys) (g ∘ f) := by
  intro cx w p k s hcx attached room holds
  rw [stepsSize_append] at room ⊢
  obtain ⟨first, second⟩ := (attached.holds_append hosted fits (by omega)).1 holds
  rw [← Nat.add_assoc]
  exact (hx cx w p k s hcx attached (by omega) first).trans
    (hy cx w _ _ (f s) hcx attached (by omega) second)

theorem performs_single {s : PlanStep}
    (h : ∀ cx w p k g, cx.handlers = handlers → Attached e cx w →
      p + s.size ≤ e.buffer.capacity → cx.code.Holds p (w.code p k s) →
      Goes cx p g (p + s.size) (f g)) : Performs e handlers [s] f := by
  intro cx w p k g hcx attached room holds
  simp only [Wiring.codes, List.append_nil] at holds
  exact h cx w p k g hcx attached room holds

end Performs

/-- The steps of an instruction that does not end a block: they can be written anywhere, and their
code does what the instruction means. The program counter is stored only where it is read. -/
structure Lowers (e : Engine) (i : Insn) (steps : List PlanStep) : Prop where
  fits : ∀ s ∈ steps, s.Fits e
  straight : ∀ s ∈ steps, s.Straight
  exits : exitTotal steps = 0
  performs : ∀ handlers : Handlers, (∀ addr word, i.op = .call addr word → (handlers addr).isSome) →
    ∃ f, Performs e handlers steps f ∧ ∀ g pc, ∃ g' pc',
      Platform.step ⟨e.config, handlers⟩ g i = some (g', .next) ∧ f (g.setPc pc) = g'.setPc pc'

theorem Lowers.of_step {i : Insn} {s : PlanStep} {f : GuestState → GuestState} (fits : s.Fits e)
    (straight : s.Straight) (exits : s.exitCount = 0)
    (goes : ∀ cx w p k g, Attached e cx w → p + s.size ≤ e.buffer.capacity →
      cx.code.Holds p (w.code p k s) → Goes cx p g (p + s.size) (f g))
    (commutes : ∀ g pc, f (g.setPc pc) = (f g).setPc pc)
    (means : ∀ handlers g,
      Platform.apply ⟨e.config, handlers⟩ g i.op = some (f g, .next)) : Lowers e i [s] where
  fits := by simpa using fits
  straight := by simpa using straight
  exits := by simpa [exitTotal] using exits
  performs handlers _ := by
    refine ⟨f, performs_single fun cx w p k g _ => goes cx w p k g, fun g pc => ?_⟩
    refine ⟨f (g.setPc i.pc), pc, means handlers _, ?_⟩
    rw [commutes, commutes]
    rfl

end Dynarec
