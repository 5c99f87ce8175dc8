import Dynarec.Engine.Translate
import Dynarec.Proofs.Filling

/-!
Written plans: the bytes and exits that a plan becomes at an offset, and that writing a plan whose
slots accept their values succeeds with exactly these.
-/
namespace Dynarec

/-- Where the symbolic values of a plan lead, as offsets in the code buffer at `base`. -/
structure Wiring where
  base : Nat
  regions : RegionBases
  /-- The code for the case that a branch is not taken, once it has a place. -/
  label : Option Nat
  /-- Where the exits land, by number. -/
  lands : Nat → Nat

/-- The field of a slot in a copy at `offset`, as a branch. -/
def Slot.site (s : Slot) (offset : Nat) : BranchSite where
  start := offset + s.offset.toNat
  anchor := offset + match s.kind with
    | .relative _ anchor | .forward _ anchor => anchor.toNat
    | _ => 0
  width := s.width

def Slot.IsBranch (s : Slot) : Prop :=
  match s.kind with
  | .relative _ _ | .forward _ _ => True
  | _ => False

namespace SlotValue

/-- The exit that a value stands for, in a copy at `offset`. -/
def exits (offset : Nat) (s : Slot) : SlotValue → List ExitSlot
  | .exit target => [{ target, site := s.site offset }]
  | _ => []

def calls (offset : Nat) (s : Slot) : SlotValue → List CallSite
  | .handler addr => [{ start := offset + s.offset.toNat, width := s.width, handler := addr }]
  | _ => []

/-- The exits of a copy at `offset`. -/
def exitsOf (offset : Nat) (slots : List Slot) (values : List SlotValue) : List ExitSlot :=
  (slots.zip values).flatMap fun p => p.2.exits offset p.1

def callsOf (offset : Nat) (slots : List Slot) (values : List SlotValue) : List CallSite :=
  (slots.zip values).flatMap fun p => p.2.calls offset p.1

def isExit : SlotValue → Bool
  | .exit _ => true
  | _ => false

/-- The slots from number `k` on that wait for the fallthrough code, in copy number `n`. -/
def waiting (n k : Nat) : List SlotValue → List (Nat × Nat)
  | [] => []
  | .fallthrough :: values => (n, k) :: waiting n (k + 1) values
  | _ :: values => waiting n (k + 1) values

theorem waiting_cons_of_ne {v : SlotValue} (h : v ≠ .fallthrough) (n k : Nat)
    (values : List SlotValue) : waiting n k (v :: values) = waiting n (k + 1) values := by
  cases v with
  | fallthrough => exact absurd rfl h
  | _ => rfl

/-- A step that does not need the place of the fallthrough code leaves no slot open. -/
theorem waiting_of_not_mem {values : List SlotValue} (h : .fallthrough ∉ values) (n k : Nat) :
    waiting n k values = [] := by
  induction values generalizing k with
  | nil => rfl
  | cons v values ih =>
    rw [List.mem_cons, not_or] at h
    rw [waiting_cons_of_ne (Ne.symm h.1), ih h.2]

end SlotValue

namespace PlanStep

/-- The step neither marks nor needs the place of the fallthrough code. -/
def Straight : PlanStep → Prop
  | .place _ values => .fallthrough ∉ values
  | .fallthrough => False

def exitCount : PlanStep → Nat
  | .place _ values => values.countP SlotValue.isExit
  | .fallthrough => 0

def exits (offset : Nat) : PlanStep → List ExitSlot
  | .place t values => SlotValue.exitsOf offset t.slots values
  | .fallthrough => []

def calls (offset : Nat) : PlanStep → List CallSite
  | .place t values => SlotValue.callsOf offset t.slots values
  | .fallthrough => []

/-- The step does not need the place of the fallthrough code. -/
def Settled : PlanStep → Prop
  | .place _ values => .fallthrough ∉ values
  | .fallthrough => True

theorem Straight.settled {s : PlanStep} (h : s.Straight) : s.Settled := by
  cases s with
  | place => exact h
  | fallthrough => trivial

/-- The exits of steps one behind the other. -/
def allExits (offset : Nat) : List PlanStep → List ExitSlot
  | [] => []
  | s :: steps => s.exits offset ++ allExits (offset + s.size) steps

def allCalls (offset : Nat) : List PlanStep → List CallSite
  | [] => []
  | s :: steps => s.calls offset ++ allCalls (offset + s.size) steps

/-- The copies of the steps' templates, before a slot is filled that has to wait. `raws` says what
the slots are filled with. -/
def copies (raws : List SlotValue → List (Option UInt64)) (offset : Nat) :
    List PlanStep → List Instance
  | [] => []
  | .fallthrough :: steps => copies raws offset steps
  | .place t values :: steps =>
    ⟨offset, t, fillMask 0 0 (raws values)⟩ :: copies raws (offset + t.size) steps

/-- The slots that wait for the fallthrough code, in copies from number `n` on. -/
def allWaiting (n : Nat) : List PlanStep → List (Nat × Nat)
  | [] => []
  | .fallthrough :: steps => allWaiting n steps
  | .place _ values :: steps => SlotValue.waiting n 0 values ++ allWaiting (n + 1) steps

/-- The last place that the steps mark for the fallthrough code, or else the one known before. -/
def label (known : Option Nat) (offset : Nat) : List PlanStep → Option Nat
  | [] => known
  | .fallthrough :: steps => label (some offset) offset steps
  | .place t _ :: steps => label known (offset + t.size) steps

end PlanStep

@[simp] theorem stepsSize_cons (s : PlanStep) (steps : List PlanStep) :
    stepsSize (s :: steps) = s.size + stepsSize steps := rfl

@[simp] theorem stepsSize_append (xs ys : List PlanStep) :
    stepsSize (xs ++ ys) = stepsSize xs + stepsSize ys := by
  induction xs with
  | nil => simp [stepsSize]
  | cons s xs ih => rw [List.cons_append, stepsSize_cons, stepsSize_cons, ih, Nat.add_assoc]

/-- The number of exits of the steps. -/
def exitTotal : List PlanStep → Nat
  | [] => 0
  | s :: steps => s.exitCount + exitTotal steps

namespace PlanStep

/-- The exits of steps one behind the other. -/
theorem allExits_append (offset : Nat) (xs ys : List PlanStep) :
    allExits offset (xs ++ ys) = allExits offset xs ++ allExits (offset + stepsSize xs) ys := by
  induction xs generalizing offset with
  | nil => rfl
  | cons s xs ih =>
    simp only [List.cons_append, allExits, ih, stepsSize_cons, List.append_assoc, Nat.add_assoc]

theorem copies_append (raws : List SlotValue → List (Option UInt64)) (offset : Nat)
    (xs ys : List PlanStep) :
    copies raws offset (xs ++ ys) =
      copies raws offset xs ++ copies raws (offset + stepsSize xs) ys := by
  induction xs generalizing offset with
  | nil => rfl
  | cons s xs ih => cases s <;> simp [copies, ih, size, Nat.add_assoc]

/-- The fallthrough code is marked by the last step that does so. -/
theorem label_append (known : Option Nat) (offset : Nat) (xs ys : List PlanStep) :
    label known offset (xs ++ ys) = label (label known offset xs) (offset + stepsSize xs) ys := by
  induction xs generalizing known offset with
  | nil => rfl
  | cons s xs ih => cases s <;> simp [label, ih, size, Nat.add_assoc]

/-- Straight steps do not mark the place of the fallthrough code. -/
theorem label_straight {steps : List PlanStep} (h : ∀ s ∈ steps, s.Straight) (known : Option Nat)
    (offset : Nat) : label known offset steps = known := by
  induction steps generalizing offset with
  | nil => rfl
  | cons s steps ih =>
    cases s with
    | fallthrough => exact (h _ List.mem_cons_self).elim
    | place t values => exact ih (fun s hs => h s (List.mem_cons_of_mem _ hs)) _

/-- Straight steps leave no slot open. -/
theorem allWaiting_straight {steps : List PlanStep} (h : ∀ s ∈ steps, s.Straight) (n : Nat) :
    allWaiting n steps = [] := by
  induction steps generalizing n with
  | nil => rfl
  | cons s steps ih =>
    cases s with
    | fallthrough => exact (h _ List.mem_cons_self).elim
    | place t values =>
      rw [allWaiting, SlotValue.waiting_of_not_mem (h (.place t values) List.mem_cons_self),
        ih fun s hs => h s (List.mem_cons_of_mem _ hs), List.nil_append]

theorem allWaiting_straight_append {xs : List PlanStep} (h : ∀ s ∈ xs, s.Straight) (n : Nat)
    (ys : List PlanStep) : allWaiting n (xs ++ ys) = allWaiting (n + xs.length) ys := by
  induction xs generalizing n with
  | nil => rfl
  | cons s xs ih =>
    cases s with
    | fallthrough => exact (h _ List.mem_cons_self).elim
    | place t values =>
      rw [List.cons_append, allWaiting,
        SlotValue.waiting_of_not_mem (h (.place t values) List.mem_cons_self),
        ih fun s hs => h s (List.mem_cons_of_mem _ hs), List.nil_append, List.length_cons,
        Nat.add_assoc, Nat.add_comm 1]

theorem length_copies_straight {steps : List PlanStep} (h : ∀ s ∈ steps, s.Straight)
    (raws : List SlotValue → List (Option UInt64)) (offset : Nat) :
    (copies raws offset steps).length = steps.length := by
  induction steps generalizing offset with
  | nil => rfl
  | cons s steps ih =>
    cases s with
    | fallthrough => exact (h _ List.mem_cons_self).elim
    | place t values => simp [copies, ih fun s hs => h s (List.mem_cons_of_mem _ hs)]

end PlanStep

namespace Wiring

/-- What a slot is filled with for a value; `k` is the number of the next exit. -/
def raw (w : Wiring) (k : Nat) : SlotValue → Option UInt64
  | .imm v | .host v | .handler v => some v
  | .stub offset => some (.ofNat (w.base + offset))
  | .fallthrough => w.label.map fun offset => .ofNat (w.base + offset)
  | .exit _ => some (.ofNat (w.base + w.lands k))

/-- The bytes of a step at an offset. -/
def code (w : Wiring) (offset k : Nat) : PlanStep → List UInt8
  | .place t values =>
    fillSlots w.regions (w.base + offset) t.slots (values.map (w.raw k)) t.code
  | .fallthrough => []

/-- The bytes of steps one behind the other. -/
def codes (w : Wiring) (offset k : Nat) : List PlanStep → List UInt8
  | [] => []
  | s :: steps => w.code offset k s ++ w.codes (offset + s.size) (k + s.exitCount) steps

/-- The step can be written at the offset: its template keeps its slots in its code, and each slot
accepts its value. -/
def Suits (w : Wiring) (capacity offset k : Nat) : PlanStep → Prop
  | .place t values =>
    t.slots.length ≤ 32 ∧ (∀ s ∈ t.slots, s.InRange t.size) ∧
      AcceptAll w.regions (w.base + offset) t.slots (values.map (w.raw k)) ∧
      (∀ o, .stub o ∈ values → o ≤ capacity) ∧
      ∀ p ∈ t.slots.zip values, p.2.isExit → p.1.IsBranch
  | .fallthrough => True

/-- Each of the steps can be written in its place. -/
def SuitsAll (w : Wiring) (capacity offset k : Nat) : List PlanStep → Prop
  | [] => True
  | s :: steps =>
    w.Suits capacity offset k s ∧ w.SuitsAll capacity (offset + s.size) (k + s.exitCount) steps

/-- The code of a step is as long as its template. -/
theorem length_code {w : Wiring} {capacity offset k : Nat} {s : PlanStep}
    (h : w.Suits capacity offset k s) : (w.code offset k s).length = s.size := by
  cases s with
  | fallthrough => rfl
  | place t values => exact length_fillSlots h.2.1

/-- The code of steps one behind the other. -/
theorem codes_append (w : Wiring) (offset k : Nat) (xs ys : List PlanStep) :
    w.codes offset k (xs ++ ys) =
      w.codes offset k xs ++ w.codes (offset + stepsSize xs) (k + exitTotal xs) ys := by
  induction xs generalizing offset k with
  | nil => rfl
  | cons s xs ih =>
    simp only [List.cons_append, codes, ih, stepsSize_cons, exitTotal,
      List.append_assoc, Nat.add_assoc]

theorem suitsAll_append (w : Wiring) (capacity offset k : Nat) (xs ys : List PlanStep) :
    w.SuitsAll capacity offset k (xs ++ ys) ↔ w.SuitsAll capacity offset k xs ∧
      w.SuitsAll capacity (offset + stepsSize xs) (k + exitTotal xs) ys := by
  induction xs generalizing offset k with
  | nil => exact ⟨fun h => ⟨trivial, h⟩, And.right⟩
  | cons s xs ih =>
    simp only [List.cons_append, SuitsAll, ih, stepsSize_cons, exitTotal, and_assoc, Nat.add_assoc]

/-- The code of a plan has the length that the plan has been given room for. -/
theorem length_codes {w : Wiring} {capacity offset k : Nat} {steps : List PlanStep}
    (h : w.SuitsAll capacity offset k steps) :
    (w.codes offset k steps).length = stepsSize steps := by
  induction steps generalizing offset k with
  | nil => rfl
  | cons s steps ih =>
    rw [codes, List.length_append, length_code h.1, ih h.2]
    rfl

end Wiring

/-- The wiring of a block that is being written: its exits lead to the dispatch stub. -/
def Engine.wiring (e : Engine) (base : Nat) (label : Option Nat) : Wiring where
  base
  regions := e.config.regions
  label
  lands := fun _ => e.stubs.dispatch

/-- All exits of a new block lead to one place, whatever their number. -/
theorem Engine.raw_wiring (e : Engine) (base : Nat) (label : Option Nat) (k : Nat) (v : SlotValue) :
    (e.wiring base label).raw k v = (e.wiring base label).raw 0 v := by
  cases v <;> rfl

/-- What the slots of a copy are filled with at once. -/
def Engine.raws (e : Engine) (base : Nat) (values : List SlotValue) : List (Option UInt64) :=
  values.map ((e.wiring base none).raw 0)

/-- Before anything is linked all exits are alike, so their numbers do not matter. -/
theorem Engine.code_wiring (e : Engine) (base : Nat) (label : Option Nat) (offset k : Nat)
    (s : PlanStep) :
    (e.wiring base label).code offset k s = (e.wiring base label).code offset 0 s := by
  cases s with
  | fallthrough => rfl
  | place t values =>
    simp only [Wiring.code]
    rw [List.map_congr_left fun v _ => e.raw_wiring base label k v]

theorem Engine.map_raw_wiring (e : Engine) (base k : Nat) (values : List SlotValue) :
    values.map ((e.wiring base none).raw k) = e.raws base values :=
  List.map_congr_left fun v _ => e.raw_wiring base none k v

section Label

variable {e : Engine} {base capacity offset k : Nat} {label : Option Nat} {s : PlanStep}
  {steps : List PlanStep}

/-- Steps that do not need the fallthrough code are written the same wherever it stands. -/
theorem Engine.code_unlabelled (h : s.Settled) :
    (e.wiring base label).code offset k s = (e.wiring base none).code offset k s := by
  cases s with
  | fallthrough => rfl
  | place t values =>
    have hraw :
        values.map ((e.wiring base label).raw k) = values.map ((e.wiring base none).raw k) := by
      apply List.map_congr_left
      intro v hv
      cases v with
      | fallthrough => exact absurd hv h
      | _ => rfl
    simp only [Wiring.code, hraw]
    rfl

/-- Settled steps have the same code whether or not the place of the fallthrough code is known. -/
theorem Engine.codes_unlabelled (h : ∀ s ∈ steps, s.Settled) :
    (e.wiring base label).codes offset k steps = (e.wiring base none).codes offset k steps := by
  induction steps generalizing offset k with
  | nil => rfl
  | cons s steps ih =>
    rw [Wiring.codes, Wiring.codes, code_unlabelled (h s List.mem_cons_self),
      ih fun s hs => h s (List.mem_cons_of_mem _ hs)]

theorem acceptAll_unlabelled {slots : List Slot} {values : List SlotValue} {origin : Nat}
    (h : AcceptAll e.config.regions origin slots (values.map ((e.wiring base label).raw k))) :
    AcceptAll e.config.regions origin slots (values.map ((e.wiring base none).raw k)) := by
  induction values generalizing slots with
  | nil => exact h
  | cons v values ih =>
    cases slots with
    | nil => exact h.elim
    | cons s slots =>
      refine ⟨?_, ih h.2⟩
      intro r hr
      cases v with
      | fallthrough => cases hr
      | _ => exact h.1 r hr

theorem Engine.suits_unlabelled (h : (e.wiring base label).Suits capacity offset k s) :
    (e.wiring base none).Suits capacity offset k s := by
  cases s with
  | fallthrough => trivial
  | place t values =>
    obtain ⟨few, inRange, accepts, stub, branch⟩ := h
    exact ⟨few, inRange, acceptAll_unlabelled accepts, stub, branch⟩

theorem Engine.suitsAll_unlabelled (h : (e.wiring base label).SuitsAll capacity offset k steps) :
    (e.wiring base none).SuitsAll capacity offset k steps := by
  induction steps generalizing offset k with
  | nil => trivial
  | cons s steps ih => exact ⟨suits_unlabelled h.1, ih h.2⟩

end Label

/-- The shape of a plan: either no step needs the place of the fallthrough code, or one template
does, in its last slot, and one step behind it marks the place. -/
inductive Shaped : List PlanStep → Prop
  | straight {steps : List PlanStep} (h : ∀ s ∈ steps, s.Straight) : Shaped steps
  | forked {front mid back : List PlanStep} {t : Template} {values : List SlotValue}
      (hfront : ∀ s ∈ front, s.Straight) (hvalues : .fallthrough ∉ values)
      (hmid : ∀ s ∈ mid, s.Straight) (hback : ∀ s ∈ back, s.Straight) :
      Shaped (front ++ .place t (values ++ [.fallthrough]) :: (mid ++ .fallthrough :: back))

namespace Draft

variable {e : Engine} {d : Draft} {i : Instance} {k : Nat} {s : Slot} {v : SlotValue}
  {pre code : List UInt8}

/-- What the filling of a draft's last copy needs: the copy stands at the end of the buffer. -/
structure Fillable (e : Engine) (d : Draft) (i : Instance) (pre code : List UInt8) : Prop where
  bounded : d.buffer.Bounded
  sits : i.Sits d.buffer pre code []
  dispatch : e.stubs.dispatch ≤ d.buffer.capacity

/-- A slot that is free and accepts its value is filled with it. -/
theorem fillValue_eq_ok {r : UInt64} (h : Fillable e d i pre code)
    (slot : i.template.slots[k]? = some s) (few : k < 32)
    (free : i.filled.getLsbD k = false) (inRange : s.InRange i.template.size)
    (raw : (e.wiring d.buffer.base none).raw 0 v = some r)
    (accepts : s.Accepts e.config.regions (d.buffer.base + i.offset) r)
    (stub : ∀ o, v = .stub o → o ≤ d.buffer.capacity) (branch : v.isExit → s.IsBranch) :
    d.fillValue e i k v = .ok
      ({ d with
          buffer := { d.buffer with bytes :=
            (pre ++ s.fillIn e.config.regions (d.buffer.base + i.offset) r code).toArray }
          exits := d.exits ++ v.exits i.offset s
          calls := d.calls ++ v.calls i.offset s },
        { i with filled := i.filled ||| BitVec.twoPow 32 k }) := by
  have hslot : i.slot k = .ok s := by simp [Instance.slot, slot]
  have hfill := CodeBuffer.fill_eq_ok h.bounded h.sits slot few (.inr free) inRange accepts
  rw [List.append_nil] at hfill
  unfold fillValue
  cases v with
  | imm v | host v =>
    obtain rfl := Option.some.inj raw
    simp [fillValue.fill, hfill, SlotValue.exits, SlotValue.calls, bind, Except.bind, pure,
      Except.pure]
  | handler v =>
    obtain rfl := Option.some.inj raw
    simp [fillValue.fill, hfill, hslot, SlotValue.exits, SlotValue.calls, bind, Except.bind, pure,
      Except.pure]
  | stub offset =>
    obtain rfl := Option.some.inj raw
    simp only [Engine.wiring] at hfill ⊢
    simp only [CodeBuffer.addrAt_eq_ok (stub offset rfl), fillValue.fill, hfill, SlotValue.exits,
      SlotValue.calls, bind, Except.bind, pure, Except.pure, List.append_nil]
  | fallthrough => simp [Wiring.raw, Engine.wiring] at raw
  | exit target =>
    obtain rfl := Option.some.inj raw
    have hsite : i.branchSite k = .ok (s.site i.offset) := by
      have := branch rfl
      unfold Slot.IsBranch at this
      cases hk : s.kind <;>
        simp_all [Instance.branchSite, Slot.site, Slot.width, SlotKind.width, bind,
          Except.bind, pure, Except.pure]
    simp only [Engine.wiring] at hfill ⊢
    simp only [CodeBuffer.addrAt_eq_ok h.dispatch, fillValue.fill, hfill, hsite, SlotValue.exits,
      SlotValue.calls, bind, Except.bind, pure, Except.pure, List.append_nil]

/-- When one slot has been filled the others can still be. -/
theorem Fillable.fill (h : Fillable e d i pre code) (inRange : s.InRange i.template.size)
    (r : UInt64) (exits : List ExitSlot) (calls : List CallSite) (mask : BitVec 32) :
    Fillable e
      { d with
        buffer := { d.buffer with bytes :=
          (pre ++ s.fillIn e.config.regions (d.buffer.base + i.offset) r code).toArray }
        exits, calls }
      { i with filled := mask } pre
      (s.fillIn e.config.regions (d.buffer.base + i.offset) r code) := by
  have hlen := Slot.length_fillIn (h.sits.size ▸ inRange) e.config.regions
    (d.buffer.base + i.offset) r
  have hsits : Instance.Sits { i with filled := mask } { d.buffer with bytes :=
      (pre ++ s.fillIn e.config.regions (d.buffer.base + i.offset) r code).toArray } pre
      (s.fillIn e.config.regions (d.buffer.base + i.offset) r code) [] :=
    ⟨by simp, h.sits.start, hlen.trans h.sits.size⟩
  have hcursor := hsits.cursor_eq.trans h.sits.cursor_eq.symm
  exact ⟨⟨hcursor ▸ h.bounded.cursor_le, h.bounded.mapped⟩, hsits, h.dispatch⟩

/-- Filling the slots of a copy from number `k` on, in order. -/
theorem foldlM_fillValue {rest : List Slot} {values : List SlotValue} (h : Fillable e d i pre code)
    (drop : i.template.slots.drop k = rest) (few : i.template.slots.length ≤ 32)
    (inRange : ∀ s ∈ i.template.slots, s.InRange i.template.size)
    (free : ∀ j, k ≤ j → i.filled.getLsbD j = false)
    (accepts : AcceptAll e.config.regions (d.buffer.base + i.offset) rest
      (e.raws d.buffer.base values))
    (stub : ∀ o, .stub o ∈ values → o ≤ d.buffer.capacity)
    (branch : ∀ p ∈ rest.zip values, p.2.isExit → p.1.IsBranch) :
    (values.zipIdx k).foldlM (fun (d, i) (v, k) => fillValue e d i k v) (d, i) = .ok
      ({ d with
          buffer := { d.buffer with bytes := (pre ++ fillSlots e.config.regions
            (d.buffer.base + i.offset) rest (e.raws d.buffer.base values) code).toArray }
          exits := d.exits ++ SlotValue.exitsOf i.offset rest values
          calls := d.calls ++ SlotValue.callsOf i.offset rest values
          forward := d.forward ++ SlotValue.waiting d.instances.size k values },
        { i with filled := fillMask i.filled k (e.raws d.buffer.base values) }) := by
  induction values generalizing d i k rest code with
  | nil =>
    cases rest with
    | cons => exact accepts.elim
    | nil =>
      have hb : (pre ++ code).toArray = d.buffer.bytes := by
        apply Array.toList_inj.1
        simpa using h.sits.bytes.symm
      simp [fillSlots, fillMask, Engine.raws, SlotValue.waiting, SlotValue.exitsOf,
        SlotValue.callsOf, hb, pure, Except.pure]
  | cons v values ih =>
    cases rest with
    | nil => exact accepts.elim
    | cons s rest =>
      have hk : k < i.template.slots.length := by
        have := congrArg List.length drop
        simp at this
        omega
      have hs : i.template.slots[k]? = some s := by
        have := congrArg (·[0]?) drop
        simpa using this
      have hdrop : i.template.slots.drop (k + 1) = rest := by
        have := congrArg List.tail drop
        simpa using this
      have hmem : s ∈ i.template.slots := List.mem_of_getElem? hs
      have hexits : ∀ p ∈ rest.zip values, p.2.isExit → p.1.IsBranch := fun p hp =>
        branch p (by rw [List.zip_cons_cons]; exact List.mem_cons_of_mem _ hp)
      have hstubs : ∀ o, .stub o ∈ values → o ≤ d.buffer.capacity := fun o ho =>
        stub o (List.mem_cons_of_mem _ ho)
      have hfree : ∀ j, k + 1 ≤ j → i.filled.getLsbD j = false := fun j hj => free j (by omega)
      rw [List.zipIdx_cons, List.foldlM_cons]
      change fillValue e d i k v >>= (fun p => (values.zipIdx (k + 1)).foldlM
        (fun (d, i) (v, k) => fillValue e d i k v) p) = _
      cases hraw : (e.wiring d.buffer.base none).raw 0 v with
      | none =>
        obtain rfl : v = .fallthrough := by cases v <;> simp [Wiring.raw] at hraw ⊢
        have step : fillValue e d i k .fallthrough =
            .ok ({ d with forward := d.forward ++ [(d.instances.size, k)] }, i) := rfl
        rw [step]
        have next :=
          @ih { d with forward := d.forward ++ [(d.instances.size, k)] } i (k + 1) code rest
            ⟨h.bounded, h.sits, h.dispatch⟩ hdrop few inRange hfree accepts.2 hstubs hexits
        refine Eq.trans next ?_
        simp [Engine.raws, hraw, fillSlots, fillMask, SlotValue.waiting, SlotValue.exitsOf,
          SlotValue.callsOf, SlotValue.exits, SlotValue.calls]
      | some r =>
        have step := fillValue_eq_ok h hs (by omega) (free k (Nat.le_refl k)) (inRange s hmem) hraw
          (accepts.1 r hraw) (fun o ho => stub o (ho ▸ List.mem_cons_self))
          (branch (s, v) (by simp))
        rw [step]
        have hfree' : ∀ j, k + 1 ≤ j → (i.filled ||| BitVec.twoPow 32 k).getLsbD j = false := by
          intro j hj
          rw [BitVec.getLsbD_or, hfree j hj, BitVec.getLsbD_twoPow]
          simp
          omega
        have next := ih (h.fill (inRange s hmem) r (d.exits ++ v.exits i.offset s)
          (d.calls ++ v.calls i.offset s) (i.filled ||| BitVec.twoPow 32 k)) hdrop few
          inRange hfree' accepts.2 hstubs hexits
        refine Eq.trans next ?_
        have hv : v ≠ .fallthrough := by
          rintro rfl
          simp [Wiring.raw, Engine.wiring] at hraw
        simp [Engine.raws, hraw, fillSlots, fillMask, SlotValue.exitsOf, SlotValue.callsOf,
          SlotValue.waiting_cons_of_ne hv]

/-- The draft behind a template that has been written. -/
def placed (e : Engine) (d : Draft) (t : Template) (values : List SlotValue) : Draft :=
  { d with
    buffer := d.buffer.extend
      ((e.wiring d.buffer.base none).code d.buffer.cursor 0 (.place t values))
    instances := d.instances.push
      ⟨d.buffer.cursor, t, fillMask 0 0 (e.raws d.buffer.base values)⟩
    exits := d.exits ++ PlanStep.exits d.buffer.cursor (.place t values)
    calls := d.calls ++ PlanStep.calls d.buffer.cursor (.place t values)
    forward := d.forward ++ SlotValue.waiting d.instances.size 0 values }

/-- A template whose slots accept their values is written behind the cursor. -/
theorem write_place {t : Template} {values : List SlotValue} (bounded : d.buffer.Bounded)
    (room : d.buffer.cursor + t.size ≤ d.buffer.capacity)
    (dispatch : e.stubs.dispatch ≤ d.buffer.capacity)
    (suits : (e.wiring d.buffer.base none).Suits d.buffer.capacity d.buffer.cursor k
      (.place t values)) :
    d.write e (.place t values) = .ok (d.placed e t values) := by
  obtain ⟨few, inRange, accepts, stub, branch⟩ := suits
  rw [e.map_raw_wiring] at accepts
  have hroom : t.code.length ≤ d.buffer.remaining := by
    unfold CodeBuffer.remaining
    unfold Template.size at room
    omega
  have hplace : d.buffer.place t = .ok (⟨d.buffer.cursor, t, 0⟩,
      { d.buffer with bytes := d.buffer.bytes.appendList t.code }) := by
    simp [CodeBuffer.place, CodeBuffer.append, demand, hroom, bind, Except.bind, pure, Except.pure]
  have fillable : Fillable e { d with
        buffer := { d.buffer with bytes := d.buffer.bytes.appendList t.code } }
      ⟨d.buffer.cursor, t, 0⟩ d.buffer.bytes.toList t.code := by
    refine ⟨⟨?_, bounded.mapped⟩, ⟨by simp, by simp [CodeBuffer.cursor], rfl⟩, dispatch⟩
    rw [CodeBuffer.cursor, ← Array.length_toList]
    simpa [CodeBuffer.cursor, Template.size] using room
  have filled := foldlM_fillValue fillable List.drop_zero few inRange (fun j _ => by simp)
    accepts stub branch
  simp only [write, hplace]
  refine (congrArg₂ bind filled rfl).trans ?_
  have hbytes (xs : List UInt8) :
      (d.buffer.bytes.toList ++ xs).toArray = d.buffer.bytes ++ xs.toArray := by simp
  simp only [placed, Wiring.code, e.map_raw_wiring, hbytes, bind, Except.bind, pure, Except.pure]
  rfl

theorem cursor_placed {t : Template} {values : List SlotValue}
    (suits : (e.wiring d.buffer.base none).Suits d.buffer.capacity d.buffer.cursor k
      (.place t values)) : (d.placed e t values).buffer.cursor = d.buffer.cursor + t.size := by
  have hlen := Wiring.length_code suits
  rw [e.code_wiring] at hlen
  rw [placed, CodeBuffer.cursor_extend, hlen]
  rfl

/-- A copy that leaves no slot open passes the check. -/
theorem checkFilled_place {t : Template} {values : List SlotValue} (base offset : Nat)
    (few : t.slots.length ≤ 32) (count : t.slots.length = values.length)
    (straight : .fallthrough ∉ values) :
    Instance.checkFilled ⟨offset, t, fillMask 0 0 (e.raws base values)⟩ = .ok () := by
  apply checkFilled_fillMask few (by simpa [Engine.raws] using count)
  intro r hr
  obtain ⟨v, hv, rfl⟩ := List.mem_map.1 hr
  cases v with
  | fallthrough => exact absurd hv straight
  | _ => rfl

/-- Writing steps appends their code; only slots that wait for the fallthrough code stay open. -/
theorem foldlM_write {steps : List PlanStep} (bounded : d.buffer.Bounded)
    (room : d.buffer.cursor + stepsSize steps ≤ d.buffer.capacity)
    (dispatch : e.stubs.dispatch ≤ d.buffer.capacity)
    (suits : (e.wiring d.buffer.base none).SuitsAll d.buffer.capacity d.buffer.cursor k steps) :
    steps.foldlM (write e) d = .ok { d with
      buffer := d.buffer.extend ((e.wiring d.buffer.base none).codes d.buffer.cursor k steps)
      instances := d.instances ++
        (PlanStep.copies (e.raws d.buffer.base) d.buffer.cursor steps).toArray
      exits := d.exits ++ PlanStep.allExits d.buffer.cursor steps
      calls := d.calls ++ PlanStep.allCalls d.buffer.cursor steps
      forward := d.forward ++ PlanStep.allWaiting d.instances.size steps
      fallthrough := PlanStep.label d.fallthrough d.buffer.cursor steps } := by
  induction steps generalizing d k with
  | nil =>
    simp [Wiring.codes, PlanStep.copies, PlanStep.allExits, PlanStep.allCalls, PlanStep.allWaiting,
      PlanStep.label, CodeBuffer.extend, pure, Except.pure]
  | cons s steps ih =>
    rw [List.foldlM_cons]
    cases s with
    | fallthrough =>
      have next := @ih { d with fallthrough := some d.buffer.cursor } _ bounded
        (by simpa [PlanStep.size] using room) dispatch suits.2
      refine Eq.trans next ?_
      simp [Wiring.codes, Wiring.code, PlanStep.copies, PlanStep.allExits, PlanStep.exits,
        PlanStep.allCalls, PlanStep.calls, PlanStep.allWaiting, PlanStep.label, PlanStep.size]
    | place t values =>
      rw [stepsSize_cons, PlanStep.size] at room
      have hcursor := cursor_placed suits.1
      have next := @ih (d.placed e t values) _
        ⟨by rw [hcursor]; exact Nat.le_trans (by omega) room, bounded.mapped⟩
        (by rw [hcursor]; exact Nat.le_trans (by omega) room) dispatch
        (by rw [hcursor]; exact suits.2)
      rw [write_place bounded (by omega) dispatch suits.1]
      refine Eq.trans next ?_
      rw [hcursor]
      simp [placed, Wiring.codes, PlanStep.copies, PlanStep.allExits, PlanStep.allCalls,
        PlanStep.allWaiting, PlanStep.label, PlanStep.size, e.code_wiring _ _ _ k]

theorem forM_checkFilled {instances : List Instance} (h : ∀ i ∈ instances, i.checkFilled = .ok ()) :
    instances.forM (·.checkFilled) = .ok () := by
  induction instances with
  | nil => rfl
  | cons i instances ih =>
    unfold List.forM
    rw [h i List.mem_cons_self]
    exact ih fun i hi => h i (List.mem_cons_of_mem _ hi)

/-- All copies of a straight plan pass the check. -/
theorem checkFilled_copies {w : Wiring} {steps : List PlanStep} {base capacity offset : Nat}
    (straight : ∀ s ∈ steps, s.Straight) (suits : w.SuitsAll capacity offset k steps) :
    ∀ i ∈ PlanStep.copies (e.raws base) offset steps, i.checkFilled = .ok () := by
  induction steps generalizing offset k with
  | nil => simp [PlanStep.copies]
  | cons s steps ih =>
    cases s with
    | fallthrough => exact (straight _ List.mem_cons_self).elim
    | place t values =>
      intro i hi
      rcases List.mem_cons.1 hi with rfl | hi
      · exact checkFilled_place base offset suits.1.1 (by simpa using suits.1.2.2.1.length_eq)
          (straight (.place t values) List.mem_cons_self)
      · exact ih (fun s hs => straight s (List.mem_cons_of_mem _ hs)) suits.2 i hi

section Whole

variable {b : CodeBuffer} {p : Plan} {steps : List PlanStep}

/-- The draft of steps before slots are filled that have waited for the fallthrough code. -/
def written (e : Engine) (b : CodeBuffer) (steps : List PlanStep) : Draft where
  buffer := b.extend ((e.wiring b.base none).codes b.cursor 0 steps)
  instances := (PlanStep.copies (e.raws b.base) b.cursor steps).toArray
  exits := PlanStep.allExits b.cursor steps
  calls := PlanStep.allCalls b.cursor steps
  forward := PlanStep.allWaiting 0 steps
  fallthrough := PlanStep.label none b.cursor steps

/-- The steps of a plan are written one behind the other. -/
theorem foldlM_write_new (bounded : b.Bounded) (room : b.cursor + stepsSize steps ≤ b.capacity)
    (dispatch : e.stubs.dispatch ≤ b.capacity)
    (suits : (e.wiring b.base none).SuitsAll b.capacity b.cursor 0 steps) :
    steps.foldlM (write e) { buffer := b } = .ok (written e b steps) := by
  rw [foldlM_write (d := { buffer := b }) bounded room dispatch suits]
  simp [written]

/-- The draft has exactly the bytes, exits and calls of the plan behind those of the buffer. -/
structure Renders (e : Engine) (b : CodeBuffer) (p : Plan) (d : Draft) : Prop where
  buffer : d.buffer = b.extend
    ((e.wiring b.base (PlanStep.label none b.cursor p.steps)).codes b.cursor 0 p.steps)
  exits : d.exits = PlanStep.allExits b.cursor p.steps
  calls : d.calls = PlanStep.allCalls b.cursor p.steps

/-- A straight plan is written in one go. -/
theorem ofPlan_straight (straight : ∀ s ∈ p.steps, s.Straight) (bounded : b.Bounded)
    (room : b.cursor + p.size ≤ b.capacity) (dispatch : e.stubs.dispatch ≤ b.capacity)
    (suits : (e.wiring b.base none).SuitsAll b.capacity b.cursor 0 p.steps) :
    ofPlan e b p = .ok (written e b p.steps) := by
  have hwait : PlanStep.allWaiting 0 p.steps = [] := PlanStep.allWaiting_straight straight 0
  have checked := @checkFilled_copies e 0 _ _ b.base _ _ straight suits
  simp [ofPlan, foldlM_write_new bounded room dispatch suits, written, hwait,
    forM_checkFilled checked, bind, Except.bind, pure, Except.pure]

section Forked

variable {front mid back : List PlanStep} {t : Template} {values : List SlotValue}
  {slots : List Slot} {s : Slot}

/-- The steps of a conditional branch behind other steps. -/
abbrev forkedSteps (front : List PlanStep) (t : Template) (values : List SlotValue)
    (mid back : List PlanStep) : List PlanStep :=
  front ++ .place t (values ++ [.fallthrough]) :: (mid ++ .fallthrough :: back)

theorem label_forkedSteps (hfront : ∀ s ∈ front, s.Straight) (hmid : ∀ s ∈ mid, s.Straight)
    (hback : ∀ s ∈ back, s.Straight) (offset : Nat) :
    PlanStep.label none offset (forkedSteps front t values mid back) =
      some (offset + stepsSize front + t.size + stepsSize mid) := by
  rw [forkedSteps, PlanStep.label_append, PlanStep.label_straight hfront, PlanStep.label,
    PlanStep.label_append, PlanStep.label_straight hmid, PlanStep.label,
    PlanStep.label_straight hback]

/-- A branch leaves one slot open, the last of its template. -/
theorem allWaiting_forkedSteps (hfront : ∀ s ∈ front, s.Straight) (hvalues : .fallthrough ∉ values)
    (hmid : ∀ s ∈ mid, s.Straight) (hback : ∀ s ∈ back, s.Straight) :
    PlanStep.allWaiting 0 (forkedSteps front t values mid back) =
      [(front.length, values.length)] := by
  have hlast (n k : Nat) : SlotValue.waiting n k (values ++ [.fallthrough]) =
      [(n, k + values.length)] := by
    induction values generalizing k with
    | nil => rfl
    | cons v values ih =>
      rw [List.mem_cons, not_or] at hvalues
      rw [List.cons_append, SlotValue.waiting_cons_of_ne (Ne.symm hvalues.1), ih hvalues.2,
        List.length_cons, Nat.add_assoc, Nat.add_comm 1]
  rw [forkedSteps, PlanStep.allWaiting_straight_append hfront, PlanStep.allWaiting,
    PlanStep.allWaiting_straight_append hmid, PlanStep.allWaiting,
    PlanStep.allWaiting_straight hback, hlast]
  simp

/-- The place of the fallthrough code changes the bytes of the branch in its last slot. -/
theorem code_fork {base offset place : Nat} (hslots : t.slots = slots ++ [s])
    (hcount : slots.length = values.length) (hvalues : .fallthrough ∉ values) :
    (e.wiring base (some place)).code offset k (.place t (values ++ [.fallthrough])) =
      s.fillIn e.config.regions (base + offset) (.ofNat (base + place))
        ((e.wiring base none).code offset k (.place t (values ++ [.fallthrough]))) := by
  have hraw : values.map ((e.wiring base (some place)).raw k) =
      values.map ((e.wiring base none).raw k) := by
    apply List.map_congr_left
    intro v hv
    cases v with
    | fallthrough => exact absurd hv hvalues
    | _ => rfl
  simp only [Wiring.code, List.map_append, hraw, hslots, List.map_cons, List.map_nil]
  rw [fillSlots_append_single _ _ _ (by simpa using hcount),
    fillSlots_append_single _ _ _ (by simpa using hcount)]
  rfl

/-- With the open slot filled, the code of a branch is as if the place had been known from the
start. -/
theorem codes_forkedSteps {base offset place : Nat} (hslots : t.slots = slots ++ [s])
    (hcount : slots.length = values.length) (hvalues : .fallthrough ∉ values)
    (hfront : ∀ s ∈ front, s.Straight) (hmid : ∀ s ∈ mid, s.Straight)
    (hback : ∀ s ∈ back, s.Straight) :
    ∃ rest, (e.wiring base none).codes offset k (forkedSteps front t values mid back) =
        (e.wiring base none).codes offset k front ++
          ((e.wiring base none).code (offset + stepsSize front) 0
            (.place t (values ++ [.fallthrough])) ++ rest) ∧
      (e.wiring base (some place)).codes offset k (forkedSteps front t values mid back) =
        (e.wiring base none).codes offset k front ++
          (s.fillIn e.config.regions (base + (offset + stepsSize front)) (.ofNat (base + place))
            ((e.wiring base none).code (offset + stepsSize front) 0
              (.place t (values ++ [.fallthrough]))) ++ rest) := by
  have hrest : ∀ s ∈ mid ++ .fallthrough :: back, s.Settled := by
    intro s hs
    rcases List.mem_append.1 hs with hs | hs
    · exact (hmid s hs).settled
    · rcases List.mem_cons.1 hs with rfl | hs
      · trivial
      · exact (hback s hs).settled
  refine ⟨(e.wiring base none).codes (offset + stepsSize front + t.size)
    (k + exitTotal front + (PlanStep.place t (values ++ [.fallthrough])).exitCount)
    (mid ++ .fallthrough :: back), ?_, ?_⟩
  · rw [forkedSteps, Wiring.codes_append, Wiring.codes, e.code_wiring]
    rfl
  · rw [forkedSteps, Wiring.codes_append, Wiring.codes,
      Engine.codes_unlabelled fun s hs => (hfront s hs).settled, Engine.codes_unlabelled hrest,
      e.code_wiring, code_fork hslots hcount hvalues]
    rfl

/-- A branch that has been written with its last slot open. -/
structure Fork (e : Engine) (b : CodeBuffer) (front : List PlanStep) (t : Template)
    (values : List SlotValue) (mid back : List PlanStep) (slots : List Slot) (s : Slot) : Prop where
  hfront : ∀ s ∈ front, s.Straight
  hvalues : .fallthrough ∉ values
  hmid : ∀ s ∈ mid, s.Straight
  hback : ∀ s ∈ back, s.Straight
  bounded : b.Bounded
  room : b.cursor + stepsSize (forkedSteps front t values mid back) ≤ b.capacity
  hslots : t.slots = slots ++ [s]
  suits : (e.wiring b.base
    (some (b.cursor + stepsSize front + t.size + stepsSize mid))).SuitsAll b.capacity b.cursor 0
      (forkedSteps front t values mid back)

namespace Fork

theorem label (h : Fork e b front t values mid back slots s) :
    PlanStep.label none b.cursor (forkedSteps front t values mid back) =
      some (b.cursor + stepsSize front + t.size + stepsSize mid) :=
  label_forkedSteps h.hfront h.hmid h.hback b.cursor

theorem suitsFork (h : Fork e b front t values mid back slots s) :
    (e.wiring b.base (some (b.cursor + stepsSize front + t.size + stepsSize mid))).Suits b.capacity
      (b.cursor + stepsSize front) (0 + exitTotal front) (.place t (values ++ [.fallthrough])) :=
  ((Wiring.suitsAll_append ..).1 h.suits).2.1

theorem accepts (h : Fork e b front t values mid back slots s) :
    slots.length = values.length ∧ s.Accepts e.config.regions
      (b.base + (b.cursor + stepsSize front))
      (.ofNat (b.base + (b.cursor + stepsSize front + t.size + stepsSize mid))) := by
  obtain ⟨_, _, accepts, _⟩ := h.suitsFork
  rw [List.map_append, h.hslots] at accepts
  obtain ⟨count, last⟩ := accepts.append_single
  exact ⟨by simpa using count, last _ rfl⟩

theorem raws_fallthrough (base : Nat) :
    e.raws base (values ++ [.fallthrough]) = e.raws base values ++ [none] := by
  simp [Engine.raws, Wiring.raw, Engine.wiring]

/-- The copy of the branch, before its last slot is filled. -/
def copy (e : Engine) (b : CodeBuffer) (front : List PlanStep) (t : Template)
    (values : List SlotValue) : Instance :=
  ⟨b.cursor + stepsSize front, t, fillMask 0 0 (e.raws b.base values ++ [none])⟩

theorem length_front (h : Fork e b front t values mid back slots s) :
    ((e.wiring b.base none).codes b.cursor 0 front).length = stepsSize front :=
  Wiring.length_codes (Engine.suitsAll_unlabelled ((Wiring.suitsAll_append ..).1 h.suits).1)

theorem bounded_written (h : Fork e b front t values mid back slots s) :
    (written e b (forkedSteps front t values mid back)).buffer.Bounded := by
  refine ⟨?_, h.bounded.mapped⟩
  have hlen := Wiring.length_codes (Engine.suitsAll_unlabelled h.suits)
  simp only [written, CodeBuffer.cursor_extend, hlen]
  exact h.room

theorem copy_free : (copy e b front t values).filled.getLsbD values.length = false := by
  by_cases hn : values.length < 32
  · have hlen : (e.raws b.base values).length = values.length := by simp [Engine.raws]
    rw [copy, getLsbD_fillMask _ _ _ hn, Nat.sub_zero, ← hlen]
    simp
  · exact BitVec.getLsbD_of_ge _ _ (by omega)

/-- All copies pass the check once the last slot of the branch has been filled. -/
theorem checked (h : Fork e b front t values mid back slots s) :
    ∀ i ∈ PlanStep.copies (e.raws b.base) b.cursor front ++
        ({ copy e b front t values with
            filled := (copy e b front t values).filled ||| BitVec.twoPow 32 values.length } ::
          PlanStep.copies (e.raws b.base) (b.cursor + stepsSize front + t.size)
            (mid ++ .fallthrough :: back)), i.checkFilled = .ok () := by
  obtain ⟨suitsFront, suitsFork, suitsRest⟩ := (Wiring.suitsAll_append ..).1 h.suits
  obtain ⟨suitsMid, _, suitsBack⟩ := (Wiring.suitsAll_append ..).1 suitsRest
  have hlen : (e.raws b.base values).length = values.length := by simp [Engine.raws]
  intro i hi
  rcases List.mem_append.1 hi with hi | hi
  · exact checkFilled_copies h.hfront suitsFront i hi
  · rcases List.mem_cons.1 hi with rfl | hi
    · have hmask := @fillMask_append_single (e.raws b.base values) 0 0 0
      rw [hlen, Nat.zero_add] at hmask
      simp only [copy]
      rw [← hmask]
      apply checkFilled_fillMask suitsFork.1
      · rw [h.hslots]
        simp [h.accepts.1, Engine.raws]
      · intro r hr
        rcases List.mem_append.1 hr with hr | hr
        · obtain ⟨v, hv, rfl⟩ := List.mem_map.1 hr
          cases v with
          | fallthrough => exact absurd hv h.hvalues
          | _ => rfl
        · rw [List.mem_singleton.1 hr]
          rfl
    · rw [PlanStep.copies_append, PlanStep.copies] at hi
      rcases List.mem_append.1 hi with hi | hi
      · exact checkFilled_copies h.hmid suitsMid i hi
      · exact checkFilled_copies h.hback suitsBack i hi

/-- The open slot of the branch is filled with the place of the fallthrough code. -/
theorem fillForward (h : Fork e b front t values mid back slots s) :
    ∃ d, (written e b (forkedSteps front t values mid back)).fillForward e front.length
        values.length = .ok d ∧
      d.buffer = b.extend ((e.wiring b.base
        (PlanStep.label none b.cursor (forkedSteps front t values mid back))).codes b.cursor 0
          (forkedSteps front t values mid back)) ∧
      d.exits = PlanStep.allExits b.cursor (forkedSteps front t values mid back) ∧
      d.calls = PlanStep.allCalls b.cursor (forkedSteps front t values mid back) ∧
      ∀ i ∈ d.instances.toList, i.checkFilled = .ok () := by
  obtain ⟨few, inRange, _⟩ := h.suitsFork
  obtain ⟨count, accepts⟩ := h.accepts
  have hroom := h.room
  simp only [stepsSize_append, stepsSize_cons, PlanStep.size] at hroom
  obtain ⟨rest, hwritten, hfinal⟩ := @codes_forkedSteps e 0 front mid back t values slots s b.base
    b.cursor (b.cursor + stepsSize front + t.size + stepsSize mid) h.hslots count h.hvalues h.hfront
    h.hmid h.hback
  have hfork := Wiring.length_code (Engine.suits_unlabelled h.suitsFork)
  rw [e.code_wiring] at hfork
  have sits :
      (copy e b front t values).Sits (written e b (forkedSteps front t values mid back)).buffer
      (b.bytes.toList ++ (e.wiring b.base none).codes b.cursor 0 front)
      ((e.wiring b.base none).code (b.cursor + stepsSize front) 0
        (.place t (values ++ [.fallthrough]))) rest := by
    refine ⟨?_, ?_, hfork⟩
    · rw [written, CodeBuffer.toList_extend, hwritten]
      simp
    · rw [List.length_append, h.length_front]
      rfl
  have hfill := @CodeBuffer.fill_eq_ok _ _ _ _ _ e.config.regions values.length s
    (.ofNat (b.base + (b.cursor + stepsSize front + t.size + stepsSize mid))) h.bounded_written sits
    (by simp [copy, h.hslots, ← count]) (by rw [h.hslots] at few; simp at few; omega)
    (.inr copy_free) (inRange s (by simp [h.hslots])) accepts
  have hcopies : PlanStep.copies (e.raws b.base) b.cursor (forkedSteps front t values mid back) =
      PlanStep.copies (e.raws b.base) b.cursor front ++ (copy e b front t values ::
        PlanStep.copies (e.raws b.base) (b.cursor + stepsSize front + t.size)
          (mid ++ .fallthrough :: back)) := by
    rw [forkedSteps, PlanStep.copies_append, PlanStep.copies, raws_fallthrough]
    rfl
  have hindex := PlanStep.length_copies_straight h.hfront (e.raws b.base) b.cursor
  have hnth : (written e b (forkedSteps front t values mid back)).instances[front.length]? =
      some (copy e b front t values) := by
    simp [written, hcopies, ← hindex]
  have haddr : (written e b (forkedSteps front t values mid back)).buffer.addrAt
      (b.cursor + stepsSize front + t.size + stepsSize mid) =
      .ok (.ofNat (b.base + (b.cursor + stepsSize front + t.size + stepsSize mid))) := by
    apply CodeBuffer.addrAt_eq_ok
    simp only [written, CodeBuffer.capacity_extend]
    omega
  have hlabel : (written e b (forkedSteps front t values mid back)).fallthrough =
      some (b.cursor + stepsSize front + t.size + stepsSize mid) := h.label
  refine ⟨{ written e b (forkedSteps front t values mid back) with
      buffer := b.extend ((e.wiring b.base none).codes b.cursor 0 front ++
        (s.fillIn e.config.regions (b.base + (b.cursor + stepsSize front))
          (.ofNat (b.base + (b.cursor + stepsSize front + t.size + stepsSize mid)))
          ((e.wiring b.base none).code (b.cursor + stepsSize front) 0
            (.place t (values ++ [.fallthrough]))) ++ rest))
      instances := (written e b (forkedSteps front t values mid back)).instances.setIfInBounds
        front.length { copy e b front t values with
          filled := (copy e b front t values).filled ||| BitVec.twoPow 32 values.length } },
    ?_, ?_, rfl, rfl, ?_⟩
  · simp only [Draft.fillForward, hlabel, hnth, haddr, hfill, bind, Except.bind, pure, Except.pure]
    congr 2
    simp [written, CodeBuffer.extend, copy]
  · rw [h.label, hfinal]
  · intro i hi
    apply h.checked i
    simpa [written, hcopies, ← hindex] using hi

end Fork

end Forked

/-- Writing a plan succeeds when each slot accepts its value in its place. -/
theorem ofPlan_eq_ok (shaped : Shaped p.steps) (bounded : b.Bounded)
    (room : b.cursor + p.size ≤ b.capacity) (dispatch : e.stubs.dispatch ≤ b.capacity)
    (suits : (e.wiring b.base (PlanStep.label none b.cursor p.steps)).SuitsAll b.capacity b.cursor 0
      p.steps) :
    ∃ d, ofPlan e b p = .ok d ∧ Renders e b p d := by
  generalize hsteps : p.steps = steps at shaped
  cases shaped with
  | straight straight =>
    subst hsteps
    have hlabel := PlanStep.label_straight straight none b.cursor
    refine ⟨_, ofPlan_straight straight bounded room dispatch (Engine.suitsAll_unlabelled suits),
      ?_, rfl, rfl⟩
    rw [hlabel]
    rfl
  | @forked front mid back t values hfront hvalues hmid hback =>
    replace hsteps : p.steps = forkedSteps front t values mid back := hsteps
    have hsize : b.cursor + stepsSize (forkedSteps front t values mid back) ≤ b.capacity :=
      hsteps ▸ room
    have first := foldlM_write_new bounded hsize dispatch
      (hsteps ▸ Engine.suitsAll_unlabelled suits)
    have hlabel := @label_forkedSteps _ _ _ t values hfront hmid hback b.cursor
    rw [hsteps, hlabel] at suits
    obtain ⟨_, ⟨_, _, accepts, _⟩, _⟩ := (Wiring.suitsAll_append ..).1 suits
    obtain ⟨slots, s, hslots⟩ : ∃ slots s, t.slots = slots ++ [s] := by
      have hlen := accepts.length_eq
      simp at hlen
      exact ⟨_, _, (List.dropLast_concat_getLast (List.ne_nil_of_length_eq_add_one hlen)).symm⟩
    obtain ⟨d, filled, buffer, exits, calls, checked⟩ := Fork.fillForward (e := e) (b := b)
      ⟨hfront, hvalues, hmid, hback, bounded, hsize, hslots, suits⟩
    refine ⟨d, ?_, hsteps ▸ buffer, hsteps ▸ exits, hsteps ▸ calls⟩
    have hwait : (written e b (forkedSteps front t values mid back)).forward =
        [(front.length, values.length)] := allWaiting_forkedSteps hfront hvalues hmid hback
    have hchecked : d.instances.toList.forM (·.checkFilled) = .ok () := forM_checkFilled checked
    simp [ofPlan, hsteps, first, hwait, filled, hchecked, bind, Except.bind, pure, Except.pure]

end Whole

end Draft
end Dynarec
