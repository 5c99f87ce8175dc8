import Dynarec.Proofs.Endings
import Dynarec.Proofs.Steering

/-!
Exits in written code: where their fields stand, and that pointing a field elsewhere changes where
its exit lands and nothing else.
-/
namespace Dynarec

open X86.Templates

/-- The bytes of a field that leads from `anchor` to `target`. -/
def branchField (target anchor : Nat) : List UInt8 := X86.jump32 (target - anchor)

@[simp] theorem length_branchField (target anchor : Nat) :
    (branchField target anchor).length = 4 := by
  simp [branchField, Width.bytes]

/-- The field of the exit has 32 bits, ends its jump and lies between the offsets. -/
structure ExitSlot.Within (x : ExitSlot) (start stop : Nat) : Prop where
  width : x.site.width = .w32
  anchor : x.site.anchor = x.site.start + 4
  start_le : start ≤ x.site.start
  le_stop : x.site.anchor ≤ stop

theorem ExitSlot.Within.mono {x : ExitSlot} {p q p' q' : Nat} (h : x.Within p q) (hp : p' ≤ p)
    (hq : q ≤ q') : x.Within p' q' :=
  ⟨h.width, h.anchor, Nat.le_trans hp h.start_le, Nat.le_trans h.le_stop hq⟩

namespace PlanStep

variable {s : PlanStep} {steps : List PlanStep} {p : Nat} {x : ExitSlot}

theorem Plain.exits (h : s.Plain) (p : Nat) : (s.exitCount = 0 ∧ s.exits p = []) ∨
    ∃ target, s = .place chainJump [.exit target] ∧
      s.exits p = [{ target, site := { start := p + 1, anchor := p + 5, width := .w32 } }] := by
  obtain none | ⟨target, rfl⟩ := h
  · refine .inl ⟨none, ?_⟩
    cases s with
    | place => exact exits_eq_nil none
    | fallthrough => rfl
  · exact .inr ⟨target, rfl, rfl⟩

theorem within_exits (h : s.Plain) (hx : x ∈ s.exits p) : x.Within p (p + s.size) := by
  obtain ⟨-, none⟩ | ⟨target, rfl, hexits⟩ := h.exits p
  · simp [none] at hx
  · rw [hexits, List.mem_singleton] at hx
    subst hx
    exact ⟨rfl, rfl, by simp, by simp [size, Template.size, chainJump]⟩

theorem within_allExits (plain : ∀ s ∈ steps, s.Plain) (hx : x ∈ allExits p steps) :
    x.Within p (p + stepsSize steps) := by
  induction steps generalizing p with
  | nil => simp [allExits] at hx
  | cons s steps ih =>
    rw [stepsSize_cons]
    obtain hx | hx := List.mem_append.1 hx
    · exact (within_exits (plain s List.mem_cons_self) hx).mono (Nat.le_refl p) (by omega)
    · exact (ih (fun s hs => plain s (List.mem_cons_of_mem _ hs)) hx).mono (by omega) (by omega)

/-- The exits stand one behind the other. -/
theorem pairwise_allExits (plain : ∀ s ∈ steps, s.Plain) (p : Nat) :
    (allExits p steps).Pairwise fun x y => x.site.anchor ≤ y.site.start := by
  induction steps generalizing p with
  | nil => exact .nil
  | cons s steps ih =>
    have hs := plain s List.mem_cons_self
    have hsteps := fun s hs => plain s (List.mem_cons_of_mem _ hs)
    refine List.pairwise_append.2 ⟨?_, ih hsteps _, ?_⟩
    · obtain ⟨-, none⟩ | ⟨_, rfl, hexits⟩ := hs.exits p
      · rw [none]
        exact .nil
      · rw [hexits]
        exact List.pairwise_singleton _ _
    · intro x hx y hy
      exact Nat.le_trans (within_exits hs hx).le_stop (within_allExits hsteps hy).start_le

theorem linked_allExits (plain : ∀ s ∈ steps, s.Plain) (hx : x ∈ allExits p steps) :
    x.linked = none := by
  induction steps generalizing p with
  | nil => simp [allExits] at hx
  | cons s steps ih =>
    obtain hx | hx := List.mem_append.1 hx
    · obtain ⟨-, none⟩ | ⟨_, rfl, hexits⟩ := (plain s List.mem_cons_self).exits p
      · simp [none] at hx
      · rw [hexits, List.mem_singleton] at hx
        subst hx
        rfl
    · exact ih (fun s hs => plain s (List.mem_cons_of_mem _ hs)) hx

end PlanStep

section Landing

variable {e : Engine} {w : Wiring} {b b' : CodeBuffer} {p k : Nat} {s : PlanStep}
  {steps : List PlanStep} {lands : Nat → Nat}

theorem Wiring.code_congr (h : s.exitCount = 0) :
    Wiring.code { w with lands } p k s = w.code p k s := by
  cases s with
  | fallthrough => rfl
  | place t values =>
    have none : ∀ v ∈ values, ¬ v.isExit := List.countP_eq_zero.1 h
    have hraw : values.map (Wiring.raw { w with lands } k) = values.map (w.raw k) := by
      refine List.map_congr_left fun v hv => ?_
      cases v with
      | exit => exact absurd rfl (none _ hv)
      | _ => rfl
    simp only [code, hraw]

theorem Engine.Hosted.code_exit (hosted : e.Hosted) (of : w.Of e) (room : p + 5 ≤ e.buffer.capacity)
    (target : UInt32) : w.code p k (.place chainJump [.exit target]) =
      [0xE9] ++ branchField (w.lands k) (p + 5) := by
  have target_le := of.lands k
  have mapped : w.base + w.lands k < 2 ^ 64 := by
    have := hosted.mapped
    rw [of.base]
    omega
  have fits : Width.w32.Fits (w.lands k - (p + 5 : Nat)) := by
    have := hosted.reach
    constructor <;> simp only [Width.modulus] <;> omega
  rw [X86.code_chainJump rfl mapped fits]
  simp [X86.Coded.jmp, branchField]

theorem length_exits (plain : s.Plain) (p : Nat) : (s.exits p).length = s.exitCount := by
  obtain ⟨count, none⟩ | ⟨target, rfl, hexits⟩ := plain.exits p
  · rw [count, none, List.length_nil]
  · rw [hexits]
    rfl

theorem holds_reland_step (hosted : e.Hosted) (of : w.Of e) (of' : Wiring.Of { w with lands } e)
    (fits : s.Fits e) (plain : s.Plain) (room : p + s.size ≤ e.buffer.capacity)
    (holds : b.Holds p (w.code p k s))
    (outside : ∀ i, p ≤ i → i < p + s.size →
      (∀ x ∈ s.exits p, i < x.site.start ∨ x.site.anchor ≤ i) → b'.bytes[i]? = b.bytes[i]?)
    (fields : ∀ x ∈ s.exits p, b'.Holds x.site.start (branchField (lands k) x.site.anchor)) :
    b'.Holds p (Wiring.code { w with lands } p k s) := by
  have hlen : (w.code p k s).length = s.size := Wiring.length_code (fits.suits hosted of room)
  obtain ⟨count, none⟩ | ⟨target, rfl, hexits⟩ := plain.exits p
  · rw [Wiring.code_congr count]
    exact holds.congr fun i hi hi' => outside i hi (hlen ▸ hi') (by simp [none])
  · rw [hosted.code_exit of room] at holds
    rw [hosted.code_exit of' room]
    have hsize : PlanStep.size (.place chainJump [.exit target]) = 5 := rfl
    obtain ⟨opcode, -⟩ := CodeBuffer.holds_append.1 holds
    refine CodeBuffer.holds_append.2 ⟨opcode.congr fun i hi hi' => outside i hi ?_ ?_, ?_⟩
    · rw [List.length_singleton] at hi'
      omega
    · rw [List.length_singleton] at hi'
      rw [hexits, List.forall_mem_singleton]
      exact .inl (by simp only; omega)
    · rw [hexits, List.forall_mem_singleton] at fields
      exact fields

variable (hosted : e.Hosted) (fits : ∀ s ∈ steps, s.Fits e) (plain : ∀ s ∈ steps, s.Plain)
  (room : p + stepsSize steps ≤ e.buffer.capacity)
include hosted fits plain room

/-- The field of an exit leads to where the exit lands. -/
theorem holds_branchField (of : w.Of e) (holds : b.Holds p (w.codes p k steps)) {j : Nat}
    {x : ExitSlot} (hx : (PlanStep.allExits p steps)[j]? = some x) :
    b.Holds x.site.start (branchField (w.lands (k + j)) x.site.anchor) := by
  induction steps generalizing p k j with
  | nil => simp [PlanStep.allExits] at hx
  | cons s steps ih =>
    rw [stepsSize_cons] at room
    have hs := fits s List.mem_cons_self
    have hlen : (w.code p k s).length = s.size :=
      Wiring.length_code (hs.suits hosted of (by omega))
    obtain ⟨here, behind⟩ := CodeBuffer.holds_append.1 holds
    rw [hlen] at behind
    have rest := @ih (p + s.size) (k + s.exitCount) (fun s hs => fits s (List.mem_cons_of_mem _ hs))
      (fun s hs => plain s (List.mem_cons_of_mem _ hs)) (by omega) behind
    obtain ⟨count, none⟩ | ⟨target, rfl, hexits⟩ := (plain s List.mem_cons_self).exits p
    · rw [PlanStep.allExits, none] at hx
      rw [count] at rest
      exact rest hx
    · rw [PlanStep.allExits, hexits] at hx
      cases j with
      | zero =>
        cases hx
        have hsize : PlanStep.size (.place chainJump [.exit target]) = 5 := rfl
        rw [hosted.code_exit of (by omega)] at here
        exact (CodeBuffer.holds_append.1 here).2
      | succ j =>
        rw [Nat.add_comm j, ← Nat.add_assoc]
        exact rest hx

/-- Code stays the code of its steps when no byte outside the fields of its exits changes; the
fields say where the exits land. -/
theorem holds_reland (of : w.Of e) (of' : Wiring.Of { w with lands } e)
    (holds : b.Holds p (w.codes p k steps))
    (outside : ∀ i, p ≤ i → i < p + stepsSize steps →
      (∀ x ∈ PlanStep.allExits p steps, i < x.site.start ∨ x.site.anchor ≤ i) →
      b'.bytes[i]? = b.bytes[i]?)
    (fields : ∀ j x, (PlanStep.allExits p steps)[j]? = some x →
      b'.Holds x.site.start (branchField (lands (k + j)) x.site.anchor)) :
    b'.Holds p (Wiring.codes { w with lands } p k steps) := by
  induction steps generalizing p k with
  | nil => exact CodeBuffer.holds_nil b' p
  | cons s steps ih =>
    rw [stepsSize_cons] at room outside
    have hs := fits s List.mem_cons_self
    have hplain := plain s List.mem_cons_self
    have hrest := fun s hs => plain s (List.mem_cons_of_mem _ hs)
    obtain ⟨here, behind⟩ := CodeBuffer.holds_append.1 holds
    rw [Wiring.length_code (hs.suits hosted of (by omega))] at behind
    refine CodeBuffer.holds_append.2 ⟨?_, ?_⟩
    · refine holds_reland_step hosted of of' hs hplain (by omega) here ?_ ?_
      · intro i hi hi' hx
        refine outside i hi (by omega) fun x hmem => ?_
        obtain hmem | hmem := List.mem_append.1 hmem
        · exact hx x hmem
        · have := (PlanStep.within_allExits hrest hmem).start_le
          omega
      · intro x hx
        obtain ⟨count, none⟩ | ⟨target, rfl, hexits⟩ := hplain.exits p
        · simp [none] at hx
        · rw [hexits, List.mem_singleton] at hx
          subst hx
          exact fields 0 _ (by rw [PlanStep.allExits, hexits]; rfl)
    · rw [Wiring.length_code (hs.suits hosted of' (by omega))]
      refine ih (fun s hs => fits s (List.mem_cons_of_mem _ hs)) hrest (by omega) behind ?_ ?_
      · intro i hi hi' hx
        refine outside i (by omega) (by omega) fun x hmem => ?_
        obtain hmem | hmem := List.mem_append.1 hmem
        · have := (PlanStep.within_exits hplain hmem).le_stop
          omega
        · exact hx x hmem
      · intro j x hx
        rw [Nat.add_assoc]
        refine fields (s.exitCount + j) x ?_
        rw [PlanStep.allExits, List.getElem?_append_right (by rw [length_exits hplain]; omega),
          length_exits hplain, Nat.add_sub_cancel_left, hx]

end Landing

namespace ExitSlot.Within

variable {b : CodeBuffer} {x : ExitSlot} {p q target : Nat} (within : x.Within p q)
include within

theorem stop : x.site.stop = x.site.anchor := by
  rw [BranchSite.stop, within.width, within.anchor]
  rfl

theorem field (target : Nat) : x.site.field target = branchField target x.site.anchor := by
  rw [BranchSite.field, within.width]
  rfl

theorem getElem?_point {n : Nat} (h : n < x.site.start ∨ x.site.anchor ≤ n) :
    (b.point x.site target).bytes[n]? = b.bytes[n]? :=
  CodeBuffer.getElem?_point (within.stop.symm ▸ h)

theorem has (bounded : b.Bounded) (inside : q ≤ b.cursor) : b.Has x.site := by
  have := bounded.cursor_le
  have := within.le_stop
  exact ⟨by omega, by rw [within.stop]; omega⟩

/-- A field of 32 bits spans the buffer. -/
theorem spans (bounded : b.Bounded) (reach : b.capacity ≤ 2 ^ 30) (inside : q ≤ b.cursor)
    (target_le : target ≤ b.capacity) : x.site.Spans target := by
  have := (within.has bounded inside).anchor_le
  rw [BranchSite.Spans, within.width]
  constructor <;> simp only [Width.modulus] <;> omega

theorem leads (bounded : b.Bounded) (reach : b.capacity ≤ 2 ^ 30) (inside : q ≤ b.cursor)
    (target_le : target ≤ b.capacity)
    (holds : b.Holds x.site.start (branchField target x.site.anchor)) : b.Leads x.site target :=
  ⟨within.spans bounded reach inside target_le, within.field target ▸ holds⟩

theorem holds_point (inside : q ≤ b.cursor) :
    (b.point x.site target).Holds x.site.start (branchField target x.site.anchor) := by
  have := within.stop
  have := within.le_stop
  intro k hk
  rw [← within.field] at hk ⊢
  refine getElem?_writeAt_add _ hk ?_
  rw [BranchSite.length_field]
  exact Nat.le_trans (show x.site.stop ≤ q by omega) inside

end ExitSlot.Within

end Dynarec
