import Dynarec.Proofs.Totality

/-!
The host addresses that back guest addresses. Every address has one unless the window wraps; the
addresses that a wrapped window has from zero on have none, and an access to one of them cannot be
planned.
-/
namespace Dynarec

open X86.Templates

/-- A window that wraps has address zero. -/
theorem GuestWindow.contains_zero {w : GuestWindow} (h : ¬ w.Straight) :
    w.contains 0 = true ∧ 0 < w.base := by
  rw [Straight] at h
  simp only [contains, decide_eq_true_eq, UInt32.lt_iff_toNat_lt, UInt32.toNat_sub,
    UInt32.toNat_zero]
  have := w.base.toNat_lt
  have := w.length.toNat_lt
  omega

/-- A signed 32-bit distance from one of the bases reaches the address. -/
def RegionBases.Near (r : RegionBases) (host : UInt64) : Prop :=
  Width.w32.Fits (host.toNat - r.a.toNat) ∨ Width.w32.Fits (host.toNat - r.b.toNat)

instance (r : RegionBases) (host : UInt64) : Decidable (r.Near host) :=
  inferInstanceAs (Decidable (_ ∨ _))

theorem RegionBases.near_of_canonical {r : RegionBases} {host : UInt64} {x : Region × Int}
    (h : r.canonical host .w32 = .ok x) : r.Near host := by
  obtain ⟨-, -, apart⟩ | ⟨near, -⟩ := r.canonical_cases host .w32
  · cases apart.symm.trans h
  · exact near

namespace Config

variable {c : Config} {addr : UInt32}

/-- Where the regions have a guest address. The distance from the start of the window wraps, as the
window does. -/
def backing (c : Config) (addr : UInt32) : UInt64 :=
  match c.window.filter (·.contains addr) with
  | some w => c.regions.b + (addr - w.base).toUInt64
  | none => c.regions.a + addr.toUInt64

/-- The window has the address, and only because it runs past the last one. -/
def Wrapped (c : Config) (addr : UInt32) : Prop :=
  ∃ w, c.window = some w ∧ w.contains addr = true ∧ addr < w.base

theorem backing_of_contains {w : GuestWindow} (hw : c.window = some w)
    (inside : w.contains addr = true) :
    c.backing addr = c.regions.b + (addr - w.base).toUInt64 := by
  rw [backing, hw, Option.filter_some, if_pos inside]

theorem backing_of_not_inWindow (outside : c.inWindow addr = false) :
    c.backing addr = c.regions.a + addr.toUInt64 := by
  rw [inWindow] at outside
  rw [backing]
  cases hw : c.window with
  | none => rfl
  | some w =>
    rw [hw] at outside
    rw [Option.filter_some, if_neg (Bool.eq_false_iff.1 outside : ¬ w.contains addr = true)]

theorem exists_of_inWindow (inside : c.inWindow addr = true) :
    ∃ w, c.window = some w ∧ w.contains addr = true := by
  rw [inWindow] at inside
  cases hw : c.window with
  | none =>
    rw [hw] at inside
    cases inside
  | some w =>
    rw [hw] at inside
    exact ⟨w, rfl, inside⟩

theorem hostAddr_of_wrapped (h : c.Wrapped addr) :
    c.hostAddr addr = breach .arithmeticOverflow := by
  obtain ⟨w, hw, inside, before⟩ := h
  rw [hostAddr, hw]
  exact (if_pos inside).trans (if_pos before)

theorem hostAddr_of_not_wrapped (h : ¬ c.Wrapped addr) :
    c.hostAddr addr = .ok (c.backing addr) := by
  cases inside : c.inWindow addr with
  | false => rw [hostAddr_of_not_inWindow inside, backing_of_not_inWindow inside]
  | true =>
    obtain ⟨w, hw, contains⟩ := exists_of_inWindow inside
    have behind : ¬ addr < w.base := fun before => h ⟨w, hw, contains, before⟩
    rw [backing_of_contains hw contains, hostAddr, hw]
    exact (if_pos contains).trans (if_neg behind)

theorem hostAddr_eq_ok {host : UInt64} (h : c.hostAddr addr = .ok host) :
    ¬ c.Wrapped addr ∧ host = c.backing addr := by
  by_cases wrapped : c.Wrapped addr
  · rw [hostAddr_of_wrapped wrapped] at h
    cases h
  · rw [hostAddr_of_not_wrapped wrapped] at h
    exact ⟨wrapped, (Except.ok.inj h).symm⟩

/-- A window that wraps leaves address zero without a host address, and no other window leaves
one. -/
theorem exists_wrapped_iff : (∃ addr, c.Wrapped addr) ↔ ∃ w, c.window = some w ∧ ¬ w.Straight := by
  constructor
  · rintro ⟨addr, w, hw, inside, before⟩
    exact ⟨w, hw, fun straight => UInt32.not_le.2 before (straight.base_le inside)⟩
  · rintro ⟨w, hw, bent⟩
    obtain ⟨inside, before⟩ := w.contains_zero bent
    exact ⟨0, w, hw, inside, before⟩

/-- The host address that a signed distance from a region base gives, if there is one. -/
def reached (c : Config) (addr : UInt32) : Except Fault (Option UInt64) := do
  let host ← c.hostAddr addr
  match c.regions.canonical host .w32 with
  | .ok _ => return some host
  | .error fault => if c.inWindow addr then throw fault else return none

/-- An address with a host address is reached from a base, lies in region A at a distance, or is out
of reach in the window. -/
theorem reached_cases {host : UInt64} (hhost : c.hostAddr addr = .ok host) :
    (c.regions.Near host ∧ (∃ r d, c.regions.canonical host .w32 = .ok (r, d)) ∧
      c.reached addr = .ok (some host)) ∨
    (¬ c.regions.Near host ∧ c.inWindow addr = true ∧
      c.reached addr = .error (.error (.regionsNotColocated host .w32))) ∨
    (¬ c.regions.Near host ∧ c.inWindow addr = false ∧ c.reached addr = .ok none) := by
  obtain ⟨fromA, fromB, apart⟩ | ⟨near, x, canonical⟩ := c.regions.canonical_cases host .w32
  · have far : ¬ c.regions.Near host := fun near => near.elim fromA fromB
    cases inside : c.inWindow addr with
    | true =>
      refine .inr (.inl ⟨far, rfl, bind_eq_error.2 (.inr ⟨host, hhost, ?_⟩)⟩)
      rw [apart]
      exact if_pos inside
    | false =>
      refine .inr (.inr ⟨far, rfl, bind_eq_ok.2 ⟨host, hhost, ?_⟩⟩)
      rw [apart]
      exact if_neg (Bool.eq_false_iff.1 inside)
  · refine .inl ⟨near, ⟨x.1, x.2, canonical⟩, bind_eq_ok.2 ⟨host, hhost, ?_⟩⟩
    rw [canonical]
    rfl

/-- Only an address without a host address overflows. -/
theorem reached_eq_overflow : c.reached addr = breach .arithmeticOverflow ↔ c.Wrapped addr := by
  constructor
  · intro failed
    by_contra straight
    obtain ⟨-, -, reached⟩ | ⟨-, -, reached⟩ | ⟨-, -, reached⟩ :=
      reached_cases (hostAddr_of_not_wrapped straight)
    · cases reached.symm.trans failed
    · cases reached.symm.trans failed
    · cases reached.symm.trans failed
  · intro wrapped
    rw [reached, hostAddr_of_wrapped wrapped]
    rfl

end Config

theorem gprField_eq_error {r : UInt8} {fault : Fault} (h : gprField r = .error fault) :
    fault = .violation .assertionFailed := by
  unfold gprField at h
  split at h
  · cases h
  · exact (Except.error.inj h).symm

namespace Engine

variable {e : Engine} {i : Insn} {addr : UInt32} {r : UInt8}

/-- The step of an access to a known address: through the region base that reaches its host address,
and through the base of region A if there is none. -/
def accessStep (load : Bool) (addr : UInt32) (f : CpuField) : Option UInt64 → PlanStep
  | some host =>
    if load then .place loadWordAbs [.host host, f.value]
    else .place storeWordAbs [f.value, .host host]
  | none =>
    if load then .place loadWordLiteral [.word addr, f.value]
    else .place storeWordLiteral [.word addr, f.value]

/-- The plan of an access to a known address: the address first, then the register. -/
def planAccess (e : Engine) (load : Bool) (addr : UInt32) (r : UInt8) :
    Except Fault (List PlanStep) := do
  let host ← e.config.reached addr
  let f ← gprField r
  return [accessStep load addr f host]

section Hosted

variable (h : e.Hosted)
include h

theorem Hosted.reachableHost_eq_reached {key : TemplateKey} {t : Template}
    (found : X86.Templates.lookup key = some t) (width : t.canonicalWidth? = some .w32) :
    e.reachableHost key addr = e.config.reached addr := by
  rw [Engine.reachableHost, get_eq_of_lookup h.registry found]
  simp only [bind, Except.bind, width, Option.getD_some]
  rfl

theorem Hosted.planLoadAbs_eq : e.planLoadAbs r addr = e.planAccess true addr r := by
  have found : X86.Templates.lookup ⟨.loadWordAbs, .absolute⟩ = some loadWordAbs := rfl
  rw [planLoadAbs, h.reachableHost_eq_reached found rfl, planAccess]
  refine bind_congr fun host => ?_
  cases host with
  | some host => exact bind_congr fun f => h.planPlace rfl rfl
  | none => exact bind_congr fun f => h.planPlace rfl rfl

theorem Hosted.planStoreAbs_eq : e.planStoreAbs r addr = e.planAccess false addr r := by
  have found : X86.Templates.lookup ⟨.storeWordAbs, .absolute⟩ = some storeWordAbs := rfl
  rw [planStoreAbs, h.reachableHost_eq_reached found rfl, planAccess]
  refine bind_congr fun host => ?_
  cases host with
  | some host => exact bind_congr fun f => h.planPlace rfl rfl
  | none => exact bind_congr fun f => h.planPlace rfl rfl

theorem Hosted.planInsn_absolute (known : i.op.absolute? = some addr) :
    ∃ load, ∃ r ∈ i.op.gprs, e.planInsn i = e.planAccess load addr r := by
  obtain ⟨pc, op⟩ := i
  cases op with
  | lwzAbs rd a =>
    cases known
    exact ⟨true, rd, List.mem_cons_self, h.planLoadAbs_eq⟩
  | stwAbs rs a =>
    cases known
    exact ⟨false, rs, List.mem_cons_self, h.planStoreAbs_eq⟩
  | lwz rd ra d =>
    obtain ⟨zero, same⟩ := Option.ite_none_right_eq_some.1 known
    cases same
    exact ⟨true, rd, List.mem_cons_self, (if_pos zero).trans h.planLoadAbs_eq⟩
  | stw rs ra d =>
    obtain ⟨zero, same⟩ := Option.ite_none_right_eq_some.1 known
    cases same
    exact ⟨false, rs, List.mem_cons_self, (if_pos zero).trans h.planStoreAbs_eq⟩
  | _ => cases known

end Hosted

theorem planAccess_eq_overflow {load : Bool} :
    e.planAccess load addr r = breach .arithmeticOverflow ↔ e.config.Wrapped addr := by
  rw [← Config.reached_eq_overflow]
  constructor
  · intro failed
    obtain failed | ⟨host, -, failed⟩ := bind_eq_error.1 failed
    · exact failed
    · obtain failed | ⟨f, -, failed⟩ := bind_eq_error.1 failed
      · cases gprField_eq_error failed
      · cases failed
  · exact fun failed => bind_eq_error.2 (.inl failed)

end Engine

/-- Every address has the host address at which the regions have it exactly if the window does not
wrap. An address that a wrapped window has in front of its base overflows, and so does the
translation of an access to it; no other one does. -/
theorem backed_everywhere_iff_straight (c : Config) :
    ((∀ addr, c.hostAddr addr = .ok (c.backing addr)) ↔ ∀ w, c.window = some w → w.Straight) ∧
    (∀ addr, c.hostAddr addr = .ok (c.backing addr) ∨
      (c.Wrapped addr ∧ c.hostAddr addr = breach .arithmeticOverflow)) ∧
    ∀ e : Engine, e.Reachable → e.config = c →
      ∀ (i : Insn) (addr : UInt32), i.op.absolute? = some addr →
      (e.planInsn i = breach .arithmeticOverflow ↔ c.Wrapped addr) := by
  have each (addr : UInt32) : c.hostAddr addr = .ok (c.backing addr) ∨
      (c.Wrapped addr ∧ c.hostAddr addr = breach .arithmeticOverflow) := by
    by_cases wrapped : c.Wrapped addr
    · exact .inr ⟨wrapped, Config.hostAddr_of_wrapped wrapped⟩
    · exact .inl (Config.hostAddr_of_not_wrapped wrapped)
  refine ⟨⟨?_, ?_⟩, each, ?_⟩
  · intro backed w hw
    by_contra bent
    obtain ⟨addr, wrapped⟩ := Config.exists_wrapped_iff.2 ⟨w, hw, bent⟩
    exact (Config.hostAddr_eq_ok (backed addr)).1 wrapped
  · intro straight addr
    refine Config.hostAddr_of_not_wrapped fun wrapped => ?_
    obtain ⟨w, hw, bent⟩ := Config.exists_wrapped_iff.1 ⟨addr, wrapped⟩
    exact bent (straight w hw)
  · rintro e reachable rfl i addr known
    obtain ⟨src, made⟩ := reachable.made
    obtain ⟨load, r, -, planned⟩ := made.resting.placed.hosted.planInsn_absolute known
    rw [planned]
    exact Engine.planAccess_eq_overflow

/-- Sixteen addresses at the end of guest memory and sixteen at its start. -/
def aroundZero : Config where
  codeBufferSize := 4096
  regions := { a := 0x100000000, b := 0x700000000000 }
  window := some { base := 0xFFFFFFF0, length := 0x20 }

/-- A configuration that is accepted, and an address in its window without a host address. -/
theorem aroundZero_unbacked : aroundZero.validate = .ok () ∧ aroundZero.backing 4 = 0x700000000014 ∧
    aroundZero.hostAddr 4 = breach .arithmeticOverflow ∧
    ∃ e, Engine.create 4096 X86.registry aroundZero = .ok e ∧
      e.plan 0x1000 [⟨0x1000, .lwzAbs 3 4⟩, ⟨0x1004, .sc⟩] = breach .arithmeticOverflow :=
  ⟨rfl, rfl, rfl, _, rfl, rfl⟩

end Dynarec
