import Dynarec.Proofs.Endings

/-! New engines over the x86-64 table: where their stubs stand, and what those do. -/
namespace Dynarec

section Place

variable {b : CodeBuffer} {i : Instance} {k : Nat} {pre code : List UInt8} {regions : RegionBases}

/-- Filling the slots of the last copy from number `k` on, in order. -/
theorem CodeBuffer.foldlM_fill {rest : List Slot} {values : List UInt64} (bounded : b.Bounded)
    (sits : i.Sits b pre code []) (drop : i.template.slots.drop k = rest)
    (few : i.template.slots.length ≤ 32)
    (inRange : ∀ s ∈ i.template.slots, s.InRange i.template.size)
    (free : ∀ j, k ≤ j → i.filled.getLsbD j = false)
    (accepts : AcceptAll regions (b.base + i.offset) rest (values.map some)) :
    (values.zipIdx k).foldlM (fun (i, b) (v, k) => b.fill regions i k v) (i, b) = .ok
      ({ i with filled := fillMask i.filled k (values.map some) },
        { b with bytes := (pre ++
          fillSlots regions (b.base + i.offset) rest (values.map some) code).toArray }) := by
  induction values generalizing b i k rest code with
  | nil =>
    have hbytes : (pre ++ code).toArray = b.bytes := by
      rw [← Array.toList_inj, sits.bytes, List.append_nil]
    cases rest <;> simp [fillMask, fillSlots, hbytes, pure, Except.pure]
  | cons v values ih =>
    cases rest with
    | nil => exact accepts.elim
    | cons s rest =>
      have hslot : i.template.slots[k]? = some s := by
        rw [← Nat.add_zero k, ← List.getElem?_drop, drop]
        rfl
      have hk : k < i.template.slots.length := (List.getElem?_eq_some_iff.1 hslot).1
      have hs := inRange s (List.mem_of_getElem? hslot)
      have hfill := fill_eq_ok bounded sits hslot (by omega) (.inr (free k (Nat.le_refl k))) hs
        (accepts.1 v rfl)
      rw [List.append_nil] at hfill
      have hlen := Slot.length_fillIn (sits.size ▸ hs) regions (b.base + i.offset) v
      have sits' : Instance.Sits { i with filled := i.filled ||| BitVec.twoPow 32 k }
          { b with bytes := (pre ++ s.fillIn regions (b.base + i.offset) v code).toArray } pre
          (s.fillIn regions (b.base + i.offset) v code) [] :=
        ⟨by simp, sits.start, hlen.trans sits.size⟩
      have bounded' : CodeBuffer.Bounded
          { b with bytes := (pre ++ s.fillIn regions (b.base + i.offset) v code).toArray } :=
        ⟨sits'.cursor_eq.trans sits.cursor_eq.symm ▸ bounded.cursor_le, bounded.mapped⟩
      have hdrop : i.template.slots.drop (k + 1) = rest := by
        rw [← List.drop_drop, drop]
        rfl
      have hfree (j : Nat) (hj : k + 1 ≤ j) :
          (i.filled ||| BitVec.twoPow 32 k).getLsbD j = false := by
        rw [BitVec.getLsbD_or, free j (by omega), BitVec.getLsbD_twoPow]
        simp
        omega
      have := ih bounded' sits' hdrop few inRange hfree accepts.2
      simp only [List.zipIdx_cons, List.foldlM_cons, hfill]
      exact this

theorem CodeBuffer.placeFilled_eq_ok {key : TemplateKey} {t : Template} {values : List UInt64}
    {offset : Nat} (bounded : b.Bounded) (hcursor : b.cursor = offset)
    (found : X86.Templates.lookup key = some t) (room : offset + t.size ≤ b.capacity)
    (accepts : AcceptAll regions (b.base + offset) t.slots (values.map some))
    (hcode : fillSlots regions (b.base + offset) t.slots (values.map some) t.code = code) :
    b.placeFilled regions t values = .ok (offset, b.extend code) := by
  obtain ⟨few, inRange⟩ := inRange_of_lookup found
  subst hcursor
  have hroom : t.code.length ≤ b.remaining := by
    unfold CodeBuffer.remaining
    unfold Template.size at room
    omega
  have hplace : b.place t =
      .ok (⟨b.cursor, t, 0⟩, { b with bytes := b.bytes.appendList t.code }) := by
    simp [place, append, demand, hroom, bind, Except.bind, pure, Except.pure]
  have sits : Instance.Sits ⟨b.cursor, t, 0⟩ { b with bytes := b.bytes.appendList t.code }
      b.bytes.toList t.code [] := ⟨by simp, by simp [cursor], rfl⟩
  have bounded' : CodeBuffer.Bounded { b with bytes := b.bytes.appendList t.code } := by
    refine ⟨?_, bounded.mapped⟩
    rw [cursor, ← Array.length_toList]
    simpa [cursor, Template.size] using room
  have filled := foldlM_fill bounded' sits List.drop_zero few inRange (fun j _ => by simp) accepts
  have count : t.slots.length = (values.map some).length := accepts.length_eq
  have hbytes (xs : List UInt8) : (b.bytes.toList ++ xs).toArray = b.bytes ++ xs.toArray := by simp
  simp only [placeFilled, hplace, bind, Except.bind] at filled ⊢
  rw [filled]
  simp only [checkFilled_fillMask few count (by simp), hbytes]
  rw [← hcode]
  rfl

end Place

namespace X86

open Templates Machine Coded

/-- The stub that returns an exit code. -/
def exitStubOf : ExitCode → Nat
  | .dispatch => 48
  | .preempt => 58
  | .syscall => 68
  | .invalidate => 78

/-- The distance from the end of a stub to the way out. -/
def wayOut (c : ExitCode) : Int := 33 - (exitStubOf c + 10 : Nat)

theorem fits_wayOut (c : ExitCode) : Width.w32.Fits (wayOut c) := by cases c <;> decide

/-- The code of a stub. -/
def stubListing (c : ExitCode) : List Coded :=
  [movEax c.code.toUInt64, jmp (wayOut c) (fits_wayOut c)]

/-- The bytes in front of all blocks. -/
def stubBytes : List UInt8 :=
  assemble prologueListing ++ (assemble (epilogueListing ++ [ret]) ++
    (ExitCode.all.map fun c => assemble (stubListing c)).flatten)

theorem length_stubBytes : stubBytes.length = stubsSize := rfl

theorem holds_prologue {b : CodeBuffer} (h : b.Holds 0 stubBytes) :
    b.Holds 0 (assemble prologueListing) :=
  (CodeBuffer.holds_append.1 h).1

theorem holds_epilogue {b : CodeBuffer} (h : b.Holds 0 stubBytes) :
    b.Holds 33 (assemble (epilogueListing ++ [ret])) :=
  (CodeBuffer.holds_append.1 (CodeBuffer.holds_append.1 h).2).1

theorem holds_stub {b : CodeBuffer} (h : b.Holds 0 stubBytes) (c : ExitCode) :
    b.Holds (exitStubOf c) (assemble (stubListing c)) := by
  have rest := (CodeBuffer.holds_append.1 (CodeBuffer.holds_append.1 h).2).2
  simp only [ExitCode.all, List.map_cons, List.map_nil, List.flatten_cons, List.flatten_nil,
    List.append_nil] at rest
  obtain ⟨dispatch, rest⟩ := CodeBuffer.holds_append.1 rest
  obtain ⟨preempt, rest⟩ := CodeBuffer.holds_append.1 rest
  obtain ⟨syscall, invalidate⟩ := CodeBuffer.holds_append.1 rest
  cases c with
  | dispatch => exact dispatch
  | preempt => exact preempt
  | syscall => exact syscall
  | invalidate => exact invalidate

section Write

variable {b : CodeBuffer} (regions : RegionBases)

theorem placeFilled_exitStub (c : ExitCode) (bounded : b.Bounded)
    (hcursor : b.cursor = exitStubOf c) (room : stubsSize ≤ b.capacity) :
    b.placeFilled regions exitStub [c.code.toUInt64, .ofNat (b.base + 33)] =
      .ok (exitStubOf c, b.extend (assemble (stubListing c))) := by
  have hmapped : b.base + 33 < 2 ^ 64 := by
    have := bounded.mapped
    unfold wordBound at this
    unfold stubsSize at room
    omega
  have fits : Width.w32.Fits
      ((UInt64.ofNat (b.base + 33)).toNat - (b.base + exitStubOf c + 10 : Nat)) := by
    have distance : ((b.base + 33 : Nat) : Int) - (b.base + exitStubOf c + 10 : Nat) =
        wayOut c := by
      unfold wayOut
      omega
    rw [UInt64.toNat_ofNat_of_lt' hmapped, distance]
    exact fits_wayOut c
  have hsize : exitStubOf c + exitStub.size ≤ b.capacity :=
    Nat.le_trans (by cases c <;> decide) room
  have accepts : AcceptAll regions (b.base + exitStubOf c) exitStub.slots
      ([c.code.toUInt64, .ofNat (b.base + 33)].map some) :=
    ⟨fun _ _ => trivial, fun r hr => by cases hr; exact fits, trivial⟩
  have hcode :=
    @code_exitStub (exitStubOf c) c.code.toUInt64 regions b.base 33 hmapped (fits_wayOut c)
  have found : lookup ⟨.exitStub, .fixed⟩ = some exitStub := rfl
  exact CodeBuffer.placeFilled_eq_ok bounded hcursor found hsize accepts hcode

theorem bounded_extend {xs : List UInt8} (bounded : b.Bounded)
    (room : b.cursor + xs.length ≤ b.capacity) : (b.extend xs).Bounded :=
  ⟨by rw [CodeBuffer.cursor_extend]; exact room, bounded.mapped⟩

theorem write_eq_ok {base capacity : Nat} (room : stubsSize ≤ capacity)
    (mapped : base + capacity < wordBound) :
    Stubs.write registry regions { base, capacity } =
      .ok (stubOffsets, CodeBuffer.extend { base, capacity } stubBytes) := by
  have hroom : 88 ≤ capacity := room
  have bounded (xs : List UInt8) (hn : xs.length ≤ 88) :
      (CodeBuffer.extend { base, capacity } xs).Bounded :=
    bounded_extend ⟨Nat.zero_le _, mapped⟩ (by simp [CodeBuffer.cursor]; omega)
  have hcursor (xs : List UInt8) :
      (CodeBuffer.extend { base, capacity } xs).cursor = xs.length := by
    rw [CodeBuffer.cursor_extend]
    exact Nat.zero_add _
  have hprologue : CodeBuffer.placeFilled { base, capacity } regions prologue
      ([LinkField.regionA, .regionB].map fun f => UInt64.ofNat f.offset) =
      .ok (0, CodeBuffer.extend { base, capacity } (assemble prologueListing)) := by
    have found : lookup ⟨.prologue, .fixed⟩ = some prologue := rfl
    have hsize : 0 + prologue.size ≤ capacity := Nat.le_trans (by decide) hroom
    exact CodeBuffer.placeFilled_eq_ok ⟨Nat.zero_le _, mapped⟩ rfl found hsize
      ⟨fun _ _ => trivial, fun _ _ => trivial, trivial⟩ (code_prologue _ _ regions base)
  have hepilogue : CodeBuffer.placeFilled
      (CodeBuffer.extend { base, capacity } (assemble prologueListing)) regions epilogue [] =
      .ok (33, CodeBuffer.extend { base, capacity }
        (assemble prologueListing ++ assemble (epilogueListing ++ [ret]))) := by
    have found : lookup ⟨.epilogue, .fixed⟩ = some epilogue := rfl
    have hsize : 33 + epilogue.size ≤ capacity := Nat.le_trans (by decide) hroom
    rw [← CodeBuffer.extend_extend]
    exact CodeBuffer.placeFilled_eq_ok (bounded _ (by decide)) (hcursor _) found hsize trivial
      (code_epilogue regions _)
  have hstub (c : ExitCode) (xs : List UInt8) (hlen : xs.length = exitStubOf c) :
      CodeBuffer.placeFilled (CodeBuffer.extend { base, capacity } xs) regions exitStub
        [c.code.toUInt64, .ofNat (base + 33)] = .ok (exitStubOf c,
          CodeBuffer.extend { base, capacity } (xs ++ assemble (stubListing c))) := by
    rw [← CodeBuffer.extend_extend]
    exact placeFilled_exitStub regions c (bounded xs (by rw [hlen]; cases c <;> decide))
      ((hcursor xs).trans hlen) room
  have hget₁ : registry.get ⟨.prologue, .fixed⟩ = .ok prologue := rfl
  have hget₂ : registry.get ⟨.epilogue, .fixed⟩ = .ok epilogue := rfl
  have hget₃ : registry.get ⟨.exitStub, .fixed⟩ = .ok exitStub := rfl
  have haddr : (CodeBuffer.extend { base, capacity }
      (assemble prologueListing ++ assemble (epilogueListing ++ [ret]))).addrAt 33 =
      .ok (.ofNat (base + 33)) :=
    CodeBuffer.addrAt_eq_ok
      (by rw [CodeBuffer.capacity_extend]; exact Nat.le_trans (by decide) hroom)
  simp only [Stubs.write, hget₁, hget₂, hget₃, hprologue, hepilogue, haddr, bind, Except.bind]
  rw [hstub .dispatch _ rfl]
  dsimp only
  rw [hstub .preempt _ rfl]
  dsimp only
  rw [hstub .syscall _ rfl]
  dsimp only
  rw [hstub .invalidate _ rfl]
  simp only [stubBytes, ExitCode.all, List.map_cons, List.map_nil, List.flatten_cons,
    List.flatten_nil, List.append_nil, List.append_assoc]
  rfl

end Write

section Stubs

variable {cx : Context}

/-- The entry code hands control to the block at the given address. -/
theorem enters (stubs : cx.code.Holds 0 stubBytes) {m : Machine} {entry : UInt64} {q : Nat}
    (hip : m.ip = 0) (hfile : m.regs.get .rdi = .ptr .registerFile 0)
    (hto : m.regs.get .rsi = .num entry) (hentry : cx.code.offsetOf? entry = some q) :
    ∃ n m', Reaches cx n m m' ∧ m'.Poised cx ∧ m'.ip = q ∧ m'.guest = m.guest ∧
      m'.stack = frameOf m.regs ++ m.stack := by
  obtain ⟨m', followed, rest⟩ := follow_prologue hfile hto hentry
  obtain ⟨n, reaches, -⟩ := reaches_of_follow (hip ▸ holds_prologue stubs) followed
  exact ⟨n, m', reaches, rest⟩

/-- A stub leaves translated code with its exit code. -/
theorem leaves (stubs : cx.code.Holds 0 stubBytes) {m : Machine} {r : Regs} (c : ExitCode)
    (hip : m.ip = exitStubOf c) (hstack : m.stack = frameOf r) :
    ∃ n m', Reaches cx n m m' ∧ m'.step cx = some (.leave c.code m.guest) := by
  have hland : ((m.ip + 10 : Nat) : Int) + wayOut c = (33 : Nat) := by
    rw [hip]
    unfold wayOut
    omega
  have hcode : c.code.toUInt64.toUInt32 = c.code := by simp
  rw [← hcode]
  exact leaves_of_exitStub (hip ▸ holds_stub stubs c) hland (holds_epilogue stubs) hstack

end Stubs

end X86

/-- A new engine over the x86-64 table. -/
def Engine.fresh (base capacity : Nat) (config : Config) : Engine where
  registry := X86.registry
  config
  buffer := { base, capacity, bytes := X86.stubBytes.toArray, codeStart := X86.stubsSize }
  cache := { codeBase := base }
  stubs := X86.stubOffsets

theorem Config.codeBufferSize_of_validate {c : Config} {u : Unit} (h : c.validate = .ok u) :
    c.codeBufferSize ≠ 0 ∧ c.codeBufferSize ≤ maxCodeBufferSize := by
  unfold validate problem? at h
  split at h
  · cases h
  · next none =>
    split at none
    · cases none
    · split at none
      · cases none
      · exact ⟨by assumption, by omega⟩

/-- Mappings are made of whole pages, so the limit on their size stays a limit. -/
theorem CodeBuffer.map_inv {base size : Nat} {b : CodeBuffer} (h : map base size = .ok b)
    (nonempty : size ≠ 0) (small : size ≤ 2 ^ 30) :
    ∃ capacity, b = { base, capacity } ∧ X86.stubsSize ≤ capacity ∧ capacity ≤ 2 ^ 30 ∧
      base + capacity < wordBound := by
  have hsum : addSizes size pageSize = .ok (size + pageSize) := by
    have : size + pageSize < wordBound := by unfold pageSize wordBound; omega
    simp [addSizes, this]
  simp only [map, if_neg nonempty, hsum, bind, Except.bind, pure, Except.pure] at h
  split at h
  · cases h
  · next fits =>
    cases h
    refine ⟨_, rfl, ?_, ?_, by omega⟩
    · unfold X86.stubsSize pageSize
      omega
    · unfold pageSize
      omega

/-- How a new engine has come about: a buffer is mapped, and the stubs are written into it. -/
structure Engine.Created (base : Nat) (r : Registry) (config : Config) (b : CodeBuffer)
    (stubs : Stubs) (b' : CodeBuffer) (e : Engine) : Prop where
  valid : config.validate = .ok ()
  complete : r.validate = .ok ()
  mapped : CodeBuffer.map base config.codeBufferSize = .ok b
  written : Stubs.write r config.regions b = .ok (stubs, b')
  visible : b'.setCodeStart.sync 0 b'.setCodeStart.codeStart = .ok ()
  engine : Engine.mk r config b'.setCodeStart { codeBase := base } .empty stubs {} = e

theorem Engine.create_eq_ok {base : Nat} {r : Registry} {config : Config} {e : Engine} :
    create base r config = .ok e ↔ ∃ b stubs b', Created base r config b stubs b' e := by
  constructor
  · intro h
    obtain ⟨_, valid, h⟩ := bind_eq_ok.1 h
    obtain ⟨_, complete, h⟩ := bind_eq_ok.1 h
    obtain ⟨b, mapped, h⟩ := bind_eq_ok.1 h
    obtain ⟨⟨stubs, b'⟩, written, h⟩ := bind_eq_ok.1 h
    obtain ⟨_, visible, h⟩ := bind_eq_ok.1 h
    exact ⟨b, stubs, b', valid, complete, mapped, written, visible, Except.ok.inj h⟩
  · rintro ⟨b, stubs, b', valid, complete, mapped, written, visible, rfl⟩
    refine bind_eq_ok.2 ⟨_, valid, bind_eq_ok.2 ⟨_, complete, bind_eq_ok.2 ⟨b, mapped, ?_⟩⟩⟩
    exact bind_eq_ok.2 ⟨_, written, bind_eq_ok.2 ⟨_, visible, rfl⟩⟩

/-- What the creation of an engine over the x86-64 table gives. -/
theorem Engine.create_inv {base : Nat} {config : Config} {e : Engine}
    (h : create base X86.registry config = .ok e) :
    ∃ capacity, e = fresh base capacity config ∧ X86.stubsSize ≤ capacity ∧ capacity ≤ 2 ^ 30 ∧
      base + capacity < wordBound := by
  obtain ⟨b, stubs, b', valid, -, mapped, written, -, rfl⟩ := create_eq_ok.1 h
  obtain ⟨nonempty, small⟩ := config.codeBufferSize_of_validate valid
  obtain ⟨capacity, rfl, room, reach, bound⟩ := CodeBuffer.map_inv mapped nonempty small
  rw [X86.write_eq_ok config.regions room bound] at written
  cases written
  refine ⟨capacity, ?_, room, reach, bound⟩
  simp [fresh, CodeBuffer.setCodeStart, CodeBuffer.cursor, CodeBuffer.extend, X86.length_stubBytes]

end Dynarec
