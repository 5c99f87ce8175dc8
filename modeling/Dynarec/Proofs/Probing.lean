import Dynarec.Proofs.Addressing
import Dynarec.Proofs.Coherence
import Dynarec.Proofs.Imprint

/-!
The probe of an indirect branch. Translated code looks its target up in the jump table by itself. It
enters the block that the jump cache names, through the line that holds the target, and hands over
to the dispatcher otherwise. The dispatcher goes on in the resident block at the target, or in a new
one.
-/
namespace Dynarec

namespace X86

/-- Where an instruction goes on is written in the instruction itself. -/
def Instr.isDirect : Instr → Bool
  | .jmpTo _ | .callTo _ => false
  | _ => true

namespace Machine

variable {cx : Context} {m : Machine}

/-- The line of the jump table that an instruction takes its destination from. -/
def linesThrough (m : Machine) : Instr → List Nat
  | .jmpTo (.mem base index disp) | .callTo (.mem base index disp) =>
    match m.address base index disp with
    | some (.ptr .jumpTable a) => [a.toNat / 16]
    | _ => []
  | _ => []

theorem linesThrough_of_isDirect {i : Instr} (h : i.isDirect = true) : m.linesThrough i = [] := by
  cases i with
  | jmpTo o => cases h
  | callTo o => cases h
  | _ => rfl

theorem seesAlong_of_isDirect {listing : List Coded} (h : listing.all (·.instr.isDirect) = true) :
    m.seesAlong linesThrough cx listing = [] := by
  induction listing generalizing m with
  | nil => rfl
  | cons c listing ih =>
    rw [List.all_cons, Bool.and_eq_true] at h
    rw [seesAlong, linesThrough_of_isDirect h.1, List.nil_append]
    cases exec cx { m with ip := m.ip + c.bytes.length } c.instr with
    | none => rfl
    | some progress =>
      cases progress with
      | leave code guest => rfl
      | next m' =>
        dsimp only
        rw [ih h.2, ite_self]

end Machine

/-- Translated code at offset `p` takes every guest in state `g` to offset `q` and state `g'`, and
on its way jumps through these lines of the jump table. -/
def Passes (cx : Context) (p : Nat) (g : GuestState) (lines : List Nat) (q : Nat)
    (g' : GuestState) : Prop :=
  ∀ m : Machine, m.Poised cx → m.ip = p → m.guest = g →
    ∃ n m', m.Reaches cx n m' ∧ m'.Poised cx ∧ m'.ip = q ∧ m'.guest = g' ∧ m'.stack = m.stack ∧
      m.sees Machine.linesThrough cx n = lines

section Passes

open Machine

variable {cx : Context} {p q r : Nat} {g g' g'' : GuestState} {xs ys : List Nat}

theorem Passes.trans (h : Passes cx p g xs q g') (h' : Passes cx q g' ys r g'') :
    Passes cx p g (xs ++ ys) r g'' := by
  intro m poised hip hguest
  obtain ⟨n, m₁, reaches, poised₁, hip₁, hguest₁, hstack₁, seen₁⟩ := h m poised hip hguest
  obtain ⟨k, m₂, reaches', poised₂, hip₂, hguest₂, hstack₂, seen₂⟩ := h' m₁ poised₁ hip₁ hguest₁
  refine ⟨n + k, m₂, reaches.trans reaches', poised₂, hip₂, hguest₂, hstack₂.trans hstack₁, ?_⟩
  rw [reaches.sees_add, seen₁, seen₂]

theorem passes_of_isDirect {listing : List Coded} (holds : cx.code.Holds p (assemble listing))
    (direct : listing.all (·.instr.isDirect) = true)
    (effect : ∀ m : Machine, m.Poised cx → m.ip = p → m.guest = g →
      ∃ m', m.follow cx listing = some m' ∧ m'.Poised cx ∧ m'.ip = q ∧ m'.guest = g' ∧
        m'.stack = m.stack) :
    Passes cx p g [] q g' := by
  intro m poised hip hguest
  obtain ⟨m', followed, poised', hip', hguest', hstack'⟩ := effect m poised hip hguest
  obtain ⟨n, reaches, -, seen⟩ := sees_of_follow linesThrough (hip ▸ holds) followed
  exact ⟨n, m', reaches, poised', hip', hguest', hstack', seen.trans (seesAlong_of_isDirect direct)⟩

end Passes

section Probe

open Templates Coded Machine

variable {cx : Context} {w : Wiring} {p k target : Nat} {g : GuestState}
  {v : SlotValue} {pc : UInt32}

theorem passes_align (src : CpuField)
    (holds : cx.code.Holds p (w.code p k (.place indirectTarget [src.value, CpuField.pc.value]))) :
    Passes cx p g [] (p + 15) (g.put .pc (g.cpu.get src &&& ~~~3)) := by
  have listed : cx.code.Holds p (assemble (alignListing src)) :=
    code_indirectTarget w p k _ _ ▸ holds
  refine passes_of_isDirect listed rfl ?_
  rintro m poised rfl rfl
  exact follow_align src poised

theorem passes_poll (spans : Spans cx w) (inside : p + 17 ≤ cx.code.capacity)
    (hv : w.raw k v = some (.ofNat (w.base + target))) (target_le : target ≤ cx.code.capacity)
    (holds : cx.code.Holds p (w.code p k (.place preemptCheck [LinkField.preempt.value, v])))
    (quiet : g.events.check = false) : Passes cx p g [] (p + 17) g := by
  have fits : Width.w32.Fits (target - (p + 17 : Nat)) := spans.fits inside target_le
  have listed : cx.code.Holds p (assemble (pollListing fits)) :=
    code_preemptCheck _ hv (spans.mapped_target target_le) fits ▸ holds
  refine passes_of_isDirect listed rfl ?_
  rintro m poised rfl rfl
  have landed : (m.ip + 17 : Nat) + (target - (m.ip + 17 : Nat) : Int) = target := by omega
  obtain ⟨m', followed, poised', hip, hguest, hstack⟩ := follow_poll poised fits landed
  rw [quiet, if_neg Bool.false_ne_true] at hip
  exact ⟨m', followed, poised', hip, hguest, hstack⟩

section Enter

variable {m : Machine} {d : Int} (fits : Width.w32.Fits d)
  (hrax : m.regs.get .rax = .ofDword pc) (hrdx : m.regs.get .rdx = .ptr .jumpTable (lineOffset pc))
include hrax hrdx

/-- A hit jumps through the line of the program counter. -/
theorem sees_enter_hit {l : JumpLine} (hline : cx.jumps.line? pc = some l) (htag : l.tag = pc) :
    m.seesAlong linesThrough cx (enterListing fits) = [(JumpCache.index pc).val] := by
  have hequal : (cx.jumps.entry pc).tag = pc.toUInt64 :=
    JumpCache.tag_entry_eq_iff.2 ⟨l, hline, htag⟩
  have stays (ip : Nat) :
      exec cx { m with ip, flags := tagFlags cx.jumps pc } (jcc d fits .notEqual).instr =
      some (.next { m with ip, flags := tagFlags cx.jumps pc }) := by
    simp [jcc, exec, holds_notEqual, hequal]
  have through (ip : Nat) :
      linesThrough { m with ip, flags := tagFlags cx.jumps pc } jmpLine.instr =
      [(lineOffset pc + 8).toNat / 16] := by
    simp [jmpLine, linesThrough, address, hrdx, Value.add]
  have line : (lineOffset pc + 8).toNat / 16 = (JumpCache.index pc).val := by
    have := toNat_lineOffset pc
    have := (JumpCache.index pc).isLt
    unfold jumpCacheSize at this
    rw [UInt64.toNat_add]
    simp
    omega
  rw [enterListing, seesAlong_cons_next _ (exec_cmpTag hrax hrdx _) rfl,
    seesAlong_cons_next _ (stays _) rfl, seesAlong_singleton, through, line]
  rfl

/-- A miss jumps away in front of the jump through the table. -/
theorem sees_enter_miss (miss : ∀ l, cx.jumps.line? pc = some l → l.tag ≠ pc)
    (hland : (m.ip + 9 : Nat) + d = target) (away : target ≠ m.ip + 9) :
    m.seesAlong linesThrough cx (enterListing fits) = [] := by
  have hdiffer : (cx.jumps.entry pc).tag ≠ pc.toUInt64 := by
    intro equal
    obtain ⟨l, hline, htag⟩ := JumpCache.tag_entry_eq_iff.1 equal
    exact miss l hline htag
  have leaves : exec cx { m with ip := m.ip + 9, flags := tagFlags cx.jumps pc }
      (jcc d fits .notEqual).instr =
      some (.next { m with ip := target, flags := tagFlags cx.jumps pc }) := by
    simp only [jcc, exec, holds_notEqual, bne_iff_ne.2 hdiffer, bind, Option.bind, if_true]
    exact jump_eq target hland
  rw [enterListing, seesAlong_cons_next _ (exec_cmpTag hrax hrdx _) rfl,
    seesAlong_cons_away _ leaves away]
  rfl

end Enter

section Lookup

variable {lines : List Nat} {q : Nat} (spans : Spans cx w) (inside : p + 40 ≤ cx.code.capacity)
  (hv : w.raw k v = some (.ofNat (w.base + target))) (target_le : target ≤ cx.code.capacity)
  (holds : cx.code.Holds p (w.code p k (.place indirectLookup
    [CpuField.pc.value, .imm (.ofNat (jumpCacheSize - 1)), LinkField.jumpCache.value, v])))
include spans inside hv target_le holds

/-- The part of a look-up that finds the line jumps nowhere, so what is seen is what its second part
does. -/
theorem passes_lookup
    (enter : ∀ m : Machine, m.ip = p + 28 → m.regs.get .rax = .ofDword g.cpu.pc →
      m.regs.get .rdx = .ptr .jumpTable (lineOffset g.cpu.pc) →
        ∀ fits : Width.w32.Fits (target - (p + 37 : Nat)), m.follow cx (enterListing fits) =
          some { m with ip := q, flags := tagFlags cx.jumps g.cpu.pc } ∧
          m.seesAlong linesThrough cx (enterListing fits) = lines) :
    Passes cx p g lines q g := by
  have fits : Width.w32.Fits (target - (p + 37 : Nat)) := spans.fits (by omega) target_le
  obtain ⟨probe, rest⟩ := code_lookup hv (spans.mapped_target target_le) fits holds
  rintro m poised rfl rfl
  obtain ⟨m₁, follow₁, poised₁, hip₁, hguest₁, hstack₁, hrax, hrdx⟩ := follow_probe poised
  obtain ⟨n, reaches, -, seen⟩ := sees_of_follow linesThrough probe follow₁
  obtain ⟨follow₂, lines₂⟩ := enter m₁ hip₁ hrax hrdx fits
  obtain ⟨n', reaches', -, seen'⟩ := sees_of_follow linesThrough (hip₁ ▸ rest) follow₂
  refine ⟨n + n', _, reaches.trans reaches', ⟨poised₁.env, poised₁.regionA, poised₁.regionB⟩, rfl,
    hguest₁, hstack₁, ?_⟩
  rw [reaches.sees_add, seen, seen', lines₂, seesAlong_of_isDirect rfl, List.nil_append]

theorem passes_lookup_hit {l : JumpLine} (hline : cx.jumps.line? g.cpu.pc = some l)
    (htag : l.tag = g.cpu.pc) (hoffset : cx.code.offsetOf? l.host = some q) :
    Passes cx p g [(JumpCache.index g.cpu.pc).val] q g := by
  refine passes_lookup spans inside hv target_le holds fun m _ hrax hrdx fits => ?_
  exact ⟨follow_enter_hit fits hrax hrdx hline htag hoffset,
    sees_enter_hit fits hrax hrdx hline htag⟩

theorem passes_lookup_miss (miss : ∀ l, cx.jumps.line? g.cpu.pc = some l → l.tag ≠ g.cpu.pc)
    (below : target < p) : Passes cx p g [] target g := by
  refine passes_lookup spans inside hv target_le holds fun m hip hrax hrdx fits => ?_
  have hland : (m.ip + 9 : Nat) + (target - (p + 37 : Nat) : Int) = target := by omega
  have away : target ≠ m.ip + 9 := by omega
  exact ⟨follow_enter_miss fits hrax hrdx miss hland away,
    sees_enter_miss fits hrax hrdx miss hland away⟩

end Lookup

end Probe

end X86

open X86 (Context Passes)
open X86.Templates

/-- The register that an indirect branch takes its target from. -/
def Op.targetField? : Op → Option CpuField
  | .blr => some .lr
  | .bctr => some .ctr
  | _ => none

section Branch

variable {e : Engine} {cx : Context} {w : Wiring} {p k q : Nat} {g : GuestState}
  {src : CpuField} {pc : UInt32} (hosted : e.Hosted) (attached : Attached e cx w)
  (room : p + 72 ≤ e.buffer.capacity) (holds : cx.code.Holds p (w.codes p k (indirectSteps e src)))
  (quiet : g.events.check = false) (target : g.cpu.get src &&& ~~~3 = pc)
include hosted attached room holds quiet target

/-- Up to the look-up an indirect branch sets the program counter and jumps nowhere. -/
theorem passes_to_lookup : Passes cx p g [] (p + 15 + 17) (g.setPc pc) := by
  obtain ⟨align, poll, -⟩ := holds_indirectSteps hosted attached room holds
  have first : Passes cx p g [] (p + 15) (g.setPc pc) := target ▸ X86.passes_align src align
  have inside : p + 15 + 17 ≤ cx.code.capacity := attached.capacity ▸ (by omega)
  exact first.trans
    (X86.passes_poll (attached.spans hosted) inside rfl (attached.capacity ▸ hosted.preempt_le) poll
    quiet)

theorem passes_indirect_hit {l : JumpLine} (hline : cx.jumps.line? pc = some l) (htag : l.tag = pc)
    (hoffset : cx.code.offsetOf? l.host = some q) :
    Passes cx p g [(JumpCache.index pc).val] q (g.setPc pc) := by
  obtain ⟨-, -, probe⟩ := holds_indirectSteps hosted attached room holds
  have inside : p + 15 + 17 + 40 ≤ cx.code.capacity := attached.capacity ▸ room
  exact (passes_to_lookup hosted attached room holds quiet target).trans
    (X86.passes_lookup_hit (attached.spans hosted) inside rfl
      (attached.capacity ▸ hosted.dispatch_le) probe hline htag hoffset)

theorem passes_indirect_miss (behind : X86.stubsSize ≤ p)
    (miss : ∀ l, cx.jumps.line? pc = some l → l.tag ≠ pc) :
    Passes cx p g [] e.stubs.dispatch (g.setPc pc) := by
  obtain ⟨-, -, probe⟩ := holds_indirectSteps hosted attached room holds
  have inside : p + 15 + 17 + 40 ≤ cx.code.capacity := attached.capacity ▸ room
  have below : e.stubs.dispatch < p + 15 + 17 := hosted.dispatch_lt (by omega)
  exact (passes_to_lookup hosted attached room holds quiet target).trans
    (X86.passes_lookup_miss (attached.spans hosted) inside rfl
      (attached.capacity ▸ hosted.dispatch_le) probe miss below)

end Branch

namespace Session

variable {σ : Type} {s s' : Session σ} {t : Translator σ} {src src' : Nat → List Insn}
  {handlers : Handlers}

/-- The dispatcher calls translated code in `s'`, which comes to the code of block `d`, the resident
one at the program counter, with the guest as it is. -/
structure Reenters (s : Session σ) (t : Translator σ) (handlers : Handlers) (s' : Session σ)
    (d : BlockId) : Prop where
  found : s'.engine.lookup s.guest.cpu.pc = some d
  enters : ∃ next m n m', s'.engine.block? d = some next ∧ s.Calls t s' m ∧
    m.Reaches (s'.engine.context handlers) n m' ∧ s'.engine.Entering handlers m' ∧
    m'.ip = next.hostOffset ∧ m'.guest = s.guest

theorem Resolved.reenters {entry : UInt64} (h : s.Resolved t src entry s' src')
    (resolve : s.resolve t = (.ok entry, s')) (quiet : s.guest.events.check = false)
    (handlers : Handlers) {d : BlockId} (found : s'.engine.lookup s.guest.cpu.pc = some d) :
    s.Reenters t handlers s' d := by
  have coherent := h.made.resting.coherent
  obtain ⟨id, b, hb, valid, atPc, rfl⟩ := h.block
  obtain rfl : id = d := Option.some.inj ((coherent.lookup.2 ⟨b, hb, valid, atPc⟩).symm.trans found)
  obtain ⟨n, m, reaches, entering, guest⟩ :=
    h.made.resting.call_enters hb valid (h.guest ▸ atPc) (h.guest ▸ quiet) handlers
  refine ⟨found, b, _, n, m, hb, ⟨quiet, _, resolve, rfl⟩, reaches, entering, ?_,
    guest.trans h.guest⟩
  obtain ⟨j, c, hc, validC, here, hip⟩ := entering.block
  rw [guest, h.guest] at here
  obtain rfl := coherent.unique hb valid hc validC (atPc.trans here.symm)
  rw [hip, Option.some.inj (hb.symm.trans hc)]

/-- Code that comes to the dispatch stub leads back to the head of the run loop, with the engine as
it was. -/
theorem Calls.heads_of_passes {s₀ : Session σ} {m₀ m : X86.Machine} {n : Nat} {r : X86.Regs}
    {lines : List Nat} {g : GuestState} (calls : s₀.Calls t s m₀)
    (reaches : m₀.Reaches (s.engine.context handlers) n m)
    (poised : m.Poised (s.engine.context handlers)) (framed : m.stack = X86.frameOf r)
    (passes : Passes (s.engine.context handlers) m.ip m.guest lines s.engine.stubs.dispatch g)
    (leaves : X86.Leaves (s.engine.context handlers) s.engine.stubs.dispatch .dispatch) :
    ∃ s₁, s₀.Heads t handlers s₁ ∧ s₁.engine = s.engine ∧ s₁.guest = g ∧ s₁.source = s.source := by
  obtain ⟨k, m₁, reaches₁, -, hip, rfl, hstack, -⟩ := passes m poised rfl rfl
  obtain ⟨k', m₂, reaches₂, left⟩ := leaves m₁ r hip (hstack.trans framed)
  have departs : X86.Departs (s.engine.context handlers) m₀ .dispatch m₁.guest :=
    ⟨_, m₂, reaches.trans (reaches₁.trans reaches₂), left⟩
  exact ⟨_, .dispatched .start calls departs, rfl, rfl, rfl⟩

/-- The dispatcher goes on in the block that is resident at the program counter, and does not ask
the translator. Where there is none it goes on in a new one made from what the translator has,
unless that cannot be emitted. -/
theorem reenters_cases (made : s.engine.Made src) (quiet : s.guest.events.check = false)
    (t : Translator σ) (handlers : Handlers) {pc : UInt32} (atPc : s.guest.cpu.pc = pc) :
    (∀ d, s.engine.lookup pc = some d → ∃ s', s.Reenters t handlers s' d ∧ s'.source = s.source) ∧
    (s.engine.lookup pc = none →
      (∃ fault s', s.resolve t = (.error fault, s') ∧
        s.engine.emissionFault? pc (s.fetched t) = some fault) ∨
      ∃ d s', s.Reenters t handlers s' d ∧ s'.engine.Made (Engine.noted src d (s.fetched t)) ∧
        s'.source = (t.translate s.source pc s.engine.config.maxBlockInsns).2) := by
  subst atPc
  constructor
  · intro d found
    obtain ⟨entry, jumps, log, resolve, resolved⟩ := resolve_found made found (t := t)
    have same :=
      Engine.lookup_withJumps made.resting.indexed resolved.made.resting.indexed s.guest.cpu.pc
    exact ⟨_, resolved.reenters resolve quiet handlers (same.trans found), rfl⟩
  · intro absent
    obtain ⟨jumps, log, -,
        ⟨fault, refused, -, resolve⟩ | ⟨entry, d, c, -, resolve, found, resolved⟩⟩ :=
      resolve_new made absent (t := t)
    · exact .inl ⟨fault, _, resolve, refused⟩
    · exact .inr ⟨d, _, resolved.reenters resolve quiet handlers found, resolved.made, rfl⟩

end Session

namespace Engine

open X86 (Machine Leaves)
open Traced

variable {e : Engine} {src : Nat → List Insn} {id : BlockId} {b : Block} {before : List Insn}
  {i : Insn} {f : CpuField}

theorem Hosted.planInsn_indirect (h : e.Hosted) (branch : i.op.targetField? = some f) :
    i.op.isTerminal = true ∧ e.planInsn i = .ok (indirectSteps e f) := by
  obtain ⟨pc, op⟩ := i
  cases op with
  | blr =>
    cases branch
    exact ⟨rfl, h.planIndirect .lr⟩
  | bctr =>
    cases branch
    exact ⟨rfl, h.planIndirect .ctr⟩
  | _ => cases branch

/-- The code of an indirect branch is the last of its block's. -/
theorem Resting.code_of_branch (h : e.Resting src) (hb : e.block? id = some b)
    (source : basicBlock (src id.index) = before ++ [i]) (branch : i.op.targetField? = some f)
    (handlers : Handlers) :
    ∃ start w k, start + 72 = b.hostOffset + b.hostSize ∧ b.hostOffset ≤ start ∧
      Attached e (e.context handlers) w ∧
      (e.context handlers).code.Holds start (w.codes start k (indirectSteps e f)) := by
  obtain ⟨terminal, planned⟩ := h.placed.hosted.planInsn_indirect branch
  obtain ⟨parts, steps, w, k, hparts, hsteps, attached, within, holds⟩ :=
    h.code_of_insn hb source handlers
  obtain rfl : indirectSteps e f = steps := Except.ok.inj (planned.symm.trans hsteps)
  refine ⟨b.hostOffset + stepsSize parts.flatten, w, k, ?_, Nat.le_add_right _ _, attached, holds⟩
  obtain ⟨p, follows⟩ := h.placed.follows hb
  obtain ⟨last, all, tail, hlast, hall, htail, hflat, -⟩ := parts_of_plan follows.planned
  rw [source, List.getLast?_concat] at hlast
  obtain rfl := Option.some.inj hlast
  rw [if_pos terminal] at htail
  obtain rfl : [] = tail := Except.ok.inj htail
  rw [source, List.mapM_append, hparts] at hall
  obtain ⟨front, same, hall⟩ := bind_eq_ok.1 hall
  obtain rfl := Except.ok.inj same
  rw [List.mapM_cons, planned] at hall
  cases hall
  have size : b.hostSize = stepsSize p.steps := follows.size
  rw [size, hflat]
  simp [stepsSize_append, stepsSize_indirectSteps]
  omega

/-- What the dispatcher finds is in the jump cache from then on. -/
theorem lookup_of_find {c c' : BlockCache} {pc : UInt32} (h : c.find pc = .ok (some id, c')) :
    c'.jumps.lookup pc = some id := by
  cases hit : c.jumps.lookup pc with
  | some d =>
    rw [BlockCache.find, hit] at h
    obtain ⟨same, rfl⟩ := Prod.mk.inj (Except.ok.inj h)
    exact hit.trans same
  | none =>
    cases hindex : c.index[pc]? with
    | none =>
      simp only [BlockCache.find, hit, hindex] at h
      cases h
    | some d =>
      simp only [BlockCache.find, hit, hindex] at h
      obtain ⟨b, -, h⟩ := bind_eq_ok.1 h
      obtain ⟨host, -, h⟩ := bind_eq_ok.1 h
      obtain ⟨same, rfl⟩ := Prod.mk.inj (Except.ok.inj h)
      rw [JumpCache.lookup_insert_self, same]

theorem lookup_of_yields_find {c : Engine} {pc : UInt32}
    (h : Yields (EngineM.find pc) e (.ok (some id)) c) : c.cache.jumps.lookup pc = some id := by
  cases hfind : e.cache.find pc with
  | error fault =>
    have failed : Yields (EngineM.find pc) e (.error fault) e :=
      yields_get.bind (yields_lift_error hfind)
    cases (h.unique failed).1
  | ok found =>
    obtain ⟨found, cache⟩ := found
    have yields : Yields (EngineM.find pc) e (.ok found) { e with cache } :=
      yields_get.bind ((yields_lift_ok hfind).bind ((yields_modify _).bind (yields_pure _)))
    obtain ⟨same, rfl⟩ := h.unique yields
    rw [← Except.ok.inj same] at hfind
    exact lookup_of_find hfind

/-- A block that only returns. -/
def returning : List Insn := [⟨0x100, .blr⟩]

end Engine
end Dynarec
