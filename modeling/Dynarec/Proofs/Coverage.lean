import Dynarec.Proofs.Depletion
import Dynarec.Proofs.Interruption

/-!
The required templates are all that an engine asks for. Over a table that has them neither creation
nor emission ever misses one, whatever the templates are and whatever the engine has been through.
-/
namespace Dynarec

open Traced

variable {α β σ τ : Type} {r : Registry}

/-- A template is missed only if it is a required one that the table lacks. -/
structure Supplied (r : Registry) (x : Except Fault α) : Prop where
  missed : ∀ key, x = .error (.error (.missingTemplate key)) → key ∈ TemplateKey.required ∧
    r.lookup key = none

section Supplied

variable {x y : Except Fault α} {f : α → Except Fault β}

theorem supplied_ok (a : α) : Supplied r (.ok a) := by
  refine ⟨fun key h => ?_⟩
  cases h

theorem supplied_breach (cause : Violation) : Supplied r (breach cause : Except Fault α) := by
  refine ⟨fun key h => ?_⟩
  cases h

/-- Any other error misses nothing. -/
theorem supplied_error {cause : Error} (other : ∀ key, cause ≠ .missingTemplate key) :
    Supplied r (.error (.error cause) : Except Fault α) := by
  refine ⟨fun key h => ?_⟩
  cases h
  exact absurd rfl (other key)

/-- Whatever is done one after the other asks for what its parts ask for. -/
theorem Supplied.bind (hx : Supplied r x) (hf : ∀ a, Supplied r (f a)) : Supplied r (x >>= f) := by
  refine ⟨fun key h => ?_⟩
  obtain failed | ⟨a, -, failed⟩ := bind_eq_error.1 h
  · exact hx.missed key failed
  · exact (hf a).missed key failed

theorem supplied_ite {p : Prop} [Decidable p] (hx : Supplied r x) (hy : Supplied r y) :
    Supplied r (if p then x else y) := by
  by_cases hp : p
  · rw [if_pos hp]
    exact hx
  · rw [if_neg hp]
    exact hy

theorem supplied_demand {p : Prop} [Decidable p] (cause : Violation) :
    Supplied r (demand p cause) :=
  supplied_ite (supplied_ok ()) (supplied_breach cause)

/-- A loop asks for what its steps ask for. -/
theorem supplied_foldlM {xs : List α} {g : β → α → Except Fault β} (h : ∀ s a, Supplied r (g s a))
    (s : β) : Supplied r (xs.foldlM g s) := by
  induction xs generalizing s with
  | nil => exact supplied_ok s
  | cons a xs ih =>
    rw [List.foldlM_cons]
    exact (h s a).bind ih

theorem supplied_mapM {xs : List α} (h : ∀ a, Supplied r (f a)) : Supplied r (xs.mapM f) := by
  induction xs with
  | nil => exact supplied_ok []
  | cons a xs ih =>
    rw [List.mapM_cons]
    exact (h a).bind fun _ => ih.bind fun _ => supplied_ok _

theorem supplied_forM {xs : List α} {g : α → Except Fault PUnit} (h : ∀ a, Supplied r (g a)) :
    Supplied r (xs.forM g) := by
  induction xs with
  | nil => exact supplied_ok _
  | cons a xs ih => exact (h a).bind fun _ => ih

/-- A required template is asked for. -/
theorem supplied_get {key : TemplateKey} (required : key ∈ TemplateKey.required) :
    Supplied r (r.get key) := by
  refine ⟨fun key' h => ?_⟩
  unfold Registry.get at h
  cases found : r.lookup key with
  | some t =>
    rw [found] at h
    cases h
  | none =>
    rw [found] at h
    cases h
    exact ⟨required, found⟩

end Supplied

section Writing

variable {b : CodeBuffer} {i : Instance} {regions : RegionBases}

/-- A sum of sizes may overflow, but asks for no template. -/
theorem supplied_addSizes (m n : Nat) : Supplied r (addSizes m n) :=
  supplied_ite (supplied_ok _) (supplied_breach _)

theorem supplied_addrAt (offset : Nat) : Supplied r (b.addrAt offset) :=
  (supplied_demand _).bind fun _ => supplied_ok _

theorem supplied_slot (k : Nat) : Supplied r (i.slot k) := by
  unfold Instance.slot
  split
  · exact supplied_ok _
  · exact supplied_breach _

theorem supplied_branchSite (k : Nat) : Supplied r (i.branchSite k) := by
  refine (supplied_slot k).bind fun s => ?_
  split
  · exact supplied_ok _
  · exact supplied_ok _
  · exact supplied_breach _

theorem supplied_displacement (origin target : UInt64) (width : Width) :
    Supplied r (displacement origin target width) :=
  supplied_ite (supplied_ok _) (supplied_error fun _ h => by cases h)

theorem supplied_canonical (target : UInt64) (width : Width) :
    Supplied r (regions.canonical target width) :=
  supplied_ite (supplied_ok _) (supplied_ite (supplied_ok _) (supplied_error fun _ h => by cases h))

theorem supplied_patch (offset : Nat) (data : List UInt8) : Supplied r (b.patch offset data) :=
  (supplied_addSizes ..).bind fun _ => (supplied_demand _).bind fun _ => supplied_ok _

theorem supplied_sync (offset length : Nat) : Supplied r (b.sync offset length) :=
  (supplied_addSizes ..).bind fun _ => supplied_demand _

theorem supplied_readByte (offset : Nat) : Supplied r (b.readByte offset) :=
  ((supplied_addSizes ..).bind fun _ => (supplied_demand _).bind fun _ => supplied_ok _).bind
    fun _ => supplied_ok _

/-- Filling a slot asks for no template. -/
theorem supplied_fill (k : Nat) (v : UInt64) : Supplied r (b.fill regions i k v) := by
  refine (supplied_slot k).bind fun s => ?_
  have guarded {x : Except Fault (Instance × CodeBuffer)} (h : Supplied r x) :
      Supplied r (if s.kind.isForward then x else do
        if ← i.isFilled k then
          breach (.filledTwice k i.template.name i.offset)
          x
        else x) :=
    supplied_ite h (((supplied_demand _).bind fun _ => supplied_ok _).bind fun _ =>
      supplied_ite ((supplied_breach _).bind fun _ => h) h)
  have marked (c : CodeBuffer) : Supplied r (do return (← i.markFilled k, c)) :=
    ((supplied_demand _).bind fun _ => supplied_ok _).bind fun _ => supplied_ok _
  refine guarded ?_
  split
  · exact (supplied_patch ..).bind marked
  · exact (supplied_addrAt _).bind fun _ => (supplied_displacement ..).bind fun _ =>
      (supplied_patch ..).bind marked
  · exact (supplied_addrAt _).bind fun _ => (supplied_displacement ..).bind fun _ =>
      (supplied_patch ..).bind marked
  · exact (supplied_canonical ..).bind fun _ => (supplied_patch ..).bind fun _ =>
      (supplied_readByte _).bind fun _ => (supplied_patch ..).bind marked

theorem supplied_place (t : Template) : Supplied r (b.place t) :=
  ((supplied_demand _).bind fun _ => supplied_ok _).bind fun _ => supplied_ok _

theorem supplied_checkFilled : Supplied r i.checkFilled := by
  have mask : Supplied r i.template.slotMask := (supplied_demand _).bind fun _ => supplied_ok _
  exact mask.bind fun _ => supplied_demand _

/-- Copying a template that is there asks for no other. -/
theorem supplied_placeFilled (t : Template) (values : List UInt64) :
    Supplied r (b.placeFilled regions t values) :=
  (supplied_place t).bind fun _ => (supplied_foldlM (fun _ _ => supplied_fill ..) _).bind fun _ =>
    supplied_checkFilled.bind fun _ => supplied_ok _

/-- The stubs are made from required templates. -/
theorem supplied_stubs (r : Registry) (regions : RegionBases) (b : CodeBuffer) :
    Supplied r (Stubs.write r regions b) := by
  refine (supplied_get (by decide)).bind fun _ => (supplied_placeFilled ..).bind fun _ => ?_
  refine (supplied_get (by decide)).bind fun _ => (supplied_placeFilled ..).bind fun _ => ?_
  refine (supplied_addrAt _).bind fun _ => (supplied_get (by decide)).bind fun _ => ?_
  refine (supplied_placeFilled ..).bind fun _ => (supplied_placeFilled ..).bind fun _ => ?_
  exact (supplied_placeFilled ..).bind fun _ =>
    (supplied_placeFilled ..).bind fun _ => supplied_ok _

end Writing

section Planning

theorem supplied_gprField (n : UInt8) : Supplied r (gprField n) := by
  unfold gprField
  split
  · exact supplied_ok _
  · exact supplied_breach _

theorem supplied_hostAddr (c : Config) (addr : UInt32) : Supplied r (c.hostAddr addr) := by
  unfold Config.hostAddr
  split
  · exact supplied_ite (supplied_ite (supplied_breach _) (supplied_ok _)) (supplied_ok _)
  · exact supplied_ok _

variable (e : Engine)

/-- A step whose key is required asks for a required key. -/
theorem supplied_planPlace {key : TemplateKey} (required : key ∈ TemplateKey.required)
    (values : List SlotValue) : Supplied e.registry (e.planPlace key values) :=
  (supplied_get required).bind fun _ => (supplied_demand _).bind fun _ => supplied_ok _

theorem supplied_planStore (f : CpuField) (v : UInt32) : Supplied e.registry (e.planStore f v) :=
  supplied_ite (supplied_planPlace e (by decide) _) (supplied_planPlace e (by decide) _)

theorem supplied_planMove (src dst : CpuField) : Supplied e.registry (e.planMove src dst) :=
  supplied_planPlace e (by decide) _

/-- Arithmetic with a constant may become a move, so it needs both forms. -/
theorem supplied_planAluImm {c : OpClass} (zero : ⟨c, .zero⟩ ∈ TemplateKey.required)
    (imm : ⟨c, .imm⟩ ∈ TemplateKey.required) (dst src : UInt8) (v : UInt32) :
    Supplied e.registry (e.planAluImm c dst src v) :=
  (supplied_gprField _).bind fun _ => (supplied_gprField _).bind fun _ =>
    supplied_ite (supplied_planPlace e zero _) (supplied_planPlace e imm _)

theorem supplied_planAluReg {c : OpClass} (required : ⟨c, .reg⟩ ∈ TemplateKey.required)
    (dst left right : UInt8) : Supplied e.registry (e.planAluReg c dst left right) :=
  (supplied_gprField _).bind fun _ => (supplied_gprField _).bind fun _ =>
    (supplied_gprField _).bind fun _ =>
    supplied_planPlace e required _

theorem supplied_planCompare {key : TemplateKey} (required : key ∈ TemplateKey.required)
    (field left : UInt8) (right : SlotValue) :
    Supplied e.registry (e.planCompare key field left right) := by
  have shift : Supplied e.registry (ConditionRegister.shift field) :=
    supplied_ite (supplied_ok _) (supplied_breach _)
  exact (supplied_demand _).bind fun _ => (supplied_gprField _).bind fun _ => shift.bind fun _ =>
    (shift.bind fun _ => supplied_ok _).bind fun _ => supplied_planPlace e required _

theorem supplied_planPreemptCheck : Supplied e.registry e.planPreemptCheck :=
  supplied_planPlace e (by decide) _

/-- The steps of an exit have required keys. -/
theorem supplied_planExit (target : UInt32) : Supplied e.registry (e.planExit target) :=
  (supplied_planStore e ..).bind fun _ => (supplied_planPreemptCheck e).bind fun _ =>
    (supplied_planPlace e (by decide) _).bind fun _ => supplied_ok _

theorem supplied_planLeave (stub : Nat) (next : UInt32) :
    Supplied e.registry (e.planLeave stub next) :=
  (supplied_planStore e ..).bind fun _ =>
    (supplied_planPlace e (by decide) _).bind fun _ => supplied_ok _

/-- The steps of an indirect branch have required keys. -/
theorem supplied_planIndirect (src : CpuField) : Supplied e.registry (e.planIndirect src) :=
  (supplied_planPlace e (by decide) _).bind fun _ => (supplied_planPreemptCheck e).bind fun _ =>
    (supplied_planPlace e (by decide) _).bind fun _ => supplied_ok _

/-- A call has two forms, and both keys are required. -/
theorem supplied_planCall (pc : UInt32) (handler : UInt64) (opcode : UInt32) :
    Supplied e.registry (e.planCall pc handler opcode) := by
  refine (supplied_planStore e ..).bind fun _ => Supplied.bind ?_ fun _ => supplied_ok _
  cases e.isNear handler with
  | false => exact supplied_planPlace e (by decide) _
  | true => exact supplied_planPlace e (by decide) _

/-- To find out whether an address is reached, the template is asked for its width. -/
theorem supplied_reachableHost {key : TemplateKey} (required : key ∈ TemplateKey.required)
    (addr : UInt32) : Supplied e.registry (e.reachableHost key addr) := by
  refine (supplied_get required).bind fun t => (supplied_hostAddr ..).bind fun host => ?_
  have canonical :
      Supplied e.registry (e.config.regions.canonical host (t.canonicalWidth?.getD .w32)) :=
    supplied_canonical host _
  generalize e.config.regions.canonical host (t.canonicalWidth?.getD .w32) = outcome at canonical ⊢
  cases outcome with
  | ok _ => exact supplied_ok _
  | error fault =>
    refine supplied_ite ⟨fun key h => ?_⟩ (supplied_ok _)
    cases h
    exact canonical.missed key rfl

theorem supplied_planLoadAbs (rd : UInt8) (addr : UInt32) :
    Supplied e.registry (e.planLoadAbs rd addr) := by
  refine (supplied_reachableHost e (by decide) addr).bind fun host => ?_
  cases host with
  | some host => exact (supplied_gprField _).bind fun _ => supplied_planPlace e (by decide) _
  | none => exact (supplied_gprField _).bind fun _ => supplied_planPlace e (by decide) _

theorem supplied_planStoreAbs (rs : UInt8) (addr : UInt32) :
    Supplied e.registry (e.planStoreAbs rs addr) := by
  refine (supplied_reachableHost e (by decide) addr).bind fun host => ?_
  cases host with
  | some host => exact (supplied_gprField _).bind fun _ => supplied_planPlace e (by decide) _
  | none => exact (supplied_gprField _).bind fun _ => supplied_planPlace e (by decide) _

/-- Every condition of a branch has a template whose key is required. -/
theorem supplied_planCond (cond : BranchCond) : Supplied e.registry (e.planCond cond) := by
  have mask (bit : UInt8) : Supplied e.registry (ConditionRegister.bitMask bit) :=
    supplied_ite (supplied_ok _) (supplied_breach _)
  cases cond with
  | decCtrNonZero => exact supplied_planPlace e (by decide) _
  | crSet bit =>
    exact (supplied_demand _).bind fun _ => (mask bit).bind fun _ =>
      supplied_planPlace e (by decide) _
  | crClear bit =>
    exact (supplied_demand _).bind fun _ => (mask bit).bind fun _ =>
      supplied_planPlace e (by decide) _

/-- Each operation is made from required templates. -/
theorem supplied_planInsn (i : Insn) : Supplied e.registry (e.planInsn i) := by
  obtain ⟨pc, op⟩ := i
  cases op with
  | li rd imm => exact (supplied_gprField _).bind fun _ => supplied_planStore e ..
  | addi rd ra imm =>
    exact supplied_ite ((supplied_gprField _).bind fun _ => supplied_planStore e ..)
      (supplied_planAluImm e (by decide) (by decide) ..)
  | add | subf | mullw | and | or | xor => exact supplied_planAluReg e (by decide) ..
  | ori | xori => exact supplied_planAluImm e (by decide) (by decide) ..
  | lwz rd ra d =>
    exact supplied_ite (supplied_planLoadAbs e ..) ((supplied_gprField _).bind fun _ =>
      (supplied_gprField _).bind fun _ => supplied_planPlace e (by decide) _)
  | stw rs ra d =>
    exact supplied_ite (supplied_planStoreAbs e ..) ((supplied_gprField _).bind fun _ =>
      (supplied_gprField _).bind fun _ => supplied_planPlace e (by decide) _)
  | lwzAbs rd addr => exact supplied_planLoadAbs e ..
  | stwAbs rs addr => exact supplied_planStoreAbs e ..
  | cmpw | cmplw => exact (supplied_gprField _).bind fun _ => supplied_planCompare e (by decide) ..
  | cmpwi | cmplwi => exact supplied_planCompare e (by decide) ..
  | mtctr | mtlr | mfctr | mflr => exact (supplied_gprField _).bind fun _ => supplied_planMove e ..
  | call handler opcode => exact supplied_planCall e ..
  | b target => exact supplied_planExit e target
  | bl target =>
    exact (supplied_planStore e ..).bind fun _ =>
      (supplied_planExit e target).bind fun _ => supplied_ok _
  | bc cond target =>
    exact (supplied_planCond e cond).bind fun _ => (supplied_planExit e target).bind fun _ =>
      (supplied_planExit e _).bind fun _ => supplied_ok _
  | blr | bctr => exact supplied_planIndirect e _
  | sc => exact supplied_planLeave e ..
  | icbi ra rb =>
    have leave (address : List PlanStep) : Supplied e.registry (do
        return address ++ (← e.planLeave e.stubs.invalidate (Insn.next ⟨pc, .icbi ra rb⟩))) :=
      (supplied_planLeave e ..).bind fun _ => supplied_ok _
    exact supplied_ite ((supplied_gprField _).bind fun _ => (supplied_planMove e ..).bind leave)
      ((supplied_gprField _).bind fun _ => (supplied_gprField _).bind fun _ =>
        (supplied_planPlace e (by decide) _).bind leave)

/-- And so is each block. -/
theorem supplied_plan (pc : UInt32) (insns : List Insn) :
    Supplied e.registry (e.plan pc insns) := by
  unfold Engine.plan
  dsimp only
  split
  · exact supplied_error fun _ h => by cases h
  · refine (supplied_mapM (supplied_planInsn e)).bind fun _ => ?_
    exact supplied_ite (supplied_ok _) ((supplied_planExit e _).bind fun _ => supplied_ok _)

end Planning

/-- The operation never misses a template. -/
structure Content (x : Traced σ α) : Prop where
  supplied : ∀ r s log, Supplied r (x.perform s log).1.1

section Content

variable {x y : Traced σ α} {f : α → Traced σ β}

theorem content_pure (a : α) : Content (pure a : Traced σ α) := ⟨fun _ _ _ => supplied_ok a⟩

theorem content_get : Content (get : Traced σ σ) := ⟨fun _ s _ => supplied_ok s⟩

theorem content_modify (g : σ → σ) : Content (modify g : Traced σ PUnit) :=
  ⟨fun _ _ _ => supplied_ok _⟩

theorem content_set (s : σ) : Content (set s : Traced σ PUnit) := ⟨fun _ _ _ => supplied_ok _⟩

theorem content_report (event : Event) : Content (report event : Traced σ Unit) :=
  ⟨fun _ _ _ => supplied_ok _⟩

/-- A computation that asks for no template over any table asks for none in an operation. -/
theorem content_lift {z : Except Fault α} (h : ∀ r, Supplied r z) :
    Content (liftM z : Traced σ α) := by
  refine ⟨fun r s log => ?_⟩
  have outcome : ((liftM z : Traced σ α).perform s log).1.1 = z :=
    congrArg Prod.fst (yields_lift z log)
  exact outcome.symm ▸ h r

/-- Operations that ask for no template can be put one behind the other. -/
theorem Content.bind (hx : Content x) (hf : ∀ a, Content (f a)) : Content (x >>= f) := by
  refine ⟨fun r s log => ?_⟩
  have first := hx.supplied r s log
  rw [perform_bind]
  generalize x.perform s log = result at first ⊢
  obtain ⟨⟨outcome, s'⟩, log'⟩ := result
  cases outcome with
  | ok a => exact (hf a).supplied r s' log'
  | error fault =>
    refine ⟨fun key h => ?_⟩
    cases h
    exact first.missed key rfl

theorem content_ite {p : Prop} [Decidable p] (hx : Content x) (hy : Content y) :
    Content (if p then x else y) := by
  by_cases hp : p
  · rw [if_pos hp]
    exact hx
  · rw [if_neg hp]
    exact hy

theorem content_forM {xs : List α} {g : α → Traced σ PUnit} (h : ∀ a, Content (g a)) :
    Content (xs.forM g) := by
  induction xs with
  | nil => exact content_pure _
  | cons a xs ih => exact (h a).bind fun _ => ih

/-- An operation on a part of the state asks for no more than it does there. -/
theorem Content.zoom {part : τ → σ} {put : τ → σ → τ} (h : Content x) : Content (x.zoom part put) :=
  ⟨fun r t log => h.supplied r (part t) log⟩

end Content

section Drafting

variable (e : Engine) (d : Draft)

/-- To write a plan asks for no template: the plan holds those that it needs. -/
theorem supplied_fillValue (i : Instance) (k : Nat) (v : SlotValue) :
    Supplied r (d.fillValue e i k v) := by
  have fill (d : Draft) (v : UInt64) : Supplied r (Draft.fillValue.fill e i k d v) :=
    (supplied_fill k v).bind fun _ => supplied_ok _
  cases v with
  | imm | host => exact fill d _
  | handler addr => exact (supplied_slot k).bind fun _ => fill _ _
  | stub offset => exact (supplied_addrAt _).bind fun _ => fill _ _
  | fallthrough => exact supplied_ok _
  | exit target =>
    exact (supplied_branchSite k).bind fun _ => (supplied_addrAt _).bind fun _ => fill _ _

theorem supplied_write (s : PlanStep) : Supplied r (d.write e s) := by
  cases s with
  | fallthrough => exact supplied_ok _
  | place t values =>
    exact (supplied_place t).bind fun _ =>
      (supplied_foldlM (fun _ _ => supplied_fillValue e ..) _).bind fun _ => supplied_ok _

theorem supplied_fillForward (n k : Nat) : Supplied r (d.fillForward e n k) := by
  unfold Draft.fillForward
  split
  · exact (supplied_addrAt _).bind fun _ => (supplied_fill ..).bind fun _ => supplied_ok _
  · exact supplied_breach _
  · exact supplied_breach _

/-- Writing a whole plan asks for no template. -/
theorem supplied_ofPlan (b : CodeBuffer) (p : Plan) : Supplied r (Draft.ofPlan e b p) :=
  (supplied_foldlM (supplied_write e) _).bind fun _ =>
    (supplied_foldlM (fun _ _ => supplied_fillForward e ..) _).bind
    fun _ => (supplied_forM fun _ => supplied_checkFilled).bind fun _ => supplied_ok _

end Drafting

section Cache

variable (c : BlockCache)

theorem supplied_cacheGet (id : BlockId) : Supplied r (c.get id) := by
  unfold BlockCache.get
  split
  · exact supplied_ok _
  · exact supplied_breach _

/-- The cache of blocks knows nothing of templates. -/
theorem supplied_publish (id : BlockId) : Supplied r (c.publish id) := by
  have host (b : Block) : Supplied r (c.hostEntry b) :=
    (supplied_addSizes ..).bind fun _ => supplied_ok _
  exact (supplied_cacheGet c id).bind fun b => (supplied_demand _).bind fun _ =>
    (host b).bind fun _ => supplied_ok _

theorem supplied_unpublish (id : BlockId) : Supplied r (c.unpublish id) :=
  (supplied_cacheGet c id).bind fun _ => supplied_ok _

theorem supplied_exit (b : Block) (k : Nat) : Supplied r (b.exit k) := by
  unfold Block.exit
  split
  · exact supplied_ok _
  · exact supplied_breach _

theorem supplied_reserve (b : CodeBuffer) (n : Nat) : Supplied r (b.reserve n) :=
  supplied_ite (supplied_error fun _ h => by cases h) (supplied_ite (supplied_ok _) (supplied_ok _))

end Cache

namespace EngineM

theorem content_getBlock (id : BlockId) : Content (getBlock id) :=
  content_get.bind fun e => content_lift fun _ => supplied_cacheGet e.cache id

theorem content_modifyBlock (id : BlockId) (f : Block → Block) : Content (modifyBlock id f) :=
  content_modify _

theorem content_modifyChains (f : ChainTable → ChainTable) : Content (modifyChains f) :=
  content_modify _

/-- To point a branch elsewhere asks for no template. -/
theorem content_redirect (site : BranchSite) (target : Nat) :
    Content (onBuffer (CodeBuffer.redirect site target)) := by
  have relinks : Content (CodeBuffer.relink site target) := by
    refine content_get.bind fun b => (content_lift fun _ => ?_).bind fun _ =>
      (content_report _).bind fun _ => content_get.bind fun b =>
        (content_lift fun _ => supplied_patch ..).bind content_set
    exact (supplied_addrAt _).bind fun _ =>
      (supplied_addrAt _).bind fun _ => supplied_displacement ..
  exact (relinks.bind fun _ => content_get.bind fun _ => content_lift fun _ =>
    supplied_sync ..).zoom

/-- Linking asks for no template. -/
theorem content_link (src : BlockId) (k : Nat) (dst : BlockId) : Content (link src k dst) := by
  refine (content_getBlock dst).bind fun b => (content_getBlock src).bind fun b' =>
    (content_lift fun _ => supplied_exit b' k).bind fun exit => content_ite (content_pure _) ?_
  have rest : Content (do
      onBuffer (CodeBuffer.redirect exit.site b.hostOffset)
      modifyBlock src fun b => (b.setLink k (some dst)).refresh
      modifyBlock dst (·.addIncoming src k)
      modifyStats fun s => { s with chainLinks := s.chainLinks + 1 }
      report (.chained src k dst)) :=
    (content_redirect ..).bind fun _ => (content_modifyBlock ..).bind fun _ =>
      (content_modifyBlock ..).bind fun _ =>
      Content.bind (content_modify _) fun _ => content_report _
  cases exit.linked with
  | some old => exact (content_modifyBlock ..).bind fun _ => rest
  | none => exact rest

theorem content_unlink (src : BlockId) (k : Nat) : Content (unlink src k) :=
  (content_getBlock src).bind fun b => (content_lift fun _ => supplied_exit b k).bind fun _ =>
    content_get.bind fun _ => (content_redirect ..).bind fun _ =>
      (content_modifyBlock ..).bind fun _ => content_report _

theorem content_resolvePending (dst : BlockId) : Content (resolvePending dst) := by
  refine content_get.bind fun _ => (content_getBlock dst).bind fun _ =>
    (content_modifyChains _).bind fun _ =>
    content_forM fun w => (content_getBlock _).bind fun _ => ?_
  exact content_ite (content_link ..) (content_pure _)

theorem content_linkOrWait (src : BlockId) (k : Nat) (target : UInt32) :
    Content (linkOrWait src k target) := by
  refine content_get.bind fun e => ?_
  cases e.lookup target with
  | some dst => exact content_link ..
  | none => exact content_modifyChains _

/-- To cut a block off asks for no template. -/
theorem content_detach (id : BlockId) : Content (detach id) := by
  refine content_get.bind fun e =>
    (content_lift fun _ => supplied_unpublish e.cache id).bind fun _ =>
    Content.bind (content_modify _) fun _ => (content_getBlock id).bind fun b =>
      (content_modifyBlock ..).bind fun _ =>
      (content_forM fun p => ?_).bind fun _ =>
        (content_forM fun p => ?_).bind fun _ => content_modifyChains _
  · refine (content_getBlock _).bind fun _ =>
      content_ite ((content_unlink ..).bind fun _ => ?_) (content_pure _)
    exact content_get.bind fun _ => content_ite (content_modifyChains _) (content_pure _)
  · obtain ⟨exit, k⟩ := p
    dsimp only
    cases exit.linked with
    | some dst => exact content_modifyBlock ..
    | none => exact content_pure _

/-- Taking blocks out of use asks for no template. -/
theorem content_invalidateBlocks (victims : List BlockId) : Content (invalidateBlocks victims) :=
  (content_forM fun id => (content_getBlock id).bind fun _ => content_modifyBlock ..).bind fun _ =>
    (content_forM content_detach).bind fun _ => content_modify _

/-- Making room asks for no template, whether by a flush or by taking a block out of use. -/
theorem content_makeRoom (pc : UInt32) (size : Nat) : Content (makeRoom pc size) := by
  refine content_get.bind fun e =>
    (content_lift fun _ => supplied_reserve e.buffer size).bind fun reserved => ?_
  obtain ⟨outcome, buffer⟩ := reserved
  refine Content.bind (content_modify _) fun _ => ?_
  cases outcome with
  | flushed =>
    exact (content_report _).bind fun _ => content_get.bind fun _ =>
      Content.bind (content_modify _) fun _ => content_report _
  | ready =>
    refine content_get.bind fun e => ?_
    cases e.lookup pc with
    | some old => exact content_invalidateBlocks _
    | none => exact content_pure _

/-- Publishing asks for no template. -/
theorem content_publish (pc : UInt32) (p : Plan) (d : Draft) : Content (publish pc p d) :=
  content_get.bind fun _ => (content_lift fun _ => supplied_sync ..).bind fun _ =>
    content_get.bind fun _ =>
    (content_lift fun _ => supplied_publish ..).bind fun _ =>
    Content.bind (content_modify _) fun _ => Content.bind (content_modify _) fun _ =>
      (content_report _).bind fun _ => content_pure _

/-- Behind its plan an emission asks for no template. -/
theorem content_emitPlanned (pc : UInt32) (p : Plan) : Content (emitPlanned pc p) := by
  refine (content_makeRoom ..).bind fun _ => content_get.bind fun e =>
    (content_lift fun _ => supplied_ofPlan e e.buffer p).bind fun d =>
      (content_publish ..).bind fun id => ?_
  refine content_ite ?_ (content_pure _)
  exact (content_forM fun p => content_linkOrWait ..).bind fun _ =>
    (content_resolvePending _).bind fun _ => content_pure _

/-- An emission that cannot be planned leaves everything as it is. -/
theorem perform_emitBlock_error {e : Engine} {pc : UInt32} {insns : List Insn} {fault : Fault}
    (failed : e.plan pc insns = .error fault) (log : Array Event) :
    (emitBlock pc insns).perform e log = ((.error fault, e), log) := by
  have outcome : (emitBlock pc insns).perform e log =
      (liftM (e.plan pc insns) >>= emitPlanned pc : EngineM BlockId).perform e log := rfl
  rw [outcome, failed]
  rfl

/-- An emission misses no template but a required one that the engine's table lacks. -/
theorem supplied_emitBlock (e : Engine) (pc : UInt32) (insns : List Insn) (log : Array Event) :
    Supplied e.registry ((emitBlock pc insns).perform e log).1.1 := by
  have wanted := supplied_plan e pc insns
  cases planned : e.plan pc insns with
  | ok p =>
    rw [perform_emitBlock planned]
    exact (content_emitPlanned pc p).supplied e.registry e log
  | error fault =>
    rw [perform_emitBlock_error planned]
    refine ⟨fun key h => wanted.missed key ?_⟩
    cases h
    exact planned

end EngineM

section Validation

/-- The check of a table complains of required keys only. -/
theorem Registry.supplied_validate (r : Registry) : Supplied r r.validate := by
  refine ⟨fun key h => ?_⟩
  unfold validate at h
  cases gap : r.gap? with
  | none =>
    rw [gap] at h
    cases h
  | some key' =>
    rw [gap] at h
    cases h
    have missing : (r.lookup key).isNone = true :=
      List.find?_some (p := fun key => (r.lookup key).isNone) gap
    exact ⟨List.mem_of_find?_eq_some gap, Option.isNone_iff_eq_none.1 missing⟩

/-- A table that has passed the check has every required template. -/
theorem Registry.lookup_ne_none (valid : r.validate = .ok ()) {key : TemplateKey}
    (required : key ∈ TemplateKey.required) : r.lookup key ≠ none := by
  intro missing
  unfold validate at valid
  cases gap : r.gap? with
  | none => exact List.find?_eq_none.1 gap key required (Option.isNone_iff_eq_none.2 missing)
  | some key' =>
    rw [gap] at valid
    cases valid

/-- Over a table that has passed its check no template is missed. -/
theorem Supplied.ne_missing {x : Except Fault α} (h : Supplied r x) (valid : r.validate = .ok ())
    (key : TemplateKey) : x ≠ .error (.error (.missingTemplate key)) := by
  intro missed
  obtain ⟨required, missing⟩ := h.missed key missed
  exact Registry.lookup_ne_none valid required missing

theorem supplied_map (base size : Nat) : Supplied r (CodeBuffer.map base size) := by
  refine supplied_ite (Supplied.bind (supplied_error fun _ h => by cases h) fun _ => ?_) ?_
  all_goals
    refine (supplied_addSizes ..).bind fun _ =>
      supplied_ite (Supplied.bind ?_ fun _ => supplied_ok _) (supplied_ok _)
    exact supplied_error fun _ h => by cases h

theorem supplied_configValidate (c : Config) : Supplied r c.validate := by
  unfold Config.validate
  split
  · exact supplied_error fun _ h => by cases h
  · exact supplied_ok ()

/-- Creating an engine asks for required keys only. -/
theorem supplied_create (base : Nat) (r : Registry) (config : Config) :
    Supplied r (Engine.create base r config) :=
  (supplied_configValidate config).bind fun _ => r.supplied_validate.bind fun _ =>
    (supplied_map ..).bind fun _ =>
    (supplied_stubs r ..).bind fun _ => (supplied_sync ..).bind fun _ => supplied_ok _

end Validation

namespace Engine

variable {e : Engine}

/-- The engines that operations lead to from a new one over a table, whether they succeed or
fail. -/
inductive Over (r : Registry) : Engine → Prop
  | create {base : Nat} {config : Config} {e : Engine} (created : create base r config = .ok e) :
      Over r e
  | emitBlock {e : Engine} (h : Over r e) (pc : UInt32) (insns : List Insn) (log : Array Event) :
      Over r ((EngineM.emitBlock pc insns).perform e log).1.2
  | invalidateRange {e : Engine} (h : Over r e) (start : UInt32) (stop : Nat) (log : Array Event) :
      Over r ((EngineM.invalidateRange start stop).perform e log).1.2
  | invalidateAll {e : Engine} (h : Over r e) (log : Array Event) :
      Over r (EngineM.invalidateAll.perform e log).1.2
  | run {σ : Type} {s : Session σ} (h : Over r s.engine) (t : Translator σ) (handlers : Handlers)
      (fuel : Nat) : Over r (s.run t handlers fuel).2.engine

/-- What does not read the table does not change it. -/
theorem registry_of_blind {x : EngineM α} (blind : Blind x) (log : Array Event) :
    (x.perform e log).1.2.registry = e.registry := by
  have same : x.perform e log = swapped e.registry (x.perform e log) :=
    blind.perform e.registry e log
  rw [same]
  rfl

/-- An emission leaves the table as it is, whatever its outcome. -/
theorem registry_emitBlock (pc : UInt32) (insns : List Insn) (log : Array Event) :
    ((EngineM.emitBlock pc insns).perform e log).1.2.registry = e.registry := by
  cases planned : e.plan pc insns with
  | ok p =>
    rw [EngineM.perform_emitBlock planned]
    exact registry_of_blind (EngineM.blind_emitPlanned pc p) log
  | error fault =>
    rw [EngineM.perform_emitBlock_error planned]

/-- No operation changes the table. -/
theorem Over.registry_eq (h : e.Over r) : e.registry = r := by
  induction h with
  | create created =>
    obtain ⟨b, stubs, b', created⟩ := create_eq_ok.1 created
    rw [← created.engine]
  | emitBlock _ pc insns log ih => exact (registry_emitBlock pc insns log).trans ih
  | invalidateRange _ start stop log ih =>
    exact (registry_of_blind (EngineM.blind_invalidateRange start stop) log).trans ih
  | invalidateAll _ log ih => exact (registry_of_blind (EngineM.blind_flush .explicit) log).trans ih
  | run _ t handlers fuel ih =>
    have lasting : Lasting fun e => e.registry = r :=
      { find := fun h pc log => (registry_of_blind (EngineM.blind_find pc) log).trans h
        emitBlock := fun h pc insns log => (registry_emitBlock pc insns log).trans h
        invalidateRange := fun h start stop log =>
          (registry_of_blind (EngineM.blind_invalidateRange start stop) log).trans h }
    exact Session.engine_run lasting ih handlers fuel

theorem ReachableOver.over (h : e.ReachableOver r) : e.Over r := by
  induction h with
  | create created => exact .create created
  | emitBlock _ pc insns log ih => exact ih.emitBlock pc insns log
  | invalidateRange _ start stop log ih => exact ih.invalidateRange start stop log
  | invalidateAll _ log ih => exact ih.invalidateAll log

/-- Over a table that has passed the check neither creation nor emission misses a template. For the
stubs and the plans ask for required templates only, of whatever table. -/
theorem checked_table_never_misses (valid : r.validate = .ok ()) :
    (∀ base config key, Engine.create base r config ≠ .error (.error (.missingTemplate key))) ∧
    (∀ e : Engine, e.Over r → ∀ pc insns log key,
      ((EngineM.emitBlock pc insns).perform e log).1.1 ≠ .error (.error (.missingTemplate key))) ∧
    (∀ (other : Registry) (regions : RegionBases) (b : CodeBuffer) (key : TemplateKey),
      Stubs.write other regions b = .error (.error (.missingTemplate key)) →
        key ∈ TemplateKey.required ∧ other.lookup key = none) ∧
    ∀ (e : Engine) (pc : UInt32) (insns : List Insn) (key : TemplateKey),
      e.plan pc insns = .error (.error (.missingTemplate key)) →
        key ∈ TemplateKey.required ∧ e.registry.lookup key = none := by
  refine ⟨fun base config => (supplied_create base r config).ne_missing valid, ?_,
    fun other regions b => (supplied_stubs other regions b).missed, fun e pc insns =>
      (supplied_plan e pc insns).missed⟩
  intro e grown pc insns log
  have supplied := EngineM.supplied_emitBlock e pc insns log
  rw [grown.registry_eq] at supplied
  exact supplied.ne_missing valid

/-- Short jumps are a table of their own: it passes the check, and so no emission over it misses a
template. -/
theorem shortJumps_never_miss : shortJumps.validate = .ok () ∧ cramped.Over shortJumps ∧
    ∀ pc insns log key, ((EngineM.emitBlock pc insns).perform cramped log).1.1 ≠
      .error (.error (.missingTemplate key)) :=
  ⟨rfl, reachable_cramped.over, (checked_table_never_misses rfl).2.1 cramped reachable_cramped.over⟩

end Engine
end Dynarec
