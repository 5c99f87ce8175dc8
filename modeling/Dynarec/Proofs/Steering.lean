import Dynarec.Proofs.Filling
import Dynarec.Proofs.Outcome

/-!
Fields of branches, of any width: where a field leads, and that pointing it elsewhere changes where
it leads and nothing else.
-/
namespace Dynarec

namespace BranchSite

/-- One past the last byte of the field. -/
def stop (site : BranchSite) : Nat := site.start + site.width.bytes

/-- The bytes of the field when it leads to an offset. -/
def field (site : BranchSite) (target : Nat) : List UInt8 :=
  site.width.encode (UInt64.ofInt (target - site.anchor))

/-- The field can hold the distance to an offset. -/
def Spans (site : BranchSite) (target : Nat) : Prop := site.width.Fits (target - site.anchor)

instance (site : BranchSite) (target : Nat) : Decidable (site.Spans target) :=
  inferInstanceAs (Decidable (site.width.Fits _))

@[simp] theorem length_field (site : BranchSite) (target : Nat) :
    (site.field target).length = site.width.bytes := Width.length_encode ..

end BranchSite

namespace CodeBuffer

variable {b b' : CodeBuffer} {site : BranchSite} {p target : Nat}

/-- The field has been written, and what it is measured from lies in the buffer. -/
structure Has (b : CodeBuffer) (site : BranchSite) : Prop where
  anchor_le : site.anchor ≤ b.capacity
  stop_le : site.stop ≤ b.cursor

/-- The field leads to an offset. -/
structure Leads (b : CodeBuffer) (site : BranchSite) (target : Nat) : Prop where
  spans : site.Spans target
  holds : b.Holds site.start (site.field target)

theorem Leads.congr (h : b.Leads site target)
    (same : ∀ n, site.start ≤ n → n < site.stop → b'.bytes[n]? = b.bytes[n]?) :
    b'.Leads site target := by
  refine ⟨h.spans, h.holds.congr fun n low high => same n low ?_⟩
  rwa [BranchSite.length_field] at high

/-- The buffer after a field has been pointed at an offset. -/
def point (b : CodeBuffer) (site : BranchSite) (target : Nat) : CodeBuffer :=
  { b with bytes := writeAt b.bytes site.start (site.field target) }

@[simp] theorem cursor_point (b : CodeBuffer) (site : BranchSite) (target : Nat) :
    (b.point site target).cursor = b.cursor := by simp [point, cursor]

theorem getElem?_point {n : Nat} (h : n < site.start ∨ site.stop ≤ n) :
    (b.point site target).bytes[n]? = b.bytes[n]? := by
  refine getElem?_writeAt_of_outside _ _ ?_
  rwa [BranchSite.length_field]

theorem leads_point (spans : site.Spans target) (inside : site.stop ≤ b.cursor) :
    (b.point site target).Leads site target := by
  refine ⟨spans, fun k hk => getElem?_writeAt_add _ hk ?_⟩
  rw [BranchSite.length_field]
  exact inside

/-- The fault of a field that cannot hold the distance to an offset. -/
def tooFar (b : CodeBuffer) (site : BranchSite) (target : Nat) : Fault :=
  .error
    (.displacementOutOfRange (.ofNat (b.base + site.anchor)) (.ofNat (b.base + target)) site.width)

theorem distanceTo_eq (bounded : b.Bounded) (anchor_le : site.anchor ≤ b.capacity)
    (target_le : target ≤ b.capacity) : b.distanceTo site target =
      if site.Spans target then .ok (target - site.anchor) else .error (b.tooFar site target) := by
  have distance : (((b.base + target : Nat) : Int) - (b.base + site.anchor : Nat)) =
      target - site.anchor := by
    omega
  simp only [distanceTo, addrAt_eq_ok anchor_le, addrAt_eq_ok target_le, bind,
    Except.bind, displacement, bounded.toNat_ofNat anchor_le,
    bounded.toNat_ofNat target_le, distance]
  rfl

theorem yields_relink (bounded : b.Bounded) (has : b.Has site) (target_le : target ≤ b.capacity)
    (spans : site.Spans target) :
    Traced.Yields (relink site target) b (.ok ()) (b.point site target) := by
  have hcap := bounded.cursor_le
  have hmap := bounded.mapped
  have hstop := has.stop_le
  have written : b.pointBranch site (target - site.anchor) = .ok (b.point site target) :=
    patch_eq_ok (by rw [Width.length_encode]; exact hstop) (by omega)
  refine Traced.yields_get.bind ?_
  rw [distanceTo_eq bounded has.anchor_le target_le, if_pos spans]
  refine (Traced.yields_lift _).bind ((Traced.yields_report _).bind (Traced.yields_get.bind ?_))
  rw [written]
  exact (Traced.yields_lift _).bind (Traced.yields_set _)

/-- A field that cannot hold the distance stays as it is. -/
theorem yields_relink_error (bounded : b.Bounded) (has : b.Has site)
    (target_le : target ≤ b.capacity) (short : ¬ site.Spans target) :
    Traced.Yields (relink site target) b (.error (b.tooFar site target)) b := by
  refine Traced.yields_get.bind ?_
  rw [distanceTo_eq bounded has.anchor_le target_le, if_neg short]
  exact (Traced.yields_lift _).bind_error

theorem Bounded.point (h : b.Bounded) (site : BranchSite) (target : Nat) :
    (b.point site target).Bounded :=
  ⟨(cursor_point b site target).symm ▸ h.cursor_le, h.mapped⟩

/-- A field that has been pointed elsewhere lies in the buffer, so it can be made visible too. -/
theorem yields_redirect (bounded : b.Bounded) (has : b.Has site) (target_le : target ≤ b.capacity)
    (spans : site.Spans target) :
    Traced.Yields (redirect site target) b (.ok ()) (b.point site target) := by
  have inside : site.start + site.width.bytes ≤ (b.point site target).capacity :=
    Nat.le_trans has.stop_le bounded.cursor_le
  refine (yields_relink bounded has target_le spans).bind (Traced.yields_get.bind ?_)
  exact Traced.yields_lift_ok ((bounded.point site target).sync_eq_ok inside)

theorem yields_redirect_error (bounded : b.Bounded) (has : b.Has site)
    (target_le : target ≤ b.capacity) (short : ¬ site.Spans target) :
    Traced.Yields (redirect site target) b (.error (b.tooFar site target)) b :=
  (yields_relink_error bounded has target_le short).bind_error

theorem read_eq_ok {xs : List UInt8} (bounded : b.Bounded) (inside : p + xs.length ≤ b.cursor)
    (holds : b.Holds p xs) : b.read p xs.length = .ok xs := by
  have hcap := bounded.cursor_le
  have hmap := bounded.mapped
  have hsum : p + xs.length < wordBound := by omega
  have hread : (b.bytes.extract p (p + xs.length)).toList = xs := by
    apply List.ext_getElem?
    intro k
    rw [Array.getElem?_toList, Array.getElem?_extract]
    unfold cursor at inside
    by_cases hk : k < xs.length
    · rw [if_pos (by omega), holds k hk]
    · rw [if_neg (by omega), List.getElem?_eq_none (by omega)]
  simp only [read, addSizes, demand, if_pos hsum, if_pos inside, hread, bind, Except.bind, pure,
    Except.pure]

theorem bmod_wordBound (h : p < 2 ^ 63) : Int.bmod p wordBound = p := by
  unfold wordBound
  simp only [Int.bmod]
  omega

/-- A field that leads to an offset is read as landing there. -/
theorem Leads.branchTarget_eq_ok (h : b.Leads site target) (bounded : b.Bounded)
    (reach : b.capacity < 2 ^ 63) (has : b.Has site) (target_le : target ≤ b.capacity) :
    b.branchTarget site = .ok (target : Int) := by
  have hanchor := has.anchor_le
  have hread := read_eq_ok bounded (by rw [BranchSite.length_field]; exact has.stop_le) h.holds
  rw [BranchSite.length_field] at hread
  have hfield : b.readField site.start site.width = .ok (Width.decode (site.field target)) := by
    rw [readField, hread]
    rfl
  have hsign : site.width.signExtend (Width.decode (site.field target)) = target - site.anchor :=
    Width.signExtend_decode_encode h.spans
  have hword : Width.w64.Fits (target : Int) := by
    constructor <;> simp only [Width.modulus] <;> omega
  have hsum : Int.bmod site.anchor wordBound + (target - site.anchor) = target := by
    rw [bmod_wordBound (by omega)]
    omega
  refine bind_eq_ok.2 ⟨_, hfield, ?_⟩
  simp only [hsign, hsum]
  exact bind_eq_ok.2 ⟨(), if_pos hword, rfl⟩

end CodeBuffer
end Dynarec
