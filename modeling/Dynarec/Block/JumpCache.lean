import Dynarec.Block.Basic

/-!
A direct-mapped cache from guest addresses to blocks. The dispatcher and the inline probe of
indirect branches share it: the probe reads one table, of tags and host addresses, and the
dispatcher a second one beside it, of blocks.
-/
namespace Dynarec

def jumpCacheSize : Nat := 4096

/-- A line of the table that translated code reads. -/
structure JumpEntry where
  /-- The guest address that the line holds, zero extended. -/
  tag : UInt64
  host : UInt64
  deriving DecidableEq, Repr

/-- The entry of an empty line. No guest address has its tag. -/
def JumpEntry.invalid : JumpEntry := ⟨0xFFFFFFFFFFFFFFFF, 0⟩

/-- What the two tables can hold in one line. -/
inductive JumpEntry.Pairs : JumpEntry → Option BlockId → Prop where
  | empty : Pairs .invalid none
  | held (pc : UInt32) (host : UInt64) (id : BlockId) : Pairs ⟨pc.toUInt64, host⟩ (some id)

structure JumpCache where
  entries : Vector JumpEntry jumpCacheSize
  ids : Vector (Option BlockId) jumpCacheSize
  /-- Both tables have something in a line, or neither has. -/
  pairs : ∀ k, (entries.get k).Pairs (ids.get k)

/-- A line that is not empty, as the two tables have it. -/
structure JumpLine where
  tag : UInt32
  id : BlockId
  host : UInt64
  deriving DecidableEq, Repr

namespace JumpCache

/-- The line of a guest address. Instructions are words, so the low two bits say nothing. -/
def index (pc : UInt32) : Fin jumpCacheSize :=
  ⟨pc.toNat / 4 % jumpCacheSize, Nat.mod_lt _ (by decide)⟩

theorem get_replicate {α : Type} {n : Nat} (x : α) (k : Fin n) : (Vector.replicate n x).get k = x :=
  Vector.getElem_replicate k.isLt

theorem get_set {α : Type} {n : Nat} (table : Vector α n) (line k : Fin n) (x : α) :
    (table.set line x).get k = if k = line then x else table.get k := by
  refine (Vector.getElem_set line.isLt k.isLt).trans ?_
  simp only [Fin.ext_iff, eq_comm]
  rfl

def empty : JumpCache where
  entries := .replicate _ .invalid
  ids := .replicate _ none
  pairs k := by
    simp only [get_replicate]
    exact .empty

/-- The entry of the line that the address maps to, as the inline probe sees it. -/
def entry (c : JumpCache) (pc : UInt32) : JumpEntry := c.entries.get (index pc)

def lookup (c : JumpCache) (pc : UInt32) : Option BlockId :=
  if (c.entry pc).tag = pc.toUInt64 then c.ids.get (index pc) else none

theorem pairs_set {c : JumpCache} {line : Fin jumpCacheSize} {entry : JumpEntry}
    {id : Option BlockId} (new : entry.Pairs id) (k : Fin jumpCacheSize) :
    ((c.entries.set line entry).get k).Pairs ((c.ids.set line id).get k) := by
  rw [get_set, get_set]
  split
  · exact new
  · exact c.pairs k

def insert (c : JumpCache) (pc : UInt32) (id : BlockId) (host : UInt64) : JumpCache where
  entries := c.entries.set (index pc) ⟨pc.toUInt64, host⟩
  ids := c.ids.set (index pc) (some id)
  pairs := pairs_set (.held pc host id)

/-- Empties a line. -/
def vacate (c : JumpCache) (line : Fin jumpCacheSize) : JumpCache where
  entries := c.entries.set line .invalid
  ids := c.ids.set line none
  pairs := pairs_set .empty

/-- Drops the address if it is the one that its line holds. -/
def remove (c : JumpCache) (pc : UInt32) : JumpCache :=
  if (c.entry pc).tag = pc.toUInt64 then c.vacate (index pc) else c

/-- Empties every line. -/
def invalidate (_ : JumpCache) : JumpCache := empty

/-- A line of both tables. -/
def line (c : JumpCache) (k : Fin jumpCacheSize) : Option JumpLine :=
  (c.ids.get k).map fun id => ⟨(c.entries.get k).tag.toUInt32, id, (c.entries.get k).host⟩

def lines (c : JumpCache) : Vector (Option JumpLine) jumpCacheSize := .ofFn c.line

/-- The line that the address maps to, whichever address it holds. -/
def line? (c : JumpCache) (pc : UInt32) : Option JumpLine := c.line (index pc)

variable {c : JumpCache} {pc other : UInt32} {id : BlockId} {host : UInt64} {k : Fin jumpCacheSize}

/-- No guest address is the tag of an empty line. -/
theorem toUInt64_ne_invalid (pc : UInt32) : pc.toUInt64 ≠ JumpEntry.invalid.tag := by
  intro same
  have low := pc.toNat_lt
  have := congrArg UInt64.toNat same
  rw [UInt32.toNat_toUInt64] at this
  simp only [JumpEntry.invalid, UInt64.reduceToNat] at this
  omega

theorem get_entries (c : JumpCache) (k : Fin jumpCacheSize) : c.entries.get k = match c.line k with
    | some l => ⟨l.tag.toUInt64, l.host⟩
    | none => .invalid := by
  have pairs := c.pairs k
  unfold line
  generalize c.entries.get k = entry at *
  generalize c.ids.get k = id at *
  cases pairs with
  | empty => rfl
  | held pc host id => simp

theorem get_ids (c : JumpCache) (k : Fin jumpCacheSize) : c.ids.get k = (c.line k).map (·.id) := by
  simp [line, Function.comp_def]

theorem entry_eq_of_line? {l : JumpLine} (h : c.line? pc = some l) :
    c.entry pc = ⟨l.tag.toUInt64, l.host⟩ := by
  rw [entry, get_entries, show c.line (index pc) = some l from h]

theorem entry_congr {c' : JumpCache} (h : c'.line? pc = c.line? pc) : c'.entry pc = c.entry pc := by
  simp only [line?] at h
  rw [entry, entry, get_entries, get_entries, h]

/-- The tag that the code compares is that of the address exactly if the line is the address's
own. -/
theorem tag_entry_eq_iff :
    (c.entry pc).tag = pc.toUInt64 ↔ ∃ l, c.line? pc = some l ∧ l.tag = pc := by
  rw [entry, get_entries, line?]
  cases c.line (index pc) with
  | none =>
    simp only [reduceCtorEq, false_and, exists_false, iff_false]
    exact (toUInt64_ne_invalid pc).symm
  | some l =>
    simp only [Option.some.injEq, exists_eq_left']
    exact UInt32.toUInt64_inj

theorem entry_eq_invalid_iff : c.entry pc = .invalid ↔ c.line? pc = none := by
  rw [entry, get_entries, line?]
  cases c.line (index pc) with
  | none => simp
  | some l =>
    simp only [reduceCtorEq, iff_false]
    intro same
    exact toUInt64_ne_invalid l.tag (congrArg JumpEntry.tag same)

/-- A lookup finds the block of the line if the whole tag agrees. -/
theorem lookup_eq_some :
    c.lookup pc = some id ↔ ∃ l, c.line? pc = some l ∧ l.tag = pc ∧ l.id = id := by
  unfold lookup
  split
  · next hit =>
    obtain ⟨l, hl, tag⟩ := tag_entry_eq_iff.1 hit
    rw [get_ids, show c.line (index pc) = some l from hl, hl]
    simp [tag]
  · next miss =>
    constructor
    · rintro ⟨⟩
    · rintro ⟨l, hl, tag, -⟩
      exact absurd (tag_entry_eq_iff.2 ⟨l, hl, tag⟩) miss

theorem lookup_congr {c' : JumpCache} (h : c'.line? pc = c.line? pc) :
    c'.lookup pc = c.lookup pc := by
  ext id
  rw [lookup_eq_some, lookup_eq_some, h]

@[simp] theorem line_empty : empty.line k = none := by
  simp only [line, empty, get_replicate, Option.map_none]

/-- Inserting replaces the line that the address falls into. -/
theorem line_insert : (c.insert pc id host).line k =
    if k = index pc then some ⟨pc, id, host⟩ else c.line k := by
  simp only [line, insert, get_set]
  split <;> simp

theorem line_vacate {line : Fin jumpCacheSize} :
    (c.vacate line).line k = if k = line then none else c.line k := by
  simp only [JumpCache.line, vacate, get_set]
  split <;> simp

/-- Removing an address leaves what other addresses have in their lines. -/
theorem line_remove_eq_some {l : JumpLine} :
    (c.remove pc).line k = some l ↔ c.line k = some l ∧ ¬ (k = index pc ∧ l.tag = pc) := by
  unfold remove
  split
  · next hit =>
    obtain ⟨held, found, tag⟩ := tag_entry_eq_iff.1 hit
    rw [line_vacate]
    split
    · next here =>
      subst here
      constructor
      · rintro ⟨⟩
      · rintro ⟨hl, other⟩
        cases found.symm.trans hl
        exact absurd ⟨rfl, tag⟩ other
    · next elsewhere => simp [elsewhere]
  · next miss =>
    constructor
    · intro hl
      refine ⟨hl, ?_⟩
      rintro ⟨rfl, tag⟩
      exact miss (tag_entry_eq_iff.2 ⟨l, hl, tag⟩)
    · exact And.left

theorem line?_congr (h : index pc = index other) : c.line? pc = c.line? other := by
  simp only [line?, h]

theorem line?_insert : (c.insert pc id host).line? other =
    if index other = index pc then some ⟨pc, id, host⟩ else c.line? other :=
  line_insert

@[simp] theorem line?_insert_self : (c.insert pc id host).line? pc = some ⟨pc, id, host⟩ := by
  rw [line?_insert, if_pos rfl]

/-- Removing an address empties the line that it falls into, for every address there. -/
theorem line?_remove (h : c.lookup pc = some id) : (c.remove pc).line? other =
    if index other = index pc then none else c.line? other := by
  obtain ⟨l, hl, tag, -⟩ := lookup_eq_some.1 h
  rw [remove, if_pos (tag_entry_eq_iff.2 ⟨l, hl, tag⟩)]
  exact line_vacate

@[simp] theorem lookup_insert_self : (c.insert pc id host).lookup pc = some id :=
  lookup_eq_some.2 ⟨_, line?_insert_self, rfl, rfl⟩

@[simp] theorem line?_empty : empty.line? pc = none := line_empty

@[simp] theorem lookup_empty : empty.lookup pc = none := by
  refine Option.eq_none_iff_forall_ne_some.2 fun id hit => ?_
  obtain ⟨l, hl, -⟩ := lookup_eq_some.1 hit
  cases line?_empty.symm.trans hl

end JumpCache
end Dynarec
