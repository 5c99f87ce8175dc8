import Dynarec.Proofs.ChainInvariant
import Dynarec.Proofs.Course

/-!
Block lookup. The states of the blocks, the index and the jump cache say the same of which blocks
are resident, in every engine that operations lead to. So the dispatcher asks for instructions just
where no block is.
-/
namespace Dynarec

/-- Every line is the line of some address. -/
theorem JumpCache.exists_index {k : Nat} (h : k < jumpCacheSize) : ∃ pc, (index pc).val = k := by
  refine ⟨.ofNat (4 * k), ?_⟩
  have word : (UInt32.ofNat (4 * k)).toNat = 4 * k := by
    rw [jumpCacheSize] at h
    exact UInt32.toNat_ofNat_of_lt' (by rw [UInt32.size]; omega)
  show (UInt32.ofNat (4 * k)).toNat / 4 % jumpCacheSize = k
  rw [word, Nat.mul_div_cancel_left k (by decide), Nat.mod_eq_of_lt h]

namespace Engine

open Traced

variable {e : Engine} {src : Nat → List Insn}

/-- Index, jump cache and the states of the blocks agree. -/
structure Coherent (e : Engine) : Prop where
  lookup : ∀ {pc id}, e.lookup pc = some id ↔
    ∃ b, e.block? id = some b ∧ b.isValid = true ∧ b.entry = pc
  unique : ∀ {i j b c}, e.block? i = some b → b.isValid = true → e.block? j = some c →
    c.isValid = true → b.entry = c.entry → i = j
  size : e.cache.size = e.cache.blocks.toList.countP Block.isValid
  /-- A line that is not empty holds an address that maps to it, with the resident block there. -/
  line : ∀ {k l}, e.cache.jumps.lines[k]? = some (some l) → (JumpCache.index l.tag).val = k ∧
    e.lookup l.tag = some l.id ∧
    ∃ b, e.block? l.id = some b ∧ l.host = .ofNat (e.cache.codeBase + b.hostOffset)

theorem Indexed.unique (h : e.Indexed) {i j : BlockId} {b c : Block} (hb : e.block? i = some b)
    (validB : b.isValid = true) (hc : e.block? j = some c) (validC : c.isValid = true)
    (same : b.entry = c.entry) : i = j := by
  have first := h.index.2 ⟨b, hb, validB, same⟩
  have second := h.index.2 ⟨c, hc, validC, rfl⟩
  exact Option.some.inj (first.symm.trans second)

/-- The addresses in the index are those of the resident blocks, each once. -/
theorem Indexed.perm_keys (h : e.Indexed) (placed : e.Placed src) :
    e.cache.index.keys.Perm ((e.cache.blocks.toList.filter Block.isValid).map (·.entry)) := by
  have stored {b : Block} (hb : b ∈ e.cache.blocks.toList.filter Block.isValid) :
      e.block? b.id = some b ∧ b.isValid = true := by
    obtain ⟨mem, valid⟩ := List.mem_filter.1 hb
    obtain ⟨i, hi⟩ := mem_blocks.1 mem
    rw [placed.id hi]
    exact ⟨hi, valid⟩
  have keys : e.cache.index.keys.Nodup := by
    refine (Std.HashMap.distinct_keys (m := e.cache.index)).imp ?_
    intro a b differ same
    rw [same, beq_self_eq_true] at differ
    cases differ
  have entries : ((e.cache.blocks.toList.filter Block.isValid).map (·.entry)).Nodup := by
    have ids : ((e.cache.blocks.toList.filter Block.isValid).map (·.id)).Nodup :=
      placed.nodup_ids.sublist (List.filter_sublist.map _)
    rw [List.Nodup, List.pairwise_map] at ids ⊢
    refine ids.imp_of_mem fun {b c} hb hc differ same => differ ?_
    exact h.unique (stored hb).1 (stored hb).2 (stored hc).1 (stored hc).2 same
  refine (List.perm_ext_iff_of_nodup keys entries).2 fun pc => ?_
  rw [Std.HashMap.mem_keys, List.mem_map]
  constructor
  · intro present
    obtain ⟨id, found⟩ := Option.isSome_iff_exists.1 (Std.HashMap.mem_iff_isSome_getElem?.1 present)
    obtain ⟨b, hb, valid, entry⟩ := h.index.1 found
    exact ⟨b, List.mem_filter.2 ⟨mem_blocks.2 ⟨id, hb⟩, valid⟩, entry⟩
  · rintro ⟨b, hb, entry⟩
    obtain ⟨atId, valid⟩ := stored hb
    rw [Std.HashMap.mem_iff_isSome_getElem?, h.index.2 ⟨b, atId, valid, entry⟩]
    rfl

theorem Resting.coherent (h : e.Resting src) : e.Coherent := by
  refine ⟨h.indexed.lookup_eq_some, h.indexed.unique, ?_, ?_⟩
  · rw [BlockCache.size, ← Std.HashMap.length_keys, (h.indexed.perm_keys h.placed).length_eq,
      List.length_map, ← List.countP_eq_length_filter]
  · intro k l hl
    obtain ⟨hk, here⟩ := Vector.getElem?_eq_some_iff.1 hl
    obtain ⟨pc, rfl⟩ := JumpCache.exists_index hk
    rw [JumpCache.lines, Vector.getElem_ofFn] at here
    obtain ⟨maps, b, hb, valid, entry, host⟩ := @h.indexed.line pc _ here
    refine ⟨congrArg Fin.val maps, h.indexed.lookup_eq_some.2 ⟨b, hb, valid, entry⟩, b, hb, ?_⟩
    rw [h.placed.codeBase]
    exact host

theorem lookup_withJumps {jumps : JumpCache} (h : e.Indexed) (h' : (e.withJumps jumps).Indexed)
    (pc : UInt32) : (e.withJumps jumps).lookup pc = e.lookup pc := by
  rw [h.lookup, h'.lookup]
  rfl

end Engine

/-- The dispatcher asks for the instructions at the program counter just when no block is found
there. -/
theorem Session.source_resolve {σ : Type} {s : Session σ} {t : Translator σ} {src : Nat → List Insn}
    (made : s.engine.Made src) : (s.resolve t).2.source = match s.engine.lookup s.guest.cpu.pc with
      | some _ => s.source
      | none => (t.translate s.source s.guest.cpu.pc s.engine.config.maxBlockInsns).2 := by
  obtain ⟨jumps, yields, -⟩ := made.resting.yields_find s.guest.cpu.pc
  obtain ⟨log, found⟩ := Session.perform_of_yields yields
  rw [made.resting.indexed.lookup]
  unfold resolve
  simp only [found]
  cases s.engine.cache.index[s.guest.cpu.pc]? <;> rfl

namespace Engine

open Traced

/-- A source that counts how often it is asked. -/
def countingTranslator : Translator Nat := ⟨fun asked pc _ => ([⟨pc, .sc⟩], asked + 1)⟩

end Engine
end Dynarec
