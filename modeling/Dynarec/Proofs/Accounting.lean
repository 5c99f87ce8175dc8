import Dynarec.Proofs.Coherence
import Dynarec.Proofs.Renewal
import Dynarec.Proofs.Roster

/-!
Block accounting. A ledger is kept of what operations do to blocks: which they publish, which they
take out of use, and which a flush drops. The counters of an engine agree with it, and every block
has one fate.
-/
namespace Dynarec

/-- A block for the ledger. A flush starts the numbers of blocks anew, so that the number of flushes
before the block is part of its name. -/
structure Serial where
  era : Nat
  id : BlockId
  deriving DecidableEq

/-- A block that was published: the instructions that it was made from, and how many of them it
counts. -/
structure Publication where
  serial : Serial
  insns : List Insn
  icount : Nat

/-- What operations have done to the blocks of an engine, the oldest first. -/
structure Ledger where
  published : List Publication := []
  retired : List Serial := []
  /-- Each flush with the blocks that were resident then. -/
  flushes : List (FlushReason × List Serial) := []

/-- The blocks that are in use. -/
def Engine.residents (e : Engine) : List BlockId :=
  (e.cache.blocks.toList.filter Block.isValid).map (·.id)

namespace Ledger

variable {l : Ledger} {counts : Stats} {residents : List BlockId} {next : Nat}

/-- The name of a block that is published before the next flush. -/
def serial (l : Ledger) (id : BlockId) : Serial := ⟨l.flushes.length, id⟩

def publish (l : Ledger) (id : BlockId) (insns : List Insn) (icount : Nat) : Ledger :=
  { l with published := l.published ++ [⟨l.serial id, insns, icount⟩] }

/-- The blocks have been taken out of use that were resident before and are not after. -/
def retire (l : Ledger) (before after : List BlockId) : Ledger :=
  { l with retired := l.retired ++ (before.filter (· ∉ after)).map l.serial }

def flush (l : Ledger) (reason : FlushReason) (residents : List BlockId) : Ledger :=
  { l with flushes := l.flushes ++ [(reason, residents.map l.serial)] }

/-- What happens to the blocks of `e` before a block of the given size is published in `c`: if the
buffer has no room for it all of them go, and otherwise those that are not resident any more. -/
def makeRoom (l : Ledger) (e c : Engine) (size : Nat) : Ledger :=
  if size ≤ e.buffer.remaining then l.retire e.residents c.residents
  else l.flush .capacity e.residents

def serials (l : Ledger) : List Serial := l.published.map (·.serial)

/-- All blocks that flushes have dropped. -/
def dropped (l : Ledger) : List Serial := l.flushes.flatMap (·.2)

theorem retire_self (l : Ledger) (ids : List BlockId) : l.retire ids ids = l := by
  have nobody : ids.filter (· ∉ ids) = [] := by simp
  rw [retire, nobody, List.map_nil, List.append_nil]

/-- The counters agree with the ledger, and each published block is resident, was taken out of use
or was dropped by a flush, one of these and once. The next block has the number `next`. -/
structure Balances (l : Ledger) (counts : Stats) (residents : List BlockId) (next : Nat) :
    Prop where
  translated : counts.blocksTranslated = l.published.length
  insns : counts.insnsTranslated = (l.published.map (·.icount)).sum
  icounts : ∀ q ∈ l.published, q.icount = (basicBlock q.insns).length
  flushes : counts.flushes = l.flushes.length
  invalidated : counts.invalidatedBlocks = l.retired.length
  past : ∀ q ∈ l.published, q.serial.era < l.flushes.length ∨
    (q.serial.era = l.flushes.length ∧ q.serial.id.index < next)
  once : l.serials.Nodup
  fates : l.serials.Perm (residents.map l.serial ++ l.retired ++ l.dropped)

theorem balances_nil : Balances {} {} [] 0 := by
  refine ⟨rfl, rfl, ?_, rfl, rfl, ?_, List.nodup_nil, .refl _⟩
  · intro q hq
    cases hq
  · intro q hq
    cases hq

theorem Balances.publish (h : l.Balances counts residents next) {insns : List Insn} {icount : Nat}
    (counted : icount = (basicBlock insns).length) :
    (l.publish ⟨next⟩ insns icount).Balances
      (counts.plus { blocksTranslated := 1, insnsTranslated := icount }) (residents ++ [⟨next⟩])
      (next + 1) where
  translated := by simp [Ledger.publish, Stats.plus, h.translated]
  insns := by simp [Ledger.publish, Stats.plus, h.insns]
  icounts := by
    intro q hq
    rcases List.mem_append.1 hq with hq | hq
    · exact h.icounts q hq
    · cases List.mem_singleton.1 hq
      exact counted
  flushes := h.flushes
  invalidated := h.invalidated
  past := by
    intro q hq
    rcases List.mem_append.1 hq with hq | hq
    · rcases h.past q hq with earlier | ⟨now, below⟩
      · exact .inl earlier
      · exact .inr ⟨now, Nat.lt_succ_of_lt below⟩
    · cases List.mem_singleton.1 hq
      exact .inr ⟨rfl, Nat.lt_succ_self next⟩
  once := by
    rw [serials, Ledger.publish, List.map_append, List.nodup_append]
    refine ⟨h.once, by simp, ?_⟩
    rintro s hs _ new rfl
    obtain ⟨q, hq, rfl⟩ := List.mem_map.1 hs
    have same : q.serial = l.serial ⟨next⟩ := by simpa using new
    rcases h.past q hq with earlier | ⟨-, below⟩
    · rw [same] at earlier
      exact Nat.lt_irrefl _ earlier
    · rw [same] at below
      exact Nat.lt_irrefl _ below
  fates := by
    show ((l.published ++ [_]).map Publication.serial).Perm
      ((residents ++ [_]).map l.serial ++ l.retired ++ l.dropped)
    rw [List.map_append, List.map_append]
    refine (h.fates.append_right _).trans ?_
    simp only [List.append_assoc]
    refine List.Perm.append_left _ ?_
    rw [← List.append_assoc]
    exact List.perm_append_comm

theorem Balances.retire (h : l.Balances counts residents next) {rest : List BlockId}
    (nodup : residents.Nodup) (nodup' : rest.Nodup) (sub : rest ⊆ residents) :
    (l.retire residents rest).Balances
      (counts.plus { invalidatedBlocks := (residents.filter (· ∉ rest)).length }) rest next where
  translated := h.translated
  insns := h.insns
  icounts := h.icounts
  flushes := h.flushes
  invalidated := by simp [Ledger.retire, Stats.plus, h.invalidated]
  past := h.past
  once := h.once
  fates := by
    have kept : (residents.filter (· ∈ rest)).Perm rest := by
      refine (List.perm_ext_iff_of_nodup (nodup.filter _) nodup').2 fun id => ?_
      simp only [List.mem_filter, decide_eq_true_eq]
      exact ⟨And.right, fun mem => ⟨sub mem, mem⟩⟩
    have split : (rest ++ residents.filter (· ∉ rest)).Perm residents := by
      refine (kept.symm.append_right _).trans ?_
      simpa using List.filter_append_perm (· ∈ rest) residents
    refine h.fates.trans ((((split.symm.map l.serial).append_right _).append_right _).trans ?_)
    show List.Perm _
      (rest.map l.serial ++ (l.retired ++ (residents.filter (· ∉ rest)).map l.serial) ++ l.dropped)
    rw [List.map_append, List.append_assoc (rest.map l.serial)]
    exact (List.perm_append_comm.append_left _).append_right _

theorem Balances.flush (h : l.Balances counts residents next) (reason : FlushReason) :
    (l.flush reason residents).Balances (counts.plus { flushes := 1 }) [] 0 where
  translated := h.translated
  insns := h.insns
  icounts := h.icounts
  flushes := by simp [Ledger.flush, Stats.plus, h.flushes]
  invalidated := h.invalidated
  past := by
    intro q hq
    have : (l.flush reason residents).flushes.length = l.flushes.length + 1 := by
      simp [Ledger.flush]
    rcases h.past q hq with earlier | ⟨now, -⟩
    · exact .inl (by omega)
    · exact .inl (by omega)
  once := h.once
  fates := by
    have moved : (residents.map l.serial ++ l.retired ++ l.dropped).Perm
        (l.retired ++ (l.dropped ++ residents.map l.serial)) := by
      rw [List.append_assoc, ← List.append_assoc l.retired]
      exact List.perm_append_comm
    refine h.fates.trans (moved.trans ?_)
    simp [Ledger.flush, Ledger.dropped]

end Ledger

theorem Engine.icount_of_plan {e : Engine} {pc : UInt32} {insns : List Insn} {p : Plan}
    (h : e.plan pc insns = .ok p) : p.icount = (basicBlock insns).length := by
  simp only [plan] at h
  split at h
  · cases h
  · obtain ⟨parts, -, h⟩ := bind_eq_ok.1 h
    split at h
    · cases h
      rfl
    · obtain ⟨tail, -, h⟩ := bind_eq_ok.1 h
      cases h
      rfl

namespace Engine

open Traced

variable {e c : Engine} {src : Nat → List Insn} {l : Ledger} {id : BlockId} {victims : List BlockId}

theorem residents_eq_roster (e : Engine) :
    e.residents = (e.roster.blocks.filter (·.2)).map (·.1.id) := by
  rw [roster, List.filter_map, List.map_map]
  rfl

theorem Placed.mem_residents (h : e.Placed src) :
    id ∈ e.residents ↔ ∃ b, e.block? id = some b ∧ b.isValid = true :=
  mem_selected h.id

theorem Placed.nodup_residents (h : e.Placed src) : e.residents.Nodup :=
  h.nodup_ids.sublist (List.filter_sublist.map _)

theorem Resting.length_residents (h : e.Resting src) : e.residents.length = e.cache.size := by
  rw [h.coherent.size, residents, List.length_map, List.countP_eq_length_filter]

/-- The ledger agrees with the engine. -/
def Balanced (e : Engine) (l : Ledger) : Prop :=
  l.Balances e.roster.counts e.residents e.cache.blocks.size

theorem Operated.mem_residents (h : e.Operated src (.removal e victims victims) c)
    (resting : e.Resting src) : id ∈ c.residents ↔ id ∈ e.residents ∧ id ∉ victims := by
  rw [(h.placed resting).mem_residents, resting.placed.mem_residents]
  constructor
  · rintro ⟨b, hb, valid⟩
    obtain ⟨b₀, hb₀, rfl⟩ := h.block_of hb
    simp only [Surgery.isValid_block, Surgery.removal, Bool.and_eq_true, Bool.not_eq_true',
      decide_eq_false_iff_not] at valid
    exact ⟨⟨b₀, hb₀, valid.2⟩, valid.1⟩
  · rintro ⟨⟨b, hb, valid⟩, stays⟩
    refine ⟨_, h.block hb, ?_⟩
    simp [Surgery.isValid_block, Surgery.removal, valid, stays]

/-- Blocks that are taken out of use are counted. -/
theorem Operated.balanced (h : e.Operated src (.removal e victims victims) c)
    (resting : e.Resting src)
    (stats : c.stats = e.stats.plus { invalidatedBlocks := victims.length }) (nodup : victims.Nodup)
    (resident : victims ⊆ e.residents) (balanced : e.Balanced l) :
    c.Balanced (l.retire e.residents c.residents) := by
  have before := resting.placed.nodup_residents
  have after := (h.placed resting).nodup_residents
  have gone : (e.residents.filter (· ∉ c.residents)).Perm victims := by
    refine (List.perm_ext_iff_of_nodup (before.filter _) nodup).2 fun id => ?_
    rw [List.mem_filter, decide_eq_true_eq, h.mem_residents resting]
    constructor
    · rintro ⟨mem, left⟩
      exact Classical.byContradiction fun stays => left ⟨mem, stays⟩
    · exact fun mem => ⟨resident mem, fun left => left.2 mem⟩
  have size : c.cache.blocks.size = e.cache.blocks.size := by
    simpa [Engine.bodies] using congrArg Array.size h.bodies
  have counts : c.roster.counts = e.roster.counts.plus { invalidatedBlocks := victims.length } :=
    congrArg Roster.counts (h.roster_eq_drop stats)
  have := Ledger.Balances.retire balanced before after fun id mem =>
    ((h.mem_residents resting).1 mem).1
  rwa [gone.length_eq, ← counts, ← size] at this

theorem Emptied.balanced (h : e.Emptied c) (resting : e.Resting src) (reason : FlushReason)
    (balanced : e.Balanced l) : c.Balanced (l.flush reason e.residents) := by
  have cleared := h.roster_eq_clear resting.placed
  have counts : c.roster.counts = e.roster.counts.plus { flushes := 1 } :=
    congrArg Roster.counts cleared
  have blocks : c.cache.blocks = #[] := by rw [h]; rfl
  have residents : c.residents = [] := by rw [Engine.residents, blocks]; rfl
  rw [Balanced, counts, residents, blocks]
  exact Ledger.Balances.flush balanced reason

section Emission

variable {pc : UInt32} {insns : List Insn} {p : Plan} {d : Draft} {e₁ : Engine} {n : Nat}

theorem Cleared.balanced (h : e.Cleared src pc n c) (resting : e.Resting src)
    (balanced : e.Balanced l) : c.Balanced (l.makeRoom e c n) := by
  cases h with
  | free fits absent =>
    rw [Ledger.makeRoom, if_pos fits, Ledger.retire_self]
    exact balanced
  | @replaced _ old fits found yields removed =>
    rw [Ledger.makeRoom, if_pos fits]
    obtain ⟨b, hb, valid, -⟩ := resting.indexed.index.1 found
    have resident : [old] ⊆ e.residents := by
      intro id mem
      rw [List.mem_singleton.1 mem]
      exact resting.placed.mem_residents.2 ⟨b, hb, valid⟩
    exact removed.balanced resting (stats_invalidateBlocks (yields #[])) (List.nodup_singleton old)
      resident balanced
  | flushed full emptied =>
    rw [Ledger.makeRoom, if_neg full]
    exact emptied.balanced resting .capacity balanced

namespace Emission

variable (h : e.Emission src pc insns e₁ p d c)
include h

theorem residents_eq : c.residents = e₁.residents ++ [e₁.nextId] := by
  rw [residents_eq_roster, residents_eq_roster, h.roster_eq_add, Roster.add, List.filter_append,
    List.map_append]
  show _ = _ ++ [BlockId.mk e₁.cache.blocks.size]
  rw [← length_roster]
  rfl

/-- The new block is not among those that make room for it. -/
theorem makeRoom_eq (resting : e.Resting src) : l.makeRoom e c p.size = l.makeRoom e e₁ p.size := by
  unfold Ledger.makeRoom
  split
  · next fits =>
    have same : e₁.cache.blocks.size = e.cache.blocks.size := by
      cases h.cleared with
      | free => rfl
      | replaced _ _ _ removed => simpa [Engine.bodies] using congrArg Array.size removed.bodies
      | flushed full => exact absurd fits full
    have others : e.residents.filter (· ∉ c.residents) = e.residents.filter (· ∉ e₁.residents) := by
      refine List.filter_congr fun id mem => ?_
      obtain ⟨b, hb, -⟩ := resting.placed.mem_residents.1 mem
      have old : id ≠ e₁.nextId := by
        intro new
        have below := (Array.getElem?_eq_some_iff.1 hb).1
        rw [new] at below
        exact Nat.lt_irrefl _ (same ▸ below)
      rw [h.residents_eq, decide_eq_decide, List.mem_append, List.mem_singleton]
      exact not_congr (or_iff_left old)
    rw [Ledger.retire, others]
    rfl
  · rfl

theorem balanced (planned : e.plan pc insns = .ok p) (resting : e.Resting src)
    (balanced : e.Balanced l) :
    c.Balanced ((l.makeRoom e c p.size).publish e₁.nextId insns p.icount) := by
  have cleared := h.cleared.balanced resting balanced
  have published := Ledger.Balances.publish cleared (icount_of_plan planned)
  have counts :
      c.roster.counts =
        e₁.roster.counts.plus { blocksTranslated := 1, insnsTranslated := p.icount } :=
    congrArg Roster.counts h.roster_eq_add
  have size : c.cache.blocks.size = e₁.cache.blocks.size + 1 := by
    have := congrArg (·.blocks.length) h.roster_eq_add
    simpa [length_roster, Roster.add] using this
  rw [h.makeRoom_eq resting, Balanced, counts, h.residents_eq, size]
  exact published

theorem icount_eq {b : Block} (stored : c.block? e₁.nextId = some b) : b.icount = p.icount := by
  obtain ⟨b', hb', body, -⟩ := h.relinked.block block?_published_nextId
  obtain rfl := Option.some.inj (stored.symm.trans hb')
  exact (show b.body.icount = (e₁.newBlock pc p d).body.icount by rw [body])

end Emission
end Emission

/-- The engine has been made by operations, and the ledger tells what they have done to its
blocks. -/
inductive Audited : Engine → Ledger → Prop
  | create {base : Nat} {config : Config} {e : Engine}
      (created : create base X86.registry config = .ok e) : Audited e {}
  | emitBlock {e c : Engine} {l : Ledger} {pc : UInt32} {insns : List Insn} {p : Plan} {b : Block}
      {id : BlockId} {log : Array Event} (h : Audited e l) (planned : e.plan pc insns = .ok p)
      (done : ((EngineM.emitBlock pc insns).perform e log).1 = (.ok id, c))
      (stored : c.cache.get id = .ok b) :
      Audited c ((l.makeRoom e c p.size).publish id insns b.icount)
  | refuse {e c : Engine} {l : Ledger} {pc : UInt32} {insns : List Insn} {fault : Fault}
      {log : Array Event} (h : Audited e l)
      (failed : ((EngineM.emitBlock pc insns).perform e log).1 = (.error fault, c)) : Audited c l
  | invalidateRange {e c : Engine} {l : Ledger} {start : UInt32} {stop n : Nat} {log : Array Event}
      (h : Audited e l)
      (done : ((EngineM.invalidateRange start stop).perform e log).1 = (.ok n, c)) :
      Audited c (l.retire e.residents c.residents)
  | invalidateAll {e c : Engine} {l : Ledger} {log : Array Event} (h : Audited e l)
      (done : (EngineM.invalidateAll.perform e log).1 = (.ok (), c)) :
      Audited c (l.flush .explicit e.residents)
  | find {e c : Engine} {l : Ledger} {pc : UInt32} {found : Option BlockId} {log : Array Event}
      (h : Audited e l) (done : ((EngineM.find pc).perform e log).1 = (.ok found, c)) : Audited c l

theorem balanced_of_create {base : Nat} {config : Config}
    (created : create base X86.registry config = .ok e) : e.Balanced {} := by
  obtain ⟨capacity, rfl, -⟩ := create_inv created
  exact Ledger.balances_nil

/-- Each operation keeps the ledger balanced. -/
theorem Audited.balanced (h : e.Audited l) : ∃ src, e.Made src ∧ e.Balanced l := by
  induction h with
  | create created => exact ⟨fun _ => [], .create _ created, balanced_of_create created⟩
  | @emitBlock e c l pc insns p b id log _ planned done stored ih =>
    obtain ⟨src, made, balanced⟩ := ih
    obtain ⟨fault, told, failed⟩ | ⟨-, p', planned', fits⟩ := emitBlock_fails_or_fits e pc insns
    · cases (failed log).symm.trans done
    · obtain rfl : p = p' := Except.ok.inj (planned.symm.trans planned')
      obtain ⟨e₁, d, c', emission⟩ := made.resting.exists_emission planned fits
      have made' := made.emitBlock done
      cases (emission.yields planned log).symm.trans done
      rw [emission.icount_eq (get_eq_ok.1 stored)]
      exact ⟨_, made', emission.balanced planned made.resting balanced⟩
  | @refuse e c l pc insns fault log _ failed ih =>
    obtain ⟨src, made, balanced⟩ := ih
    obtain ⟨fault', -, yields⟩ | ⟨-, id', c', yields, -⟩ := made.resting.yields_emitBlock pc insns
    · cases (yields log).symm.trans failed
      exact ⟨src, made, balanced⟩
    · cases (yields log).symm.trans failed
  | @invalidateRange e c l start stop n log _ done ih =>
    obtain ⟨src, made, balanced⟩ := ih
    have made' := made.invalidateRange start stop log
    rw [done] at made'
    obtain ⟨c', yields, removed⟩ := made.resting.yields_invalidateAffected start stop
    cases (yields_invalidateRange_of yields log).symm.trans done
    refine ⟨src, made', removed.balanced made.resting (stats_invalidateBlocks (yields #[]))
      made.resting.placed.nodup_affectedBy (fun id mem => ?_) balanced⟩
    obtain ⟨b, hb, valid, -⟩ := made.resting.placed.mem_affectedBy.1 mem
    exact made.resting.placed.mem_residents.2 ⟨b, hb, valid⟩
  | @invalidateAll e c l log _ done ih =>
    obtain ⟨src, made, balanced⟩ := ih
    have made' := made.invalidateAll log
    rw [done] at made'
    obtain ⟨c', yields, emptied⟩ := yields_invalidateAll (e := e)
    cases (yields log).symm.trans done
    exact ⟨src, made', emptied.balanced made.resting .explicit balanced⟩
  | @find e c l pc found log _ done ih =>
    obtain ⟨src, made, balanced⟩ := ih
    have made' := made.find pc log
    rw [done] at made'
    obtain ⟨jumps, yields, -⟩ := made.resting.yields_find pc
    cases (yields log).symm.trans done
    exact ⟨src, made', balanced⟩

/-- A ledger can be kept of every operation, so a run, which is made of operations, has one too. -/
theorem lasting_audited : Lasting fun e => ∃ l, e.Audited l where
  find := by
    rintro e ⟨l, audited⟩ pc log
    obtain ⟨src, made, -⟩ := audited.balanced
    obtain ⟨jumps, yields, -⟩ := made.resting.yields_find pc
    have done := yields log
    rw [done]
    exact ⟨l, audited.find done⟩
  emitBlock := by
    rintro e ⟨l, audited⟩ pc insns log
    obtain ⟨src, made, -⟩ := audited.balanced
    obtain ⟨fault, told, failed⟩ | ⟨-, p, planned, fits⟩ := emitBlock_fails_or_fits e pc insns
    · have done := failed log
      rw [done]
      exact ⟨l, audited.refuse done⟩
    · obtain ⟨e₁, d, c, emission⟩ := made.resting.exists_emission planned fits
      have done := emission.yields planned log
      obtain ⟨b, hb, -⟩ := emission.emitted.block
      rw [done]
      exact ⟨_, audited.emitBlock planned done (get_eq_ok.2 hb)⟩
  invalidateRange := by
    rintro e ⟨l, audited⟩ start stop log
    obtain ⟨src, made, -⟩ := audited.balanced
    obtain ⟨c, yields, -⟩ := made.resting.yields_invalidateRange start stop
    have done := yields log
    rw [done]
    exact ⟨_, audited.invalidateRange done⟩

theorem Reachable.audited (h : e.Reachable) : ∃ l, e.Audited l := by
  induction h with
  | create created => exact ⟨{}, .create created⟩
  | emitBlock _ pc insns log ih => exact lasting_audited.emitBlock ih pc insns log
  | invalidateRange _ start stop log ih => exact lasting_audited.invalidateRange ih start stop log
  | @invalidateAll e _ log ih =>
    obtain ⟨l, audited⟩ := ih
    obtain ⟨c, yields, -⟩ := yields_invalidateAll (e := e)
    have done := yields log
    rw [done]
    exact ⟨_, audited.invalidateAll done⟩
  | run _ t handlers fuel ih => exact Session.engine_run lasting_audited ih handlers fuel

/-- Blocks are conserved. A ledger can be kept of every engine that operations lead to, and whatever
ledger has been kept, the counters agree with it: a published block is resident, has been taken out
of use or was dropped by a flush, one of these and once. -/
theorem Reachable.blocks_conserved (h : e.Reachable) : (∃ l, e.Audited l) ∧ ∀ l, e.Audited l →
    e.stats.blocksTranslated =
      e.cache.size + e.stats.invalidatedBlocks + (l.flushes.map fun flush => flush.2.length).sum ∧
    e.stats.insnsTranslated = (l.published.map (·.icount)).sum ∧
    (∀ q ∈ l.published, q.icount = (basicBlock q.insns).length) ∧
    e.stats.blocksTranslated = l.published.length ∧
    e.stats.invalidatedBlocks = l.retired.length ∧
    e.stats.flushes = l.flushes.length ∧
    l.serials.Nodup ∧ l.serials.Perm (e.residents.map l.serial ++ l.retired ++ l.dropped) := by
  refine ⟨h.audited, fun l audited => ?_⟩
  obtain ⟨src, made, balanced⟩ := audited.balanced
  refine ⟨?_, balanced.insns, balanced.icounts, balanced.translated, balanced.invalidated,
    balanced.flushes, balanced.once, balanced.fates⟩
  have total : l.published.length = e.residents.length + l.retired.length + l.dropped.length := by
    have := balanced.fates.length_eq
    simpa [Ledger.serials, Nat.add_assoc] using this
  have dropped : l.dropped.length = (l.flushes.map fun flush => flush.2.length).sum := by
    rw [Ledger.dropped, List.length_flatMap]
  have translated : e.stats.blocksTranslated = l.published.length := balanced.translated
  have invalidated : e.stats.invalidatedBlocks = l.retired.length := balanced.invalidated
  rw [translated, invalidated, total, made.resting.length_residents, dropped]

/-- The roster behind an emission, in any engine that the one-page engine has become. -/
theorem Reaches.roster_emitBlock (h : onePage.Reaches e) (pc : UInt32) (insns : List Insn)
    (log : Array Event) :
    ((EngineM.emitBlock pc insns).perform e log).1.2.roster =
      (e.roster.emit onePage pc insns).2 := by
  obtain ⟨src, made⟩ := reachable_onePage.made
  obtain ⟨src', made', continues⟩ := h.later made
  have kin : onePage.Kin e := kin_of_frame continues.frame.symm
  rw [made'.resting.roster_emitBlock kin rfl]

theorem Reaches.roster_invalidateAll (h : onePage.Reaches e) (log : Array Event) :
    (EngineM.invalidateAll.perform e log).1.2.roster = e.roster.clear := by
  obtain ⟨src, made⟩ := reachable_onePage.made
  obtain ⟨src', made', -⟩ := h.later made
  obtain ⟨c, yields, emptied⟩ := yields_invalidateAll (e := e)
  rw [yields log]
  exact emptied.roster_eq_clear made'.resting.placed

/-- The loop is emitted three times. The second takes the place of the first, and then a flush drops
it. -/
theorem countdown_conserved : ∃ (e : Engine) (l : Ledger), e.Reachable ∧ e.Audited l ∧
    e.stats.blocksTranslated = 3 ∧ e.stats.insnsTranslated = 9 ∧ e.cache.size = 1 ∧
    e.stats.invalidatedBlocks = 1 ∧ (l.flushes.map fun flush => flush.2.length).sum = 1 := by
  have first := (Reaches.refl (e := onePage)).emitBlock 0x100 countdown #[]
  have second := first.emitBlock 0x100 countdown #[]
  have third := second.invalidateAll #[]
  have reachable :=
    (((reachable_onePage.emitBlock 0x100 countdown #[]).emitBlock 0x100 countdown #[]).invalidateAll
      #[]).emitBlock 0x100 countdown #[]
  have roster := third.roster_emitBlock 0x100 countdown #[]
  rw [second.roster_invalidateAll, first.roster_emitBlock, Reaches.refl.roster_emitBlock] at roster
  generalize ((EngineM.emitBlock 0x100 countdown).perform _ #[]).1.2 = e at reachable roster
  have counts : e.roster.counts =
      { blocksTranslated := 3, insnsTranslated := 9, flushes := 1, invalidatedBlocks := 1 } := by
    rw [roster]
    decide +kernel
  have used : e.residents.length = 1 := by
    rw [residents_eq_roster, roster]
    decide +kernel
  obtain ⟨src, made⟩ := reachable.made
  rw [made.resting.length_residents] at used
  obtain ⟨⟨l, audited⟩, conserved⟩ := reachable.blocks_conserved
  obtain ⟨total, -⟩ := conserved l audited
  have translated : e.stats.blocksTranslated = 3 := congrArg Stats.blocksTranslated counts
  have invalidated : e.stats.invalidatedBlocks = 1 := congrArg Stats.invalidatedBlocks counts
  exact ⟨e, l, reachable, audited, translated, congrArg Stats.insnsTranslated counts, used,
    invalidated, by omega⟩

end Engine
end Dynarec
