import Dynarec.Proofs.Bytes
import Dynarec.X86.Machine

/-!
Runs of translated code: what the bytes at the instruction pointer make the machine do, one
instruction and one listing at a time.
-/
namespace Dynarec.X86

/-- An instruction with bytes that mean it, whatever stands behind them. -/
structure Coded where
  bytes : List UInt8
  instr : Instr
  short : bytes.length ≤ Machine.maxInstrLength
  decodes : ∀ rest, decode (bytes ++ rest) = some (instr, rest)

/-- The bytes of instructions one behind the other. -/
def assemble (listing : List Coded) : List UInt8 := listing.flatMap (·.bytes)

@[simp] theorem assemble_nil : assemble [] = [] := rfl

@[simp] theorem assemble_cons (c : Coded) (listing : List Coded) :
    assemble (c :: listing) = c.bytes ++ assemble listing := rfl

theorem assemble_append (xs ys : List Coded) : assemble (xs ++ ys) = assemble xs ++ assemble ys :=
  List.flatMap_append

namespace Machine

variable {cx : Context} {m m₁ m₂ : Machine} {n k : Nat}

/-- The machine is in `m₂` after `n` instructions from `m₁`. -/
inductive Reaches (cx : Context) : Nat → Machine → Machine → Prop
  | refl (m : Machine) : Reaches cx 0 m m
  | step {n : Nat} {m m₁ m₂ : Machine} (first : m.step cx = some (.next m₁))
      (rest : Reaches cx n m₁ m₂) : Reaches cx (n + 1) m m₂

theorem Reaches.trans (h : Reaches cx n m m₁) (h' : Reaches cx k m₁ m₂) :
    Reaches cx (n + k) m m₂ := by
  induction h with
  | refl => simpa using h'
  | step first _ ih =>
    rw [Nat.add_right_comm]
    exact .step first (ih h')

/-- A run goes through the machines that are reached. -/
theorem Reaches.run_eq (h : Reaches cx n m m₁) (fuel : Nat) :
    run cx (n + fuel) m = run cx fuel m₁ := by
  induction h with
  | refl => rw [Nat.zero_add]
  | step first _ ih =>
    rw [Nat.add_right_comm, run]
    simp only [first, ih]

/-- A machine with no more fuel than steps to go runs out of it. -/
theorem Reaches.run_short (h : Reaches cx n m m₁) {fuel : Nat} (short : fuel ≤ n) :
    run cx fuel m = .outOfFuel := by
  induction h generalizing fuel with
  | refl =>
    obtain rfl : fuel = 0 := by omega
    rfl
  | step first _ ih =>
    cases fuel with
    | zero => rfl
    | succ fuel =>
      rw [run]
      simp only [first, ih (Nat.le_of_succ_le_succ short)]

/-- The decoder sees the bytes that the buffer holds, with whatever is behind them. -/
theorem window_of_holds {bs : List UInt8} (h : cx.code.Holds m.ip bs)
    (short : bs.length ≤ maxInstrLength) :
    ∃ rest, (cx.code.bytes.extract m.ip (m.ip + maxInstrLength)).toList = bs ++ rest := by
  refine ⟨(cx.code.bytes.extract (m.ip + bs.length) (m.ip + maxInstrLength)).toList, ?_⟩
  apply List.ext_getElem?
  intro k
  rw [Array.getElem?_toList, Array.getElem?_extract]
  by_cases inside : k < bs.length
  · have hbyte := h k inside
    have hk := List.getElem?_eq_getElem inside
    obtain ⟨hin, _⟩ := Array.getElem?_eq_some_iff.1 (hbyte.trans hk)
    rw [if_pos (by omega), hbyte, List.getElem?_append_left inside]
  · rw [List.getElem?_append_right (by omega), Array.getElem?_toList, Array.getElem?_extract]
    by_cases hk : k < min (m.ip + maxInstrLength) cx.code.bytes.size - m.ip
    · rw [if_pos hk, if_pos (by omega)]
      congr 1
      omega
    · rw [if_neg hk, if_neg (by omega)]

/-- The machine carries out the instruction whose bytes it stands at. -/
theorem step_of_holds (c : Coded) (h : cx.code.Holds m.ip c.bytes) :
    m.step cx = exec cx { m with ip := m.ip + c.bytes.length } c.instr := by
  obtain ⟨rest, hwindow⟩ := window_of_holds h c.short
  simp only [step, hwindow, c.decodes, bind, Option.bind, List.length_append, Nat.add_sub_cancel]

/-- Carries out the instructions of a listing one behind the other, up to the first that jumps
away. -/
def follow (cx : Context) (m : Machine) : List Coded → Option Machine
  | [] => some m
  | c :: listing =>
    match exec cx { m with ip := m.ip + c.bytes.length } c.instr with
    | some (.next m') =>
      if m'.ip = m.ip + c.bytes.length then follow cx m' listing else some m'
    | _ => none

section Observation

variable {α : Type} (look : Machine → Instr → List α)

/-- What is to be seen of the instruction at the instruction pointer. -/
def seesHere (cx : Context) (m : Machine) : List α :=
  match decode (cx.code.bytes.extract m.ip (m.ip + maxInstrLength)).toList with
  | some (i, _) => look m i
  | none => []

/-- What is to be seen of the next `n` instructions, in order. -/
def sees (cx : Context) : Nat → Machine → List α
  | 0, _ => []
  | n + 1, m =>
    m.seesHere look cx ++ match m.step cx with
      | some (.next m') => sees cx n m'
      | _ => []

/-- What is to be seen of the instructions of a listing, up to the first that jumps away. -/
def seesAlong (cx : Context) (m : Machine) : List Coded → List α
  | [] => []
  | c :: listing =>
    look m c.instr ++ match exec cx { m with ip := m.ip + c.bytes.length } c.instr with
      | some (.next m') => if m'.ip = m.ip + c.bytes.length then seesAlong cx m' listing else []
      | _ => []

theorem seesAlong_cons_next {c : Coded} {listing : List Coded}
    (hexec : exec cx { m with ip := m.ip + c.bytes.length } c.instr = some (.next m₁))
    (stays : m₁.ip = m.ip + c.bytes.length) :
    m.seesAlong look cx (c :: listing) = look m c.instr ++ m₁.seesAlong look cx listing := by
  rw [seesAlong, hexec]
  dsimp only
  rw [if_pos stays]

theorem seesAlong_cons_away {c : Coded} {listing : List Coded}
    (hexec : exec cx { m with ip := m.ip + c.bytes.length } c.instr = some (.next m₁))
    (away : m₁.ip ≠ m.ip + c.bytes.length) :
    m.seesAlong look cx (c :: listing) = look m c.instr := by
  rw [seesAlong, hexec]
  dsimp only
  rw [if_neg away, List.append_nil]

theorem seesAlong_singleton (c : Coded) : m.seesAlong look cx [c] = look m c.instr := by
  rw [seesAlong]
  cases exec cx { m with ip := m.ip + c.bytes.length } c.instr with
  | none => exact List.append_nil _
  | some progress =>
    cases progress with
    | leave code guest => exact List.append_nil _
    | next m' =>
      dsimp only
      rw [seesAlong, ite_self, List.append_nil]

theorem seesHere_of_holds (c : Coded) (h : cx.code.Holds m.ip c.bytes) :
    m.seesHere look cx = look m c.instr := by
  obtain ⟨rest, hwindow⟩ := window_of_holds h c.short
  rw [seesHere, hwindow, c.decodes]

theorem Reaches.sees_add (h : Reaches cx n m m₁) (k : Nat) :
    m.sees look cx (n + k) = m.sees look cx n ++ m₁.sees look cx k := by
  induction h with
  | refl => rw [Nat.zero_add, sees, List.nil_append]
  | step first _ ih =>
    rw [Nat.add_right_comm, sees, sees, first]
    dsimp only
    rw [ih, List.append_assoc]

/-- Code goes where its listing leads, and of it is seen what is seen of the listing. -/
theorem sees_of_follow {listing : List Coded} (holds : cx.code.Holds m.ip (assemble listing))
    (h : follow cx m listing = some m₁) :
    ∃ n, Reaches cx n m m₁ ∧ (listing ≠ [] → 0 < n) ∧
      m.sees look cx n = m.seesAlong look cx listing := by
  induction listing generalizing m with
  | nil =>
    obtain rfl := Option.some.inj h
    exact ⟨0, .refl m, fun h => absurd rfl h, rfl⟩
  | cons c listing ih =>
    obtain ⟨here, behind⟩ := CodeBuffer.holds_append.1 holds
    have seen := seesHere_of_holds look c here
    have hstep := step_of_holds c here
    cases hexec : exec cx { m with ip := m.ip + c.bytes.length } c.instr with
    | none =>
      rw [follow, hexec] at h
      cases h
    | some progress =>
      rw [follow, hexec] at h
      rw [hexec] at hstep
      cases progress with
      | leave code guest => cases h
      | next m' =>
        dsimp only at h
        by_cases hip : m'.ip = m.ip + c.bytes.length
        · rw [if_pos hip] at h
          obtain ⟨n, reaches, -, rest⟩ := ih (hip ▸ behind) h
          refine ⟨n + 1, .step hstep reaches, fun _ => Nat.succ_pos n, ?_⟩
          rw [seesAlong_cons_next look hexec hip, sees, seen, hstep]
          exact congrArg _ rest
        · rw [if_neg hip] at h
          obtain rfl := Option.some.inj h
          refine ⟨1, .step hstep (.refl _), fun _ => Nat.one_pos, ?_⟩
          rw [seesAlong_cons_away look hexec hip, sees, seen, hstep]
          exact List.append_nil _

end Observation

/-- A machine whose code holds a listing reaches what following the listing leads to. -/
theorem reaches_of_follow {listing : List Coded} (holds : cx.code.Holds m.ip (assemble listing))
    (h : follow cx m listing = some m₁) :
    ∃ n, Reaches cx n m m₁ ∧ (listing ≠ [] → 0 < n) := by
  obtain ⟨n, reaches, pos, -⟩ := sees_of_follow (fun _ _ => ([] : List Unit)) holds h
  exact ⟨n, reaches, pos⟩

/-- The registers that translated code never changes hold what the entry code has put there. -/
structure Poised (cx : Context) (m : Machine) : Prop where
  env : m.regs.rbp = .ptr .registerFile 0
  regionA : m.regs.r14 = .num cx.regions.a
  regionB : m.regs.r15 = .num cx.regions.b

end Machine

/-- Translated code at offset `p` takes every guest in state `g` to offset `q` and state `g'`. -/
def Goes (cx : Context) (p : Nat) (g : GuestState) (q : Nat) (g' : GuestState) : Prop :=
  ∀ m : Machine, m.Poised cx → m.ip = p → m.guest = g →
    ∃ n m', 0 < n ∧ m.Reaches cx n m' ∧ m'.Poised cx ∧ m'.ip = q ∧ m'.guest = g' ∧
      m'.stack = m.stack

variable {cx : Context} {p q r : Nat} {g g' g'' : GuestState}

/-- Effects of code that is run in turn are composed. -/
theorem Goes.trans (h : Goes cx p g q g') (h' : Goes cx q g' r g'') : Goes cx p g r g'' := by
  intro m poised hip hguest
  obtain ⟨n, m₁, pos, reaches, poised₁, hip₁, hguest₁, hstack₁⟩ := h m poised hip hguest
  obtain ⟨k, m₂, _, reaches', poised₂, hip₂, hguest₂, hstack₂⟩ := h' m₁ poised₁ hip₁ hguest₁
  exact ⟨n + k, m₂, by omega, reaches.trans reaches', poised₂, hip₂, hguest₂, hstack₂.trans hstack₁⟩

theorem goes_of_follow {listing : List Coded} (holds : cx.code.Holds p (assemble listing))
    (nonempty : listing ≠ [])
    (effect : ∀ m : Machine, m.Poised cx → m.ip = p → m.guest = g →
      ∃ m', m.follow cx listing = some m' ∧ m'.Poised cx ∧ m'.ip = q ∧ m'.guest = g' ∧
        m'.stack = m.stack) :
    Goes cx p g q g' := by
  intro m poised hip hguest
  obtain ⟨m', hfollow, rest⟩ := effect m poised hip hguest
  obtain ⟨n, reaches, pos⟩ := Machine.reaches_of_follow (hip ▸ holds) hfollow
  exact ⟨n, m', pos nonempty, reaches, rest⟩

end Dynarec.X86
