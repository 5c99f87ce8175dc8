import Mathlib

/-!
Histories in which the latest call that matters decides. An observation that each call settles or
leaves as it was depends on the whole history only through the latest call that settles it.
-/
namespace Dynarec

variable {σ γ : Type} {among kind : γ → Prop} {calls : List γ} {c : γ}

/-- Among the calls that matter there is a latest one, and it is of the kind. -/
def LatestIs (among kind : γ → Prop) (calls : List γ) : Prop :=
  ∃ earlier c later, calls = earlier ++ c :: later ∧ among c ∧ kind c ∧ ∀ d ∈ later, ¬ among d

theorem not_latestIs_nil : ¬ LatestIs among kind [] := by
  rintro ⟨earlier, c, later, nothing, -⟩
  simp at nothing

/-- A further call is the latest itself if it matters, and leaves the latest as it was otherwise. -/
theorem latestIs_append :
    LatestIs among kind (calls ++ [c]) ↔
      (among c ∧ kind c) ∨ (¬ among c ∧ LatestIs among kind calls) := by
  constructor
  · rintro ⟨earlier, d, later, same, matters, hd, quiet⟩
    rcases List.eq_nil_or_concat later with rfl | ⟨between, last, rfl⟩
    · obtain ⟨-, ends⟩ := List.append_inj' same rfl
      cases ends
      exact .inl ⟨matters, hd⟩
    · have split : calls ++ [c] = (earlier ++ d :: between) ++ [last] := by simpa using same
      obtain ⟨rfl, ends⟩ := List.append_inj' split rfl
      cases ends
      exact .inr ⟨quiet c (by simp), earlier, d, between, rfl, matters, hd,
        fun e he => quiet e (by simp [he])⟩
  · rintro (⟨matters, hc⟩ | ⟨idle, earlier, d, later, rfl, matters, hd, quiet⟩)
    · exact ⟨calls, c, [], rfl, matters, hc, by simp⟩
    · refine ⟨earlier, d, later ++ [c], by simp, matters, hd, fun e he => ?_⟩
      rcases List.mem_append.1 he with old | new
      · exact quiet e old
      · exact List.mem_singleton.1 new ▸ idle

/-- What holds behind a call just if the call makes it hold, or leaves it and it held before, holds
behind calls just if the latest that does not leave it makes it hold. -/
theorem foldl_iff_latestIs {step : σ → γ → σ} {P : σ → Prop} {s : σ} (start : ¬ P s)
    (each : ∀ s c, P (step s c) ↔ (among c ∧ kind c) ∨ (¬ among c ∧ P s)) (calls : List γ) :
    P (calls.foldl step s) ↔ LatestIs among kind calls := by
  induction calls using List.reverseRecOn with
  | nil => exact iff_of_false start not_latestIs_nil
  | append_singleton calls c ih =>
    rw [List.foldl_append, List.foldl_cons, List.foldl_nil, each, latestIs_append, ih]

/-- The latest call is the last of those that are left without the others. -/
theorem latestIs_iff_getLast? [DecidablePred among] :
    LatestIs among kind calls ↔ ∃ c, (calls.filter among).getLast? = some c ∧ kind c := by
  induction calls using List.reverseRecOn with
  | nil =>
    refine iff_of_false not_latestIs_nil ?_
    rintro ⟨c, last, -⟩
    cases last
  | append_singleton calls c ih =>
    rw [latestIs_append, List.filter_append, ih]
    by_cases matters : among c
    · simp [matters]
    · simp [matters]

end Dynarec
