import Dynarec.Engine.Run
import Mathlib

/-!
What an operation of an engine comes to: its outcome and the state behind it, whatever was reported
before.
-/
namespace Dynarec.Traced

variable {σ τ α β : Type} {s s' s'' : σ} {x : Traced σ α} {f : α → Traced σ β}

/-- From state `s` the operation has this outcome and leaves `s'`. -/
def Yields (x : Traced σ α) (s : σ) (outcome : Except Fault α) (s' : σ) : Prop :=
  ∀ log, (x.perform s log).1 = (outcome, s')

theorem yields_pure (a : α) : Yields (pure a) s (.ok a) s := fun _ => rfl

theorem yields_get : Yields get s (.ok s) s := fun _ => rfl

theorem yields_modify (g : σ → σ) : Yields (modify g) s (.ok ()) (g s) := fun _ => rfl

theorem yields_set (t : σ) : Yields (set t) s (.ok ()) t := fun _ => rfl

theorem yields_report (e : Event) : Yields (report e : Traced σ Unit) s (.ok ()) s := fun _ => rfl

theorem yields_lift (y : Except Fault α) : Yields (liftM y : Traced σ α) s y s := by
  intro log
  cases y <;> rfl

theorem yields_lift_ok {y : Except Fault α} {a : α} (h : y = .ok a) :
    Yields (liftM y : Traced σ α) s (.ok a) s := h ▸ yields_lift y

/-- The second operation goes on from the state and the log that the first has left. -/
theorem perform_bind (x : Traced σ α) (f : α → Traced σ β) (s : σ) (log : Array Event) :
    (x >>= f).perform s log = match x.perform s log with
      | ((.ok a, s'), log') => (f a).perform s' log'
      | ((.error fault, s'), log') => ((.error fault, s'), log') := by
  unfold perform ExceptT.run StateT.run Id.run
  simp only [Bind.bind, ExceptT.bind, ExceptT.bindCont, ExceptT.mk, StateT.bind]
  obtain ⟨⟨outcome, s'⟩, log'⟩ := x s log
  cases outcome <;> rfl

/-- A sequence succeeds only if both parts do. -/
theorem perform_bind_ok {b : β} {log : Array Event}
    (h : ((x >>= f).perform s log).1 = (.ok b, s'')) :
    ∃ a s' log', (x.perform s log).1 = (.ok a, s') ∧ ((f a).perform s' log').1 = (.ok b, s'') := by
  rw [perform_bind] at h
  generalize x.perform s log = result at h ⊢
  obtain ⟨⟨outcome, s'⟩, log'⟩ := result
  cases outcome with
  | ok a => exact ⟨a, s', log', rfl, h⟩
  | error fault => cases h

/-- Operations that succeed can be followed one after the other. -/
theorem Yields.bind {a : α} {o : Except Fault β} (h : Yields x s (.ok a) s')
    (h' : Yields (f a) s' o s'') : Yields (x >>= f) s o s'' := by
  intro log
  have hx := h log
  rw [perform_bind]
  generalize x.perform s log = result at hx ⊢
  obtain ⟨_, log'⟩ := result
  subst hx
  exact h' log'

/-- What follows an operation that fails is not done. -/
theorem Yields.bind_error {fault : Fault} (h : Yields x s (.error fault) s') :
    Yields (x >>= f) s (.error fault) s' := by
  intro log
  have hx := h log
  rw [perform_bind]
  generalize x.perform s log = result at hx ⊢
  obtain ⟨_, log'⟩ := result
  subst hx
  rfl

/-- An operation on a part of the state does to the part what it does by itself. -/
theorem Yields.zoom {part : τ → σ} {put : τ → σ → τ} {t : τ} {o : Except Fault α}
    (h : Yields x (part t) o s') : Yields (x.zoom part put) t o (put t s') := by
  intro log
  have hx := h log
  show ((x.perform (part t) log).1.1, put t (x.perform (part t) log).1.2) = _
  rw [hx]

/-- A loop keeps what every round keeps. `I` may look at the part of the list that is done. -/
theorem yields_forM {I : List β → σ → Prop} {g : β → Traced σ Unit} {xs : List β} (start : I [] s)
    (round : ∀ done b rest s, xs = done ++ b :: rest → I done s →
      ∃ s', Yields (g b) s (.ok ()) s' ∧ I (done ++ [b]) s') :
    ∃ s', Yields (xs.forM g) s (.ok ()) s' ∧ I xs s' := by
  suffices h : ∀ rest done s, xs = done ++ rest → I done s →
      ∃ s', Yields (rest.forM g) s (.ok ()) s' ∧ I xs s' from h xs [] s rfl start
  intro rest
  induction rest with
  | nil =>
    rintro done s rfl inv
    exact ⟨s, yields_pure (), by simpa using inv⟩
  | cons b rest ih =>
    intro done s hxs inv
    obtain ⟨s₁, first, inv₁⟩ := round done b rest s hxs inv
    obtain ⟨s₂, others, inv₂⟩ := ih (done ++ [b]) s₁ (by simpa using hxs) inv₁
    exact ⟨s₂, first.bind others, inv₂⟩

/-- From state `s` the operation succeeds with `P`, or fails and leaves a state with `E`. -/
def Ends (x : Traced σ α) (s : σ) (P : α → σ → Prop) (E : σ → Prop) : Prop :=
  (∃ a s', Yields x s (.ok a) s' ∧ P a s') ∨ ∃ fault s', Yields x s (.error fault) s' ∧ E s'

section Ends

variable {P P' : α → σ → Prop} {Q : β → σ → Prop} {E E' : σ → Prop}

theorem Yields.ends {a : α} (h : Yields x s (.ok a) s') (hp : P a s') : Ends x s P E :=
  .inl ⟨a, s', h, hp⟩

theorem Ends.imp (h : Ends x s P E) (ok : ∀ a s', P a s' → P' a s') (error : ∀ s', E s' → E' s') :
    Ends x s P' E' := by
  rcases h with ⟨a, s', yields, hp⟩ | ⟨fault, s', failed, he⟩
  · exact .inl ⟨a, s', yields, ok a s' hp⟩
  · exact .inr ⟨fault, s', failed, error s' he⟩

/-- If each of two operations ends well or in `E`, so do the two in turn. -/
theorem Ends.bind (h : Ends x s P E) (next : ∀ a s', P a s' → Ends (f a) s' Q E) :
    Ends (x >>= f) s Q E := by
  rcases h with ⟨a, s', first, hp⟩ | ⟨fault, s', failed, he⟩
  · rcases next a s' hp with ⟨b, s'', second, hq⟩ | ⟨fault, s'', failed, he⟩
    · exact .inl ⟨b, s'', first.bind second, hq⟩
    · exact .inr ⟨fault, s'', first.bind failed, he⟩
  · exact .inr ⟨fault, s', failed.bind_error, he⟩

theorem Yields.bind_ends {a : α} (h : Yields x s (.ok a) s') (next : Ends (f a) s' Q E) :
    Ends (x >>= f) s Q E :=
  Ends.bind (h.ends (P := fun a' t => a' = a ∧ t = s') ⟨rfl, rfl⟩) fun _ _ ⟨ha, ht⟩ =>
    ha ▸ ht ▸ next

theorem ends_lift {y : Except Fault α} (ok : ∀ a, y = .ok a → P a s) (error : E s) :
    Ends (liftM y : Traced σ α) s P E := by
  cases y with
  | ok a => exact (yields_lift _).ends (ok a rfl)
  | error fault => exact .inr ⟨fault, s, yields_lift _, error⟩

/-- A loop ends with what every round keeps, or fails in one of its rounds. -/
theorem ends_forM {I : List β → σ → Prop} {g : β → Traced σ Unit} {xs : List β} (start : I [] s)
    (round : ∀ done b rest s, xs = done ++ b :: rest → I done s →
      Ends (g b) s (fun _ => I (done ++ [b])) E) :
    Ends (xs.forM g) s (fun _ => I xs) E := by
  suffices h : ∀ rest done s, xs = done ++ rest → I done s →
      Ends (rest.forM g) s (fun _ => I xs) E from
    h xs [] s rfl start
  intro rest
  induction rest with
  | nil =>
    rintro done s rfl inv
    exact (yields_pure ()).ends (by simpa using inv)
  | cons b rest ih =>
    intro done s hxs inv
    refine (round done b rest s hxs inv).bind fun _ s₁ inv₁ => ?_
    exact ih (done ++ [b]) s₁ (by simpa using hxs) inv₁

end Ends

end Dynarec.Traced
