import Splice.Proofs.Following
/-!
# For which reasons a computation stops

`Run.StopsOnly why x` says of a computation that every stop has a reason as stated, whatever the state is.  There is
one lemma for each way to combine computations, so the reasons are read off the program: a law of this kind about code
that is written over an evaluator needs nothing of the evaluator but the same law.
-/
namespace Splice.Run

variable {σ τ α β : Type} {why why' : Halt → Prop}

/-- **Of two steps the first one stops, or the second one does after it.** -/
theorem bind_eq_error_iff {x : Run σ α} {f : α → Run σ β} {s s'' : σ} {halt : Halt} :
    (x >>= f) s = .error halt s'' ↔
      x s = .error halt s'' ∨ ∃ a s', x s = .ok a s' ∧ f a s' = .error halt s'' := by
  cases hx : x s with
  | ok a s' =>
    rw [bind_of_ok hx]
    constructor
    · exact fun hf => .inr ⟨a, s', rfl, hf⟩
    · rintro (⟨⟨⟩⟩ | ⟨_, _, ⟨⟩, hf⟩)
      exact hf
  | error cause s' => simp [bind_of_error hx]

theorem outcome_bind_of_ok {x : Run σ α} {f : α → Run σ β} {s s' : σ} {a : α} (h : x s = .ok a s') :
    (x >>= f).outcome s = (f a).outcome s' := by
  unfold outcome
  rw [bind_of_ok h]

theorem outcome_bind_of_error {x : Run σ α} {f : α → Run σ β} {s : σ} {halt : Halt} (h : x.outcome s = .error halt) :
    (x >>= f).outcome s = .error halt := by
  obtain ⟨s', hx⟩ := outcome_eq_error_iff.1 h
  exact outcome_eq_error_iff.2 ⟨s', bind_of_error hx⟩

/-- Where the computation stops, it is for such a reason. -/
def StopsOnly (why : Halt → Prop) (x : Run σ α) : Prop := ∀ s halt s', x s = .error halt s' → why halt

/-- A reason to stop that is an error. -/
def IsError (halt : Halt) : Prop := ∃ cause, halt = .error cause

theorem stopsOnly_pure (a : α) : StopsOnly why (pure a : Run σ α) := fun _ _ _ h => nomatch h

theorem stopsOnly_throw {halt : Halt} (h : why halt) : StopsOnly why (throw halt : Run σ α) := by
  intro s halt' s' hs
  cases hs
  exact h

theorem stopsOnly_fail {cause : Error} (h : why (.error cause)) : StopsOnly why (fail cause : Run σ α) :=
  stopsOnly_throw h

theorem stopsOnly_attempt {r : Except Error α} (h : ∀ cause, r = .error cause → why (.error cause)) :
    StopsOnly why (attempt r : Run σ α) := by
  cases r with
  | ok a => exact stopsOnly_pure a
  | error cause => exact stopsOnly_fail (h cause rfl)

theorem stopsOnly_attemptOn {x : EStateM Error σ α} (h : ∀ cause, why (.error cause)) :
    StopsOnly why (attemptOn x) := by
  intro s halt s' hs
  unfold attemptOn at hs
  split at hs <;> cases hs
  exact h _

theorem stopsOnly_bind {x : Run σ α} {f : α → Run σ β} (hx : StopsOnly why x) (hf : ∀ a, StopsOnly why (f a)) :
    StopsOnly why (x >>= f) := by
  intro s halt s' hs
  rcases bind_eq_error_iff.1 hs with hs | ⟨a, k, -, hs⟩
  · exact hx s halt s' hs
  · exact hf a k halt s' hs

theorem stopsOnly_map {x : Run σ α} {f : α → β} (hx : StopsOnly why x) : StopsOnly why (f <$> x) := by
  rw [← bind_pure_comp]
  exact stopsOnly_bind hx fun a => stopsOnly_pure (f a)

theorem stopsOnly_ite {p : Prop} [Decidable p] {x y : Run σ α} (hx : StopsOnly why x) (hy : StopsOnly why y) :
    StopsOnly why (if p then x else y) := by
  split
  · exact hx
  · exact hy

theorem stopsOnly_inside {enter : σ → τ} {leave : σ → τ → σ} {x : Run τ α} (hx : StopsOnly why x) :
    StopsOnly why (x.inside enter leave) := by
  intro s halt s' hs
  unfold inside at hs
  split at hs <;> cases hs
  exact hx _ _ _ ‹_›

/-- Errors in other words are errors; a stop without an answer stays one. -/
theorem stopsOnly_blaming {x : Run σ α} {reword : Error → Error} (herror : ∀ cause, why (.error (reword cause)))
    (hfuel : why .outOfFuel) : StopsOnly why (x.blaming reword) := by
  intro s halt s' hs
  unfold blaming at hs
  split at hs
  case h_1 =>
    cases hs
    exact herror _
  case h_2 hother =>
    cases halt with
    | error cause => exact absurd hs (hother cause s')
    | outOfFuel => exact hfuel

end Splice.Run
