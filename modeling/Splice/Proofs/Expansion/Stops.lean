import Splice.Proofs.Expansion.Consulted
import Splice.Proofs.Stopping
/-!
# Why an expansion stops

There are five ways (`Expansion.StopsBy`): a reference on the way does not resolve, or to a lambda that does not take
the actual arguments; the limit is reached; a marker call has no arguments, in the tree or in a body.  **An expansion
stops for one of these reasons and for no other** (`Expansion.expandWithin_stops`): rebuilding a node never fails, and
the limit in the error is the configured one however deep the expansion is.

Whatever goes wrong inside the evaluation of a reference is reported as an evaluation error, so of the eight kinds of
errors four come out of an expansion (`Expr.expand_error`).
-/
namespace Splice

open Run

variable {σ : Type}

/-! ## References -/

/-- Out of fuel, or an evaluation error. -/
def EvaluationOnly (halt : Halt) : Prop := halt = .outOfFuel ∨ ∃ why, halt = .error (.evaluationError why)

namespace Reference

theorem blame_eq (text : String) (cause : Error) : ∃ why, blame text cause = .evaluationError why := by
  unfold blame
  split
  · exact ⟨_, rfl⟩
  · exact ⟨_, rfl⟩

theorem lambdaOf_stopsOnly {wrongType : String → Error} (h : ∀ got, ∃ why, wrongType got = .evaluationError why)
    (v : Value) : StopsOnly EvaluationOnly (lambdaOf wrongType v : Run σ Lambda) := by
  unfold lambdaOf
  split
  · exact stopsOnly_pure _
  · obtain ⟨why, hwhy⟩ := h v.typeName
    exact stopsOnly_fail (.inr ⟨why, congrArg Halt.error hwhy⟩)

/-- **A reference that does not resolve gives an evaluation error**, whatever failed inside its evaluation. -/
theorem resolve_stopsOnly (host : Host σ) (reference : Reference) :
    StopsOnly EvaluationOnly (reference.resolve host) := by
  cases reference with
  | inline f => exact stopsOnly_pure f
  | constant name value => exact lambdaOf_stopsOnly (fun got => ⟨_, rfl⟩) value
  | invocation e =>
    refine stopsOnly_bind (stopsOnly_blaming (fun cause => .inr ?_) (.inl rfl)) fun v =>
      lambdaOf_stopsOnly (fun got => ⟨_, rfl⟩) v
    obtain ⟨why, hwhy⟩ := blame_eq e.text cause
    exact ⟨why, congrArg Halt.error hwhy⟩

end Reference

/-! ## Expansions -/

namespace Expansion

variable {host : Host σ} {limit levels : Nat}

/-- Why the expansion of the tree, with so many levels left and from this host state, stops. -/
inductive StopsBy (host : Host σ) (limit levels : Nat) (e : Expr) (s : σ) : Halt → Prop
  | reference {r : Expr} {k k' : σ} {halt : Halt} : Consults host limit r k levels e s →
      r.resolve host k = .error halt k' → StopsBy host limit levels e s halt
  | arity {r : Expr} {k k' : σ} {f : Lambda} {count : Nat} : Consults host limit r k levels e s →
      r.resolve host k = .ok f k' → f.arity ≠ count →
        StopsBy host limit levels e s (.error (.arityMismatch f.arity count))
  | limit : StopsBy host limit levels e s (.error (.cyclicProjection limit))
  | missing : Expr.Within (.call .project []) e → StopsBy host limit levels e s (.error .missingReference)
  | missingInBody {r : Expr} {k k' : σ} {f : Lambda} : Consults host limit r k levels e s →
      r.resolve host k = .ok f k' → Expr.Within (.call .project []) f.body →
        StopsBy host limit levels e s (.error .missingReference)

/-- What stops the expansion of a child, in the state in which its turn comes, stops the expansion of the node. -/
theorem StopsBy.child {e c : Expr} {before after ts : List Expr} {s t : σ} {halt : Halt}
    (hsplit : e.children = before ++ c :: after) (hbefore : expandAllWithin host limit levels before s = .ok ts t)
    (h : StopsBy host limit (levels + 1) c t halt) : StopsBy host limit (levels + 1) e s halt := by
  cases h with
  | reference hr hresolve => exact .reference (.child hsplit hbefore hr) hresolve
  | arity hr hresolve hne => exact .arity (.child hsplit hbefore hr) hresolve hne
  | limit => exact .limit
  | missing hw => exact .missing (.child (hsplit ▸ List.mem_append_right _ List.mem_cons_self) hw)
  | missingInBody hr hresolve hw => exact .missingInBody (.child hsplit hbefore hr) hresolve hw

/-- What stops the expansion of a body stops the expansion of the marker call that it takes the place of. -/
theorem StopsBy.body {reference r : Expr} {actuals as : List Expr} {f : Lambda} {s t u : σ} {halt : Halt}
    (hcs : expandAllWithin host limit levels (reference :: actuals) s = .ok (r :: as) t)
    (hf : r.resolve host t = .ok f u) (harity : f.arity = as.length) (h : StopsBy host limit levels f.body u halt) :
    StopsBy host limit (levels + 1) (Marker.call reference actuals) s halt := by
  cases h with
  | reference hr hresolve => exact .reference (.body hcs hf harity hr) hresolve
  | arity hr hresolve hne => exact .arity (.body hcs hf harity hr) hresolve hne
  | limit => exact .limit
  | missing hw => exact .missingInBody (.site hcs) hf hw
  | missingInBody hr hresolve hw => exact .missingInBody (.body hcs hf harity hr) hresolve hw

/-- Of the trees of a list one is the first that stops, in the state that the ones before it leave. -/
theorem expandAllWithin_eq_error {es : List Expr} {s s' : σ} {halt : Halt}
    (h : expandAllWithin host limit levels es s = .error halt s') :
    ∃ before c after ts t, es = before ++ c :: after ∧ expandAllWithin host limit levels before s = .ok ts t ∧
      expandWithin host limit (levels + 1) c t = .error halt s' := by
  induction es generalizing s with
  | nil => cases h
  | cons e es ih =>
    rw [expandAllWithin_cons] at h
    rcases bind_eq_error_iff.1 h with h | ⟨t, k, ht, h⟩
    · exact ⟨[], e, es, [], s, rfl, rfl, h⟩
    · rcases bind_eq_error_iff.1 h with h | ⟨ts, k', -, h⟩
      · obtain ⟨before, c, after, ts, k', rfl, hbefore, hc⟩ := ih h
        exact ⟨e :: before, c, after, t :: ts, k', rfl, expandAllWithin_cons_eq_ok ht hbefore, hc⟩
      · cases h

/-- **An expansion stops for one of these reasons.** -/
theorem expandWithin_stops : ∀ (levels : Nat) (e : Expr) (s s' : σ) (halt : Halt),
    expandWithin host limit levels e s = .error halt s' → StopsBy host limit levels e s halt := by
  intro levels
  induction levels with
  | zero =>
    intro e s s' halt h
    cases h
    exact .limit
  | succ levels ihlevels =>
    intro e
    induction e using Expr.children_induction with
    | node e ih =>
      intro s s' halt h
      rw [expandWithin_eq] at h
      rcases bind_eq_error_iff.1 h with h | ⟨cs, k, hcs, h⟩
      · obtain ⟨before, c, after, ts, t, hsplit, hbefore, hc⟩ := expandAllWithin_eq_error h
        exact .child hsplit hbefore (ih c (hsplit ▸ List.mem_append_right _ List.mem_cons_self) t s' halt hc)
      · -- The children are expanded, so the node is rebuilt; what is left is a marker call.
        obtain ⟨node, hnode⟩ := Expr.exists_rebuilds (expandAllWithin_length hcs)
        rw [Expr.withChildren_eq_ok_iff.2 hnode] at h
        change finish host (expandWithin host limit levels) node k = _ at h
        cases hm : Marker.isMarker e with
        | false =>
          rw [finish_of_not_marker host _ (hnode.isMarker.trans hm)] at h
          cases h
        | true =>
          obtain ⟨args, rfl⟩ := Expr.isMarker_iff.1 hm
          obtain ⟨rfl⟩ : node = .call .project cs := by cases hnode; rfl
          match args, cs, hnode.length with
          | [], [], _ =>
            cases h
            exact .missing .self
          | reference :: actuals, r :: as, _ =>
            rcases bind_eq_error_iff.1 h with h | ⟨f, k', hf, h⟩
            · exact .reference (.site hcs) h
            · split at h
              case isTrue harity =>
                rcases bind_eq_error_iff.1 h with h | ⟨b, k'', -, h⟩
                · exact .body hcs hf harity (ihlevels f.body k' s' halt h)
                · cases h
              case isFalse harity =>
                cases h
                exact .arity (.site hcs) hf harity

/-- Only the evaluation of a reference can be endless. -/
theorem StopsBy.of_outOfFuel {e : Expr} {s : σ} (h : StopsBy host limit levels e s .outOfFuel) :
    ∃ r k k', Consults host limit r k levels e s ∧ r.resolve host k = .error .outOfFuel k' := by
  cases h with
  | reference hr hresolve => exact ⟨_, _, _, hr, hresolve⟩

end Expansion

/-- **The errors of an expansion.**  A reference that does not evaluate to a lambda, whatever is raised inside it; a
number of arguments that the lambda does not take; the configured limit, however deep the expansion is; and a marker
call without arguments, if there is one in the tree or in a body that a reference on the way resolves to. -/
theorem Expr.expand_error {host : Host σ} {limit : Nat} {e : Expr} {s s' : σ} {cause : Error}
    (h : e.expand host limit s = .error (.error cause) s') :
    (∃ why, cause = .evaluationError why) ∨
      (∃ expected actual, cause = .arityMismatch expected actual ∧ expected ≠ actual) ∨
      cause = .cyclicProjection limit ∨
      cause = .missingReference ∧ (Within (.call .project []) e ∨
        ∃ r k f k', e.Consults host limit s r k ∧ r.resolve host k = .ok f k' ∧ Within (.call .project []) f.body) := by
  have hstops := Expansion.expandWithin_stops (limit + 1) e s s' _ (expand_eq_error_iff.1 h)
  generalize hhalt : Halt.error cause = halt at hstops
  cases hstops with
  | reference hr hresolve =>
    subst hhalt
    rcases Reference.resolve_stopsOnly host _ _ _ _ hresolve with hfuel | ⟨why, hwhy⟩
    · cases hfuel
    · exact .inl ⟨why, Halt.error.inj hwhy⟩
  | arity hr hresolve hne => exact .inr (.inl ⟨_, _, Halt.error.inj hhalt, hne⟩)
  | limit => exact .inr (.inr (.inl (Halt.error.inj hhalt)))
  | missing hw => exact .inr (.inr (.inr ⟨Halt.error.inj hhalt, .inl hw⟩))
  | missingInBody hr hresolve hw =>
    exact .inr (.inr (.inr ⟨Halt.error.inj hhalt, .inr ⟨_, _, _, _, hr, hresolve, hw⟩⟩))

namespace Expr

/-- A host program that refuses every call with an error of expansions. -/
def refusing : Host Unit := { call := fun _ _ => throw (.cyclicProjection 9) }

def refused : Expr := .call (.host ⟨0, "lookup"⟩) []

theorem expand_error_refused :
    (Marker.call refused []).expand refusing 64 () =
        .error (.error (.referenceFailed refused.text (.cyclicProjection 9))) () ∧
      ∃ why, Error.referenceFailed refused.text (.cyclicProjection 9) = .evaluationError why := by
  have h : (Marker.call refused []).expand refusing 64 () =
      .error (.error (.referenceFailed refused.text (.cyclicProjection 9))) () := expand_eq_error_iff.2 rfl
  refine ⟨h, (expand_error h).resolve_right ?_⟩
  rintro (⟨_, _, heq, -⟩ | heq | ⟨heq, -⟩) <;> cases heq

end Expr

end Splice
