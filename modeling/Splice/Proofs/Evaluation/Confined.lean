import Splice.Proofs.Evaluation.FirstOrder
import Splice.Proofs.Tree.Closed
/-!
# Parameters that leave the lambda that binds them

A lambda value is its parameters and its body.  What the body refers to is looked up where the lambda is applied, not
where it was made.  So the value of an application may hold a lambda with a parameter of the applied one, and there the
parameter is free: it has escaped.

`Env.confinedWithin` is the evaluation that ends where a certain parameter escapes.  As long as that does not happen,
**the parameter is free in no value outside its binding** (`Env.confinedWithin_follows`), whatever operators the values
went through.
-/
namespace Splice

open Run

variable {σ : Type}

def Value.Mentions (v : Value) (id : ParamId) : Prop := ∃ f ∈ v.lambdas, (Expr.ofLambda f).Free id

instance (v : Value) (id : ParamId) : Decidable (v.Mentions id) :=
  inferInstanceAs (Decidable (∃ f ∈ v.lambdas, (Expr.ofLambda f).Free id))

/-! ## Evaluation without escapes -/

namespace Env

/-- Evaluate a part of a node whose scope is `outer`, and end if the parameter is bound for this part alone and free in
its value. -/
def confining (id : ParamId) (outer : Scope) (x : Eval σ Value) : Eval σ Value := do
  let inner := (← get).scope
  let v ← x
  if inner.get? id ≠ none ∧ outer.get? id = none ∧ v.Mentions id then throw .outOfFuel else pure v

/-- Evaluate a tree in the scope, at most `fuel` levels deep, and end where the parameter escapes. -/
def confinedWithin (env : Env σ) (id : ParamId) : Nat → Expr → Eval σ Value
  | 0, _ => throw .outOfFuel
  | fuel + 1, e => do
    let outer := (← get).scope
    let ev c := confining id outer (env.confinedWithin id fuel c)
    Evaluation.step env (Evaluation.unexpanded ev) ev e

def confinedValue (env : Env σ) (id : ParamId) (e : Expr) : Run σ Value :=
  (env.confinedWithin id env.host.fuel e).inside (fun h => { hostState := h }) fun _ s => s.hostState

end Env

/-! ## What does not escape is not free -/

/-- The lambdas in the value are sealed, and the parameter is free in them only if it is in scope, or if `given`. -/
def Value.Confined (id : ParamId) (given : Prop) (s : Scope) (v : Value) : Prop :=
  ∀ f ∈ v.lambdas, f.body.Sealed ∧ ((Expr.ofLambda f).Free id → given ∨ s.get? id ≠ none)

theorem Value.hereditary_confined (id : ParamId) (given : Prop) (s : Scope) : Hereditary (Value.Confined id given s) :=
  hereditary_lambdas _

theorem Value.Closed.confined {v : Value} (h : v.Closed) {id : ParamId} {given : Prop} {s : Scope} :
    v.Confined id given s :=
  fun f hf => ⟨(h f hf).2, fun hfree => absurd hfree ((h f hf).1 id)⟩

namespace Scope

theorem get?_push_ne_none {s : Scope} {id : ParamId} (h : s.get? id ≠ none) (params : List Param) (args : List Value) :
    (s.push params args).get? id ≠ none := by
  rw [get?_push]
  exact fun hnone => h (Option.or_eq_none_iff.1 hnone).2

theorem get?_push_of_free {s : Scope} {f : Lambda} {args : List Value} (harity : f.params.length = args.length)
    {id : ParamId} {given : Prop} (h : (Expr.ofLambda f).Free id → given ∨ s.get? id ≠ none) (hfree : f.body.Free id) :
    given ∨ (s.push f.params args).get? id ≠ none := by
  by_cases hid : id ∈ f.params.map Param.id
  · refine .inr fun hnone => ?_
    rw [get?_push] at hnone
    exact (lookup_zip_eq_none_iff harity).1 (Option.or_eq_none_iff.1 hnone).1 hid
  · exact (h (.lambda hid hfree)).imp_right fun h => get?_push_ne_none h f.params args

theorem Holds.push_confined {s : Scope} {id : ParamId} {given : Prop} (hs : s.Holds (Value.Confined id given s))
    (params : List Param) {args : List Value} (hargs : ∀ v ∈ args, v.Confined id given s) :
    (s.push params args).Holds (Value.Confined id given (s.push params args)) := by
  have hpush : ∀ v : Value, v.Confined id given s → v.Confined id given (s.push params args) := fun v hv f hf =>
    ⟨(hv f hf).1, fun hfree => ((hv f hf).2 hfree).imp_right fun h => get?_push_ne_none h params args⟩
  exact Holds.push (fun binding hb => hpush _ (hs binding hb)) params fun v hv => hpush v (hargs v hv)

end Scope

namespace Env

theorem confining_follows {id : ParamId} {given : Prop} {outer inner : Scope} {x y : Eval σ Value}
    (h : Follows Unanswered (At (· = ·) inner inner) (Same (Value.Confined id given inner)) x y) :
    Follows Unanswered (At (· = ·) inner inner) (Same (Value.Confined id given outer)) (confining id outer x) y := by
  refine follows_of_get ?_
  rintro a b ⟨rfl, -⟩
  rw [← bind_pure y]
  refine follows_bind h ?_
  rintro v _ ⟨rfl, hv⟩
  split
  case isTrue => exact follows_of_slack (show Unanswered .outOfFuel from rfl) _
  case isFalse hstays =>
    refine follows_pure ⟨rfl, fun f hf => ⟨(hv f hf).1, fun hfree => ?_⟩⟩
    refine ((hv f hf).2 hfree).imp_right fun hinner houter => hstays ⟨hinner, houter, f, hf, hfree⟩

/-- Of every sealed tree, in every scope of confined values that its free occurrences of the parameter are bound in,
`ev` gives the value that `ev'` gives, and a confined one, or no answer. -/
def Confines (id : ParamId) (given : Prop) (ev ev' : Expr → Eval σ Value) : Prop :=
  ∀ e, e.Sealed → ∀ s : Scope, (e.Free id → given ∨ s.get? id ≠ none) → s.Holds (Value.Confined id given s) →
    Follows Unanswered (At (· = ·) s s) (Same (Value.Confined id given s)) (ev e) (ev' e)

section

variable {id : ParamId} {given : Prop} {ev ev' : Expr → Eval σ Value} {s : Scope}

-- A row is evaluated in a greater scope, and its value is looked at when it comes back into this one.
theorem Confines.rowwise (hev : Confines id given ev ev') (hs : s.Holds (Value.Confined id given s)) {f : Lambda}
    (hbody : f.body.Sealed) (hf : (Expr.ofLambda f).Free id → given ∨ s.get? id ≠ none) :
    Operators.Rowwise Unanswered (At (· = ·) s s) (Value.Confined id given s) (fun c => confining id s (ev c)) ev'
      f f :=
  fun _ hrow => Operators.apply_follows fun harity => confining_follows <|
    hev f.body hbody _ (Scope.get?_push_of_free harity hf) (hs.push_confined f.params (by simpa using hrow))

/-- **The rule of a node lets no parameter escape**, if its parts do not. -/
theorem Confines.step (hev : Confines id given ev ev') {env : Env σ}
    (hrows : ∀ name v, env.source name = .ok v → v.Closed)
    (hhost : ∀ f vs h v h', env.host.call f vs h = .ok v h' → v.Closed) {e : Expr} (he : e.Sealed)
    (hfree : e.Free id → given ∨ s.get? id ≠ none) (hs : s.Holds (Value.Confined id given s)) :
    Follows Unanswered (At (· = ·) s s) (Same (Value.Confined id given s))
      (Evaluation.step env (Evaluation.unexpanded fun c => confining id s (ev c)) (fun c => confining id s (ev c)) e)
      (Evaluation.step env (Evaluation.unexpanded ev') ev' e) := by
  rcases e.lambda_or_not with ⟨params, body, rfl⟩ | hnot
  -- A lambda node is a value as it stands, with its own free parameters; its body is no part that is evaluated.
  · refine follows_pure ⟨rfl, ?_⟩
    exact forall_lambdas_ofLambda_iff (f := ⟨params, body⟩).2 ⟨he.child List.mem_cons_self, hfree⟩
  have hpart : ∀ c ∈ e.children, Follows Unanswered (At (· = ·) s s) (Same (Value.Confined id given s))
      (confining id s (ev c)) (ev' c) := fun c hc =>
    confining_follows (hev c (he.child hc) s (fun h => hfree (.child hnot hc h)) hs)
  refine Evaluation.step_follows (Value.hereditary_confined id given s) (Expr.rebuilds_children e)
    (fun p hp => ?_) (fun p hp => ?_) (fun p _ => ?_) (fun name _ => ?_) (fun name v site heq => ?_)
    (fun params body heq => absurd heq (hnot params body)) (fun f args _ vs _ => ?_) fun args heq => ?_
  · obtain ⟨c, c'⟩ := p
    obtain ⟨rfl, hc⟩ := Evaluation.mem_zip_self hp
    exact hpart c (Expr.data_subset e hc)
  · obtain ⟨c, c'⟩ := p
    obtain ⟨rfl, hc⟩ := Evaluation.mem_zip_self hp
    have hc := Expr.lambdaArgs_subset e hc
    rcases c.lambda_or_not with ⟨params, body, rfl⟩ | hnotc
    · exact follows_pure (hev.rowwise (f := ⟨params, body⟩) hs ((he.child hc).child List.mem_cons_self)
        fun h => hfree (.child hnot hc h))
    · refine Operators.lambdaAt_follows hnotc hnotc (hpart c hc) fun f hf => ?_
      obtain ⟨hbody, hffree⟩ := forall_lambdas_ofLambda_iff.1 hf
      exact hev.rowwise hs hbody hffree
  · exact Eval.lookup_follows rfl fun v hv => hs.get? hv
  · exact follows_attempt fun v hv => (hrows name v hv).confined
  · subst heq
    exact he.captured.confined
  · exact Eval.onHost_follows (follows_attemptOn fun h v h' hcall => (hhost f vs h v h' hcall).confined)
  · subst heq
    exact Evaluation.unexpanded_follows hpart

end

/-- **The evaluation without escapes is the evaluation, and the parameter is free in no value outside its binding.** -/
theorem confinedWithin_follows {env : Env σ} (hrows : ∀ name v, env.source name = .ok v → v.Closed)
    (hhost : ∀ f vs h v h', env.host.call f vs h = .ok v h' → v.Closed) (id : ParamId) (given : Prop) (fuel : Nat) :
    Confines id given (env.confinedWithin id fuel) (env.evaluateWithin fuel) := by
  induction fuel with
  | zero => exact fun _ _ _ _ _ => follows_throw _
  | succ fuel ih =>
    intro e he s hfree hs
    -- The scope that is read first is the one of the node.
    refine follows_of_get ?_
    rintro a b ⟨rfl, -⟩
    exact ih.step hrows hhost he hfree hs

theorem confinedValue_follows {env : Env σ} (hrows : ∀ name v, env.source name = .ok v → v.Closed)
    (hhost : ∀ f vs h v h', env.host.call f vs h = .ok v h' → v.Closed) (id : ParamId) {e : Expr} (he : e.Sealed) :
    Follows Unanswered (· = ·) (Same (Value.Confined id (e.Free id) [])) (env.confinedValue id e) (env.value e) :=
  follows_inside (fun _ _ h => ⟨rfl, rfl, h⟩) (fun _ _ _ _ _ h => h.2.2)
    (confinedWithin_follows hrows hhost id (e.Free id) env.host.fuel e he [] .inl fun _ hb => nomatch hb)

/-- **A sealed tree has sealed values**, whatever escapes. -/
theorem value_sealed {env : Env σ} (hrows : ∀ name v, env.source name = .ok v → v.Closed)
    (hhost : ∀ f vs h v h', env.host.call f vs h = .ok v h' → v.Closed) {e : Expr} (he : e.Sealed) :
    Follows onValues (· = ·) (Same fun v => ∀ f ∈ v.lambdas, f.body.Sealed) (env.value e) (env.value e) := by
  have hwithin : ∀ (fuel : Nat) (e : Expr), e.Sealed → ∀ s : Scope, s.Holds (fun v => ∀ f ∈ v.lambdas, f.body.Sealed) →
      Follows onValues (At (· = ·) s s) (Same fun v => ∀ f ∈ v.lambdas, f.body.Sealed) (env.evaluateWithin fuel e)
        (env.evaluateWithin fuel e) := by
    intro fuel
    induction fuel with
    | zero => exact fun _ _ _ _ => follows_throw _
    | succ fuel ih =>
      intro e he s hs
      refine Evaluation.step_follows_same (hereditary_lambdas fun f => f.body.Sealed) (T := Expr.Sealed)
        (fun e he c hc => he.child hc) (fun params body => forall_lambdas_ofLambda_iff (f := ⟨params, body⟩)) ih
        (fun _ => rfl) (fun name v hv f hf => (hrows name v hv f hf).2) he hs (fun name v site heq f hf => ?_)
        (fun f args _ vs _ => follows_attemptOn fun h v h' hcall g hg => (hhost f vs h v h' hcall g hg).2)
        fun args heq => ?_
      · subst heq
        exact (he.captured f hf).2
      · subst heq
        exact Evaluation.unexpanded_follows fun c hc => ih c (he.child hc) s hs
  exact follows_inside (fun _ _ h => ⟨rfl, rfl, h⟩) (fun _ _ _ _ _ h => h.2.2)
    (hwithin env.host.fuel e he [] fun _ hb => nomatch hb)

end Env

end Splice
