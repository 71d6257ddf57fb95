import Splice.Proofs.Expansion.Expands
import Splice.Proofs.Evaluation.FirstOrder
/-!
# Reading marker calls

A tree with marker calls has a meaning without expanding it.  To read it is to evaluate it, except that a marker call
has a value: that of the body of the lambda that its reference denotes, with the parameters bound to the values of the
actual arguments on top of the scope, as for any other application of a lambda.

Here are the reading, and the conditions under which it can be compared with the evaluation of the expanded tree.  They
are about the tree and about the bodies that are inlined in it (`Expr.Inlines`), outside of projection references.
-/
namespace Splice

open Run

namespace Evaluation

variable {σ : Type}

/-- The rule for a marker call in a reading: actual arguments first, then the body with their values in scope. -/
def applied (denote : Expr → Run σ Lambda) (ev : Expr → Eval σ Value) : List Expr → Eval σ Value
  | [] => Run.fail .missingReference
  | reference :: actuals => do
    let args ← evalAll ev actuals
    let f ← Eval.onHost (denote reference)
    Operators.apply ev f args

end Evaluation

/-- Read a tree in the scope, at most `fuel` levels deep; `denote` finds the lambda of a reference. -/
def Env.readWithin {σ : Type} (denote : Expr → Run σ Lambda) (env : Env σ) : Nat → Expr → Eval σ Value
  | 0, _ => throw .outOfFuel
  | fuel + 1, e =>
    Evaluation.step env (Evaluation.applied denote (env.readWithin denote fuel)) (env.readWithin denote fuel) e

/-! ## Host functions that give no lambdas -/

/-- The host program that stops where a function would give a lambda. -/
def Host.plainCalls {σ : Type} (host : Host σ) : Host σ where
  call f args := fun h =>
    match host.call f args h with
    | .ok v h' => if v.lambdaFree then .ok v h' else .error .lambdaAsValue h'
    | .error e h' => .error e h'
  fuel := host.fuel

namespace Env

def plainCalls {σ : Type} (env : Env σ) : Env σ := { env with host := env.host.plainCalls }

theorem firstOrder_plainCalls {env : Env Unit} (hrows : ∀ name v, env.source name = .ok v → v.Plain) :
    env.plainCalls.FirstOrder where
  rows := hrows
  calls f vs v h := by
    simp only [plainCalls, Host.plainCalls] at h
    cases hcall : env.host.call f vs () with
    | error e u => simp [hcall] at h
    | ok w u =>
      simp only [hcall] at h
      split at h <;> cases h
      assumption

theorem plainCalls_follows {σ : Type} (host : Host σ) (f : HostFunction) (args : List Value) :
    Follows onValues (· = ·) (Same fun _ => True) (.attemptOn (host.plainCalls.call f args))
      (.attemptOn (host.call f args)) := by
  rintro u _ rfl
  unfold Run.attemptOn Host.plainCalls
  dsimp only
  cases host.call f args u with
  | error e u' => exact .inl trivial
  | ok v u' =>
    by_cases hv : v.lambdaFree = true
    · simp only [if_pos hv]
      exact ⟨v, u', rfl, ⟨rfl, trivial⟩, rfl⟩
    · simp only [if_neg hv]
      exact .inl trivial

/-- **Where no call gives a lambda, the evaluation is the evaluation without that restriction.** -/
theorem evaluateWithin_of_plainCalls {σ : Type} (env : Env σ) (fuel : Nat) (e : Expr) (s : Scope) :
    Follows onValues (At (· = ·) s s) (Same fun _ => True) (env.plainCalls.evaluateWithin fuel e)
      (env.evaluateWithin fuel e) := by
  induction fuel generalizing e s with
  | zero => exact follows_throw _
  | succ fuel ih =>
    show Follows _ _ _ (Evaluation.step env.plainCalls _ _ e) (Evaluation.step env _ _ e)
    refine Evaluation.step_follows_same hereditary_true (T := fun _ => True) (fun _ _ _ _ => trivial)
      (fun _ _ => Iff.rfl) (fun e _ s _ => ih e s)
      (fun name => show env.source name = env.plainCalls.source name from rfl) (fun _ _ _ => trivial) trivial
      (fun _ _ => trivial) (fun _ _ _ _ => trivial) (fun f _ _ vs _ => ?_) fun args _ => ?_
    · exact plainCalls_follows env.host f vs
    · exact Evaluation.unexpanded_follows fun c _ => ih c s

end Env

/-! ## What is inlined -/

namespace Expr

/-- A marker call that is read with the tree, not one in a reference. -/
inductive SiteOf (reference : Expr) (actuals : List Expr) : Expr → Prop
  | self : SiteOf reference actuals (.call .project (reference :: actuals))
  | operand {e c : Expr} : c ∈ e.operands → SiteOf reference actuals c → SiteOf reference actuals e

/-- `b` is the tree, or a body that is inlined in it or in another such body. -/
inductive Inlines (host : Host Unit) (e : Expr) : Expr → Prop
  | self : Inlines host e e
  | body {b reference : Expr} {actuals : List Expr} {f : Lambda} :
      Inlines host e b → SiteOf reference actuals b → reference.Denotes host f → Inlines host e f.body

/-- At every marker call, the lambdas in the expanded body bind no parameter of the lambda that is inlined, and none
that is free in an expanded argument. -/
def Hygienic (host : Host Unit) (e : Expr) : Prop :=
  ∀ reference actuals, SiteOf reference actuals e → ∀ f, reference.Denotes host f → ∀ body, f.body.ExpandsTo host body →
    ∀ id, body.Binds id →
      id ∉ f.params.map Param.id ∧ ∀ a ∈ actuals, ∀ a', a.ExpandsTo host a' → ¬ a'.Free id

/-- The tree and all bodies that are inlined in it are first-order, and hygienic. -/
structure Inlinable (host : Host Unit) (e : Expr) : Prop where
  firstOrder : ∀ b, e.Inlines host b → b.FirstOrder
  hygienic : ∀ b, e.Inlines host b → b.Hygienic host

variable {host : Host Unit} {e : Expr}

theorem Inlines.of_operand {c b : Expr} (hc : c ∈ e.operands) (h : c.Inlines host b) : b = c ∨ e.Inlines host b := by
  induction h with
  | self => exact .inl rfl
  | body _ hsite hf ih =>
    rcases ih with rfl | hb
    · exact .inr (.body .self (.operand hc hsite) hf)
    · exact .inr (.body hb hsite hf)

theorem Inlines.of_site {reference b : Expr} {actuals : List Expr} {f : Lambda} (hsite : SiteOf reference actuals e)
    (hf : reference.Denotes host f) (h : f.body.Inlines host b) : e.Inlines host b := by
  induction h with
  | self => exact .body .self hsite hf
  | body _ hsite' hg ih => exact .body ih hsite' hg

theorem Inlinable.operand (h : e.Inlinable host) {c : Expr} (hc : c ∈ e.operands) : c.Inlinable host where
  firstOrder b hb := by
    rcases hb.of_operand hc with rfl | hb
    · exact (h.firstOrder e .self).operand hc
    · exact h.firstOrder b hb
  hygienic b hb := by
    rcases hb.of_operand hc with rfl | hb
    · exact fun reference actuals hsite => h.hygienic e .self reference actuals (.operand hc hsite)
    · exact h.hygienic b hb

theorem Inlinable.body (h : e.Inlinable host) {reference : Expr} {actuals : List Expr} {f : Lambda}
    (hsite : SiteOf reference actuals e) (hf : reference.Denotes host f) : f.body.Inlinable host where
  firstOrder b hb := h.firstOrder b (hb.of_site hsite hf)
  hygienic b hb := h.hygienic b (hb.of_site hsite hf)

end Expr

end Splice
