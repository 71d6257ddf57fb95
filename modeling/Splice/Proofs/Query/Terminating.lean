import Splice.Proofs.Query.Strict
import Splice.Proofs.Evaluation.Terminating
/-!
# Queries that a strict engine accepts end

The strict check lets a lambda stand after the receiver of an operator and nowhere else.  So a tree that it accepts is
first-order, unless a captured value holds a lambda, and its evaluation ends within the height of the tree as long as
neither the rows nor the scope hold lambdas (`Strict.ends_of_check`).

None of these conditions can be dropped (`Engine.strict_terminates`): each of them keeps a lambda out of the data that
could look itself up in the scope in which it is applied.
-/
namespace Splice

open Run

variable {σ : Type}

/-- No captured value of the tree is a lambda or holds one. -/
def Expr.CapturesPlain (e : Expr) : Prop := ∀ name v site, Within (.captured name v site) e → v.Plain

def Catalog.Plain (c : Catalog) : Prop := ∀ entry ∈ c.sources, ∀ row ∈ entry.2, row.Plain

theorem Expr.capturesPlain_iff {e : Expr} : e.CapturesPlain ↔ ∀ n, Within n e → n.capturedPlain = true := by
  constructor
  · intro h n hw
    unfold capturedPlain
    split
    · exact h _ _ _ hw
    · rfl
  · exact fun h name v site hw => h _ hw

instance (e : Expr) : Decidable e.CapturesPlain := decidable_of_iff' _ Expr.capturesPlain_iff

theorem Expr.CapturesPlain.child {e c : Expr} (h : e.CapturesPlain) (hc : c ∈ e.children) : c.CapturesPlain :=
  fun name v site hw => h name v site (.child hc hw)

theorem Catalog.Plain.rows {c : Catalog} (h : c.Plain) {name : String} {v : Value} (hv : c.rows name = .ok v) :
    v.Plain := by
  unfold Catalog.rows at hv
  split at hv
  case h_2 => cases hv
  case h_1 rows hget =>
    cases hv
    exact itemsLambdaFree_iff.2 fun row hrow => h _ (Fields.mem_of_get? hget) row hrow

/-! ## Accepted trees are first-order -/

namespace Strict

theorem not_lambda_of_productOf {e : Expr} (h : productOf e ≠ .lambda) (params : List Param) (body : Expr) :
    e ≠ .lambda params body := by
  rintro rfl
  exact h rfl

/-- **A node takes no lambda as data.** -/
theorem productOf_of_takes {e : Expr} (h : takes e (e.children.map productOf) = true) {c : Expr} (hc : c ∈ e.data) :
    productOf c ≠ .lambda := by
  unfold takes at h
  split at h
  case h_1 op args =>
    obtain ⟨receiver, rest, rfl⟩ : ∃ receiver rest, args = receiver :: rest := by
      cases args with
      | nil => cases hc
      | cons receiver rest => exact ⟨receiver, rest, rfl⟩
    obtain rfl : c = receiver := by simpa [Expr.data] using hc
    simpa [Expr.children] using h
  case h_2 =>
    simp only [List.all_map, List.all_eq_true, Function.comp_apply, bne_iff_ne] at h
    exact h c (Expr.data_subset e hc)

/-- What a lambda node takes as its body is no lambda node, and may be looked at in its place. -/
theorem underLambda_of_takes {params : List Param} {body : Expr}
    (h : takes (.lambda params body) [productOf body] = true) : body.underLambda = body :=
  Expr.underLambda_eq (not_lambda_of_productOf (productOf_of_takes h List.mem_cons_self))

theorem check_eq_ok_iff {e : Expr} :
    check e = .ok () ↔ Marker.count e = .ok 0 ∧ (e.fold checkNode).outcome () = .ok .data := by
  constructor
  · intro h
    obtain ⟨markers, hmarkers, h⟩ := exists_of_bind_eq_ok h
    split at h
    case isFalse => cases h
    case isTrue hnone =>
      obtain ⟨product, hproduct, h⟩ := exists_of_bind_eq_ok h
      cases product with
      | lambda => cases h
      | data => exact ⟨hnone ▸ hmarkers, hproduct⟩
  · rintro ⟨hmarkers, hdata⟩
    unfold check
    rw [hmarkers, hdata]
    rfl

/-- A tree passes the check if the two visits find no marker call and no lambda where none may be. -/
theorem check_eq_ok {e : Expr} (hmarkers : ((Visitor.ofCombine Marker.countNode).visit e).outcome () = .ok 0)
    (hdata : ((Visitor.ofCombine checkNode).visit e).outcome () = .ok .data) : check e = .ok () := by
  rw [check_eq_ok_iff, Marker.count, Expr.fold, Expr.fold, Visitor.loop_eq_visit, Visitor.loop_eq_visit]
  exact ⟨hmarkers, hdata⟩

/-- An operator without a lambda may be put on an accepted tree. -/
theorem check_operator (op : QueryOp) {e : Expr} (h : check e = .ok ()) : check (.operator op e none) = .ok () := by
  obtain ⟨hmarkers, hdata⟩ := check_eq_ok_iff.1 h
  obtain ⟨_, hmarkers⟩ := outcome_eq_ok_iff.1 hmarkers
  obtain ⟨_, hdata⟩ := outcome_eq_ok_iff.1 hdata
  have hchild : (Expr.operator op e none).children = [e] := rfl
  rw [check_eq_ok_iff, Marker.count, Expr.fold_of_child hchild, Expr.fold_of_child hchild,
    outcome_bind_of_ok hmarkers, outcome_bind_of_ok hdata]
  exact ⟨rfl, rfl⟩

/-- What the check finds out about a node: what the node produces, and that what is evaluated for it is first-order. -/
def Checked (e : Expr) (p : Product) : Prop := e.CapturesPlain → p = productOf e ∧ e.underLambda.FirstOrder

theorem pointwise_checked {cs : List Expr} {ps : List Product} (h : Pointwise (fun c => Same (Checked c)) cs ps ps)
    (hcaptured : ∀ c ∈ cs, c.CapturesPlain) : ps = cs.map productOf ∧ ∀ c ∈ cs, c.underLambda.FirstOrder := by
  induction cs generalizing ps with
  | nil =>
    cases h
    exact ⟨rfl, by simp⟩
  | cons c cs ih =>
    cases h with
    | cons hp hps =>
      obtain ⟨rfl, hc⟩ := hp.2 (hcaptured c List.mem_cons_self)
      obtain ⟨rfl, hcs⟩ := ih hps fun c' hc' => hcaptured c' (List.mem_cons_of_mem c hc')
      exact ⟨rfl, List.forall_mem_cons.2 ⟨hc, hcs⟩⟩

theorem checked_of_takes {e : Expr} {ps : List Product} (hps : Pointwise (fun c => Same (Checked c)) e.children ps ps)
    (h : takes e ps = true) : Checked e (productOf e) := by
  intro hcaptured
  obtain ⟨rfl, hchildren⟩ := pointwise_checked hps fun _ hc => hcaptured.child hc
  refine ⟨rfl, ?_⟩
  rcases e.lambda_or_not with ⟨params, body, rfl⟩ | hnot
  · have hbody := hchildren body List.mem_cons_self
    rwa [underLambda_of_takes h] at hbody
  · rw [Expr.underLambda_eq hnot]
    refine .node hnot (fun name v site heq => hcaptured name v site (heq ▸ .self)) fun c hc => ?_
    rcases List.mem_append.1 hc with hc | hc
    · have hdata := hchildren c (Expr.data_subset e hc)
      rwa [Expr.underLambda_eq (not_lambda_of_productOf (productOf_of_takes h hc))] at hdata
    · obtain ⟨arg, harg, rfl⟩ := List.mem_map.1 hc
      exact hchildren arg (Expr.lambdaArgs_subset e harg)

theorem checkNode_checked (e : Expr) :
    Follows onValues (· = ·) (Same (Checked e)) (e.fold checkNode) (e.fold checkNode) := by
  refine Expr.fold_follows (P := Checked) (fun e ps hps => ?_) e
  unfold checkNode
  split
  · exact follows_fail _
  · exact follows_ite (fun h => follows_pure ⟨rfl, checked_of_takes hps h⟩) fun _ => follows_fail _

/-- **An accepted tree is first-order**, if its captured values hold no lambdas. -/
theorem firstOrder_of_check {e : Expr} (h : check e = .ok ()) (hcaptured : e.CapturesPlain) : e.FirstOrder := by
  obtain ⟨_, hcheck⟩ := outcome_eq_ok_iff.1 (check_eq_ok_iff.1 h).2
  obtain ⟨_, _, _, ⟨rfl, hchecked⟩, -⟩ := (checkNode_checked e).of_ok rfl hcheck
  obtain ⟨hproduct, hfirst⟩ := hchecked hcaptured
  rwa [Expr.underLambda_eq (not_lambda_of_productOf (hproduct ▸ Product.noConfusion))] at hfirst

/-- **The evaluation of an accepted tree ends within its height**, whatever the rows are that it runs on. -/
theorem ends_of_check {e : Expr} (h : check e = .ok ()) (hcaptured : e.CapturesPlain) {env : Env σ}
    (hrows : ∀ name v, env.source name = .ok v → v.Plain) {s : EvalState σ} (hs : s.scope.Holds Value.Plain) :
    env.EndsWithin e.height e s := by
  obtain ⟨hmarker, hhost⟩ := check_nodes h
  have hfeeds : env.Feeds e := ⟨hrows, fun f args hf => absurd rfl (hhost _ hf f args)⟩
  exact Env.endsWithin_height ((firstOrder_of_check h hcaptured).throughout hmarker) hfeeds hs s.hostState

end Strict

/-! ## Strict engines -/

namespace Engine

/-- What an engine evaluates the trees in that it takes. -/
def env (g : Engine σ) : Env σ := { host := g.host, sources := some g.catalog.rows }

section

open Endless

variable (host : Host σ) (h : σ)

theorem diverges_of_unchecked : (env ⟨host, {}, true⟩).Diverges (applyEach makeLoop) ⟨[], h⟩ :=
  diverges_applyEach (yields_makeLoop _ _)

theorem diverges_of_captured :
    (env ⟨host, {}, true⟩).Diverges (applyEach (.captured "fs" (.list [loop]) ⟨1⟩)) ⟨[], h⟩ :=
  diverges_applyEach (yields_of_succ fun _ => rfl)

theorem diverges_of_rows : (env ⟨host, ⟨[("fs", [loop])]⟩, true⟩).Diverges (applyEach (.source "fs")) ⟨[], h⟩ :=
  diverges_applyEach (yields_of_succ fun _ => rfl)

theorem diverges_of_scope : (env ⟨host, {}, true⟩).Diverges applySelf ⟨[(self.id, loop)], h⟩ :=
  diverges_applySelf _ rfl

end

/-- **A strict engine ends on every tree that it takes, as long as nobody hands it a lambda.**  The depth of the
evaluation is bounded by the height of the tree alone, and what it gives holds no lambda.  This needs the check of the
tree and the absence of lambdas from captured values, rows and scope: without any one of the four there are evaluations
that no depth is enough for. -/
theorem strict_terminates (host : Host σ) :
    (∀ (catalog : Catalog) (e : Expr) (s : EvalState σ), validate ⟨host, catalog, true⟩ e = .ok () →
      e.CapturesPlain → catalog.Plain → s.scope.Holds Value.Plain →
        (env ⟨host, catalog, true⟩).EndsWithin e.height e s) ∧
    (∃ (catalog : Catalog) (e : Expr) (scope : Scope), e.CapturesPlain ∧ catalog.Plain ∧ scope.Holds Value.Plain ∧
      ∀ h : σ, (env ⟨host, catalog, true⟩).Diverges e ⟨scope, h⟩) ∧
    (∃ (catalog : Catalog) (e : Expr) (scope : Scope), validate ⟨host, catalog, true⟩ e = .ok () ∧ catalog.Plain ∧
      scope.Holds Value.Plain ∧ ∀ h : σ, (env ⟨host, catalog, true⟩).Diverges e ⟨scope, h⟩) ∧
    (∃ (catalog : Catalog) (e : Expr) (scope : Scope), validate ⟨host, catalog, true⟩ e = .ok () ∧ e.CapturesPlain ∧
      scope.Holds Value.Plain ∧ ∀ h : σ, (env ⟨host, catalog, true⟩).Diverges e ⟨scope, h⟩) ∧
    ∃ (catalog : Catalog) (e : Expr) (scope : Scope), validate ⟨host, catalog, true⟩ e = .ok () ∧ e.CapturesPlain ∧
      catalog.Plain ∧ ∀ h : σ, (env ⟨host, catalog, true⟩).Diverges e ⟨scope, h⟩ := by
  have hempty : Catalog.Plain {} := by simp [Catalog.Plain]
  have hclosed : Scope.Holds Value.Plain [] := by simp [Scope.Holds]
  refine ⟨fun catalog e s hvalid hcaptured hrows hs => ?_, ?unchecked, ?captured, ?rows, ?scope⟩
  · have hsource : ∀ name v, (env ⟨host, catalog, true⟩).source name = .ok v → v.Plain := fun _ _ => hrows.rows
    exact Strict.ends_of_check hvalid hcaptured hsource hs
  case unchecked => exact ⟨_, _, _, by decide, hempty, hclosed, diverges_of_unchecked host⟩
  case captured => exact ⟨_, _, _, Strict.check_eq_ok rfl rfl, hempty, hclosed, diverges_of_captured host⟩
  case rows => exact ⟨_, _, _, Strict.check_eq_ok rfl rfl, by decide, hclosed, diverges_of_rows host⟩
  case scope => exact ⟨_, _, _, Strict.check_eq_ok rfl rfl, by decide, hempty, diverges_of_scope host⟩

/-- Every row of a source and one more. -/
def rowsPlusOne : Expr := .call (.operator .select) [.source "s", .ofLambda addOne]

theorem strict_terminates_rows :
    oneRow.validate rowsPlusOne = .ok () ∧ rowsPlusOne.CapturesPlain ∧ oneRow.catalog.Plain ∧
      Scope.Holds Value.Plain [] ∧ rowsPlusOne.height = 4 ∧ oneRow.env.EndsWithin 4 rowsPlusOne ⟨[], ()⟩ := by
  have hvalid : oneRow.validate rowsPlusOne = .ok () := Strict.check_eq_ok rfl rfl
  have hcaptured : rowsPlusOne.CapturesPlain := by decide
  have hclosed : Scope.Holds Value.Plain [] := by simp [Scope.Holds]
  refine ⟨hvalid, hcaptured, oneRow_lambdaFree, hclosed, rfl, ?_⟩
  exact (strict_terminates oneRow.host).1 oneRow.catalog rowsPlusOne ⟨[], ()⟩ hvalid hcaptured oneRow_lambdaFree hclosed

end Engine

end Splice
