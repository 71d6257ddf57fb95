import Splice.Proofs.Expansion.Rebinding
import Splice.Proofs.Tree.Renaming
/-!
# Names of parameters play no part in expansion

Actual arguments are put in for parameters by identity, at every level, and so the names of parameters only come along:
**a renamed tree expands to the renamed expansion of the tree, or fails as the tree does** (`Expr.expand_rename`).  Two
trees that differ in names only have expansions that differ in names only.

That is a law of trees whose references are written lambdas or captured values, in the bodies that come into the tree
too (`Expr.Direct`).  Any other reference is evaluated, and evaluation may hand a tree to the host program or print it.
-/
namespace Splice

open Run

variable {name : Param → String}

/-! ## Substitution -/

namespace Substitution

/-- **Putting renamed trees into a renamed tree** gives the renamed result. -/
theorem replace_rename {s t : Substitution} (h : ∀ id, t.get? id = (s.get? id).map (Expr.rename name)) (e : Expr) :
    t.replace (e.rename name) = (s.replace e).rename name := by
  have hreplacement : ∀ e, t.replacement? (Expr.rename name e) = (s.replacement? e).map (Expr.rename name) := by
    intro e
    cases e with
    | param p => exact h p.id
    | _ => rfl
  induction e using Expr.children_induction with
  | node e ih =>
    cases hr : s.replacement? e with
    | some r =>
      rw [replace_of_replacement? hr]
      exact replace_of_replacement? (by rw [hreplacement, hr]; rfl)
    | none =>
      have hrenamed := replace_rebuilds (s := t) (e := e.rename name) (by rw [hreplacement, hr]; rfl)
      have hchildren : (e.rename name).children.map t.replace = (e.children.map s.replace).map (Expr.rename name) := by
        rw [Expr.children_rename, List.map_map, List.map_map]
        exact List.map_congr_left ih
      rw [hchildren] at hrenamed
      exact hrenamed.unique (replace_rebuilds hr).rename

theorem get?_ofCall_rename (params : List Param) (actuals : List Expr) (id : ParamId) :
    (ofCall (params.map (Param.rename name)) (actuals.map (Expr.rename name))).get? id =
      ((ofCall params actuals).get? id).map (Expr.rename name) := by
  have hids : (params.map (Param.rename name)).map Param.id = params.map Param.id := by
    rw [List.map_map]
    rfl
  have hofCall : ∀ as, ofCall (params.map (Param.rename name)) as = ofCall params as := fun as => by
    rw [ofCall, ofCall, hids]
  rw [hofCall, get?_ofCall_map]

end Substitution

/-! ## Trees with direct references -/

namespace Expr

/-- Every reference of the tree, and of every body that comes into it, is a written lambda or a captured value. -/
inductive Direct : Expr → Prop
  | node {e : Expr} : Marker.isMarker e = false → (∀ c ∈ e.children, Direct c) → Direct e
  /-- A marker call without a reference. -/
  | bare : Direct (.call .project [])
  | written {params : List Param} {body : Expr} {actuals : List Expr} : Direct body → (∀ a ∈ actuals, Direct a) →
      Direct (Marker.call (.lambda params body) actuals)
  | held {name : String} {value : Value} {site : Site} {actuals : List Expr} :
      (∀ f, value.asLambda? = some f → f.arity = actuals.length → Direct f.body) → (∀ a ∈ actuals, Direct a) →
      Direct (Marker.call (.captured name value site) actuals)

theorem Direct.rename {e : Expr} (h : e.Direct) : (e.rename name).Direct := by
  induction h with
  | @node e hm _ ih =>
    refine .node ((isMarker_rename e).trans hm) ?_
    rw [children_rename]
    exact List.forall_mem_map.2 ih
  | bare => exact .bare
  | @written params body actuals _ _ ihbody ihactuals =>
    rw [rename_call]
    exact .written ihbody (List.forall_mem_map.2 ihactuals)
  | @held _ value _ actuals _ _ ihbody ihactuals =>
    rw [rename_call]
    refine .held (fun g hg harity => ?_) (List.forall_mem_map.2 ihactuals)
    rw [Value.asLambda?_rename] at hg
    obtain ⟨f, hf, rfl⟩ := Option.map_eq_some_iff.1 hg
    rw [Lambda.arity_rename, List.length_map] at harity
    exact ihbody f hf harity

theorem Direct.of_rename {e : Expr} (h : (e.rename name).Direct) : e.Direct := by
  generalize hr : e.rename name = r at h
  induction h generalizing e with
  | @node r hm _ ih =>
    subst hr
    refine .node ((isMarker_rename e).symm.trans hm) fun c hc => ih (c.rename name) ?_ rfl
    rw [children_rename]
    exact List.mem_map_of_mem hc
  | bare =>
    obtain ⟨args, rfl, hargs⟩ := exists_of_rename_call hr
    obtain rfl := List.map_eq_nil_iff.1 hargs
    exact .bare
  | @written params body actuals _ _ ihbody ihactuals =>
    obtain ⟨reference, as, rfl, hreference, rfl⟩ := exists_of_rename_cons hr
    cases reference with
    | lambda params' body' =>
      exact .written (ihbody (Expr.lambda.inj hreference).2) fun a ha => ihactuals _ (List.mem_map_of_mem ha) rfl
    | _ => cases hreference
  | @held held value site actuals _ _ ihbody ihactuals =>
    obtain ⟨reference, as, rfl, hreference, rfl⟩ := exists_of_rename_cons hr
    cases reference with
    | captured held' value' site' =>
      obtain ⟨-, rfl, -⟩ := Expr.captured.inj hreference
      refine .held (fun f hf harity => ?_) fun a ha => ihactuals _ (List.mem_map_of_mem ha) rfl
      refine ihbody (f.rename name) ?_ ?_ rfl
      · rw [Value.asLambda?_rename, hf]
        rfl
      · rw [Lambda.arity_rename, List.length_map, harity]
    | _ => cases hreference

/-- **Names play no part in what a direct reference is.** -/
theorem direct_rename_iff {e : Expr} : (e.rename name).Direct ↔ e.Direct := ⟨Direct.of_rename, Direct.rename⟩

/-- A reference that needs no evaluation. -/
def Immediate (r : Expr) : Prop :=
  (∃ params body, r = .lambda params body) ∨ ∃ name value site, r = .captured name value site

end Expr

/-! ## Expansion -/

namespace Expansion

variable {σ : Type} {host : Host σ} {limit : Nat}

theorem resolve_rename {r : Expr} (h : r.Immediate) :
    (r.rename name).resolve host = Lambda.rename name <$> r.resolve host := by
  rcases h with ⟨params, body, rfl⟩ | ⟨held, value, site, rfl⟩
  · rfl
  · show Reference.lambdaOf _ (value.rename name) = Lambda.rename name <$> Reference.lambdaOf _ value
    unfold Reference.lambdaOf
    rw [Value.asLambda?_rename, Value.typeName_rename]
    cases value.asLambda? <;> rfl

theorem finish_rename {expandBody : Expr → Run σ Expr} {r : Expr} {actuals : List Expr} (hr : r.Immediate) {s : σ}
    (hbody : ∀ f k, r.resolve host s = .ok f k → f.arity = actuals.length →
      expandBody (f.body.rename name) = Expr.rename name <$> expandBody f.body) :
    finish host expandBody ((Marker.call r actuals).rename name) s =
      (Expr.rename name <$> finish host expandBody (Marker.call r actuals)) s := by
  rw [Expr.rename_call]
  show ((r.rename name).resolve host >>= _) s = (Expr.rename name <$> (r.resolve host >>= _)) s
  rw [resolve_rename hr, bind_map_left]
  refine bind_eq_map_bind fun f k hf => ?_
  rw [Lambda.arity_rename, List.length_map]
  split
  case isFalse => rfl
  case isTrue harity =>
    show (expandBody (f.body.rename name) >>= _) k = _
    rw [hbody f k hf harity, bind_map_left]
    refine bind_eq_map_bind fun b k' _ => ?_
    rw [map_pure]
    exact congrFun (congrArg pure (Substitution.replace_rename (Substitution.get?_ofCall_rename f.params actuals) b)) k'

theorem expandAllWithin_rename {levels : Nat} {es : List Expr}
    (h : ∀ e ∈ es, expandWithin host limit (levels + 1) (e.rename name) =
      Expr.rename name <$> expandWithin host limit (levels + 1) e) :
    expandAllWithin host limit levels (es.map (Expr.rename name)) =
      List.map (Expr.rename name) <$> expandAllWithin host limit levels es := by
  funext s
  refine expandAllWithin_map fun before c after _ s₁ hsplit _ => ?_
  exact congrFun (h c (hsplit ▸ List.mem_append_right _ List.mem_cons_self)) s₁

/-- **A renamed tree expands to the renamed tree.** -/
theorem expandWithin_rename {e : Expr} (h : e.Direct) :
    ∀ levels, expandWithin host limit levels (e.rename name) = Expr.rename name <$> expandWithin host limit levels e := by
  -- A body that comes in is a part of the derivation, so one induction serves for the tree and for the levels.
  induction h with
  | @node e hm _ ih =>
    rintro (_ | levels)
    · rfl
    · funext s
      refine expandWithin_map (fun _ _ => Expr.Rebuilds.rename) ?_ fun cs e' k _ hrebuilds => ?_
      · intro before c after _ s₁ hsplit _
        exact congrFun (ih c (hsplit ▸ List.mem_append_right _ List.mem_cons_self) (levels + 1)) s₁
      · have hm' : Marker.isMarker e' = false := hrebuilds.isMarker.trans hm
        rw [finish_of_not_marker _ _ hm', finish_of_not_marker _ _ ((Expr.isMarker_rename e').trans hm'), map_pure]
  | bare => rintro (_ | levels) <;> rfl
  | @written params body actuals _ _ ihbody ihactuals =>
    rintro (_ | levels)
    · rfl
    · rw [Expr.rename_call, expandWithin_call, expandWithin_call, Expr.rename, expandWithin_lambda, expandWithin_lambda,
        ihbody (levels + 1), expandAllWithin_rename fun a ha => ihactuals a ha (levels + 1)]
      simp only [bind_map_left, bind_assoc, pure_bind]
      funext s
      refine bind_eq_map_bind fun b k hb => bind_eq_map_bind fun as k' _ => ?_
      have hfree : b.MarkerFree := markerFree_of_expandWithin hb
      have hrenamed : ((Marker.call (.lambda params b) as).rename name) =
          Marker.call (.lambda (params.map (Param.rename name)) (b.rename name)) (as.map (Expr.rename name)) :=
        Expr.rename_call _ as
      rw [← hrenamed]
      refine finish_rename (.inl ⟨params, b, rfl⟩) fun f k hf _ => ?_
      cases hf
      -- The body was expanded where it is written, so it is left alone now, or there is no level for it.
      cases levels with
      | zero => rfl
      | succ levels =>
        rw [expandWithin_of_markerFree host limit levels hfree,
          expandWithin_of_markerFree host limit levels (Expr.markerFree_rename_iff.2 hfree), map_pure]
  | @held held value site actuals _ _ ihbody ihactuals =>
    rintro (_ | levels)
    · rfl
    · have hfree : ∀ v, (Expr.captured held v site).MarkerFree := fun v => Expr.markerFree_leaf rfl rfl
      rw [Expr.rename_call, expandWithin_call, expandWithin_call, Expr.rename,
        expandWithin_of_markerFree host limit levels (hfree _), expandWithin_of_markerFree host limit levels (hfree _),
        expandAllWithin_rename fun a ha => ihactuals a ha (levels + 1)]
      simp only [bind_map_left, pure_bind]
      funext s
      refine bind_eq_map_bind fun as k has => ?_
      have hrenamed : ((Marker.call (.captured held value site) as).rename name) =
          Marker.call (.captured held (value.rename name) site) (as.map (Expr.rename name)) :=
        Expr.rename_call _ as
      rw [← hrenamed]
      refine finish_rename (.inr ⟨held, value, site, rfl⟩) fun f k' hf harity => ?_
      obtain ⟨rfl, -⟩ := Reference.lambdaOf_eq_ok hf
      exact ihbody f rfl (harity.trans (expandAllWithin_length has)) levels

end Expansion

namespace Expr

variable {σ : Type}

theorem expand_rename_eq (host : Host σ) (limit : Nat) {e : Expr} (h : e.Direct) (name : Param → String) :
    (e.rename name).expand host limit = Edit.rename name <$> e.expand host limit := by
  by_cases hfree : e.MarkerFree
  · funext s
    rw [← bind_pure_comp, bind_of_ok (expand_of_markerFree host limit hfree s),
      expand_of_markerFree host limit (markerFree_rename_iff.2 hfree) s]
    rfl
  · rw [expand_eq_put hfree, expand_eq_put (fun hrenamed => hfree (markerFree_rename_iff.1 hrenamed)),
      Expansion.expandWithin_rename h, Functor.map_map, Functor.map_map]
    rfl

/-- **Parameter names are irrelevant to expansion.**  If all references are written lambdas or captured values, then the
tree with other names for its parameters, in captured values too, expands to the expansion with these names, or fails
with the same error, from every state of the host program.  And of two trees that differ in names only, however each of
them names a parameter here and there, either both expand, and to trees that differ in names only, or both fail with the
same error. -/
theorem expand_rename (host : Host σ) (limit : Nat) {e : Expr} (h : e.Direct) :
    (∀ name, (e.rename name).expand host limit = Edit.rename name <$> e.expand host limit) ∧
      ∀ e' : Expr, e'.unnamed = e.unnamed →
        Edit.unnamed <$> e'.expand host limit = Edit.unnamed <$> e.expand host limit := by
  refine ⟨expand_rename_eq host limit h, fun e' he => ?_⟩
  have h' : e'.unnamed.Direct := by
    rw [he]
    exact h.rename
  show Edit.rename _ <$> _ = Edit.rename _ <$> _
  rw [← expand_rename_eq host limit (direct_rename_iff.1 h'), ← expand_rename_eq host limit h]
  exact congrArg (Expr.expand host limit) he

theorem MarkerFree.direct {e : Expr} (h : e.MarkerFree) : e.Direct := by
  induction e using children_induction with
  | node e ih => exact .node (markerFree_iff.1 h).1 fun c hc => ih c hc (h.child hc)

theorem direct_rowsUnderPlusOne : rowsUnderPlusOne.Direct := by
  have hsource : (Expr.source "rows").Direct := MarkerFree.direct (by decide)
  have hplusOne : ∀ p, (plusOne (.param p)).Direct := fun p =>
    .held (fun f hf _ => by cases hf; exact MarkerFree.direct (by decide))
      (List.forall_mem_singleton.2 (MarkerFree.direct (markerFree_leaf rfl rfl)))
  have hbody : (Marker.call (.lambda [⟨⟨0, 2⟩, "m", .any⟩] (plusOne (.param ⟨⟨0, 2⟩, "m", .any⟩)))
      [.member (.param ⟨⟨0, 1⟩, "row", .any⟩) "size"]).Direct :=
    .written (hplusOne _) (List.forall_mem_singleton.2 (MarkerFree.direct (by decide)))
  exact .node rfl (List.forall_mem_cons.2
    ⟨hsource, List.forall_mem_singleton.2 (.node rfl (List.forall_mem_singleton.2 hbody))⟩)

/-- All parameters under one name: the row, and those of the two lambdas that are put in below it. -/
theorem expand_rename_rows :
    rowsUnderPlusOne.Direct ∧
      (rowsUnderPlusOne.rename fun _ => "p").expand quiet 2 () = .ok (.put (rowsPlusOne.rename fun _ => "p")) () ∧
      (rowsUnderPlusOne.rename fun _ => "p").unnamed = rowsUnderPlusOne.unnamed ∧
      Edit.unnamed <$> (rowsUnderPlusOne.rename fun _ => "p").expand quiet 2 =
        Edit.unnamed <$> rowsUnderPlusOne.expand quiet 2 := by
  have hnames := expand_rename quiet 2 direct_rowsUnderPlusOne
  have hexpand : rowsUnderPlusOne.expand quiet 2 () = .ok (.put rowsPlusOne) () :=
    expand_of_expandWithin (by decide) rfl
  refine ⟨direct_rowsUnderPlusOne, ?_, rfl, hnames.2 _ rfl⟩
  rw [hnames.1, ← bind_pure_comp, bind_of_ok hexpand]
  rfl

end Expr

end Splice
