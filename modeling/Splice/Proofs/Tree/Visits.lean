import Splice.Proofs.Following
import Splice.Proofs.Tree.Nodes
/-!
# Visits that follow one another

A visit is its calls, so two visits follow one another if their calls do (`Visitor.visit_follows`); what is known of the
results of the children may be used for the result of the node.

A pass keeps or replaces a node, while a recursive definition just gives a tree.  `Visitor.bottomUp` is the visit that
rebuilds every node around the results of its children and then finishes it, with trees as results: the recursion that
the passes of this library are compared with.
-/
namespace Splice

open Run

variable {σ τ α β : Type} {slack : Halt → Prop} {R : σ → τ → Prop}

namespace Visitor

theorem visitAll_follows {v : Visitor σ α} {w : Visitor τ β} {Q : Expr → α → β → Prop} :
    ∀ es : List Expr, (∀ e ∈ es, Follows slack R (Q e) (v.visit e) (w.visit e)) →
      Follows slack R (Pointwise Q es) (v.visitAll es) (w.visitAll es)
  | [], _ => follows_pure .nil
  | e :: es, h => by
    refine follows_bind (h e List.mem_cons_self) fun a b hab => ?_
    refine follows_bind (visitAll_follows es fun c hc => h c (List.mem_cons_of_mem e hc)) fun as bs habs => ?_
    exact follows_pure (.cons hab habs)

/-- **A visit follows another one if its calls do.** -/
theorem visit_follows {v : Visitor σ α} {w : Visitor τ β} {Q : Expr → α → β → Prop}
    (henter : ∀ e, Follows slack R (Given (Q e)) (v.enter e) (w.enter e))
    (hexit : ∀ e as bs, Pointwise Q e.children as bs → Follows slack R (Q e) (v.exit e as) (w.exit e bs)) (e : Expr) :
    Follows slack R (Q e) (v.visit e) (w.visit e) := by
  induction e using Expr.children_induction with
  | node e ih =>
    rw [visit_eq, visit_eq]
    refine follows_bind (henter e) fun a b hab => ?_
    -- Either both visits go on to the children, or both end here.
    match a, b, hab with
    | none, none, _ => exact follows_bind (visitAll_follows e.children ih) fun as bs h => hexit e as bs h
    | some a, some b, hab => exact follows_pure hab

/-- The visit that rebuilds every node and finishes it. -/
def bottomUp (finish : Expr → Run σ Expr) : Visitor σ Expr where
  enter _ := pure none
  exit e cs := do finish (← Run.attempt (e.withChildren cs))

theorem bottomUp_exit (finish : Expr → Run σ Expr) {e e' : Expr} {cs : List Expr} (h : Expr.Rebuilds e cs e') :
    (bottomUp finish).exit e cs = finish e' := by
  simp [bottomUp, Expr.withChildren_eq_ok_iff.2 h, Run.attempt]

/-- **What a bottom-up visit does with a node.** -/
theorem visit_bottomUp (finish : Expr → Run σ Expr) (e : Expr) :
    (bottomUp finish).visit e =
      ((bottomUp finish).visitAll e.children >>= fun cs => Run.attempt (e.withChildren cs) >>= finish) := by
  rw [visit_eq]
  simp [around, bottomUp]

end Visitor

/-! ## Folds -/

theorem Pointwise.eq_of_same {γ : Type} {P : γ → α → Prop} {cs : List γ} {as bs : List α}
    (h : Pointwise (fun c => Same (P c)) cs as bs) : as = bs := by
  induction h with
  | nil => rfl
  | cons ha _ ih => rw [ha.1, ih]

theorem Pointwise.forall_of_same {γ : Type} {P : γ → α → Prop} {cs : List γ} {as bs : List α}
    (h : Pointwise (fun c => Same (P c)) cs as bs) : ∀ p ∈ cs.zip as, P p.1 p.2 := by
  induction h with
  | nil => exact fun _ hp => nomatch hp
  | cons ha _ ih => exact List.forall_mem_cons.2 ⟨ha.2, ih⟩

theorem Expr.fold_of_child {combine : Expr → List α → Run σ α} {e c : Expr} (h : e.children = [c]) :
    e.fold combine = (c.fold combine >>= fun a => combine e [a]) := by
  unfold Expr.fold
  rw [Visitor.loop_eq_visit, Visitor.loop_eq_visit, Visitor.visit_eq, h]
  simp [Visitor.around, Visitor.ofCombine, Visitor.visitAll, h]

/-- **What the combination of results passes from the children to the node holds of the results of a fold.** -/
theorem Expr.fold_follows {combine : Expr → List α → Run σ α} {P : Expr → α → Prop}
    (hcombine : ∀ e as, Pointwise (fun c => Same (P c)) e.children as as →
      Follows onValues (· = ·) (Same (P e)) (combine e as) (combine e as)) (e : Expr) :
    Follows onValues (· = ·) (Same (P e)) (e.fold combine) (e.fold combine) := by
  unfold Expr.fold
  rw [Visitor.loop_eq_visit]
  refine Visitor.visit_follows (Q := fun e => Same (P e)) (fun e => ?_) (fun e as bs has => ?_) e
  · refine follows_ite (fun hleaf => ?_) fun _ => follows_pure trivial
    have hnil : e.children = [] := List.isEmpty_iff.1 hleaf
    exact follows_map (hcombine e [] (hnil ▸ .nil)) fun _ _ h => h
  · cases has.eq_of_same
    exact hcombine e as has

/-! ## Rebuilding around edits -/

theorem Edit.zipWith_result_keep {es : List Expr} {edits : List Edit} (hlen : edits.length = es.length)
    (hkeep : edits.all Edit.isKeep = true) : List.zipWith Edit.result es edits = es := by
  induction es generalizing edits with
  | nil => rfl
  | cons e es ih =>
    cases edits with
    | nil => cases hlen
    | cons edit edits =>
      simp only [List.all_cons, Bool.and_eq_true] at hkeep
      cases edit with
      | keep => simp [Edit.result, ih (Nat.succ.inj hlen) hkeep.2]
      | put t => cases hkeep.1

/-- **A node is rebuilt around the results of the edits, and kept exactly when all its children are.** -/
theorem Expr.rebuild_spec {e : Expr} {edits : List Edit} (hlen : edits.length = e.children.length) :
    ∃ edit, e.rebuild edits = .ok edit ∧
      Expr.Rebuilds e (List.zipWith Edit.result e.children edits) (edit.result e) ∧
      edit.isKeep = edits.all Edit.isKeep := by
  unfold Expr.rebuild
  rw [if_neg (by simp [hlen])]
  by_cases hkeep : edits.all Edit.isKeep = true
  · rw [if_pos hkeep, Edit.zipWith_result_keep hlen hkeep, hkeep]
    exact ⟨.keep, rfl, Expr.rebuilds_children e, rfl⟩
  · rw [if_neg hkeep]
    have hcs : (List.zipWith Edit.result e.children edits).length = e.children.length := by simp [hlen]
    obtain ⟨e', he'⟩ := Expr.exists_rebuilds hcs
    rw [Expr.withChildren_eq_ok_iff.2 he']
    exact ⟨.put e', rfl, he', (Bool.not_eq_true _ ▸ hkeep).symm⟩

end Splice
