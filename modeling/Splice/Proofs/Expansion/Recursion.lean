import Splice.Expansion.Pass
import Splice.Proofs.Expansion.Replacement
/-!
# Expansion as a recursion

`Expansion.expandWithin` says what expansion does without stacks, counters or edits: the children of a node are expanded
from left to right, the node is rebuilt around them, and a marker call is replaced by the body of its lambda, expanded
one level further down.  The tree itself is a level, and so is every body inside a body.

**The pass does the same** (`Expansion.expand_follows`): the same calls of the host program, with the same tree or the
same stop at the end, whatever the counters were before.  Beside the tree it knows whether anything changed, and that
is the case exactly if the tree has a marker call.
-/
namespace Splice

namespace Expansion

open Run

variable {σ : Type}

/-- What becomes of a rebuilt node: a marker call gives way to the body that `expandBody` expands. -/
def finish (host : Host σ) (expandBody : Expr → Run σ Expr) : Expr → Run σ Expr
  | .call .project [] => Run.fail .missingReference
  | .call .project (reference :: actuals) => do
    let f ← reference.resolve host
    if f.arity = actuals.length then
      let body ← expandBody f.body
      pure ((Substitution.ofCall f.params actuals).replace body)
    else Run.fail (.arityMismatch f.arity actuals.length)
  | node => pure node

/-- Expand a tree with so many levels left, the tree itself being one. -/
def expandWithin (host : Host σ) (limit : Nat) : (levels : Nat) → Expr → Run σ Expr
  | 0, _ => Run.fail (.cyclicProjection limit)
  | levels + 1, e => (Visitor.bottomUp (finish host (expandWithin host limit levels))).visit e

def expandAllWithin (host : Host σ) (limit levels : Nat) (es : List Expr) : Run σ (List Expr) :=
  (Visitor.bottomUp (finish host (expandWithin host limit levels))).visitAll es

/-- **The children first, then the node.** -/
theorem expandWithin_eq (host : Host σ) (limit levels : Nat) (e : Expr) :
    expandWithin host limit (levels + 1) e =
      (expandAllWithin host limit levels e.children >>= fun cs =>
        Run.attempt (e.withChildren cs) >>= finish host (expandWithin host limit levels)) :=
  Visitor.visit_bottomUp _ e

theorem expandAllWithin_cons (host : Host σ) (limit levels : Nat) (e : Expr) (es : List Expr) :
    expandAllWithin host limit levels (e :: es) =
      (expandWithin host limit (levels + 1) e >>= fun t =>
        expandAllWithin host limit levels es >>= fun ts => pure (t :: ts)) := rfl

/-- **A marker call**: its reference, then its actual arguments, then what takes its place. -/
theorem expandWithin_call (host : Host σ) (limit levels : Nat) (reference : Expr) (actuals : List Expr) :
    expandWithin host limit (levels + 1) (Marker.call reference actuals) =
      (expandWithin host limit (levels + 1) reference >>= fun r =>
        expandAllWithin host limit levels actuals >>= fun as =>
          finish host (expandWithin host limit levels) (Marker.call r as)) := by
  have hnode : ∀ cs, cs.length = (reference :: actuals).length →
      (Run.attempt ((Marker.call reference actuals).withChildren cs) >>= finish host (expandWithin host limit levels)) =
        finish host (expandWithin host limit levels) (.call .project cs) := by
    intro cs hlen
    have hrebuilds : Expr.Rebuilds (Marker.call reference actuals) cs (.call .project cs) := .call hlen
    rw [Expr.withChildren_eq_ok_iff.2 hrebuilds]
    rfl
  rw [expandWithin_eq]
  refine (Visitor.visitAll_bind_congr _ (reference :: actuals) hnode).trans ?_
  show expandAllWithin host limit levels (reference :: actuals) >>= _ = _
  simp only [expandAllWithin_cons, bind_assoc, pure_bind]
  rfl

/-- A lambda that is not called: its body expands in its place. -/
theorem expandWithin_lambda (host : Host σ) (limit levels : Nat) (params : List Param) (body : Expr) :
    expandWithin host limit (levels + 1) (.lambda params body) =
      (expandWithin host limit (levels + 1) body >>= fun b => pure (.lambda params b)) := by
  rw [expandWithin_eq]
  show ((expandWithin host limit (levels + 1) body >>= fun b => pure [b]) >>= _) = _
  rw [bind_assoc]
  rfl

theorem finish_of_not_marker (host : Host σ) (expandBody : Expr → Run σ Expr) {e : Expr}
    (h : Marker.isMarker e = false) : finish host expandBody e = pure e := by
  unfold finish
  split
  · cases h
  · cases h
  · rfl

/-- **What takes the place of a marker call**: its reference denotes a lambda of the right arity, whose body expands. -/
theorem finish_eq_ok_iff {host : Host σ} {expandBody : Expr → Run σ Expr} {reference t : Expr} {actuals : List Expr}
    {s s' : σ} :
    finish host expandBody (Marker.call reference actuals) s = .ok t s' ↔
      ∃ f b k, reference.resolve host s = .ok f k ∧ f.arity = actuals.length ∧ expandBody f.body k = .ok b s' ∧
        (Substitution.ofCall f.params actuals).replace b = t := by
  show (reference.resolve host >>= _) s = _ ↔ _
  rw [bind_eq_ok_iff]
  constructor
  · rintro ⟨f, k, hf, h⟩
    split at h
    case isTrue harity =>
      obtain ⟨b, k', hb, ht⟩ := bind_eq_ok_iff.1 h
      cases ht
      exact ⟨f, b, k, hf, harity, hb, rfl⟩
    case isFalse => cases h
  · rintro ⟨f, b, k, hf, harity, hb, rfl⟩
    refine ⟨f, k, hf, ?_⟩
    rw [if_pos harity, bind_of_ok hb]
    rfl

/-! ## The pass does what the recursion does -/

/-- The state of an expansion at this depth, and the state of the host program in it. -/
def AtDepth (limit depth : Nat) (s : Expansion σ) (h : σ) : Prop :=
  s.limit = limit ∧ s.depth = depth ∧ s.hostState = h

/-- The edit that a pass makes of a tree, and the tree: the edit keeps the tree exactly if there is no marker call. -/
def Edited (e : Expr) (edit : Edit) (t : Expr) : Prop := edit.result e = t ∧ (edit.isKeep = true ↔ e.MarkerFree)

theorem pointwise_edited {es : List Expr} {edits : List Edit} {ts : List Expr} (h : Pointwise Edited es edits ts) :
    List.zipWith Edit.result es edits = ts ∧ (edits.all Edit.isKeep = true ↔ ∀ e ∈ es, e.MarkerFree) := by
  induction h with
  | nil => simp
  | cons hedit _ ih =>
    refine ⟨by simp [hedit.1, ih.1], ?_⟩
    rw [List.all_cons, Bool.and_eq_true, hedit.2, ih.2, List.forall_mem_cons]

theorem onHost_follows {α : Type} {limit depth : Nat} (x : Run σ α) :
    Follows strictly (AtDepth limit depth) (· = ·) (onHost x) x :=
  follows_of_inside (fun _ _ h => h.2.2) (fun _ _ _ _ h h' => ⟨h.1, h.2.1, h'⟩) (follows_refl x)

theorem deeper_follows {α β : Type} {Q : α → β → Prop} {limit depth : Nat} {x : Run (Expansion σ) α} {y : Run σ β}
    (h : Follows strictly (AtDepth limit (depth + 1)) Q x y) :
    Follows strictly (AtDepth limit depth) Q (deeper x) y := by
  refine follows_of_inside (fun s t hst => ?_) (fun s t s' t' _ hst' => ?_) h
  · exact ⟨hst.1, congrArg (· + 1) hst.2.1, hst.2.2⟩
  · exact ⟨hst'.1, by simp [hst'.2.1], hst'.2.2⟩

/-- **Splicing**: after the reference and the arity, the depth decides whether the body is expanded. -/
theorem splice_follows {host : Host σ} {limit depth : Nat} {body : Expr → Run (Expansion σ) Edit}
    {body' : Expr → Run σ Expr} (hdeep : ¬ depth < limit → ∀ e, body' e = Run.fail (.cyclicProjection limit))
    (hbody : depth < limit → ∀ e, Follows strictly (AtDepth limit (depth + 1)) (Edited e) (body e) (body' e))
    (reference : Expr) (actuals : List Expr) :
    Follows strictly (AtDepth limit depth) (· = ·) (splice host body reference actuals)
      (finish host body' (.call .project (reference :: actuals))) := by
  refine follows_bind (onHost_follows _) ?_
  rintro f _ rfl
  split
  case isFalse => exact follows_fail _
  case isTrue =>
    refine follows_of_get ?_
    rintro s _ ⟨hlimit, hdepth, -⟩
    rw [hlimit, hdepth]
    split
    case isTrue hlt =>
      refine follows_bind (deeper_follows (hbody hlt f.body)) ?_
      rintro edit _ ⟨rfl, -⟩
      rw [Substitution.apply_eq]
      exact follows_of_modify (fun _ _ h => h) (fun _ _ h => h) (follows_pure rfl)
    case isFalse hlt =>
      rw [hdeep hlt]
      refine follows_of_get ?_
      rintro s' _ ⟨hlimit', -⟩
      rw [hlimit']
      exact follows_throw _

theorem onNode_follows {host : Host σ} {limit depth : Nat} {body : Expr → Run (Expansion σ) Edit}
    {body' : Expr → Run σ Expr} (hdeep : ¬ depth < limit → ∀ e, body' e = Run.fail (.cyclicProjection limit))
    (hbody : depth < limit → ∀ e, Follows strictly (AtDepth limit (depth + 1)) (Edited e) (body e) (body' e))
    {e : Expr} {edit : Edit} (hmarker : Marker.isMarker (edit.result e) = Marker.isMarker e)
    (hkeep : edit.isKeep = true ↔ ∀ c ∈ e.children, c.MarkerFree) :
    Follows strictly (AtDepth limit depth) (Edited e) (onNode host body e edit)
      (finish host body' (edit.result e)) := by
  have hfree : e.MarkerFree ↔ Marker.isMarker (edit.result e) = false ∧ edit.isKeep = true := by
    rw [hmarker, hkeep, Expr.markerFree_iff]
  unfold onNode
  dsimp only
  cases hm : Marker.isMarker (edit.result e) with
  | false =>
    rw [finish_of_not_marker host body' hm]
    exact follows_pure ⟨rfl, by simp [hfree, hm]⟩
  | true =>
    obtain ⟨args, hargs⟩ := Expr.isMarker_iff.1 hm
    rw [hargs]
    cases args with
    | nil => exact follows_fail _
    | cons reference actuals =>
      refine follows_of_map ((splice_follows hdeep hbody reference actuals).weaken ?_)
      rintro t _ rfl
      exact ⟨rfl, by simp [hfree, hm, Edit.isKeep]⟩

/-- **The pass with `room` for bodies does what the recursion with that many levels more does.** -/
theorem pass_follows (host : Host σ) {limit : Nat} :
    ∀ (room depth : Nat), depth + room = limit → ∀ e,
      Follows strictly (AtDepth limit depth) (Edited e) ((pass host room).visitor.visit e)
        (expandWithin host limit (room + 1) e) := by
  -- One visit, at any depth: the induction is on the room, and only the way into the body changes with it.
  have hnode : ∀ {depth : Nat} {body : Expr → Run (Expansion σ) Edit} {body' : Expr → Run σ Expr},
      (¬ depth < limit → ∀ e, body' e = Run.fail (.cyclicProjection limit)) →
      (depth < limit → ∀ e, Follows strictly (AtDepth limit (depth + 1)) (Edited e) (body e) (body' e)) →
      ∀ e, Follows strictly (AtDepth limit depth) (Edited e)
        (Visitor.visit (Pass.visitor { exit := onNode host body }) e)
        ((Visitor.bottomUp (finish host body')).visit e) := by
    intro depth body body' hdeep hbody e
    refine Visitor.visit_follows (fun e => follows_pure trivial) (fun e edits ts hedits => ?_) e
    obtain ⟨hts, hall⟩ := pointwise_edited hedits
    obtain ⟨edit, hedit, hrebuilds, hkeep⟩ := Expr.rebuild_spec hedits.lengths.1
    rw [hts] at hrebuilds
    simp only [Pass.visitor, Visitor.bottomUp, hedit, Expr.withChildren_eq_ok_iff.2 hrebuilds]
    exact onNode_follows hdeep hbody hrebuilds.isMarker (by rw [hkeep, hall])
  intro room
  induction room with
  | zero =>
    intro depth hroom
    exact hnode (fun _ _ => rfl) fun h => by omega
  | succ room ih =>
    intro depth hroom
    refine hnode (fun h => by omega) fun _ e => ?_
    unfold Expr.transform
    rw [Visitor.loop_eq_visit]
    exact ih (depth + 1) (by omega) e

/-- **An expansion is the recursion from every state of the counters**, with as many levels as its limit allows below
the tree itself. -/
theorem expand_follows (host : Host σ) (limit : Nat) (e : Expr) :
    Follows strictly (fun (s : Expansion σ) h => s.limit = limit ∧ s.hostState = h) (Edited e) (expand host e)
      (expandWithin host limit (limit + 1) e) := by
  refine follows_of_modify (S := AtDepth limit 0) (fun _ _ h => ⟨h.1, rfl, h.2⟩) (fun _ _ h => ⟨h.1, h.2.2⟩) ?_
  refine follows_of_get ?_
  rintro s _ ⟨hlimit, -⟩
  rw [hlimit, Expr.transform, Visitor.loop_eq_visit]
  exact pass_follows host limit 0 (Nat.zero_add limit) e

end Expansion

/-- **Expanding a tree**: the recursion, and whether it changed anything. -/
theorem Expr.expand_follows {σ : Type} (host : Host σ) (limit : Nat) (e : Expr) :
    Run.Follows Run.strictly (· = ·) (Expansion.Edited e) (e.expand host limit)
      (Expansion.expandWithin host limit (limit + 1) e) :=
  Run.follows_of_inside (fun _ _ hst => ⟨rfl, hst⟩) (fun _ _ _ _ _ hst' => hst'.2)
    (Expansion.expand_follows host limit e)

/-- The expansion of a tree that has a marker call puts another tree in its place. -/
theorem Expr.expand_eq_put {σ : Type} {host : Host σ} {limit : Nat} {e : Expr} (hmarker : ¬ e.MarkerFree) :
    e.expand host limit = Edit.put <$> Expansion.expandWithin host limit (limit + 1) e := by
  refine Run.Follows.eq ?_
  rw [← id_map (e.expand host limit)]
  refine Run.follows_map (Expr.expand_follows host limit e) ?_
  rintro edit t ⟨rfl, hkeep⟩
  cases edit with
  | keep => exact absurd (hkeep.1 rfl) hmarker
  | put t => rfl

theorem Expr.expand_of_expandWithin {σ : Type} {host : Host σ} {limit : Nat} {e t : Expr} {s s' : σ}
    (hmarker : ¬ e.MarkerFree) (h : Expansion.expandWithin host limit (limit + 1) e s = .ok t s') :
    e.expand host limit s = .ok (.put t) s' := by
  rw [Expr.expand_eq_put hmarker, ← bind_pure_comp]
  exact Run.bind_of_ok h

/-- An expansion stops where the recursion does. -/
theorem Expr.expand_eq_error_iff {σ : Type} {host : Host σ} {limit : Nat} {e : Expr} {cause : Halt} {s s' : σ} :
    e.expand host limit s = .error cause s' ↔ Expansion.expandWithin host limit (limit + 1) e s = .error cause s' := by
  have hfollows := Expr.expand_follows host limit e
  constructor
  · intro h
    obtain ⟨_, hwithin, rfl⟩ := hfollows.of_error rfl h
    exact hwithin
  · intro hwithin
    cases h : e.expand host limit s with
    | ok edit s'' =>
      obtain ⟨_, _, ht, -⟩ := hfollows.of_ok rfl h
      cases hwithin.symm.trans ht
    | error cause' s'' =>
      obtain ⟨_, hwithin', rfl⟩ := hfollows.of_error rfl h
      cases hwithin.symm.trans hwithin'
      rfl

def Expr.expanded {σ : Type} (host : Host σ) (limit : Nat) (e : Expr) : Run σ Expr := do
  return (← e.expand host limit).result e

theorem Expr.expanded_eq {σ : Type} (host : Host σ) (limit : Nat) (e : Expr) :
    e.expanded host limit = Expansion.expandWithin host limit (limit + 1) e := by
  refine Run.Follows.eq ?_
  rw [← bind_pure (Expansion.expandWithin host limit (limit + 1) e)]
  exact Run.follows_bind (Expr.expand_follows host limit e) fun edit t h => Run.follows_pure h.1

end Splice
