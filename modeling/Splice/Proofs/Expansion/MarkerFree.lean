import Splice.Proofs.Expansion.Recursion
/-!
# One expansion leaves no marker call behind

The children of a node are expanded before the node, a body before the actual arguments go into it, and the arguments
before that; so wherever marker calls stood, the tree that expansion gives has none
(`Expansion.expandWithin_markerFree`).  A tree without marker calls is kept as it is
(`Expansion.expandWithin_of_markerFree`).  Together: **expansion changes a tree exactly if it has a marker call, and
never changes it twice** (`Expr.expand_normalizes`).
-/
namespace Splice

open Run

/-! ## Substitution -/

namespace Substitution

theorem mem_of_get?_ofCall {params : List Param} {actuals : List Expr} {id : ParamId} {t : Expr}
    (h : (ofCall params actuals).get? id = some t) : t ∈ actuals :=
  (List.of_mem_zip (List.mem_reverse.1 (mem_of_lookup h))).2

theorem replace_markerFree {s : Substitution} (hs : ∀ id t, s.get? id = some t → t.MarkerFree) {e : Expr}
    (he : e.MarkerFree) : (s.replace e).MarkerFree := replace_nodes Expr.shallow_not_marker hs he

end Substitution

/-! ## The recursion -/

namespace Expansion

variable {σ : Type}

theorem pointwise_markerFree {es ts ts' : List Expr} (h : Pointwise (fun _ => Same Expr.MarkerFree) es ts ts') :
    ts = ts' ∧ ∀ t ∈ ts, t.MarkerFree := by
  induction h with
  | nil => exact ⟨rfl, by simp⟩
  | cons ht _ ih => exact ⟨by rw [ht.1, ih.1], List.forall_mem_cons.2 ⟨ht.2, ih.2⟩⟩

/-- **Of a node around children without marker calls, finishing leaves no marker call.** -/
theorem finish_markerFree {host : Host σ} {body : Expr → Run σ Expr}
    (hbody : ∀ e, Follows onValues (· = ·) (Same Expr.MarkerFree) (body e) (body e)) {e : Expr}
    (he : ∀ c ∈ e.children, c.MarkerFree) :
    Follows onValues (· = ·) (Same Expr.MarkerFree) (finish host body e) (finish host body e) := by
  cases hm : Marker.isMarker e with
  | false =>
    rw [finish_of_not_marker host body hm]
    exact follows_pure ⟨rfl, Expr.markerFree_iff.2 ⟨hm, he⟩⟩
  | true =>
    obtain ⟨args, rfl⟩ := Expr.isMarker_iff.1 hm
    cases args with
    | nil => exact follows_fail _
    | cons reference actuals =>
      refine follows_bind (follows_refl _) ?_
      rintro f _ rfl
      split
      case isFalse => exact follows_fail _
      case isTrue =>
        -- The body is free of marker calls by itself, and the arguments are children of the node.
        refine follows_bind (hbody f.body) ?_
        rintro b _ ⟨rfl, hb⟩
        refine follows_pure ⟨rfl, Substitution.replace_markerFree (fun id t ht => ?_) hb⟩
        exact he t (List.mem_cons_of_mem _ (Substitution.mem_of_get?_ofCall ht))

/-- **The tree that expansion gives has no marker call.** -/
theorem expandWithin_markerFree (host : Host σ) (limit : Nat) :
    ∀ (levels : Nat) (e : Expr),
      Follows onValues (· = ·) (Same Expr.MarkerFree) (expandWithin host limit levels e)
        (expandWithin host limit levels e)
  | 0, _ => follows_fail _
  | levels + 1, e => by
    refine Visitor.visit_follows (Q := fun _ => Same Expr.MarkerFree) (fun _ => follows_pure trivial) ?_ e
    intro e ts ts' hts
    obtain ⟨rfl, hfree⟩ := pointwise_markerFree hts
    obtain ⟨e', hrebuilds⟩ := Expr.exists_rebuilds hts.lengths.1
    rw [Visitor.bottomUp_exit _ hrebuilds]
    exact finish_markerFree (expandWithin_markerFree host limit levels) (by rwa [hrebuilds.children])

theorem markerFree_of_expandWithin {host : Host σ} {limit levels : Nat} {e t : Expr} {s s' : σ}
    (h : expandWithin host limit levels e s = .ok t s') : t.MarkerFree := by
  obtain ⟨_, _, _, ⟨-, hfree⟩, -⟩ := (expandWithin_markerFree host limit levels e).of_ok rfl h
  exact hfree

theorem expandAllWithin_eq_pure {host : Host σ} {limit levels : Nat} {es : List Expr}
    (h : ∀ e ∈ es, expandWithin host limit (levels + 1) e = pure e) :
    expandAllWithin host limit levels es = pure es := by
  induction es with
  | nil => rfl
  | cons e es ih =>
    rw [expandAllWithin_cons, h e List.mem_cons_self, ih fun c hc => h c (List.mem_cons_of_mem e hc)]
    rfl

/-- **A tree without marker calls is expanded to itself**, and the host program is not asked. -/
theorem expandWithin_of_markerFree (host : Host σ) (limit levels : Nat) {e : Expr} (h : e.MarkerFree) :
    expandWithin host limit (levels + 1) e = pure e := by
  induction e using Expr.children_induction with
  | node e ih =>
    rw [expandWithin_eq, expandAllWithin_eq_pure fun c hc => ih c hc (h.child hc),
      ← finish_of_not_marker host (expandWithin host limit levels) (Expr.markerFree_iff.1 h).1]
    simp only [pure_bind, Expr.withChildren_eq_ok_iff.2 (Expr.rebuilds_children e)]
    rfl

end Expansion

/-! ## Expansion -/

namespace Expr

variable {σ : Type}

/-- The tree that an edit makes of a tree has no marker call. -/
theorem expand_markerFree (host : Host σ) (limit : Nat) (e : Expr) :
    Follows onValues (· = ·) (Same fun edit => (edit.result e).MarkerFree) (e.expand host limit)
      (e.expand host limit) := by
  rintro s _ rfl
  cases hx : e.expand host limit s with
  | error cause s' => exact .inl trivial
  | ok edit s' =>
    obtain ⟨t, _, ht, ⟨rfl, -⟩, -⟩ := (Expr.expand_follows host limit e).of_ok rfl hx
    exact ⟨edit, s', rfl, ⟨rfl, Expansion.markerFree_of_expandWithin ht⟩, rfl⟩

theorem expanded_markerFree (host : Host σ) (limit : Nat) (e : Expr) :
    Follows onValues (· = ·) (Same MarkerFree) (e.expanded host limit) (e.expanded host limit) := by
  rw [expanded_eq]
  exact Expansion.expandWithin_markerFree host limit (limit + 1) e

theorem expanded_of_markerFree (host : Host σ) (limit : Nat) {e : Expr} (h : e.MarkerFree) :
    e.expanded host limit = pure e := by
  rw [expanded_eq, Expansion.expandWithin_of_markerFree host limit limit h]

theorem expand_of_markerFree (host : Host σ) (limit : Nat) {e : Expr} (h : e.MarkerFree) (s : σ) :
    e.expand host limit s = .ok .keep s := by
  have hfollows := Expr.expand_follows host limit e
  rw [Expansion.expandWithin_of_markerFree host limit limit h] at hfollows
  cases hx : e.expand host limit s with
  | ok edit s' =>
    obtain ⟨t, s'', ht, hedit, rfl⟩ := hfollows.of_ok rfl hx
    obtain ⟨rfl, rfl⟩ : e = t ∧ s = s' := by cases ht; exact ⟨rfl, rfl⟩
    cases edit with
    | keep => rfl
    | put t => exact absurd (hedit.2.2 h) Bool.false_ne_true
  | error cause s' =>
    obtain ⟨s'', hs, -⟩ := hfollows.of_error rfl hx
    cases hs

/-- **Expansion leaves no marker call behind, changes a tree exactly if it has one, and never changes it again**,
whatever the limit and the host program of the second expansion are. -/
theorem expand_normalizes {host : Host σ} {limit : Nat} {e : Expr} {edit : Edit} {s s' : σ}
    (h : e.expand host limit s = .ok edit s') :
    (edit.result e).MarkerFree ∧ (edit = .keep ↔ e.MarkerFree) ∧
      ∀ {τ : Type} (host' : Host τ) (limit' : Nat) (t : τ), (edit.result e).expand host' limit' t = .ok .keep t := by
  obtain ⟨t, s'', ht, ⟨hresult, hkeep⟩, -⟩ := (Expr.expand_follows host limit e).of_ok rfl h
  have hfree := Expansion.markerFree_of_expandWithin ht
  subst hresult
  refine ⟨hfree, ?_, fun host' limit' => expand_of_markerFree host' limit' hfree⟩
  rw [← hkeep]
  cases edit <;> simp [Edit.isKeep]

/-- A host program whose functions return null. -/
def quiet : Host Unit := { call := fun _ _ => pure .null }

/-- A held lambda that adds one, called through a projection. -/
def plusOne (arg : Expr) : Expr :=
  .call .project
    [.captured "f"
        (.lambda [⟨⟨0, 0⟩, "n", .any⟩] (.binary .add (.param ⟨⟨0, 0⟩, "n", .any⟩) (.literal (.int 1) ⟨0⟩))) ⟨1⟩,
      arg]

/-- The rows of a source under a projection whose body is a projection. -/
def rowsUnderPlusOne : Expr :=
  .operator .select (.source "rows") (some ⟨[⟨⟨0, 1⟩, "row", .any⟩],
    .call .project [.lambda [⟨⟨0, 2⟩, "m", .any⟩] (plusOne (.param ⟨⟨0, 2⟩, "m", .any⟩)),
      .member (.param ⟨⟨0, 1⟩, "row", .any⟩) "size"]⟩)

/-- The same rows with both bodies in place. -/
def rowsPlusOne : Expr :=
  .operator .select (.source "rows") (some ⟨[⟨⟨0, 1⟩, "row", .any⟩],
    .binary .add (.member (.param ⟨⟨0, 1⟩, "row", .any⟩) "size") (.literal (.int 1) ⟨0⟩)⟩)

theorem expand_normalizes_rows :
    rowsUnderPlusOne.expand quiet 2 () = .ok (.put rowsPlusOne) () ∧
      rowsPlusOne.MarkerFree ∧ (Edit.put rowsPlusOne = .keep ↔ rowsUnderPlusOne.MarkerFree) ∧
      ∀ {τ : Type} (host' : Host τ) (limit' : Nat) (t : τ), rowsPlusOne.expand host' limit' t = .ok .keep t :=
  have hmarker : ¬ rowsUnderPlusOne.MarkerFree := fun h =>
    Bool.noConfusion (h _ (.child (List.mem_cons_of_mem _ List.mem_cons_self) (.child List.mem_cons_self .self)))
  have h : rowsUnderPlusOne.expand quiet 2 () = .ok (.put rowsPlusOne) () := expand_of_expandWithin hmarker rfl
  ⟨h, expand_normalizes h⟩

end Expr

end Splice
