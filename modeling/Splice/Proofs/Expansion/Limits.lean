import Splice.Proofs.Expansion.MarkerFree
import Mathlib.Data.List.Forall2
/-!
# Expansions with different limits

The depth is compared with the limit last of all that is checked at a marker call, and nothing else looks at the limit.
So two expansions with different limits do the same until the smaller limit is reached, and there the first one stops:
**a limit decides whether an expansion goes on, never what it gives** (`Expr.expand_limits`).
-/
namespace Splice

open Run

variable {σ : Type}

/-! ## What an expansion depends on -/

namespace Expansion

variable {host : Host σ} {limit limit' levels levels' : Nat} {slack : Halt → Prop}

theorem finish_follows {body body' : Expr → Run σ Expr}
    (hbody : ∀ e, Follows slack (· = ·) (· = ·) (body e) (body' e)) (e : Expr) :
    Follows slack (· = ·) (· = ·) (finish host body e) (finish host body' e) := by
  unfold finish
  split
  · exact follows_fail _
  · refine follows_bind (follows_refl _) ?_
    rintro f _ rfl
    refine follows_ite (fun _ => follows_bind (hbody f.body) ?_) fun _ => follows_fail _
    rintro b _ rfl
    exact follows_pure rfl
  · exact follows_pure rfl

theorem expandAllWithin_follows {es es' : List Expr}
    (h : List.Forall₂ (fun e e' => Follows slack (· = ·) (· = ·) (expandWithin host limit (levels + 1) e)
      (expandWithin host limit' (levels' + 1) e')) es es') :
    Follows slack (· = ·) (· = ·) (expandAllWithin host limit levels es) (expandAllWithin host limit' levels' es') := by
  induction h with
  | nil => exact follows_pure rfl
  | cons he _ ih =>
    rw [expandAllWithin_cons, expandAllWithin_cons]
    refine follows_bind he ?_
    rintro t _ rfl
    refine follows_bind ih ?_
    rintro ts _ rfl
    exact follows_pure rfl

/-- **Nodes of one kind expand alike if their children and all bodies do**, whatever the limits are. -/
theorem expandWithin_follows {e e' : Expr} (hnode : ∀ cs, e.withChildren cs = e'.withChildren cs)
    (hchildren : List.Forall₂ (fun c c' => Follows slack (· = ·) (· = ·) (expandWithin host limit (levels + 1) c)
      (expandWithin host limit' (levels' + 1) c')) e.children e'.children)
    (hbody : ∀ b, Follows slack (· = ·) (· = ·) (expandWithin host limit levels b)
      (expandWithin host limit' levels' b)) :
    Follows slack (· = ·) (· = ·) (expandWithin host limit (levels + 1) e)
      (expandWithin host limit' (levels' + 1) e') := by
  rw [expandWithin_eq, expandWithin_eq]
  refine follows_bind (expandAllWithin_follows hchildren) ?_
  rintro cs _ rfl
  rw [hnode cs]
  refine follows_bind (follows_refl _) ?_
  rintro t _ rfl
  exact finish_follows hbody t

end Expansion

/-! ## What a limit changes -/

def AtLimit (limit : Nat) (cause : Halt) : Prop := cause = .error (.cyclicProjection limit)

namespace Expansion

/-- **With more levels an expansion does the same, or it goes on where the first one stopped at its limit.** -/
theorem expandWithin_limits (host : Host σ) (limit limit' : Nat) :
    ∀ (levels levels' : Nat), levels ≤ levels' → ∀ e : Expr,
      Follows (AtLimit limit) (· = ·) (· = ·) (expandWithin host limit levels e)
        (expandWithin host limit' levels' e) := by
  intro levels
  induction levels with
  | zero =>
    intro levels' _ e
    exact follows_of_slack (show AtLimit limit (.error (.cyclicProjection limit)) from rfl) _
  | succ levels ihlevels =>
    intro levels' hle e
    obtain ⟨levels', rfl⟩ : ∃ k, levels' = k + 1 := ⟨levels' - 1, by omega⟩
    -- The children of a node have the levels of the node; only a body has one less.
    induction e using Expr.children_induction with
    | node e ih =>
      exact expandWithin_follows (fun _ => rfl) (List.forall₂_same.2 ih) (ihlevels levels' (Nat.le_of_succ_le_succ hle))

/-- **What expands with some levels expands with one more**, to the same tree. -/
theorem expandWithin_succ (host : Host σ) (limit levels : Nat) (e : Expr) :
    Follows onValues (· = ·) (· = ·) (expandWithin host limit levels e) (expandWithin host limit (levels + 1) e) :=
  (expandWithin_limits host limit limit levels (levels + 1) (Nat.le_succ levels) e).mono (fun _ _ => trivial)
    fun _ _ h => h

end Expansion

namespace Expr

theorem expand_eq_or_atLimit (host : Host σ) {limit limit' : Nat} (hle : limit ≤ limit') (e : Expr) (s : σ) :
    (∃ s', e.expand host limit s = .error (.error (.cyclicProjection limit)) s') ∨
      e.expand host limit' s = e.expand host limit s := by
  by_cases hmarker : e.MarkerFree
  · exact .inr ((expand_of_markerFree host limit' hmarker s).trans (expand_of_markerFree host limit hmarker s).symm)
  · have hfollows := Expansion.expandWithin_limits host limit limit' (limit + 1) (limit' + 1) (by omega) e s s rfl
    cases hx : Expansion.expandWithin host limit (limit + 1) e s with
    | ok t s' =>
      rw [hx] at hfollows
      obtain ⟨_, _, ht, rfl, rfl⟩ := hfollows
      exact .inr ((expand_of_expandWithin hmarker ht).trans (expand_of_expandWithin hmarker hx).symm)
    | error cause s' =>
      rw [hx] at hfollows
      rcases hfollows with rfl | ⟨_, hcause, rfl⟩
      · exact .inl ⟨s', expand_eq_error_iff.2 hx⟩
      · exact .inr ((expand_eq_error_iff.2 hcause).trans (expand_eq_error_iff.2 hx).symm)

/-- **A greater limit changes nothing but stops at the limit.**  What an expansion gives with some limit it gives with
every greater one; where it fails for another reason than its limit, it fails for this reason with every greater one;
and where a greater limit makes a difference of any kind, the smaller one was reached. -/
theorem expand_limits (host : Host σ) {limit limit' : Nat} (hle : limit ≤ limit') (e : Expr) (s : σ) :
    (∀ edit s', e.expand host limit s = .ok edit s' → e.expand host limit' s = .ok edit s') ∧
      (∀ cause s', e.expand host limit s = .error cause s' → cause ≠ .error (.cyclicProjection limit) →
        e.expand host limit' s = .error cause s') ∧
      (e.expand host limit' s ≠ e.expand host limit s →
        ∃ s', e.expand host limit s = .error (.error (.cyclicProjection limit)) s') := by
  have hor := expand_eq_or_atLimit host hle e s
  refine ⟨fun edit s' hedit => ?_, fun cause s' hcause hother => ?_, fun hne => hor.resolve_right hne⟩
  · rcases hor with ⟨_, hstop⟩ | heq
    · cases hedit.symm.trans hstop
    · exact heq.trans hedit
  · rcases hor with ⟨_, hstop⟩ | heq
    · cases hcause.symm.trans hstop
      exact absurd rfl hother
    · exact heq.trans hcause

theorem expand_limits_rows :
    rowsUnderPlusOne.expand quiet 1 () = .ok (.put rowsPlusOne) () ∧
      rowsUnderPlusOne.expand quiet 7 () = .ok (.put rowsPlusOne) () ∧
      ∃ s', rowsUnderPlusOne.expand quiet 0 () = .error (.error (.cyclicProjection 0)) s' := by
  have hexpand : rowsUnderPlusOne.expand quiet 1 () = .ok (.put rowsPlusOne) () :=
    expand_of_expandWithin (by decide) rfl
  have hstop : rowsUnderPlusOne.expand quiet 0 () = .error (.error (.cyclicProjection 0)) () :=
    expand_eq_error_iff.2 rfl
  refine ⟨hexpand, (expand_limits _ (by decide) rowsUnderPlusOne ()).1 _ _ hexpand, ?_⟩
  refine (expand_limits _ (show 0 ≤ 1 by decide) rowsUnderPlusOne ()).2.2 fun heq => ?_
  cases hstop.symm.trans (heq.symm.trans hexpand)

end Expr

end Splice
