import Splice.Proofs.Expansion.MarkerFree
/-!
# Expansion without limits

Over a host program without state expansion is a relation of trees: `Expands host e t` says that `t` is `e` with every
marker call, from the leaves up, replaced by the expanded body of its lambda.  **It holds exactly if expansion gives `t`
with some limit, and then with every greater one** (`Expr.expandsTo_iff`).  So what a tree expands to, and which lambda
a reference denotes, depend on no limit.  It is a relation only because references must yield their lambdas
deterministically (SPEC_FULL.md, section 3); with state, a host program could return another lambda at every call.
-/
namespace Splice

open Run

/-- The lambda that a reference denotes in a tree that is expanded. -/
def Expr.denoted {σ : Type} (host : Host σ) (limit : Nat) (reference : Expr) : Run σ Lambda := do
  (← reference.expanded host limit).resolve host

variable {host : Host Unit}

theorem Expr.denoted_eq {σ : Type} (host : Host σ) (limit : Nat) :
    Expr.denoted host limit =
      fun reference => Expansion.expandWithin host limit (limit + 1) reference >>= Expr.resolve host := by
  funext reference
  rw [Expr.denoted, Expr.expanded_eq]

/-- The tree expands to this tree, within some limit. -/
def Expr.ExpandsTo (host : Host Unit) (e t : Expr) : Prop := ∃ limit, (e.expanded host limit).outcome () = .ok t

/-- The reference denotes this lambda, if expanded within some limit. -/
def Expr.Denotes (host : Host Unit) (reference : Expr) (f : Lambda) : Prop :=
  ∃ limit, (reference.denoted host limit).outcome () = .ok f

/-- The reference, as it is written, is resolved to this lambda. -/
def Expr.Resolves (host : Host Unit) (reference : Expr) (f : Lambda) : Prop :=
  (reference.resolve host).outcome () = .ok f

/-- The children expand, and a marker call gives way to the expansion of the body. -/
inductive Expands (host : Host Unit) : Expr → Expr → Prop
  | node {e t : Expr} {cs : List Expr} : Marker.isMarker e = false → Expr.Rebuilds e cs t →
      (∀ p ∈ e.children.zip cs, Expands host p.1 p.2) → Expands host e t
  | site {reference reference' body : Expr} {actuals actuals' : List Expr} {f : Lambda} :
      Expands host reference reference' → actuals'.length = actuals.length →
      (∀ p ∈ actuals.zip actuals', Expands host p.1 p.2) → (reference'.resolve host).outcome () = .ok f →
      f.arity = actuals.length → Expands host f.body body →
      Expands host (.call .project (reference :: actuals)) ((Substitution.ofCall f.params actuals').replace body)

namespace Expansion

theorem finish_expands {body : Expr → Run Unit Expr}
    (hbody : ∀ e, Follows onValues (· = ·) (Same (Expands host e)) (body e) (body e)) {e e' : Expr} {cs : List Expr}
    (hrebuilds : Expr.Rebuilds e cs e') (hcs : ∀ p ∈ e.children.zip cs, Expands host p.1 p.2) :
    Follows onValues (· = ·) (Same (Expands host e)) (finish host body e') (finish host body e') := by
  cases hm : Marker.isMarker e with
  | false =>
    rw [finish_of_not_marker host body (hrebuilds.isMarker.trans hm)]
    exact follows_pure ⟨rfl, .node hm hrebuilds hcs⟩
  | true =>
    obtain ⟨args, rfl⟩ := Expr.isMarker_iff.1 hm
    cases hrebuilds with
    | call hlen =>
      match args, cs, hlen with
      | [], [], _ => exact follows_fail _
      | reference :: actuals, reference' :: actuals', hlen =>
        obtain ⟨hreference, hactuals⟩ := List.forall_mem_cons.1 hcs
        refine follows_bind (follows_outcome _) ?_
        rintro f _ ⟨rfl, hf⟩
        refine follows_ite (fun harity => ?_) fun _ => follows_fail _
        refine follows_bind (hbody f.body) ?_
        rintro b _ ⟨rfl, hb⟩
        have hlen := Nat.succ.inj hlen
        exact follows_pure ⟨rfl, .site hreference hlen hactuals hf (harity.trans hlen) hb⟩

theorem expandWithin_expands (host : Host Unit) (limit : Nat) :
    ∀ (levels : Nat) (e : Expr),
      Follows onValues (· = ·) (Same (Expands host e)) (expandWithin host limit levels e)
        (expandWithin host limit levels e)
  | 0, _ => follows_fail _
  | levels + 1, e => by
    refine Visitor.visit_follows (Q := fun e => Same (Expands host e)) (fun _ => follows_pure trivial) ?_ e
    intro e ts ts' hts
    obtain ⟨e', hrebuilds⟩ := Expr.exists_rebuilds hts.lengths.1
    cases hts.eq_of_same
    rw [Visitor.bottomUp_exit _ hrebuilds]
    exact finish_expands (expandWithin_expands host limit levels) hrebuilds hts.forall_of_same

/-! ## Levels enough -/

/-- Expansion gives this tree from this many levels on, whatever its limit is said to be. -/
def From (host : Host Unit) (least : Nat) (e t : Expr) : Prop :=
  ∀ limit levels, least ≤ levels → expandWithin host limit levels e () = .ok t ()

theorem expandAllWithin_from {es ts : List Expr} (hlen : ts.length = es.length)
    (h : ∀ p ∈ es.zip ts, ∃ least, From host least p.1 p.2) :
    ∃ least, ∀ limit levels, least ≤ levels → expandAllWithin host limit levels es () = .ok ts () := by
  induction es generalizing ts with
  | nil =>
    cases List.length_eq_zero_iff.1 hlen
    exact ⟨0, fun _ _ _ => rfl⟩
  | cons e es ih =>
    cases ts with
    | nil => cases hlen
    | cons t ts =>
      obtain ⟨⟨least, he⟩, hes⟩ := List.forall_mem_cons.1 h
      obtain ⟨least', hes⟩ := ih (Nat.succ.inj hlen) hes
      refine ⟨max least least', fun limit levels hlevels => ?_⟩
      rw [expandAllWithin_cons, bind_of_ok (he limit (levels + 1) (by omega)),
        bind_of_ok (hes limit levels (by omega))]
      rfl

/-- **Trees that are related are expanded, given levels enough.** -/
theorem exists_from {e t : Expr} (h : Expands host e t) : ∃ least, From host least e t := by
  induction h with
  | @node e t cs hm hrebuilds _ ih =>
    obtain ⟨least, hcs⟩ := expandAllWithin_from hrebuilds.length ih
    refine ⟨least + 1, fun limit levels hlevels => ?_⟩
    obtain ⟨levels, rfl⟩ : ∃ k, levels = k + 1 := ⟨levels - 1, by omega⟩
    rw [expandWithin_eq, bind_of_ok (hcs limit levels (by omega)), Expr.withChildren_eq_ok_iff.2 hrebuilds]
    show finish host _ t () = _
    rw [finish_of_not_marker host _ (hrebuilds.isMarker.trans hm)]
    rfl
  | @site reference reference' body actuals actuals' f _ hlen _ hf harity _ ihr iha ihb =>
    have hlens : (reference' :: actuals').length = (reference :: actuals).length := congrArg (· + 1) hlen
    obtain ⟨least, hcs⟩ := expandAllWithin_from hlens (List.forall_mem_cons.2 ⟨ihr, iha⟩)
    obtain ⟨least', hbody⟩ := ihb
    refine ⟨max least least' + 1, fun limit levels hlevels => ?_⟩
    obtain ⟨levels, rfl⟩ : ∃ k, levels = k + 1 := ⟨levels - 1, by omega⟩
    have hrebuilds : Expr.Rebuilds (.call .project (reference :: actuals)) (reference' :: actuals')
        (.call .project (reference' :: actuals')) := .call hlens
    obtain ⟨_, hf⟩ := outcome_eq_ok_iff.1 hf
    rw [expandWithin_eq]
    show (expandAllWithin host limit levels (reference :: actuals) >>= _) () = _
    rw [bind_of_ok (hcs limit levels (by omega)), Expr.withChildren_eq_ok_iff.2 hrebuilds]
    refine (bind_of_ok hf).trans ?_
    rw [if_pos (harity.trans hlen.symm)]
    exact bind_of_ok (hbody limit levels (by omega))

end Expansion

namespace Expands

variable {e t : Expr}

theorem unique {t' : Expr} (h : Expands host e t) (h' : Expands host e t') : t = t' := by
  -- Two derivations need not be compared rule by rule: both are the recursion, with as many levels as either needs.
  obtain ⟨least, ht⟩ := Expansion.exists_from h
  obtain ⟨least', ht'⟩ := Expansion.exists_from h'
  have heq := (ht 0 (max least least') (by omega)).symm.trans (ht' 0 (max least least') (by omega))
  cases heq
  rfl

theorem markerFree (h : Expands host e t) : t.MarkerFree := by
  obtain ⟨least, ht⟩ := Expansion.exists_from h
  exact Expansion.markerFree_of_expandWithin (ht 0 least (Nat.le_refl _))

end Expands

/-! ## The relation is expansion -/

namespace Expr

theorem expands_of_expanded {limit : Nat} {e t : Expr} (h : (e.expanded host limit).outcome () = .ok t) :
    Expands host e t := by
  rw [expanded_eq] at h
  obtain ⟨_, h⟩ := outcome_eq_ok_iff.1 h
  obtain ⟨_, _, _, ⟨-, ht⟩, -⟩ := (Expansion.expandWithin_expands host limit (limit + 1) e).of_ok rfl h
  exact ht

/-- **A tree expands to what the relation says**, and does so with every limit from some limit on. -/
theorem expandsTo_iff {e t : Expr} :
    e.ExpandsTo host t ↔ Expands host e t := by
  constructor
  · rintro ⟨limit, h⟩
    exact expands_of_expanded h
  · intro h
    obtain ⟨least, ht⟩ := Expansion.exists_from h
    refine ⟨least, outcome_eq_ok_iff.2 ⟨(), ?_⟩⟩
    rw [expanded_eq]
    exact ht least (least + 1) (by omega)

theorem expandsTo_of_markerFree {e : Expr} (h : e.MarkerFree) : e.ExpandsTo host e :=
  ⟨0, by rw [expanded_of_markerFree host 0 h]; rfl⟩

theorem denotes_iff {reference : Expr} {f : Lambda} :
    reference.Denotes host f ↔ ∃ r, Expands host reference r ∧ (r.resolve host).outcome () = .ok f := by
  constructor
  · rintro ⟨limit, h⟩
    obtain ⟨_, h⟩ := outcome_eq_ok_iff.1 h
    obtain ⟨r, _, hr, hf⟩ := bind_eq_ok_iff.1 h
    exact ⟨r, expands_of_expanded (outcome_eq_ok_iff.2 ⟨_, hr⟩), outcome_eq_ok_iff.2 ⟨_, hf⟩⟩
  · rintro ⟨r, hr, hf⟩
    obtain ⟨limit, hr⟩ := expandsTo_iff.2 hr
    obtain ⟨_, hr⟩ := outcome_eq_ok_iff.1 hr
    obtain ⟨s, hf⟩ := outcome_eq_ok_iff.1 hf
    exact ⟨limit, outcome_eq_ok_iff.2 ⟨s, (bind_of_ok hr).trans hf⟩⟩

theorem Denotes.unique {reference : Expr} {f g : Lambda} (hf : reference.Denotes host f)
    (hg : reference.Denotes host g) : f = g := by
  obtain ⟨r, hr, hf⟩ := denotes_iff.1 hf
  obtain ⟨r', hr', hg⟩ := denotes_iff.1 hg
  cases hr.unique hr'
  exact Except.ok.inj (hf.symm.trans hg)

/-- A reference without marker calls denotes what it is resolved to as it is written. -/
theorem denotes_iff_resolves {reference : Expr} (h : reference.MarkerFree) {f : Lambda} :
    reference.Denotes host f ↔ reference.Resolves host f := by
  have hself : Expands host reference reference := expandsTo_iff.1 (expandsTo_of_markerFree h)
  rw [denotes_iff]
  constructor
  · rintro ⟨r, hr, hf⟩
    rwa [hself.unique hr]
  · exact fun hf => ⟨reference, hself, hf⟩

theorem resolves_held_iff {name : String} {f g : Lambda} {site : Site} :
    Resolves host (.captured name (.ofLambda f) site) g ↔ g = f :=
  ⟨fun h => (Except.ok.inj h).symm, fun h => h ▸ rfl⟩

theorem denotes_held_iff {name : String} {f g : Lambda} {site : Site} :
    Denotes host (.captured name (.ofLambda f) site) g ↔ g = f := by
  rw [denotes_iff_resolves (markerFree_leaf rfl rfl), resolves_held_iff]

end Expr

end Splice
