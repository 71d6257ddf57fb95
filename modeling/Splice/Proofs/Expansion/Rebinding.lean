import Splice.Proofs.Expansion.Consulted
/-!
# Substitution before and after expansion

A body is expanded before the actual arguments go into it.  To expand it afterwards would give the same tree, as long as
no parameter decides what is put in: **expansion commutes with substitution** if the parameters do not occur in
references and in the bodies that are put in (`Expr.expanded_apply`).  Anywhere else they may occur.
-/
namespace Splice

open Run

/-! ## Substitutions that commute -/

namespace Substitution

theorem get?_ofCall_map (params : List Param) (actuals : List Expr) (g : Expr → Expr) (id : ParamId) :
    (ofCall params (actuals.map g)).get? id = ((ofCall params actuals).get? id).map g := by
  show List.lookup id ((params.map Param.id).zip (actuals.map g)).reverse =
    (List.lookup id ((params.map Param.id).zip actuals).reverse).map g
  rw [List.zip_map_right, ← List.map_reverse]
  exact lookup_map_snd g _ id

/-- **A substitution passes through a call to the actual arguments**, if it has nothing to replace in the body. -/
theorem replace_ofCall {s : Substitution} {body : Expr} (h : s.Misses body) (params : List Param)
    (actuals : List Expr) :
    s.replace ((ofCall params actuals).replace body) = (ofCall params (actuals.map s.replace)).replace body := by
  refine replace_replace fun p hp => ?_
  rw [replace_param, replace_param, get?_ofCall_map]
  cases (ofCall params actuals).get? p.id with
  | some a => rfl
  | none => exact congrArg (Option.getD · (.param p)) (h p hp)

end Substitution

variable {σ : Type} {host : Host σ} {limit levels : Nat} {S : Substitution}

namespace Expansion

def BodiesMiss (host : Host σ) (limit levels : Nat) (S : Substitution) (e : Expr) (s : σ) : Prop :=
  ∀ r k, Consults host limit r k levels e s → ∀ f k', r.resolve host k = .ok f k' → S.Misses f.body

/-- **A tree without parameters of the substitution expands to one without them.** -/
theorem expandWithin_misses {e t : Expr} {s s' : σ} (hbodies : BodiesMiss host limit levels S e s)
    (h : expandWithin host limit levels e s = .ok t s') : S.Misses e → S.Misses t := by
  refine expandWithin_induction (Q := fun e t => S.Misses e → S.Misses t) ?_ ?_ levels e t s s' hbodies h
  · intro e cs t _ hrebuilds hcs he
    rw [Substitution.misses_iff, Expr.all_nodes_iff, hrebuilds.children]
    refine ⟨Substitution.shallow_replacement? S e cs t hrebuilds (Substitution.misses_iff.1 he e .self), fun c hc => ?_⟩
    obtain ⟨c', hc', hmisses⟩ := exists_of_forall₂ hcs hc
    exact Substitution.misses_iff.1 (hmisses (he.child hc'))
  · intro reference actuals r as f b k k' _ has hf hresolve _ hb he
    refine Substitution.misses_iff.2 (Substitution.replace_nodes (Substitution.shallow_replacement? S) ?_ ?_)
    · intro id t ht
      obtain ⟨a, ha, hmisses⟩ := exists_of_forall₂ has (Substitution.mem_of_get?_ofCall ht)
      exact Substitution.misses_iff.1 (hmisses (he.child (List.mem_cons_of_mem reference ha)))
    · exact Substitution.misses_iff.1 (hb (hf f k' hresolve))

/-- What replaces a marker call is without parameters of the substitution, if they occur in actual arguments only. -/
theorem BodiesMiss.call {reference r : Expr} {actuals as : List Expr} {s k : σ}
    (hbodies : BodiesMiss host limit (levels + 1) S (Marker.call reference actuals) s) (hreference : S.Misses reference)
    (hcs : expandAllWithin host limit levels (reference :: actuals) s = .ok (r :: as) k) :
    S.Misses r ∧ ∀ f b k₁ k₂, r.resolve host k = .ok f k₁ → f.arity = as.length →
      expandWithin host limit levels f.body k₁ = .ok b k₂ → S.Misses b := by
  constructor
  · obtain ⟨_, _, heq, _, hr, -⟩ := exists_of_expandAllWithin_cons hcs
    cases heq
    have hsplit : (Marker.call reference actuals).children = [] ++ reference :: actuals := rfl
    exact expandWithin_misses (fun r' k' hconsults => hbodies r' k' (.child hsplit rfl hconsults)) hr hreference
  · intro f b k₁ k₂ hf harity hb
    exact expandWithin_misses (fun r' k' hconsults => hbodies r' k' (.body hcs hf harity hconsults)) hb
      (hbodies r k (.site hcs) f k₁ hf)

theorem expandAllWithin_map {g : Expr → Expr} {es : List Expr} {s : σ}
    (h : ∀ before c after before' s₁, es = before ++ c :: after →
      expandAllWithin host limit levels before s = .ok before' s₁ →
      expandWithin host limit (levels + 1) (g c) s₁ = (g <$> expandWithin host limit (levels + 1) c) s₁) :
    expandAllWithin host limit levels (es.map g) s = (List.map g <$> expandAllWithin host limit levels es) s := by
  induction es generalizing s with
  | nil => rfl
  | cons e es ih =>
    rw [List.map_cons, expandAllWithin_cons, expandAllWithin_cons, bind_congr_at (h [] e es [] s rfl rfl),
      bind_map_left]
    refine bind_eq_map_bind fun t s₁ ht => ?_
    have hes := ih fun before c after before' s₂ hsplit hbefore =>
      h (e :: before) c after (t :: before') s₂ (hsplit ▸ rfl) (expandAllWithin_cons_eq_ok ht hbefore)
    rw [bind_congr_at hes, bind_map_left, map_bind]
    rfl

/-- **A map of trees passes through the expansion of a node**, if it passes through rebuilding the node, through the
expansion of every child in its turn, and through what becomes of the node in the end. -/
theorem expandWithin_map {g : Expr → Expr} {e : Expr} {s : σ}
    (hg : ∀ cs e', Expr.Rebuilds e cs e' → Expr.Rebuilds (g e) (cs.map g) (g e'))
    (hchildren : ∀ before c after before' s₁, e.children = before ++ c :: after →
      expandAllWithin host limit levels before s = .ok before' s₁ →
      expandWithin host limit (levels + 1) (g c) s₁ = (g <$> expandWithin host limit (levels + 1) c) s₁)
    (hfinish : ∀ cs e' k, expandAllWithin host limit levels e.children s = .ok cs k → Expr.Rebuilds e cs e' →
      finish host (expandWithin host limit levels) (g e') k =
        (g <$> finish host (expandWithin host limit levels) e') k) :
    expandWithin host limit (levels + 1) (g e) s = (g <$> expandWithin host limit (levels + 1) e) s := by
  rw [expandWithin_eq, expandWithin_eq, (hg _ _ e.rebuilds_children).children,
    bind_congr_at (expandAllWithin_map hchildren), bind_map_left]
  refine bind_eq_map_bind fun cs k hcs => ?_
  obtain ⟨e', hrebuilds⟩ := Expr.exists_rebuilds (expandAllWithin_length hcs)
  rw [Expr.withChildren_eq_ok_iff.2 hrebuilds, Expr.withChildren_eq_ok_iff.2 (hg cs e' hrebuilds)]
  exact hfinish cs e' k hcs hrebuilds

theorem finish_replace {body : Expr → Run σ Expr} {e : Expr} {s : σ} (hr : S.replacement? e = none)
    (hcall : ∀ reference actuals, e = Marker.call reference actuals → S.Misses reference ∧
      ∀ f b k k', reference.resolve host s = .ok f k → f.arity = actuals.length → body f.body k = .ok b k' →
        S.Misses b) :
    finish host body (S.replace e) s = (S.replace <$> finish host body e) s := by
  cases hm : Marker.isMarker e with
  | false =>
    rw [finish_of_not_marker host body hm,
      finish_of_not_marker host body ((Substitution.replace_rebuilds hr).isMarker.trans hm)]
    rfl
  | true =>
    obtain ⟨args, rfl⟩ := Expr.isMarker_iff.1 hm
    cases args with
    | nil => rfl
    | cons reference actuals =>
      obtain ⟨hreference, hbody⟩ := hcall reference actuals rfl
      have hreplace : S.replace (.call .project (reference :: actuals)) =
          .call .project (reference :: actuals.map S.replace) := by
        rw [Substitution.replace, Substitution.replaceAll, Substitution.replace_of_misses hreference,
          Substitution.replaceAll_eq]
      rw [hreplace]
      show (reference.resolve host >>= _) s = (S.replace <$> (reference.resolve host >>= _)) s
      refine bind_eq_map_bind fun f k hf => ?_
      rw [List.length_map]
      split
      case isFalse => rfl
      case isTrue harity =>
        refine bind_eq_map_bind fun b k' hb => ?_
        rw [map_pure, Substitution.replace_ofCall (hbody f b k k' hf harity hb)]

theorem expandWithin_replace (hS : ∀ id t, S.get? id = some t → t.MarkerFree) :
    ∀ (levels : Nat) (e : Expr) (s : σ),
      (∀ reference actuals, Expr.Within (Marker.call reference actuals) e → S.Misses reference) →
      BodiesMiss host limit levels S e s →
      expandWithin host limit levels (S.replace e) s = (S.replace <$> expandWithin host limit levels e) s := by
  intro levels
  -- The bodies are the same on both sides, so the induction is on the tree alone.
  cases levels with
  | zero => exact fun _ _ _ _ => rfl
  | succ levels =>
    intro e
    induction e using Expr.children_induction with
    | node e ih =>
      intro s hreferences hbodies
      cases hr : S.replacement? e with
      | some t =>
        obtain ⟨p, rfl, hp⟩ := Substitution.replacement?_eq_some_iff.1 hr
        rw [Substitution.replace_of_replacement? hr, expandWithin_of_markerFree host limit levels (hS p.id t hp),
          expandWithin_of_markerFree host limit levels (Expr.markerFree_leaf (e := .param p) rfl rfl), map_pure,
          Substitution.replace_of_replacement? hr]
      | none =>
        refine expandWithin_map (fun cs e' => Substitution.replace_of_rebuilds hr) ?_ ?_
        · intro before c after before' s₁ hsplit hbefore
          have hmem : c ∈ e.children := hsplit ▸ List.mem_append_right _ List.mem_cons_self
          exact ih c hmem s₁ (fun reference actuals hw => hreferences reference actuals (.child hmem hw))
            fun r k hconsults => hbodies r k (.child hsplit hbefore hconsults)
        · intro cs e' k hcs hrebuilds
          refine finish_replace (Substitution.shallow_replacement? S e cs e' hrebuilds hr) fun r as hcall => ?_
          subst hcall
          obtain ⟨rfl, reference, actuals, rfl⟩ := hrebuilds.of_call
          exact hbodies.call (hreferences reference actuals .self) hcs

end Expansion

namespace Expr

/-- **Expansion commutes with substitution.**  If no parameter of the substitution occurs in a reference of the tree or
in the body of a lambda that is resolved on the way, and no marker call in the trees that the substitution puts in, then
a tree with its parameters replaced expands to the expansion with its parameters replaced, or fails as the tree does. -/
theorem expanded_apply (host : Host σ) (limit : Nat) (S : Substitution) (e : Expr) (s : σ)
    (hS : ∀ id t, S.get? id = some t → t.MarkerFree)
    (hreferences : ∀ reference actuals, Within (Marker.call reference actuals) e → S.Misses reference)
    (hbodies : ∀ r k f k', e.Consults host limit s r k → r.resolve host k = .ok f k' → S.Misses f.body) :
    (do (← Run.lift (S.apply e)).expanded host limit) s = (do Run.lift (S.apply (← e.expanded host limit))) s := by
  have hreplace : Expansion.expandWithin host limit (limit + 1) (S.replace e) s =
      (S.replace <$> Expansion.expandWithin host limit (limit + 1) e) s :=
    Expansion.expandWithin_replace hS (limit + 1) e s hreferences fun r k hr f k' => hbodies r k f k' hr
  simp only [Substitution.apply_eq, expanded_eq]
  show Expansion.expandWithin host limit (limit + 1) (S.replace e) s = _
  rw [hreplace, ← bind_pure_comp]
  rfl

def rowCount : Param := ⟨⟨0, 5⟩, "count", .int⟩

def countOfRows : Substitution := .ofList [(rowCount.id, .call (.operator .count) [.source "rows"])]

/-- One more than the parameter: it occurs in an actual argument. -/
def plusOneOfCount : Expr := plusOne (.param rowCount)

theorem expanded_apply_plusOneOfCount :
    (do (← Run.lift (countOfRows.apply plusOneOfCount)).expanded quiet 1) () =
        (do Run.lift (countOfRows.apply (← plusOneOfCount.expanded quiet 1))) () ∧
      (do (← Run.lift (countOfRows.apply plusOneOfCount)).expanded quiet 1) () =
        .ok (.binary .add (.call (.operator .count) [.source "rows"]) (.literal (.int 1) ⟨0⟩)) () := by
  have hparts : ∀ c ∈ plusOneOfCount.children, c.MarkerFree := by decide
  refine ⟨expanded_apply quiet 1 countOfRows plusOneOfCount () (fun id t ht => ?_)
    (fun reference actuals hw => ?_) fun r k f k' hconsults hf => ?_, ?_⟩
  · cases List.mem_singleton.1 (mem_of_lookup ht)
    decide
  · cases hw with
    | self => decide
    | child hc hw => exact Bool.noConfusion (hparts _ hc _ hw)
  · obtain ⟨rfl, -⟩ := Expansion.Consults.of_call hparts (fun t f u hf => by cases hf; decide) hconsults
    cases hf
    decide
  · simp only [Substitution.apply_eq, expanded_eq]
    rfl

end Expr

end Splice
