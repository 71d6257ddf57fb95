import Splice.Proofs.Expansion.Consulted
import Splice.Proofs.Evaluation.Confined
/-!
# Scoping of expanded trees

No formal of an inlined projection is left in the result: all of them are replaced by actual arguments.  What else is
free in the body was free in the reference that its lambda comes from, with one exception.  The reference may be
evaluated, and the evaluation may apply a lambda whose parameter escapes.  So **a parameter that is free in the
expansion of a closed tree has escaped in the evaluation of a reference** (`Expr.expand_scoping`), and that can happen
(`Expr.expand_not_closed`).
-/
namespace Splice

open Run

variable {σ : Type}

/-! ## Substitution -/

namespace Substitution

/-- **The free parameters of a tree after substitution** are free in it and not replaced, or come from a tree that was
put in. -/
theorem free_of_free_replace {s : Substitution} {e : Expr} {id : ParamId} (h : (s.replace e).Free id) :
    (e.Free id ∧ s.get? id = none) ∨ ∃ key t, s.get? key = some t ∧ t.Free id := by
  induction e using Expr.children_induction with
  | node e ih =>
    cases hr : s.replacement? e with
    | some t =>
      obtain ⟨p, rfl, hp⟩ := replacement?_eq_some_iff.1 hr
      rw [replace_of_replacement? hr] at h
      exact .inr ⟨p.id, t, hp, h⟩
    | none =>
      rcases (replace_rebuilds hr).free_iff.1 h with ⟨p, hp, rfl⟩ | ⟨hid, c, hc, h⟩
      · refine .inl ⟨Expr.free_iff.2 (.inl ⟨p, hp, rfl⟩), ?_⟩
        cases e with
        | param q =>
          cases hp
          exact hr
        | _ => cases hp
      · obtain ⟨d, hd, rfl⟩ := List.mem_map.1 hc
        exact (ih d hd h).imp_left fun ⟨hfree, hnone⟩ => ⟨Expr.free_iff.2 (.inr ⟨hid, d, hd, hfree⟩), hnone⟩

theorem get?_ofCall_ne_none {params : List Param} {actuals : List Expr} (hlen : params.length = actuals.length)
    {id : ParamId} (hid : id ∈ params.map Param.id) : (ofCall params actuals).get? id ≠ none :=
  fun hnone => (Scope.lookup_zip_eq_none_iff hlen).1 hnone hid

theorem replace_sealed {s : Substitution} {e : Expr} (he : e.Sealed) (hs : ∀ id t, s.get? id = some t → t.Sealed) :
    (s.replace e).Sealed :=
  Expr.sealed_iff.2 (replace_nodes Expr.shallow_sealedNode (fun id t ht => Expr.sealed_iff.1 (hs id t ht))
    (Expr.sealed_iff.1 he))

end Substitution

/-! ## References -/

namespace Expr

/-- The reference is evaluated, and in this state of the host program the evaluation lets the parameter escape. -/
def LetsEscape (host : Host σ) (r : Expr) (k : σ) (id : ParamId) : Prop :=
  Reference.ofExpr r = .invocation r ∧ Env.confinedValue { host } id r k ≠ Env.value { host } r k

/-- **A parameter that is free in the lambda that a reference denotes** is free in the reference, or has escaped. -/
theorem free_of_resolve {host : Host σ} (hhost : ∀ f vs h v h', host.call f vs h = .ok v h' → v.Closed) {r : Expr}
    (hr : r.Sealed) {k k' : σ} {f : Lambda} (h : r.resolve host k = .ok f k') :
    f.body.Sealed ∧ ∀ id, (ofLambda f).Free id → r.Free id ∨ r.LetsEscape host k id := by
  have hrows : ∀ name v, Env.source { host } name = .ok v → v.Closed := fun _ _ h => nomatch h
  have hevaluated : Reference.ofExpr r = .invocation r →
      f.body.Sealed ∧ ∀ id, (ofLambda f).Free id → r.Free id ∨ r.LetsEscape host k id := by
    intro hshape
    rw [resolve, hshape] at h
    obtain ⟨v, k'', hv, h⟩ := bind_eq_ok_iff.1 h
    obtain ⟨rfl, rfl⟩ := Reference.lambdaOf_eq_ok h
    have hvalue := blaming_eq_ok_iff.1 hv
    obtain ⟨_, _, _, ⟨-, hsealed⟩, -⟩ := (Env.value_sealed hrows hhost hr).of_ok rfl hvalue
    refine ⟨forall_lambdas_ofLambda_iff.1 hsealed, fun id hfree => ?_⟩
    by_cases hescapes : Env.confinedValue { host } id r k = Env.value { host } r k
    · obtain ⟨_, _, _, ⟨-, hconfined⟩, -⟩ :=
        (Env.confinedValue_follows hrows hhost id hr).of_ok rfl (hescapes.trans hvalue)
      exact .inl (((forall_lambdas_ofLambda_iff.1 hconfined).2 hfree).resolve_right fun hscope => hscope rfl)
    · exact .inr ⟨hshape, hescapes⟩
  cases r with
  | lambda params body =>
    cases h
    exact ⟨hr.child List.mem_cons_self, fun id hfree => .inl hfree⟩
  | captured name v site =>
    obtain ⟨rfl, -⟩ := Reference.lambdaOf_eq_ok h
    obtain ⟨hclosed, hsealed⟩ := forall_lambdas_ofLambda_iff.1 hr.captured
    exact ⟨hsealed, fun id hfree => absurd hfree (hclosed id)⟩
  | _ => exact hevaluated rfl

end Expr

/-! ## Expansion -/

namespace Expansion

def Escaping (host : Host σ) (limit levels : Nat) (e : Expr) (s : σ) (id : ParamId) : Prop :=
  ∃ r k f k', Consults host limit r k levels e s ∧ r.resolve host k = .ok f k' ∧ (Expr.ofLambda f).Free id ∧
    r.LetsEscape host k id

theorem expandWithin_free {host : Host σ} (hhost : ∀ f vs h v h', host.call f vs h = .ok v h' → v.Closed)
    {limit levels : Nat} {e t : Expr} {s s' : σ} (h : expandWithin host limit levels e s = .ok t s') (id : ParamId)
    (he : e.Sealed) : t.Sealed ∧ (t.Free id → e.Free id ∨ Escaping host limit levels e s id) := by
  refine expandWithin_induction (H := fun r k => Consults host limit r k levels e s)
    (Q := fun d t => d.Sealed → t.Sealed ∧ (t.Free id → d.Free id ∨ Escaping host limit levels e s id)) ?_ ?_ levels e t
    s s' (fun _ _ h => h) h he
  · intro d cs t _ hrebuilds hcs hd
    refine ⟨hrebuilds.sealed hd fun c hc => ?_, fun hfree => ?_⟩
    · obtain ⟨c', hc', hc⟩ := exists_of_forall₂ hcs hc
      exact (hc (hd.child hc')).1
    · rcases hrebuilds.free_iff.1 hfree with hparam | ⟨hid, c, hc, hfree⟩
      · exact .inl (Expr.free_iff.2 (.inl hparam))
      · obtain ⟨c', hc', hc⟩ := exists_of_forall₂ hcs hc
        exact ((hc (hd.child hc')).2 hfree).imp_left fun h => Expr.free_iff.2 (.inr ⟨hid, c', hc', h⟩)
  -- What is free in the spliced body comes from an actual argument, or is no formal of the lambda and free in it.
  · intro reference actuals r as f b k k' hreference has hconsults hf harity hbody hd
    have hactual : ∀ key a, (Substitution.ofCall f.params as).get? key = some a → ∃ c ∈ actuals, c.Sealed ∧
        (c.Sealed → a.Sealed ∧ (a.Free id → c.Free id ∨ Escaping host limit levels e s id)) := by
      intro key a ha
      obtain ⟨c, hc, hca⟩ := exists_of_forall₂ has (Substitution.mem_of_get?_ofCall ha)
      exact ⟨c, hc, hd.child (List.mem_cons_of_mem reference hc), hca⟩
    obtain ⟨hr, hrfree⟩ := hreference (hd.child List.mem_cons_self)
    obtain ⟨hfsealed, hffree⟩ := Expr.free_of_resolve hhost hr hf
    obtain ⟨hbsealed, hbfree⟩ := hbody hfsealed
    refine ⟨Substitution.replace_sealed hbsealed fun key a ha => ?_, fun hfree => ?_⟩
    · obtain ⟨c, -, hc, hca⟩ := hactual key a ha
      exact (hca hc).1
    · rcases Substitution.free_of_free_replace hfree with ⟨hfree, hnone⟩ | ⟨key, a, ha, hfree⟩
      · rcases hbfree hfree with hfree | hescaping
        · have hlambda : (Expr.ofLambda f).Free id :=
            .lambda (fun hid => Substitution.get?_ofCall_ne_none harity hid hnone) hfree
          rcases hffree id hlambda with hfree | hescapes
          · exact (hrfree hfree).imp_left (Expr.Free.of_call List.mem_cons_self)
          · exact .inr ⟨r, k, f, k', hconsults, hf, hlambda, hescapes⟩
        · exact .inr hescaping
      · obtain ⟨c, hc, hsealed, hca⟩ := hactual key a ha
        exact ((hca hsealed).2 hfree).imp_left (Expr.Free.of_call (List.mem_cons_of_mem reference hc))

end Expansion

namespace Expr

/-- **Expansion preserves scoping, up to escapes.**  Let a tree be closed, and the lambdas that its captured values hold
and that host functions return.  If a parameter is free in what the tree expands to, then a reference was resolved on
the way to a lambda that the parameter is free in, and in the evaluation of this reference the parameter escaped from
the application of a lambda that binds it.  If nothing escapes, the expansion is closed. -/
theorem expand_scoping {host : Host σ} (hhost : ∀ f vs h v h', host.call f vs h = .ok v h' → v.Closed) {limit : Nat}
    {e : Expr} (hclosed : e.Closed) (hsealed : e.Sealed) {edit : Edit} {s s' : σ}
    (h : e.expand host limit s = .ok edit s') :
    (∀ id, (edit.result e).Free id → ∃ r k f k', e.Consults host limit s r k ∧ r.resolve host k = .ok f k' ∧
        (ofLambda f).Free id ∧ r.LetsEscape host k id) ∧
      ((∀ r k, e.Consults host limit s r k → ∀ id, ¬ r.LetsEscape host k id) → (edit.result e).Closed) := by
  obtain ⟨t, s'', ht, ⟨rfl, -⟩, rfl⟩ := (Expr.expand_follows host limit e).of_ok rfl h
  have hescaping : ∀ id, (edit.result e).Free id → Expansion.Escaping host limit (limit + 1) e s id := fun id hfree =>
    ((Expansion.expandWithin_free hhost ht id hsealed).2 hfree).resolve_left (hclosed id)
  refine ⟨hescaping, fun hnone id hfree => ?_⟩
  obtain ⟨r, k, f, k', hconsults, -, -, hescapes⟩ := hescaping id hfree
  exact hnone r k hconsults id hescapes

def outerParam : Param := ⟨⟨0, 0⟩, "z", .any⟩

/-- The least of the lambdas `y => z` that are made of one row, `z`, called through a projection. -/
def leastOfLambdas : Expr :=
  Marker.call
    (.operator .min (.captured "rows" (.list [.int 1]) ⟨1⟩)
      (some ⟨[outerParam], .lambda [⟨⟨0, 1⟩, "y", .any⟩] (.param outerParam)⟩))
    [.literal (.int 2) ⟨0⟩]

theorem closed_of_quiet {f : HostFunction} {vs : List Value} {h h' : Unit} {v : Value}
    (hcall : quiet.call f vs h = .ok v h') : v.Closed := by
  cases hcall
  exact fun _ hf => nomatch hf

theorem expand_leastOfLambdas :
    leastOfLambdas.expand quiet 1 () = .ok (.put (.param outerParam)) () :=
  expand_of_expandWithin (by decide) rfl

theorem expand_scoping_leastOfLambdas :
    leastOfLambdas.Closed ∧ leastOfLambdas.Sealed ∧ ∃ r k f k', leastOfLambdas.Consults quiet 1 () r k ∧
      r.resolve quiet k = .ok f k' ∧ (ofLambda f).Free outerParam.id ∧
        r.LetsEscape quiet k outerParam.id := by
  have hclosed : leastOfLambdas.Closed := by decide
  have hsealed : leastOfLambdas.Sealed := sealed_of_isEmpty (by decide)
  refine ⟨hclosed, hsealed, ?_⟩
  have hscoping := expand_scoping (fun _ _ _ _ _ => closed_of_quiet) hclosed hsealed expand_leastOfLambdas
  exact hscoping.1 outerParam.id (.param rfl)

/-- **Parameters do escape.**  The tree is closed, its captured value holds no lambda, and it expands to the parameter
`z`. -/
theorem expand_not_closed :
    ¬ ∀ (host : Host Unit) (limit : Nat) (e : Expr) (edit : Edit),
      (∀ f vs h v h', host.call f vs h = .ok v h' → v.Closed) → e.Closed → e.Sealed →
      e.expand host limit () = .ok edit () → (edit.result e).Closed := by
  intro hclosed
  have hresult := hclosed quiet 1 leastOfLambdas _ (fun _ _ _ _ _ => closed_of_quiet) (by decide)
    (sealed_of_isEmpty (by decide)) expand_leastOfLambdas
  exact hresult outerParam.id (.param rfl)

end Expr

end Splice
