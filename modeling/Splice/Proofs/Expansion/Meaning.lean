import Splice.Proofs.Expansion.Reading
import Splice.Proofs.Evaluation.Substituted
/-!
# Expansion preserves meaning

**Where a tree has a value when it is read, its expansion evaluates to the same value**
(`Expr.evaluate_expansion`): putting the body of a lambda in the place of a marker call, with the arguments in the
place of its parameters, is as good as applying the lambda to the values of the arguments.

The proof goes along the expansion, from the leaves up and into the bodies.  At a marker call the reading binds the
parameters to the values of the actual arguments, the expanded arguments evaluate to these values, and so the expanded
body has the same value under the bindings and after the substitution (`Env.evaluateWithin_replace`).
-/
namespace Splice

open Run

variable {host : Host Unit} {s : Scope}

/-! ## Along an expansion -/

namespace Expands

/-- **What an expansion passes from the operands of a node to the node, and from arguments and body to a marker call,
holds of every expansion.** -/
theorem operand_induction {motive : Expr → Expr → Prop}
    (node : ∀ {e t cs}, Marker.isMarker e = false → Expr.Rebuilds e cs t →
      (∀ p ∈ e.data.zip t.data, motive p.1 p.2) →
      (∀ p ∈ e.lambdaArgs.zip t.lambdaArgs,
        Expr.ArgPair (fun _ => motive) (fun c c' => Expands host c c' ∧ motive c c') p.1 p.2) → motive e t)
    (site : ∀ {reference reference' body actuals actuals' f}, Expands host reference reference' →
      actuals'.length = actuals.length → (∀ p ∈ actuals.zip actuals', Expands host p.1 p.2 ∧ motive p.1 p.2) →
      (reference'.resolve host).outcome () = .ok f → f.arity = actuals.length → Expands host f.body body →
      motive f.body body →
      motive (.call .project (reference :: actuals)) ((Substitution.ofCall f.params actuals').replace body))
    {e t : Expr} (h : Expands host e t) : motive e t := by
  -- The operand of a lambda argument is its body, which is one level further down.
  suffices hboth : motive e t ∧ ∀ params body, e = .lambda params body → ∃ body', t = .lambda params body' ∧
      motive body body' from hboth.1
  induction h with
  | @node e t cs hm hrebuilds hcs ih =>
    obtain ⟨hdata, hargs⟩ := hrebuilds.zip_parts
    refine ⟨node hm hrebuilds (fun p hp => (ih p (hdata p hp)).1) fun p hp => ?_, ?_⟩
    · obtain ⟨c, c'⟩ := p
      obtain ⟨hc, hlambda⟩ := ih _ (hargs _ hp)
      rcases c.lambda_or_not with ⟨params, body, rfl⟩ | hnot
      · obtain ⟨body', hbody', hbody⟩ := hlambda params body rfl
        cases hbody'
        exact .lambda hbody
      · exact .other hnot ⟨hcs _ (hargs _ hp), hc⟩
    · rintro params body rfl
      cases hrebuilds with
      | lambda => exact ⟨_, rfl, (ih _ List.mem_cons_self).1⟩
  | site hr hlen ha hf harity hb _ iha ihb =>
    exact ⟨site hr hlen (fun p hp => ⟨ha p hp, (iha p hp).1⟩) hf harity hb ihb.1, fun _ _ h => nomatch h⟩

end Expands

namespace Substitution

theorem get?_ofCall_eq_none_iff {params : List Param} {actuals : List Expr} (hlen : params.length = actuals.length)
    {id : ParamId} : (ofCall params actuals).get? id = none ↔ id ∉ params.map Param.id :=
  Scope.lookup_zip_eq_none_iff hlen

theorem firstOrder_ofCall {params : List Param} {actuals : List Expr}
    (h : ∀ a ∈ actuals, a.FirstOrder ∧ a.MarkerFree) : (ofCall params actuals).FirstOrder :=
  fun _ a ha => h a (mem_of_get?_ofCall ha)

end Substitution

/-- **The expansion of a tree that can be inlined is first-order.** -/
theorem Expands.firstOrder {e t : Expr} (h : Expands host e t) : e.Inlinable host → t.FirstOrder := by
  refine Expands.operand_induction (motive := fun e t => e.Inlinable host → t.FirstOrder) ?_ ?_ h
  · intro e t cs _ hrebuilds hdata hargs he
    refine (he.firstOrder e .self).rebuilds hrebuilds (fun p hp => ?_) fun p hp => ?_
    · exact hdata p hp (he.operand (Expr.mem_operands_of_data (List.of_mem_zip hp).1))
    · obtain ⟨c, c'⟩ := p
      have hc := he.operand (Expr.mem_operands_of_lambdaArgs (List.of_mem_zip hp).1)
      cases hargs _ hp with
      | lambda hbody => exact .lambda (hbody hc)
      | other hnot harg =>
        rw [Expr.underLambda_eq hnot] at hc
        exact .other hnot (harg.2 hc)
  · intro reference reference' body actuals actuals' f hr hlen ha hf _ _ ihb he
    have hdenotes : reference.Denotes host f := Expr.denotes_iff.2 ⟨reference', hr, hf⟩
    have hbody : body.FirstOrder := ihb (he.body .self hdenotes)
    refine Substitution.replace_firstOrder (Substitution.firstOrder_ofCall fun a' ha' => ?_) hbody
    obtain ⟨a, hpair⟩ := Expr.exists_mem_zip hlen ha'
    have hmem : a ∈ Expr.operands (.call .project (reference :: actuals)) :=
      Expr.mem_operands_of_data (List.of_mem_zip hpair).1
    exact ⟨(ha _ hpair).2 (he.operand hmem), (ha _ hpair).1.markerFree⟩

/-! ## A marker call -/

namespace Evaluation

theorem evalAll_values {ev : Expr → Eval Unit Value} {Q : Expr → Value → Prop} {es es' : List Expr}
    (hlen : es'.length = es.length)
    (h : ∀ p ∈ es.zip es', ∀ v st, ev p.1 ⟨s, ()⟩ = .ok v st → st = ⟨s, ()⟩ ∧ Q p.2 v) {vs : List Value}
    {st : EvalState Unit} (hvs : evalAll ev es ⟨s, ()⟩ = .ok vs st) :
    st = ⟨s, ()⟩ ∧ vs.length = es.length ∧ ∀ p ∈ es'.zip vs, Q p.1 p.2 := by
  induction es generalizing es' vs st with
  | nil =>
    cases hvs
    cases List.length_eq_zero_iff.1 hlen
    exact ⟨rfl, rfl, fun _ hp => nomatch hp⟩
  | cons e es ih =>
    cases es' with
    | nil => cases hlen
    | cons e' es' =>
      rw [List.zip_cons_cons, List.forall_mem_cons] at h
      obtain ⟨v, st₁, hv, hvs⟩ := bind_eq_ok_iff.1 hvs
      obtain ⟨rfl, hQ⟩ := h.1 v st₁ hv
      obtain ⟨vs, st₂, hvs, heq⟩ := bind_eq_ok_iff.1 hvs
      cases heq
      obtain ⟨rfl, hlen', hQs⟩ := ih (Nat.succ.inj hlen) h.2 hvs
      exact ⟨rfl, congrArg (· + 1) hlen', List.forall_mem_cons.2 ⟨hQ, hQs⟩⟩

theorem onHost_eq_ok {α : Type} {x : Run Unit α} {a : α} {st st' : EvalState Unit}
    (h : Eval.onHost x st = .ok a st') : x.outcome () = .ok a ∧ st' = st := by
  unfold Eval.onHost inside at h
  cases hx : x st.hostState with
  | error e u => simp [hx] at h
  | ok b u =>
    simp only [hx] at h
    cases h
    exact ⟨outcome_eq_ok_iff.2 ⟨u, hx⟩, rfl⟩

theorem apply_eq_ok {ev : Expr → Eval Unit Value} {f : Lambda} {args : List Value} {v : Value} {st : EvalState Unit}
    (h : Operators.apply ev f args ⟨s, ()⟩ = .ok v st) :
    ∃ st', ev f.body ⟨s.push f.params args, ()⟩ = .ok v st' ∧ st = { st' with scope := st'.scope.cut s.length } := by
  unfold Operators.apply at h
  split at h
  case isFalse => cases h
  case isTrue =>
    unfold Eval.within inside at h
    dsimp only at h
    cases hbody : ev f.body ⟨s.push f.params args, ()⟩ with
    | error e st' => simp [hbody] at h
    | ok w st' =>
      simp only [hbody] at h
      cases h
      exact ⟨st', rfl, rfl⟩

/-- **A marker call that has a value when it is read**: the arguments have values, the reference denotes a lambda of as
many parameters, and its body has the value. -/
theorem applied_eq_ok {denote : Expr → Run Unit Lambda} {ev : Expr → Eval Unit Value} {Q : Expr → Value → Prop}
    {reference : Expr} {actuals actuals' : List Expr} (hlen : actuals'.length = actuals.length)
    (hactuals : ∀ p ∈ actuals.zip actuals', ∀ v st, ev p.1 ⟨s, ()⟩ = .ok v st → st = ⟨s, ()⟩ ∧ Q p.2 v) {v : Value}
    {st : EvalState Unit} (h : applied denote ev (reference :: actuals) ⟨s, ()⟩ = .ok v st) :
    ∃ args f st', (args.length = actuals'.length ∧ ∀ p ∈ actuals'.zip args, Q p.1 p.2) ∧
      (denote reference).outcome () = .ok f ∧ ev f.body ⟨s.push f.params args, ()⟩ = .ok v st' ∧
        st = { st' with scope := st'.scope.cut s.length } := by
  obtain ⟨args, st₁, hargs, h⟩ := bind_eq_ok_iff.1 h
  obtain ⟨rfl, hargsLen, hvalues⟩ := evalAll_values hlen hactuals hargs
  obtain ⟨f, st₂, hfound, h⟩ := bind_eq_ok_iff.1 h
  obtain ⟨hf, rfl⟩ := onHost_eq_ok hfound
  obtain ⟨st', hbody, hst⟩ := apply_eq_ok h
  exact ⟨args, f, st', ⟨hargsLen.trans hlen.symm, hvalues⟩, hf, hbody, hst⟩

end Evaluation

theorem Scope.lookup_zip_some {α β : Type} {ids : List ParamId} {as : List α} {bs : List β}
    (hlen : bs.length = as.length) {id : ParamId} {a : α} (h : List.lookup id (ids.zip as).reverse = some a) :
    ∃ b, List.lookup id (ids.zip bs).reverse = some b ∧ (a, b) ∈ as.zip bs := by
  have hmap : ∀ {γ : Type} (g : α × β → γ) (entries : List (ParamId × (α × β))),
      List.lookup id (entries.map (Prod.map (fun id => id) g)) = (List.lookup id entries).map g := by
    intro γ g entries
    induction entries with
    | nil => rfl
    | cons entry entries ih =>
      obtain ⟨id', q⟩ := entry
      simp only [List.map_cons, Prod.map, List.lookup_cons, ih]
      cases id == id' <;> rfl
  have hfst : as = (as.zip bs).map Prod.fst := (List.map_fst_zip (by omega)).symm
  have hsnd : bs = (as.zip bs).map Prod.snd := (List.map_snd_zip (by omega)).symm
  have hkeys : ∀ {γ : Type} (g : α × β → γ), (ids.zip ((as.zip bs).map g)).reverse =
      (ids.zip (as.zip bs)).reverse.map (Prod.map (fun id => id) g) := by
    intro γ g
    rw [List.zip_map_right, List.map_reverse]
    rfl
  have hpair : List.lookup id (ids.zip ((as.zip bs).map Prod.fst)).reverse = some a := by rwa [← hfst]
  rw [hkeys, hmap] at hpair
  obtain ⟨⟨a', b⟩, hlookup, rfl⟩ := Option.map_eq_some_iff.1 hpair
  refine ⟨b, ?_, (List.of_mem_zip (List.mem_reverse.1 (mem_of_lookup hlookup))).2⟩
  have hb : List.lookup id (ids.zip ((as.zip bs).map Prod.snd)).reverse = some b := by rw [hkeys, hmap, hlookup]; rfl
  rwa [← hsnd] at hb

/-- **The scopes of an inlined call are bridged**: what the parameters are bound to under the call is what the arguments
evaluate to outside. -/
theorem bridges_ofCall {env : Env Unit} {params : List Param} {actuals : List Expr} {args : List Value}
    (hlen : params.length = actuals.length) (hargs : args.length = actuals.length)
    (heval : ∀ p ∈ actuals.zip args, ∀ m, p.1.size ≤ m → env.evaluateWithin m p.1 ⟨s, ()⟩ = .ok p.2 ⟨s, ()⟩) :
    Bridges env (Substitution.ofCall params actuals) (s.push params args) s where
  kept id hid := by
    rw [Scope.get?_push_of_not_mem (hlen.trans hargs.symm) ((Substitution.get?_ofCall_eq_none_iff hlen).1 hid)]
  replaced id a ha := by
    obtain ⟨v, hv, hpair⟩ := Scope.lookup_zip_some hargs ha
    refine ⟨v, ?_, fun _ => heval (a, v) hpair⟩
    rw [Scope.get?_push, hv]
    rfl

theorem Expr.Inlinable.spares {reference body : Expr} {actuals actuals' : List Expr} {f : Lambda}
    (he : Expr.Inlinable host (.call .project (reference :: actuals))) (hf : reference.Denotes host f)
    (hlen : actuals'.length = actuals.length) (hactuals : ∀ p ∈ actuals.zip actuals', Expands host p.1 p.2)
    (harity : f.arity = actuals.length) (hbody : Expands host f.body body) {id : ParamId} (hid : body.Binds id) :
    (Substitution.ofCall f.params actuals').Spares id := by
  obtain ⟨hformal, hfree⟩ := he.hygienic _ .self reference actuals .self f hf body (Expr.expandsTo_iff.2 hbody) id hid
  refine ⟨(Substitution.get?_ofCall_eq_none_iff (harity.trans hlen.symm)).2 hformal, fun id' a' ha' => ?_⟩
  obtain ⟨a, hpair⟩ := Expr.exists_mem_zip hlen (Substitution.mem_of_get?_ofCall ha')
  exact hfree a (List.of_mem_zip hpair).1 a' (Expr.expandsTo_iff.2 (hactuals _ hpair))

/-! ## Reading and evaluating the expansion -/

/-- In every scope of plain values, the evaluation of `t` follows the reading of `e`, if `e` can be inlined. -/
def Means (host : Host Unit) (limit : Nat) (env : Env Unit) (e t : Expr) : Prop :=
  e.Inlinable host → ∀ {n m : Nat} {s : Scope}, t.size ≤ m → s.Holds Value.Plain →
    Follows onValues (At (· = ·) s s) (Same Value.Plain) (env.readWithin (Expr.denoted host limit) n e)
      (env.evaluateWithin m t)

namespace Means

variable {limit : Nat} {env : Env Unit}

theorem value {e t : Expr} (h : Means host limit env e t) (he : e.Inlinable host) (hs : s.Holds Value.Plain) {n : Nat}
    {v : Value} {st : EvalState Unit} (hv : env.readWithin (Expr.denoted host limit) n e ⟨s, ()⟩ = .ok v st) :
    st = ⟨s, ()⟩ ∧ v.Plain ∧ ∀ m, t.size ≤ m → env.evaluateWithin m t ⟨s, ()⟩ = .ok v ⟨s, ()⟩ := by
  have hm : ∀ m, t.size ≤ m → st = ⟨s, ()⟩ ∧ v.Plain ∧ env.evaluateWithin m t ⟨s, ()⟩ = .ok v ⟨s, ()⟩ := by
    intro m hm
    obtain ⟨hplain, _, hst, hw⟩ := (h he hm hs).at_ok hv
    exact ⟨hst, hplain, hw⟩
  exact ⟨(hm _ (Nat.le_refl _)).1, (hm _ (Nat.le_refl _)).2.1, fun m hle => (hm m hle).2.2⟩

theorem node (henv : env.FirstOrder) {e t : Expr} {cs : List Expr} (hmarker : Marker.isMarker e = false)
    (hrebuilds : Expr.Rebuilds e cs t) (hdata : ∀ p ∈ e.data.zip t.data, Means host limit env p.1 p.2)
    (hargs : ∀ p ∈ e.lambdaArgs.zip t.lambdaArgs, Expr.ArgPair (fun _ => Means host limit env)
      (fun c c' => Expands host c c' ∧ Means host limit env c c') p.1 p.2) : Means host limit env e t := by
  intro he n m s hm hs
  cases n with
  | zero => exact follows_of_slack trivial _
  | succ n =>
    obtain ⟨m, rfl⟩ := Expr.exists_succ_of_size_le hm
    refine Evaluation.step_firstOrder henv hrebuilds (he.firstOrder e .self) hmarker (fun p hp => ?_) (fun p hp => ?_)
      hs fun _ _ => rfl
    · obtain ⟨hmem, hmem'⟩ := List.of_mem_zip hp
      have := Expr.size_lt_of_mem_children (Expr.data_subset t hmem')
      exact hdata p hp (he.operand (Expr.mem_operands_of_data hmem)) (by omega) hs
    · obtain ⟨c, c'⟩ := p
      obtain ⟨hmem, hmem'⟩ := List.of_mem_zip hp
      have hc := he.operand (Expr.mem_operands_of_lambdaArgs hmem)
      have hsize := Expr.size_lt_of_mem_children (Expr.lambdaArgs_subset t hmem')
      cases hargs _ hp with
      | @lambda params body body' hbody =>
        have : (Expr.lambda params body').size = body'.size + 1 := rfl
        exact .lambda fun row hrow _ => hbody hc (by omega) (hs.push params (by simpa using hrow))
      | other hnot hother =>
        rw [Expr.underLambda_eq hnot] at hc
        have hm' : c'.size ≤ m := by omega
        exact .other hnot ⟨(hother.1.firstOrder hc).not_lambda, hother.2 hc hm' hs⟩

/-- **A marker call**: the values that its actual arguments have are bound, or the expanded arguments are put in. -/
theorem site (henv : env.FirstOrder) {reference reference' body : Expr} {actuals actuals' : List Expr} {f : Lambda}
    (hr : Expands host reference reference') (hlen : actuals'.length = actuals.length)
    (hactuals : ∀ p ∈ actuals.zip actuals', Expands host p.1 p.2 ∧ Means host limit env p.1 p.2)
    (hf : (reference'.resolve host).outcome () = .ok f) (harity : f.arity = actuals.length)
    (hexpands : Expands host f.body body) (hbody : Means host limit env f.body body) :
    Means host limit env (.call .project (reference :: actuals))
      ((Substitution.ofCall f.params actuals').replace body) := by
  intro he n m s hm hs
  have hdenotes : reference.Denotes host f := Expr.denotes_iff.2 ⟨reference', hr, hf⟩
  have hbodyIn : f.body.Inlinable host := he.body .self hdenotes
  have hactualIn : ∀ a ∈ actuals, a.Inlinable host := fun a ha => he.operand (Expr.mem_operands_of_data ha)
  have hsubst : (Substitution.ofCall f.params actuals').FirstOrder := by
    refine Substitution.firstOrder_ofCall fun a' ha' => ?_
    obtain ⟨a, hpair⟩ := Expr.exists_mem_zip hlen ha'
    have ha := (hactuals _ hpair).1
    exact ⟨ha.firstOrder (hactualIn a (List.of_mem_zip hpair).1), ha.markerFree⟩
  have hread : ∀ n, ∀ p ∈ actuals.zip actuals', ∀ v st,
      env.readWithin (Expr.denoted host limit) n p.1 ⟨s, ()⟩ = .ok v st → st = ⟨s, ()⟩ ∧ v.Plain ∧
        ∀ m, p.2.size ≤ m → env.evaluateWithin m p.2 ⟨s, ()⟩ = .ok v ⟨s, ()⟩ :=
    fun n p hp v st hv => (hactuals p hp).2.value (hactualIn _ (List.of_mem_zip hp).1) hs hv
  cases n with
  | zero => exact follows_of_slack trivial _
  | succ n =>
    rintro ⟨_, _⟩ ⟨_, _⟩ ⟨hscope, hscope', -⟩
    obtain rfl : s = _ := hscope.symm
    obtain rfl : s = _ := hscope'.symm
    split
    case h_2 => exact .inl trivial
    case h_1 v st hvalue =>
      obtain ⟨args, g, st', ⟨hargsLen, hargs⟩, hg, hinner, rfl⟩ :=
        Evaluation.applied_eq_ok (Q := fun a' v => v.Plain ∧
          ∀ m, a'.size ≤ m → env.evaluateWithin m a' ⟨s, ()⟩ = .ok v ⟨s, ()⟩) hlen (hread n) hvalue
      -- The reference denotes one lambda, so the reading and the expansion have found the same.
      obtain rfl := hdenotes.unique ⟨limit, hg⟩
      have hargsPlain : ∀ v ∈ args, v.Plain := by
        intro v hv
        obtain ⟨a', hpair⟩ := Expr.exists_mem_zip hargsLen hv
        exact (hargs _ hpair).1
      have hpush : (s.push f.params args).Holds Value.Plain := hs.push f.params hargsPlain
      obtain ⟨rfl, hplain, hbodyValue⟩ := hbody.value hbodyIn hpush hinner
      have hbridges : Bridges env (Substitution.ofCall f.params actuals') (s.push f.params args) s :=
        bridges_ofCall (harity.trans hlen.symm) hargsLen fun p hp => (hargs p hp).2
      have hspares : ∀ id, body.Binds id → (Substitution.ofCall f.params actuals').Spares id := fun id hid =>
        he.spares hdenotes hlen (fun p hp => (hactuals p hp).1) harity hexpands hid
      have hreplaced := Env.evaluateWithin_replace (hsubst.firstOrderIn henv) body.size
        ((hexpands.firstOrder hbodyIn).throughout hexpands.markerFree) (henv.feeds body) hspares hpush hs hbridges hm
      obtain ⟨-, _, -, hresult⟩ := hreplaced.at_ok (hbodyValue body.size (Nat.le_refl _))
      exact ⟨v, _, hresult, ⟨rfl, hplain⟩, Scope.cut_push s f.params args, rfl, rfl⟩

end Means

/-- **The evaluation of an expansion follows the reading of the tree**, where the reading has a value. -/
theorem Expands.means {env : Env Unit} (henv : env.FirstOrder) (limit : Nat) {e t : Expr} (h : Expands host e t) :
    Means host limit env e t :=
  h.operand_induction (fun hmarker hrebuilds hdata hargs => Means.node henv hmarker hrebuilds hdata hargs)
    fun hr hlen hactuals hf harity hexpands hbody => Means.site henv hr hlen hactuals hf harity hexpands hbody

/-- **Expansion preserves meaning.**  If the expansion of a tree succeeds and the reading of the tree in a scope has a
value, then the expanded tree evaluates to this value in this scope, no deeper than it is itself.  No lambda may come in
as data: not from the scope, the sources or a captured value, nor from a call of a host function during the reading, so
that the reading is the same where such calls are stopped. -/
theorem Expr.evaluate_expansion {env : Env Unit} {limit limit' n : Nat} {e : Expr} {edit : Edit} {scope : Scope}
    {v : Value} (hexpand : e.expand env.host limit () = .ok edit ()) (hinlinable : e.Inlinable env.host)
    (hscope : scope.Holds Value.Plain) (hsources : ∀ name rows, env.source name = .ok rows → rows.Plain)
    (hread : (env.readWithin (Expr.denoted env.host limit') n e).outcome ⟨scope, ()⟩ = .ok v)
    (hcalls : (env.plainCalls.readWithin (Expr.denoted env.host limit') n e).outcome ⟨scope, ()⟩ =
      (env.readWithin (Expr.denoted env.host limit') n e).outcome ⟨scope, ()⟩) :
    ∀ fuel, (edit.result e).size ≤ fuel →
      (env.evaluateWithin fuel (edit.result e)).outcome ⟨scope, ()⟩ = .ok v := by
  intro fuel hfuel
  have hexpanded : (e.expanded env.host limit).outcome () = .ok (edit.result e) :=
    outcome_eq_ok_iff.2 ⟨(), bind_of_ok hexpand⟩
  have hmeans : Means env.host limit' env.plainCalls e (edit.result e) :=
    (expands_of_expanded hexpanded).means (Env.firstOrder_plainCalls hsources) limit'
  obtain ⟨st, hplain⟩ := outcome_eq_ok_iff.1 (hcalls.trans hread)
  obtain ⟨-, -, hvalue⟩ := hmeans.value hinlinable hscope hplain
  -- Where no call gave a lambda, none was stopped for giving one.
  obtain ⟨w, st', hvalue, ⟨rfl, -⟩, -⟩ :=
    (Env.evaluateWithin_of_plainCalls env fuel _ scope).of_ok (t := ⟨scope, ()⟩) ⟨rfl, rfl, rfl⟩ (hvalue fuel hfuel)
  exact outcome_eq_ok_iff.2 ⟨st', hvalue⟩

namespace Expr

theorem forall_site_iff {P : Expr → List Expr → Prop} {e : Expr} :
    (∀ reference actuals, SiteOf reference actuals e → P reference actuals) ↔
      (∀ reference actuals, e = .call .project (reference :: actuals) → P reference actuals) ∧
        ∀ c ∈ e.operands, ∀ reference actuals, SiteOf reference actuals c → P reference actuals := by
  constructor
  · intro h
    exact ⟨fun reference actuals heq => h reference actuals (heq ▸ .self),
      fun c hc reference actuals hsite => h reference actuals (.operand hc hsite)⟩
  · rintro ⟨hself, hoperands⟩ reference actuals hsite
    cases hsite with
    | self => exact hself _ _ rfl
    | operand hc hsite => exact hoperands _ hc _ _ hsite

def increment : Lambda :=
  ⟨[⟨⟨0, 1⟩, "n", .any⟩], .binary .add (.param ⟨⟨0, 1⟩, "n", .any⟩) (.literal (.int 1) ⟨1⟩)⟩

/-- The projection of a row by this lambda, which is held. -/
def incrementRow : Expr :=
  .call .project [.captured "f" (.ofLambda increment) ⟨0⟩, .param ⟨⟨0, 0⟩, "row", .any⟩]

def incrementRows : Expr := .operator .select (.source "rows") (some ⟨[⟨⟨0, 0⟩, "row", .any⟩], incrementRow⟩)

/-- Its expansion. -/
def incrementedRows : Expr :=
  .operator .select (.source "rows") (some ⟨[⟨⟨0, 0⟩, "row", .any⟩],
    .binary .add (.param ⟨⟨0, 0⟩, "row", .any⟩) (.literal (.int 1) ⟨1⟩)⟩)

theorem firstOrder_leaf {e : Expr} (hoperands : e.operands = []) (hlambda : ∀ params body, e ≠ .lambda params body)
    (hcaptured : ∀ name v site, e ≠ .captured name v site) : e.FirstOrder :=
  .node hlambda (fun name v site heq => absurd heq (hcaptured name v site)) (by simp [hoperands])

theorem not_site_leaf {e : Expr} (hoperands : e.operands = []) (hmarker : Marker.isMarker e = false)
    (reference : Expr) (actuals : List Expr) : ¬ SiteOf reference actuals e := by
  revert reference actuals
  refine forall_site_iff.2 ⟨fun reference actuals heq => ?_, by simp [hoperands]⟩
  rw [heq] at hmarker
  cases hmarker

theorem firstOrder_increment : increment.body.FirstOrder := by
  refine .node (by simp [increment]) (by simp [increment]) (List.forall_mem_cons.2 ⟨?_, List.forall_mem_singleton.2 ?_⟩)
  · exact firstOrder_leaf rfl (by simp) (by simp)
  · exact firstOrder_leaf rfl (by simp) (by simp)

theorem firstOrder_incrementRows : incrementRows.FirstOrder := by
  refine .node (by simp [incrementRows, operator]) (by simp [incrementRows, operator])
    (List.forall_mem_cons.2 ⟨?_, List.forall_mem_singleton.2 ?_⟩)
  · exact firstOrder_leaf rfl (by simp) (by simp)
  · refine .node (by simp [incrementRow, underLambda, ofLambda]) (by simp [incrementRow, underLambda, ofLambda])
      (List.forall_mem_singleton.2 ?_)
    exact firstOrder_leaf rfl (by simp) (by simp)

theorem not_site_increment : ∀ reference actuals, ¬ SiteOf reference actuals increment.body :=
  forall_site_iff.2 ⟨by simp [increment],
    List.forall_mem_cons.2 ⟨not_site_leaf rfl rfl, List.forall_mem_singleton.2 (not_site_leaf rfl rfl)⟩⟩

theorem site_incrementRows : ∀ reference actuals, SiteOf reference actuals incrementRows →
    reference = .captured "f" (.ofLambda increment) ⟨0⟩ := by
  refine forall_site_iff.2 ⟨by simp [incrementRows, operator],
    List.forall_mem_cons.2 ⟨fun r as h => absurd h (not_site_leaf rfl rfl r as), List.forall_mem_singleton.2 ?_⟩⟩
  refine forall_site_iff.2 ⟨fun reference actuals heq => ?_,
    List.forall_mem_singleton.2 fun r as h => absurd h (not_site_leaf rfl rfl r as)⟩
  cases heq
  rfl

theorem within_increment {n : Expr} (h : Within n increment.body) :
    n = increment.body ∨ n = .param ⟨⟨0, 1⟩, "n", .any⟩ ∨ n = .literal (.int 1) ⟨1⟩ := by
  cases h with
  | self => exact .inl rfl
  | child hc h =>
    rcases List.mem_cons.1 hc with rfl | hc
    · cases h with
      | self => exact .inr (.inl rfl)
      | child hc => cases hc
    · obtain rfl := List.mem_singleton.1 hc
      cases h with
      | self => exact .inr (.inr rfl)
      | child hc => cases hc

theorem inlinable_incrementRows : incrementRows.Inlinable host := by
  have hinlines : ∀ b, incrementRows.Inlines host b → b = incrementRows ∨ b = increment.body := by
    intro b hb
    induction hb with
    | self => exact .inl rfl
    | body _ hsite hf ih =>
      rcases ih with rfl | rfl
      · obtain rfl := site_incrementRows _ _ hsite
        exact .inr (congrArg Lambda.body (denotes_held_iff.1 hf))
      · exact absurd hsite (not_site_increment _ _)
  have hmarkerFree : increment.body.MarkerFree := by
    intro n hn
    rcases within_increment hn with rfl | rfl | rfl <;> rfl
  refine ⟨fun b hb => ?_, fun b hb => ?_⟩
  · rcases hinlines b hb with rfl | rfl
    · exact firstOrder_incrementRows
    · exact firstOrder_increment
  · intro reference actuals hsite f hf body hbody id hid
    rcases hinlines b hb with rfl | rfl
    · obtain rfl := site_incrementRows _ _ hsite
      obtain rfl := denotes_held_iff.1 hf
      obtain rfl := (expandsTo_iff.1 hbody).unique (expandsTo_iff.1 (expandsTo_of_markerFree hmarkerFree))
      obtain ⟨params, inner, hwithin, -⟩ := hid
      rcases within_increment hwithin with h | h | h <;> cases h
    · exact absurd hsite (not_site_increment _ _)

theorem evaluate_incrementedRows :
    incrementRows.expand twoRows.host 1 () = .ok (.put incrementedRows) () ∧
      (twoRows.readWithin (Expr.denoted twoRows.host 1) 6 incrementRows).outcome ⟨[], ()⟩ =
        .ok (.list [.int 2, .int 3]) ∧
      ∀ fuel, incrementedRows.size ≤ fuel →
        (twoRows.evaluateWithin fuel incrementedRows).outcome ⟨[], ()⟩ = .ok (.list [.int 2, .int 3]) :=
  have hmarker : ¬ incrementRows.MarkerFree := fun h =>
    Bool.noConfusion (h _ (.child (List.mem_cons_of_mem _ List.mem_cons_self) (.child List.mem_cons_self .self)))
  have hexpand : incrementRows.expand twoRows.host 1 () = .ok (.put incrementedRows) () :=
    expand_of_expandWithin hmarker rfl
  have hread : (twoRows.readWithin (Expr.denoted twoRows.host 1) 6 incrementRows).outcome ⟨[], ()⟩ =
      .ok (.list [.int 2, .int 3]) := by
    rw [denoted_eq]
    rfl
  have hsources : ∀ name rows, twoRows.source name = .ok rows → rows.Plain := by
    rintro name rows h
    cases h
    rfl
  ⟨hexpand, hread, evaluate_expansion hexpand inlinable_incrementRows (by simp [Scope.Holds]) hsources hread
    (by rw [denoted_eq]; rfl)⟩

end Expr

end Splice
