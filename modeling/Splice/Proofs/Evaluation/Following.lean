import Splice.Proofs.Following
import Splice.Proofs.Tree.Nodes
import Splice.Proofs.Evaluation.Hereditary
import Splice.Evaluation.Rules
/-!
# Evaluations that follow one another

Two evaluations of trees of one shape follow each other if the evaluations of their parts do.  There is one lemma for
each loop over rows, one for the operators, and one for the rule of a node (`Evaluation.step_follows`).  They are about
any two evaluators `ev` and `ev'`, for the rules do not know the evaluator; their values are equal and satisfy a
hereditary condition, so they are found in no other state than the rows, the sources and the captured values are.

The lambda argument of an operator is not data: what matters of two lambdas is that they do the same on a row
(`Operators.Rowwise`), so their bodies may differ.
-/
namespace Splice

open Run

variable {σ τ α β : Type} {slack : Halt → Prop} {H : σ → τ → Prop} {Q : α → β → Prop} {P : Value → Prop} {s t : Scope}

/-- The states have these scopes, and related states of the host program. -/
def At (H : σ → τ → Prop) (s t : Scope) (a : EvalState σ) (b : EvalState τ) : Prop :=
  a.scope = s ∧ b.scope = t ∧ H a.hostState b.hostState

namespace Scope

def Holds (P : Value → Prop) (s : Scope) : Prop := ∀ binding ∈ s, P binding.2

theorem Holds.get? (hs : s.Holds P) {id : ParamId} {v : Value} (h : s.get? id = some v) : P v :=
  hs _ (mem_of_lookup h)

theorem Holds.push (hs : s.Holds P) (params : List Param) {args : List Value} (hargs : ∀ v ∈ args, P v) :
    (s.push params args).Holds P := by
  rintro ⟨id, v⟩ hb
  rcases List.mem_append.1 hb with hb | hb
  · exact hargs v (List.of_mem_zip (List.mem_reverse.1 hb)).2
  · exact hs _ hb

end Scope

/-! ## Runs that start in two scopes -/

theorem at_eq_iff {a b : EvalState σ} : At (· = ·) s t a b ↔ ∃ h, a = ⟨s, h⟩ ∧ b = ⟨t, h⟩ := by
  obtain ⟨sa, ha⟩ := a
  obtain ⟨sb, hb⟩ := b
  constructor
  · rintro ⟨rfl, rfl, rfl⟩
    exact ⟨ha, rfl, rfl⟩
  · rintro ⟨h, ha, hb⟩
    cases ha
    cases hb
    exact ⟨rfl, rfl, rfl⟩

section

variable {x y : Eval σ Value} {h : σ} {st : EvalState σ}

theorem Run.Follows.at_ok (hf : Follows slack (At (· = ·) s t) (Same P) x y) {v : Value} (hx : x ⟨s, h⟩ = .ok v st) :
    P v ∧ ∃ k, st = ⟨s, k⟩ ∧ y ⟨t, h⟩ = .ok v ⟨t, k⟩ := by
  obtain ⟨_, _, hy, ⟨rfl, hv⟩, hat⟩ := hf.of_ok (at_eq_iff.2 ⟨h, rfl, rfl⟩) hx
  obtain ⟨k, rfl, rfl⟩ := at_eq_iff.1 hat
  exact ⟨hv, k, rfl, hy⟩

theorem Run.Follows.at_error (hf : Follows slack (At (· = ·) s t) (Same P) x y) {halt : Halt} (hhalt : ¬ slack halt)
    (hx : x ⟨s, h⟩ = .error halt st) : ∃ k, st = ⟨s, k⟩ ∧ y ⟨t, h⟩ = .error halt ⟨t, k⟩ := by
  obtain ⟨_, hy, hat⟩ := hf.of_error_of_not_slack (at_eq_iff.2 ⟨h, rfl, rfl⟩) hx hhalt
  obtain ⟨k, rfl, rfl⟩ := at_eq_iff.1 hat
  exact ⟨k, rfl, hy⟩

/-- **A result in one scope is the result in the other one**, if no error is given up. -/
theorem Run.Follows.at_attempt (hf : Follows slack (At (· = ·) s t) (Same P) x y)
    (hslack : ∀ cause, ¬ slack (.error cause)) {r : Except Error Value} {h' : σ}
    (hx : x ⟨s, h⟩ = Run.attempt r ⟨s, h'⟩) : y ⟨t, h⟩ = Run.attempt r ⟨t, h'⟩ := by
  cases r with
  | ok v =>
    have hx : x ⟨s, h⟩ = .ok v ⟨s, h'⟩ := hx
    obtain ⟨-, k, hk, hy⟩ := hf.at_ok hx
    cases hk
    exact hy
  | error cause =>
    have hx : x ⟨s, h⟩ = .error (.error cause) ⟨s, h'⟩ := hx
    obtain ⟨k, hk, hy⟩ := hf.at_error (hslack cause) hx
    cases hk
    exact hy

end

namespace Eval

theorem within_follows {params : List Param} {args : List Value} {x : Eval σ α} {y : Eval τ β}
    (h : Follows slack (At H (s.push params args) (t.push params args)) Q x y) :
    Follows slack (At H s t) Q (Eval.within params args x) (Eval.within params args y) := by
  refine follows_inside (fun a b hab => ?_) (fun a b a' b' hab hab' => ?_) h
  · exact ⟨congrArg (Scope.push · params args) hab.1, congrArg (Scope.push · params args) hab.2.1, hab.2.2⟩
  · obtain ⟨rfl, rfl, -⟩ := hab
    exact ⟨by rw [hab'.1, Scope.cut_push], by rw [hab'.2.1, Scope.cut_push], hab'.2.2⟩

theorem onHost_follows {x : Run σ α} {y : Run τ β} (h : Follows slack H Q x y) :
    Follows slack (At H s t) Q (Eval.onHost x) (Eval.onHost y) :=
  follows_inside (fun _ _ hab => hab.2.2) (fun _ _ _ _ hab hab' => ⟨hab.1, hab.2.1, hab'⟩) h

theorem lookup_of_get? {p : Param} {a : EvalState σ} {v : Value} (h : a.scope.get? p.id = some v) :
    Eval.lookup p a = .ok v a := by
  refine (bind_of_ok rfl).trans ?_
  rw [h]
  rfl

theorem lookup_follows {p : Param} (h : t.get? p.id = s.get? p.id) (hP : ∀ v, s.get? p.id = some v → P v) :
    Follows slack (At H s t) (Same P) (Eval.lookup p : Eval σ Value) (Eval.lookup p : Eval τ Value) := by
  refine follows_bind (Q := fun a b => a.scope = s ∧ b.scope = t) (fun a b hab => ⟨b, b, rfl, ⟨hab.1, hab.2.1⟩, hab⟩) ?_
  rintro a b ⟨rfl, rfl⟩
  rw [h]
  cases hv : a.scope.get? p.id with
  | some v => exact follows_pure ⟨rfl, hP v hv⟩
  | none => exact follows_fail _

end Eval

namespace Operators

variable {R : EvalState σ → EvalState τ → Prop} {ev : Expr → Eval σ Value} {ev' : Expr → Eval τ Value}
  {f f' : Lambda} {g g' : Option Lambda} {rows : List Value}

/-- The two lambdas do the same on a row. -/
def Rowwise (slack : Halt → Prop) (R : EvalState σ → EvalState τ → Prop) (P : Value → Prop) (ev : Expr → Eval σ Value)
    (ev' : Expr → Eval τ Value) (f f' : Lambda) : Prop :=
  ∀ row, P row → Follows slack R (Same P) (onRow ev f row) (onRow ev' f' row)

/-! ## Applying lambdas -/

theorem apply_follows {params : List Param} {body body' : Expr} {args : List Value}
    (h : params.length = args.length →
      Follows slack (At H (s.push params args) (t.push params args)) (Same P) (ev body) (ev' body')) :
    Follows slack (At H s t) (Same P) (apply ev ⟨params, body⟩ args) (apply ev' ⟨params, body'⟩ args) :=
  follows_ite (fun harity => Eval.within_follows (h harity)) fun _ => follows_fail _

theorem lambdaAt_of_not_lambda {e : Expr} (h : ∀ params body, e ≠ .lambda params body) :
    lambdaAt ev e = (ev e >>= fun v =>
      match v.asLambda? with
      | some f => pure f
      | none => Run.fail (.typeMismatch "lambda" v.typeName)) := by
  cases e with
  | lambda params body => exact absurd rfl (h params body)
  | _ => rfl

theorem lambdaAt_follows {e e' : Expr} (he : ∀ params body, e ≠ .lambda params body)
    (he' : ∀ params body, e' ≠ .lambda params body) (h : Follows slack R (Same P) (ev e) (ev' e'))
    (hvalue : ∀ f, P (.ofLambda f) → Rowwise slack R P ev ev' f f) :
    Follows slack R (Rowwise slack R P ev ev') (lambdaAt ev e) (lambdaAt ev' e') := by
  rw [lambdaAt_of_not_lambda he, lambdaAt_of_not_lambda he']
  refine follows_bind h ?_
  rintro v _ ⟨rfl, hv⟩
  cases v with
  | lambda params body => exact follows_pure (hvalue ⟨params, body⟩ hv)
  | _ => exact follows_fail _

/-! ## Loops over rows -/

theorem holds_follows (h : Rowwise slack R P ev ev' f f') {row : Value} (hrow : P row) :
    Follows slack R (· = ·) (holds ev f row) (holds ev' f' row) := by
  refine follows_bind (h row hrow) ?_
  rintro v _ ⟨rfl, -⟩
  exact (follows_attempt (P := fun _ => True) fun _ _ => trivial).weaken fun _ _ hab => hab.1

theorem keepRows_follows (h : Rowwise slack R P ev ev' f f') (hrows : ∀ row ∈ rows, P row) :
    Follows slack R (Same fun kept => ∀ row ∈ kept, P row) (keepRows ev f rows) (keepRows ev' f' rows) := by
  induction rows with
  | nil => exact follows_pure ⟨rfl, hrows⟩
  | cons row rows ih =>
    rw [List.forall_mem_cons] at hrows
    refine follows_bind (holds_follows h hrows.1) ?_
    rintro keep _ rfl
    refine follows_bind (ih hrows.2) ?_
    rintro rest _ ⟨rfl, hrest⟩
    refine follows_pure ⟨rfl, ?_⟩
    split
    · exact List.forall_mem_cons.2 ⟨hrows.1, hrest⟩
    · exact hrest

theorem mapRows_follows (h : Rowwise slack R P ev ev' f f') (hrows : ∀ row ∈ rows, P row) :
    Follows slack R (Same fun values => ∀ v ∈ values, P v) (mapRows ev f rows) (mapRows ev' f' rows) := by
  induction rows with
  | nil => exact follows_pure ⟨rfl, hrows⟩
  | cons row rows ih =>
    rw [List.forall_mem_cons] at hrows
    refine follows_bind (h row hrows.1) ?_
    rintro v _ ⟨rfl, hv⟩
    refine follows_bind (ih hrows.2) ?_
    rintro rest _ ⟨rfl, hrest⟩
    exact follows_pure ⟨rfl, List.forall_mem_cons.2 ⟨hv, hrest⟩⟩

theorem countRows_follows (h : Rowwise slack R P ev ev' f f') (hrows : ∀ row ∈ rows, P row) :
    Follows slack R (· = ·) (countRows ev f rows) (countRows ev' f' rows) := by
  induction rows with
  | nil => exact follows_pure rfl
  | cons row rows ih =>
    rw [List.forall_mem_cons] at hrows
    refine follows_bind (holds_follows h hrows.1) ?_
    rintro counts _ rfl
    refine follows_bind (ih hrows.2) ?_
    rintro rest _ rfl
    exact follows_pure rfl

theorem anyRow_follows (h : Rowwise slack R P ev ev' f f') (hrows : ∀ row ∈ rows, P row) :
    Follows slack R (· = ·) (anyRow ev f rows) (anyRow ev' f' rows) := by
  induction rows with
  | nil => exact follows_pure rfl
  | cons row rows ih =>
    rw [List.forall_mem_cons] at hrows
    refine follows_bind (holds_follows h hrows.1) ?_
    rintro found _ rfl
    exact follows_ite (fun _ => follows_pure rfl) fun _ => ih hrows.2

theorem keyRows_follows (h : Rowwise slack R P ev ev' f f') (hrows : ∀ row ∈ rows, P row) :
    Follows slack R (Same fun keyed => ∀ k ∈ keyed, P k.row) (keyRows ev f rows) (keyRows ev' f' rows) := by
  refine follows_bind (mapRows_follows h hrows) ?_
  rintro keys _ ⟨rfl, -⟩
  refine follows_pure ⟨rfl, fun k hk => ?_⟩
  rw [← List.map_uncurry_zip_eq_zipWith] at hk
  obtain ⟨⟨key, row⟩, hrow, rfl⟩ := List.mem_map.1 hk
  exact hrows row (List.of_mem_zip hrow).2

theorem valuesOf_follows (h : Given (Rowwise slack R P ev ev') g g') (hrows : ∀ row ∈ rows, P row) :
    Follows slack R (Same fun values => ∀ v ∈ values, P v) (valuesOf ev g rows) (valuesOf ev' g' rows) := by
  match g, g', h with
  | none, none, _ => exact follows_pure ⟨rfl, hrows⟩
  | some f, some f', h => exact mapRows_follows h hrows

theorem selectedRows_follows (h : Given (Rowwise slack R P ev ev') g g') (hrows : ∀ row ∈ rows, P row) :
    Follows slack R (Same fun values => ∀ v ∈ values, P v) (selectedRows ev g rows) (selectedRows ev' g' rows) := by
  refine follows_bind (valuesOf_follows h hrows) ?_
  rintro values _ ⟨rfl, hvalues⟩
  exact follows_pure ⟨rfl, fun v hv => hvalues v (List.mem_filter.1 hv).1⟩

/-! ## The operators -/

theorem required_follows (op : QueryOp) (h : Given (Rowwise slack R P ev ev') g g') :
    Follows slack R (Rowwise slack R P ev ev') (required op g) (required op g') := by
  match g, g', h with
  | none, none, _ => exact follows_fail _
  | some f, some f', h => exact follows_pure h

theorem rowsOf_follows (hP : Hereditary P) (op : QueryOp) {v : Value} (hv : P v) :
    Follows slack R (Same fun rows => ∀ row ∈ rows, P row) (rowsOf op v) (rowsOf op v) := by
  cases v with
  | list items => exact follows_pure ⟨rfl, (hP.list items).1 hv⟩
  | null => exact follows_pure ⟨rfl, by simp⟩
  | _ => exact follows_fail _

theorem onRows_follows (hP : Hereditary P) {op : QueryOp} {v : Value} (hv : P v)
    (h : Given (Rowwise slack R P ev ev') g g') {loop : Lambda → List Value → Eval σ Value}
    {loop' : Lambda → List Value → Eval τ Value}
    (hloop : ∀ f f' rows, Rowwise slack R P ev ev' f f' → (∀ row ∈ rows, P row) →
      Follows slack R (Same P) (loop f rows) (loop' f' rows)) :
    Follows slack R (Same P) (do loop (← required op g) (← rowsOf op v))
      (do loop' (← required op g') (← rowsOf op v)) := by
  refine follows_bind (required_follows op h) fun f f' hf => ?_
  refine follows_bind (rowsOf_follows hP op hv) ?_
  rintro rows _ ⟨rfl, hrows⟩
  exact hloop f f' rows hf hrows

theorem aggregate_follows (hP : Hereditary P) {op : QueryOp} {v : Value} (hv : P v)
    (h : Given (Rowwise slack R P ev ev') g g') {total : List Value → Except Error Value}
    (htotal : ∀ values, (∀ v ∈ values, P v) → ∀ r, total values = .ok r → P r) :
    Follows slack R (Same P) (do Run.attempt (total (← selectedRows ev g (← rowsOf op v))))
      (do Run.attempt (total (← selectedRows ev' g' (← rowsOf op v)))) := by
  refine follows_bind (rowsOf_follows hP op hv) ?_
  rintro rows _ ⟨rfl, hrows⟩
  refine follows_bind (selectedRows_follows h hrows) ?_
  rintro values _ ⟨rfl, hvalues⟩
  exact follows_attempt (htotal values hvalues)

/-- **An operator on one receiver**, with lambdas that do the same on a row. -/
theorem onReceiver_follows (hP : Hereditary P) (op : QueryOp) {v : Value} (hv : P v)
    (h : Given (Rowwise slack R P ev ev') g g') :
    Follows slack R (Same P) (onReceiver ev op g v) (onReceiver ev' op g' v) := by
  cases op with
  | toText => exact follows_pure ⟨rfl, hP.textValue v⟩
  | filter =>
    refine onRows_follows hP hv h fun f f' rows hf hrows => follows_map (keepRows_follows hf hrows) ?_
    rintro kept _ ⟨rfl, hkept⟩
    exact ⟨rfl, (hP.list kept).2 hkept⟩
  | select =>
    refine onRows_follows hP hv h fun f f' rows hf hrows => follows_map (mapRows_follows hf hrows) ?_
    rintro values _ ⟨rfl, hvalues⟩
    exact ⟨rfl, (hP.list values).2 hvalues⟩
  | orderBy =>
    refine onRows_follows hP hv h fun f f' rows hf hrows => follows_bind (keyRows_follows hf hrows) ?_
    rintro keyed _ ⟨rfl, hkeyed⟩
    refine follows_map (follows_attempt (P := fun sorted => ∀ v ∈ sorted, P v) fun sorted hsorted v hv => ?_) ?_
    · obtain ⟨k, hk, rfl⟩ := Sorting.mem_sortRows hsorted hv
      exact hkeyed k hk
    · rintro sorted _ ⟨rfl, hsorted⟩
      exact ⟨rfl, (hP.list sorted).2 hsorted⟩
  | count =>
    refine follows_bind (rowsOf_follows hP .count hv) ?_
    rintro rows _ ⟨rfl, hrows⟩
    match g, g', h with
    | none, none, _ => exact follows_pure ⟨rfl, hP.int _⟩
    | some f, some f', h =>
      refine follows_map (countRows_follows h hrows) ?_
      rintro n _ rfl
      exact ⟨rfl, hP.int _⟩
  | any =>
    refine follows_bind (rowsOf_follows hP .any hv) ?_
    rintro rows _ ⟨rfl, hrows⟩
    match g, g', h with
    | none, none, _ => exact follows_pure ⟨rfl, hP.bool _⟩
    | some f, some f', h =>
      refine follows_map (anyRow_follows h hrows) ?_
      rintro found _ rfl
      exact ⟨rfl, hP.bool _⟩
  | average => exact aggregate_follows hP hv h fun _ _ _ hr => hP.average hr
  | sum => exact aggregate_follows hP hv h fun _ _ _ hr => hP.sum hr
  | min => exact aggregate_follows hP hv h fun _ hvalues _ hr => hP.extreme hvalues hr
  | max => exact aggregate_follows hP hv h fun _ hvalues _ hr => hP.extreme hvalues hr

theorem lambdaArgument_follows (op : QueryOp) {args args' : List Expr} (hlen : args'.length = args.length)
    (h : ∀ p ∈ args.zip args', Follows slack R (Rowwise slack R P ev ev') (lambdaAt ev p.1) (lambdaAt ev' p.2)) :
    Follows slack R (Given (Rowwise slack R P ev ev')) (lambdaArgument ev op args) (lambdaArgument ev' op args') := by
  match args, args', hlen with
  | [], [], _ => exact follows_pure trivial
  | [e], [e'], _ => exact follows_map (h (e, e') List.mem_cons_self) fun _ _ hf => hf
  | a :: b :: rest, a' :: b' :: rest', hlen =>
    show Follows slack R _ (Run.fail (.tooManyLambdas op.text (a :: b :: rest).length))
      (Run.fail (.tooManyLambdas op.text (a' :: b' :: rest').length))
    rw [hlen]
    exact follows_fail _

/-- **A call of an operator**, the lambda argument before the receiver. -/
theorem call_follows (hP : Hereditary P) (op : QueryOp) {args args' : List Expr} (hlen : args'.length = args.length)
    (hreceiver : ∀ p ∈ (args.take 1).zip (args'.take 1), Follows slack R (Same P) (ev p.1) (ev' p.2))
    (hlambda : ∀ p ∈ (args.drop 1).zip (args'.drop 1),
      Follows slack R (Rowwise slack R P ev ev') (lambdaAt ev p.1) (lambdaAt ev' p.2)) :
    Follows slack R (Same P) (call ev op args) (call ev' op args') := by
  match args, args', hlen with
  | [], [], _ => exact follows_fail _
  | receiver :: rest, receiver' :: rest', hlen =>
    refine follows_bind (lambdaArgument_follows op (Nat.succ.inj hlen) hlambda) fun g g' hg => ?_
    refine follows_bind (hreceiver (receiver, receiver') List.mem_cons_self) ?_
    rintro v _ ⟨rfl, hv⟩
    exact onReceiver_follows hP op hv hg

end Operators

/-! ## The parts of a node -/

namespace Expr

/-- The parts of a node whose values it is made of: of an operator call the receiver, of a marker call the actual
arguments. -/
def data : Expr → List Expr
  | .call (.operator _) args => args.take 1
  | .call .project args => args.drop 1
  | e => e.children

def lambdaArgs : Expr → List Expr
  | .call (.operator _) args => args.drop 1
  | _ => []

theorem data_subset (e : Expr) : e.data ⊆ e.children := by
  unfold data
  split
  · exact List.take_subset 1 _
  · exact List.drop_subset 1 _
  · exact List.Subset.refl _

theorem lambdaArgs_subset (e : Expr) : e.lambdaArgs ⊆ e.children := by
  unfold lambdaArgs
  split
  · exact List.drop_subset 1 _
  · exact List.nil_subset _

end Expr

namespace Evaluation

variable {R : EvalState σ → EvalState τ → Prop} {ev : Expr → Eval σ Value} {ev' : Expr → Eval τ Value}

theorem evalAll_follows {es es' : List Expr} (hlen : es'.length = es.length)
    (h : ∀ p ∈ es.zip es', Follows slack R (Same P) (ev p.1) (ev' p.2)) :
    Follows slack R (Same fun vs => ∀ v ∈ vs, P v) (evalAll ev es) (evalAll ev' es') := by
  induction es generalizing es' with
  | nil =>
    cases List.length_eq_zero_iff.1 hlen
    exact follows_pure ⟨rfl, by simp⟩
  | cons e es ih =>
    cases es' with
    | nil => cases hlen
    | cons e' es' =>
      rw [List.zip_cons_cons, List.forall_mem_cons] at h
      refine follows_bind h.1 ?_
      rintro v _ ⟨rfl, hv⟩
      refine follows_bind (ih (Nat.succ.inj hlen) h.2) ?_
      rintro vs _ ⟨rfl, hvs⟩
      exact follows_pure ⟨rfl, List.forall_mem_cons.2 ⟨hv, hvs⟩⟩

theorem evalFields_follows (hP : Hereditary P) {fields : List (String × Expr)} {cs : List Expr}
    (hlen : cs.length = fields.length)
    (h : ∀ p ∈ (fields.map Prod.snd).zip cs, Follows slack R (Same P) (ev p.1) (ev' p.2)) {r : Record}
    (hr : P (.ofRecord r)) :
    Follows slack R (Same fun r => P (.ofRecord r)) (evalFields ev r fields)
      (evalFields ev' r ((fields.map Prod.fst).zip cs)) := by
  induction fields generalizing cs r with
  | nil => exact follows_pure ⟨rfl, hr⟩
  | cons field fields ih =>
    cases cs with
    | nil => cases hlen
    | cons c cs =>
      rw [List.map_cons, List.zip_cons_cons, List.forall_mem_cons] at h
      refine follows_bind h.1 ?_
      rintro v _ ⟨rfl, hv⟩
      exact ih (Nat.succ.inj hlen) h.2 (hP.set hr hv)

theorem test_follows {e e' : Expr} (h : Follows slack R (Same P) (ev e) (ev' e')) :
    Follows slack R (· = ·) (test ev e) (test ev' e') := by
  refine follows_bind h ?_
  rintro v _ ⟨rfl, -⟩
  exact (follows_attempt (P := fun _ => True) fun _ _ => trivial).weaken fun _ _ hab => hab.1

theorem bool_test_follows (hP : Hereditary P) {e e' : Expr} (h : Follows slack R (Same P) (ev e) (ev' e')) :
    Follows slack R (Same P) (Value.bool <$> test ev e) (Value.bool <$> test ev' e') := by
  refine follows_map (test_follows h) ?_
  rintro b _ rfl
  exact ⟨rfl, hP.bool b⟩

theorem both_follows {left right left' right' : Expr} {op : Value → Value → Except Error Value}
    (hop : ∀ l r v, op l r = .ok v → P v) (hleft : Follows slack R (Same P) (ev left) (ev' left'))
    (hright : Follows slack R (Same P) (ev right) (ev' right')) :
    Follows slack R (Same P) (do Run.attempt (op (← ev left) (← ev right)))
      (do Run.attempt (op (← ev' left') (← ev' right'))) := by
  refine follows_bind hleft ?_
  rintro l _ ⟨rfl, -⟩
  refine follows_bind hright ?_
  rintro r _ ⟨rfl, -⟩
  exact follows_attempt (hop l r)

/-- **The rule of a node**, where the node is rebuilt around parts that follow its own.  What the node does beside that
is left to the hypotheses: reading a parameter, a source or a captured value, making a lambda, calling the host program,
and the rule for marker calls. -/
theorem step_follows (hP : Hereditary P) {env : Env σ} {env' : Env τ} {marker : List Expr → Eval σ Value}
    {marker' : List Expr → Eval τ Value} {e e' : Expr} {cs : List Expr} (hrebuilds : Expr.Rebuilds e cs e')
    (hdata : ∀ p ∈ e.data.zip e'.data, Follows slack R (Same P) (ev p.1) (ev' p.2))
    (hlambda : ∀ p ∈ e.lambdaArgs.zip e'.lambdaArgs,
      Follows slack R (Operators.Rowwise slack R P ev ev') (Operators.lambdaAt ev p.1) (Operators.lambdaAt ev' p.2))
    (hparam : ∀ p, e = .param p →
      Follows slack R (Same P) (Eval.lookup p : Eval σ Value) (Eval.lookup p : Eval τ Value))
    (hsource : ∀ name, e = .source name →
      Follows slack R (Same P) (Run.attempt (env.source name)) (Run.attempt (env'.source name)))
    (hcaptured : ∀ name v site, e = .captured name v site → P v)
    (hmade : ∀ params body, e = .lambda params body → e' = e ∧ P (.lambda params body))
    (hhost : ∀ f args, e = .call (.host f) args → ∀ vs, (∀ v ∈ vs, P v) →
      Follows slack R (Same P) (Eval.onHost (.attemptOn (env.host.call f vs)))
        (Eval.onHost (.attemptOn (env'.host.call f vs))))
    (hmarker : ∀ args, e = .call .project args → Follows slack R (Same P) (marker args) (marker' cs)) :
    Follows slack R (Same P) (step env marker ev e) (step env' marker' ev' e') := by
  cases hrebuilds with
  | literal => exact follows_pure ⟨rfl, hP.ofLiteral _⟩
  | captured => exact follows_pure ⟨rfl, hcaptured _ _ _ rfl⟩
  | source => exact hsource _ rfl
  | param => exact hparam _ rfl
  | member =>
    refine follows_bind (hdata _ List.mem_cons_self) ?_
    rintro v _ ⟨rfl, hv⟩
    exact follows_attempt fun _ h => hP.member hv h
  | @call callee args args' hlen =>
    cases callee with
    | operator op => exact Operators.call_follows hP op hlen hdata hlambda
    | host f =>
      refine follows_bind (evalAll_follows hlen hdata) ?_
      rintro vs _ ⟨rfl, hvs⟩
      exact hhost f args rfl vs hvs
    | project => exact hmarker args rfl
  | lambda =>
    obtain ⟨heq, hv⟩ := hmade _ _ rfl
    cases heq
    exact follows_pure ⟨rfl, hv⟩
  | unary =>
    refine follows_bind (hdata _ List.mem_cons_self) ?_
    rintro v _ ⟨rfl, -⟩
    exact follows_attempt fun _ h => hP.unary h
  | @binary op left right left' right' =>
    have hleft := hdata (left, left') List.mem_cons_self
    have hright := hdata (right, right') (List.mem_cons_of_mem _ List.mem_cons_self)
    cases op with
    -- The two logical operators do not evaluate their right side if the left one decides.
    | and =>
      refine follows_bind (test_follows hleft) ?_
      rintro b _ rfl
      exact follows_ite (fun _ => bool_test_follows hP hright) fun _ => follows_pure ⟨rfl, hP.bool false⟩
    | or =>
      refine follows_bind (test_follows hleft) ?_
      rintro b _ rfl
      exact follows_ite (fun _ => follows_pure ⟨rfl, hP.bool true⟩) fun _ => bool_test_follows hP hright
    | _ => exact both_follows (fun _ _ _ h => hP.binary h) hleft hright
  | @compare op left right left' right' =>
    exact both_follows (fun _ _ _ h => hP.compare h) (hdata (left, left') List.mem_cons_self)
      (hdata (right, right') (List.mem_cons_of_mem _ List.mem_cons_self))
  | @cond test yes no test' yes' no' =>
    have hyes := hdata (yes, yes') (List.mem_cons_of_mem _ List.mem_cons_self)
    have hno := hdata (no, no') (List.mem_cons_of_mem _ (List.mem_cons_of_mem _ List.mem_cons_self))
    refine follows_bind (test_follows (hdata (test, test') List.mem_cons_self)) ?_
    rintro b _ rfl
    exact follows_ite (fun _ => hyes) fun _ => hno
  | @record typeName fields cs hlen =>
    refine follows_map (evalFields_follows hP hlen (fun p hp => hdata p ?_) ((hP.record typeName []).2 (by simp))) ?_
    · have hsnd : ((fields.map Prod.fst).zip cs).map Prod.snd = cs := List.map_snd_zip (by simp [hlen])
      show p ∈ (fields.map Prod.snd).zip (((fields.map Prod.fst).zip cs).map Prod.snd)
      rwa [hsnd]
    · rintro r _ ⟨rfl, hr⟩
      exact ⟨rfl, hr⟩

theorem mem_zip_self {es : List Expr} {c c' : Expr} (h : (c, c') ∈ es.zip es) : c = c' ∧ c ∈ es := by
  have hzip : es.zip es = es.map fun c => (c, c) := by simpa using List.zip_map' (f := id) (g := id) (l := es)
  obtain ⟨d, hd, heq⟩ := List.mem_map.1 (hzip ▸ h)
  cases heq
  exact ⟨rfl, hd⟩

theorem unexpanded_follows_zip {args args' : List Expr} (hlen : args'.length = args.length)
    (h : ∀ p ∈ args.zip args', Follows slack R (Same P) (ev p.1) (ev' p.2)) :
    Follows slack R (Same P) (unexpanded ev args) (unexpanded ev' args') := by
  refine follows_bind (evalAll_follows hlen h) ?_
  rintro vs _ ⟨rfl, -⟩
  cases vs with
  | nil => exact follows_fail _
  | cons reference actuals => exact follows_fail _

theorem unexpanded_follows {args : List Expr} (h : ∀ c ∈ args, Follows slack R (Same P) (ev c) (ev' c)) :
    Follows slack R (Same P) (unexpanded ev args) (unexpanded ev' args) := by
  refine unexpanded_follows_zip rfl fun p hp => ?_
  obtain ⟨c, c'⟩ := p
  obtain ⟨rfl, hc⟩ := mem_zip_self hp
  exact h c hc

/-- **The rule of a node for two evaluators of the same trees**: it is enough to know of the trees with a property `T`
that they follow each other in every scope of good values, if `T` passes to children and a lambda is a good value where
its body has `T`. -/
theorem step_follows_same (hP : Hereditary P) {T : Expr → Prop} (hT : ∀ e, T e → ∀ c ∈ e.children, T c)
    (hlambda : ∀ params body, P (.lambda params body) ↔ T body)
    (hev : ∀ e, T e → ∀ s : Scope, s.Holds P → Follows slack (At H s s) (Same P) (ev e) (ev' e))
    {env : Env σ} {env' : Env τ} {marker : List Expr → Eval σ Value} {marker' : List Expr → Eval τ Value}
    (hsource : ∀ name, env'.source name = env.source name) (hrows : ∀ name v, env.source name = .ok v → P v)
    {e : Expr} (he : T e) (hs : s.Holds P) (hcaptured : ∀ name v site, e = .captured name v site → P v)
    (hhost : ∀ f args, e = .call (.host f) args → ∀ vs, (∀ v ∈ vs, P v) →
      Follows slack H (Same P) (.attemptOn (env.host.call f vs)) (.attemptOn (env'.host.call f vs)))
    (hmarker : ∀ args, e = .call .project args → Follows slack (At H s s) (Same P) (marker args) (marker' args)) :
    Follows slack (At H s s) (Same P) (step env marker ev e) (step env' marker' ev' e) := by
  have hrowwise : ∀ f : Lambda, T f.body → Operators.Rowwise slack (At H s s) P ev ev' f f := by
    intro f hf row hrow
    exact Operators.apply_follows fun _ => hev f.body hf _ (hs.push _ (by simpa using hrow))
  refine step_follows hP (Expr.rebuilds_children e) (fun p hp => ?_) (fun p hp => ?_) (fun p _ => ?_)
    (fun name _ => ?_) hcaptured (fun params body h => ?_) (fun f args h vs hvs => ?_) (fun args h => ?_)
  · obtain ⟨c, c'⟩ := p
    obtain ⟨rfl, hc⟩ := mem_zip_self hp
    exact hev c (hT e he c (Expr.data_subset e hc)) s hs
  · obtain ⟨c, c'⟩ := p
    obtain ⟨rfl, hc⟩ := mem_zip_self hp
    have hc := hT e he c (Expr.lambdaArgs_subset e hc)
    -- A lambda node is taken as it stands; of any other argument the value decides, and it is a good one.
    cases c with
    | lambda params body => exact follows_pure (hrowwise ⟨params, body⟩ (hT _ hc body List.mem_cons_self))
    | _ =>
      refine Operators.lambdaAt_follows (by simp) (by simp) (hev _ hc s hs) fun f hf => ?_
      exact hrowwise f ((hlambda f.params f.body).1 hf)
  · exact Eval.lookup_follows rfl fun v hv => hs.get? hv
  · rw [hsource]
    exact follows_attempt (hrows name)
  · subst h
    exact ⟨rfl, (hlambda params body).2 (hT _ he body List.mem_cons_self)⟩
  · exact Eval.onHost_follows (hhost f args h vs hvs)
  · subst h
    exact hmarker args rfl

end Evaluation

/-! ## Deeper evaluations -/

/-- The recursion was not let go deep enough. -/
def Unanswered (cause : Halt) : Prop := cause = .outOfFuel

/-- **An answer stays the answer however much deeper the recursion may go.**  The depth that the program sets is not
read by the rules. -/
theorem Env.evaluateWithin_deeper {env env' : Env σ} (hsource : ∀ name, env'.source name = env.source name)
    (hcall : env'.host.call = env.host.call) {n m : Nat} (h : n ≤ m) (e : Expr) (s : Scope) :
    Follows Unanswered (At (· = ·) s s) (Same fun _ => True) (env.evaluateWithin n e) (env'.evaluateWithin m e) := by
  induction n generalizing e s m with
  | zero => exact follows_of_slack (show Unanswered .outOfFuel from rfl) _
  | succ n ih =>
    obtain ⟨m, rfl⟩ : ∃ k, m = k + 1 := ⟨m - 1, by omega⟩
    have hle : n ≤ m := Nat.le_of_succ_le_succ h
    refine Evaluation.step_follows_same hereditary_true (T := fun _ => True) (fun _ _ _ _ => trivial)
      (fun _ _ => Iff.rfl) (fun e _ s _ => ih hle e s) hsource (fun _ _ _ => trivial) trivial
      (fun _ _ => trivial) (fun _ _ _ _ => trivial) (fun f args _ vs _ => ?_) fun args _ => ?_
    · rw [hcall]
      exact follows_attemptOn fun _ _ _ _ => trivial
    · exact Evaluation.unexpanded_follows fun c _ => ih hle c s

end Splice
