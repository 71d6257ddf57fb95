import Splice.Proofs.Query.Sending
/-!
# Expanding step by step

A wrapped query expands its tree whenever it is extended, and once more when it ends in a value, so a long composition
is expanded many times.  **That makes no difference** (`Query.stepwise_eq_oneShot`): the value, or the error, is that of
the backend on the whole composition expanded once, and the state of the host program is the same.  An extension that
fails is the first one whose tree does not expand.

Two facts carry the proof.  An operator expands its receiver before its lambda, so a receiver that was expanded before
may take the place of one that was not (`Expr.expanded_operator`); and the tree of a derived query is an expanded one.
-/
namespace Splice

open Run

variable {σ : Type}

namespace Query

/-! ## Compositions -/

structure Step where
  op : QueryOp
  f : Lambda

def Step.tree (d : Step) (e : Expr) : Expr := .operator d.op e (some d.f)

/-- The tree of a composition, nothing expanded. -/
def composed (e : Expr) (steps : List Step) : Expr := steps.foldl (fun e d => d.tree e) e

/-- The tree of a composition, expanded after every step. -/
def expandedSteps (host : Host σ) (limit : Nat) (e : Expr) (steps : List Step) : Run σ Expr :=
  steps.foldlM (fun t d => (d.tree t).expanded host limit) e

def extendAll (host : Host σ) (q : Query) (steps : List Step) : QueryM σ Query :=
  steps.foldlM (fun q d => q.extend host d.op d.f) q

/-- How a composition ends in a value. -/
inductive Terminal where
  | count
  | any (f : Option Lambda)
  | sum (f : Lambda)
  | average (f : Lambda)
  | min (f : Lambda)
  | max (f : Lambda)
  /-- The value of the tree itself. -/
  | execute

namespace Terminal

def tree : Terminal → Expr → Expr
  | .count, e => .operator .count e none
  | .any f, e => .operator .any e f
  | .sum f, e => .operator .sum e (some f)
  | .average f, e => .operator .average e (some f)
  | .min f, e => .operator .min e (some f)
  | .max f, e => .operator .max e (some f)
  | .execute, e => e

/-- What is made of the answer: a count must be an integer, and `any` a truth value. -/
def read : Terminal → Value → Run σ Value
  | .count, .int n => pure (.int n)
  | .count, v => Run.fail (.typeMismatch "int" v.typeName)
  | .any _, .bool found => pure (.bool found)
  | .any _, v => Run.fail (.typeMismatch "bool" v.typeName)
  | _, v => pure v

def run (host : Host σ) (b : Backend σ) (q : Query) : Terminal → QueryM σ Value
  | .count => Value.int <$> q.count host b
  | .any f => Value.bool <$> q.any host b f
  | .sum f => q.aggregate host b .sum (some f)
  | .average f => q.aggregate host b .average (some f)
  | .min f => q.aggregate host b .min (some f)
  | .max f => q.aggregate host b .max (some f)
  | .execute => q.execute host b

end Terminal

/-- A composition on a wrapped root query. -/
def stepwise (host : Host σ) (limit : Nat) (root : Query) (steps : List Step) : QueryM σ Query := do
  (← root.wrap limit).extendAll host steps

/-- The backend's answer to a composition that is expanded once. -/
def oneShot (host : Host σ) (b : Backend σ) (limit : Nat) (e : Expr) (steps : List Step) (T : Terminal) :
    Run σ Value := do
  T.read (← b.execute (← (T.tree (composed e steps)).expanded host limit))

/-! ## On the trees -/

theorem expanded_tree (host : Host σ) (limit : Nat) (T : Terminal) (e : Expr) :
    (T.tree e).expanded host limit = (e.expanded host limit >>= fun t => (T.tree t).expanded host limit) := by
  cases T with
  | execute => exact (Expr.expanded_expanded host limit e).symm
  | _ => exact Expr.expanded_operator host limit _ e _

theorem expandedSteps_cons (host : Host σ) (limit : Nat) (e : Expr) (d : Step) (steps : List Step) :
    expandedSteps host limit e (d :: steps) =
      ((d.tree e).expanded host limit >>= fun t => expandedSteps host limit t steps) := List.foldlM_cons ..

theorem expandedSteps_bind (host : Host σ) (limit : Nat) (T : Terminal) (e : Expr) (steps : List Step) :
    expandedSteps host limit e steps >>= (fun t => (T.tree t).expanded host limit) =
      (e.expanded host limit >>= fun t =>
        expandedSteps host limit t steps >>= fun t => (T.tree t).expanded host limit) := by
  cases steps with
  | nil => exact expanded_tree host limit T e
  | cons d steps =>
    simp only [expandedSteps_cons, bind_assoc]
    rw [Step.tree, Expr.expanded_operator]
    simp only [bind_assoc]
    rfl

/-- **Expanding a whole composition is expanding after every step.** -/
theorem expanded_composed (host : Host σ) (limit : Nat) (T : Terminal) (e : Expr) (steps : List Step) :
    (T.tree (composed e steps)).expanded host limit =
      (expandedSteps host limit e steps >>= fun t => (T.tree t).expanded host limit) := by
  induction steps generalizing e with
  | nil => rfl
  | cons d steps ih =>
    show (T.tree (composed (d.tree e) steps)).expanded host limit = _
    rw [ih, expandedSteps_bind, expandedSteps_cons, bind_assoc]

theorem expandedSteps_expanded (host : Host σ) (limit : Nat) {t : Expr} (ht : t.MarkerFree) (steps : List Step) :
    expandedSteps host limit t steps >>= (fun t => t.expanded host limit) = expandedSteps host limit t steps := by
  induction steps generalizing t with
  | nil => exact Expr.expanded_of_markerFree host limit ht
  | cons d steps ih =>
    rw [expandedSteps_cons, bind_assoc]
    exact bind_congr_of_follows (Expr.expanded_markerFree host limit _) fun t' ht' => ih ht'

theorem expanded_composed_of_ne_nil (host : Host σ) (limit : Nat) (e : Expr) {steps : List Step} (h : steps ≠ []) :
    (composed e steps).expanded host limit = expandedSteps host limit e steps := by
  obtain ⟨d, steps, rfl⟩ := List.exists_cons_of_ne_nil h
  have hcomposed := expanded_composed host limit .execute e (d :: steps)
  rw [expandedSteps_cons, bind_assoc] at hcomposed
  rw [expandedSteps_cons]
  -- After the first step the tree has no marker calls, so the expansion at the end keeps what the steps give.
  refine hcomposed.trans (bind_congr_of_follows (Expr.expanded_markerFree host limit _) fun t ht => ?_)
  exact expandedSteps_expanded host limit ht steps

/-! ## On the queries -/

/-- The query is a wrapper around a query of the backend with this tree. -/
def Wraps (wrapper limit : Nat) (q : Query) (t : Expr) : Prop :=
  ∃ id inner, q = .wrapped id (.plain inner t) ⟨wrapper, limit, .backend⟩

theorem extend_follows {host : Host σ} {wrapper limit : Nat} {q : Query} {t : Expr} (hq : Wraps wrapper limit q t)
    (d : Step) :
    Follows strictly OnHost (Wraps wrapper limit) (q.extend host d.op d.f) ((d.tree t).expanded host limit) := by
  obtain ⟨id, inner, rfl⟩ := hq
  rw [← bind_pure ((d.tree t).expanded host limit)]
  unfold extend provider Wrapper.provider Provider.query Provider.query
  simp only [bind_assoc, pure_bind]
  refine follows_bind (provider_expanded_follows host limit _) ?_
  rintro t' _ rfl
  refine follows_of_step (note_step _) fun _ => ?_
  refine follows_of_step fresh_step fun inner' => ?_
  refine follows_of_step fresh_step fun id' => ?_
  exact follows_pure ⟨id', inner', rfl⟩

theorem extendAll_follows {host : Host σ} {wrapper limit : Nat} (steps : List Step) {q : Query} {t : Expr}
    (hq : Wraps wrapper limit q t) :
    Follows strictly OnHost (Wraps wrapper limit) (q.extendAll host steps) (expandedSteps host limit t steps) := by
  induction steps generalizing q t with
  | nil => exact follows_pure hq
  | cons d steps ih =>
    rw [expandedSteps_cons, extendAll, List.foldlM_cons]
    exact follows_bind (extend_follows hq d) fun q' t' hq' => ih hq'

/-- **A composition on a wrapped query is its trees, expanded after every step.** -/
theorem stepwise_follows (host : Host σ) (limit root : Nat) (e : Expr) (steps : List Step) :
    Follows strictly OnHost (fun q t => ∃ wrapper, Wraps wrapper limit q t)
      (stepwise host limit (.plain root e) steps) (expandedSteps host limit e steps) := by
  unfold stepwise wrap
  simp only [bind_assoc, pure_bind]
  refine follows_of_step fresh_step fun wrapper => ?_
  refine follows_of_step fresh_step fun id => ?_
  exact (extendAll_follows steps ⟨id, root, rfl⟩).weaken fun q t hq => ⟨wrapper, hq⟩

theorem execute_follows {host : Host σ} {wrapper limit : Nat} {q : Query} {t : Expr} (hq : Wraps wrapper limit q t)
    (b : Backend σ) (e : Expr) :
    Follows strictly OnHost (· = ·) (q.provider.execute host b e) (e.expanded host limit >>= b.execute) := by
  obtain ⟨id, inner, rfl⟩ := hq
  have hsent : (Provider.projecting wrapper limit .backend).sent host e = e.expanded host limit := bind_pure _
  rw [← hsent]
  exact Provider.execute_follows host b (.projecting wrapper limit .backend) e

theorem run_follows {host : Host σ} {wrapper limit : Nat} {q : Query} {t : Expr} (hq : Wraps wrapper limit q t)
    (b : Backend σ) (T : Terminal) :
    Follows strictly OnHost (· = ·) (T.run host b q)
      ((T.tree t).expanded host limit >>= fun t => b.execute t >>= T.read) := by
  have htree : q.tree = t := by obtain ⟨id, inner, rfl⟩ := hq; rfl
  have h : Follows strictly OnHost (· = ·) (q.provider.execute host b (T.tree q.tree))
      ((T.tree t).expanded host limit >>= b.execute) := htree ▸ execute_follows hq b (T.tree q.tree)
  rw [← bind_assoc]
  cases T with
  | count =>
    refine follows_of_map (follows_bind h ?_)
    rintro v _ rfl
    cases v with
    | int n => exact follows_pure rfl
    | _ => exact follows_fail _
  | any f =>
    refine follows_of_map (follows_bind h ?_)
    rintro v _ rfl
    cases v with
    | bool found => exact follows_pure rfl
    | _ => exact follows_fail _
  | _ =>
    rw [show (Terminal.read _ : Value → Run σ Value) = pure from rfl, bind_pure]
    exact h

theorem stepwise_run_follows (host : Host σ) (b : Backend σ) (limit root : Nat) (e : Expr) (steps : List Step)
    (T : Terminal) :
    Follows strictly OnHost (· = ·) (stepwise host limit (.plain root e) steps >>= T.run host b)
      (oneShot host b limit e steps T) := by
  unfold oneShot
  rw [expanded_composed, bind_assoc]
  refine follows_bind (stepwise_follows host limit root e steps) ?_
  rintro q t ⟨wrapper, hq⟩
  exact run_follows hq b T

/-! ## The first failure -/

theorem expandedSteps_append (host : Host σ) (limit : Nat) (e : Expr) (steps more : List Step) :
    expandedSteps host limit e (steps ++ more) =
      (expandedSteps host limit e steps >>= fun t => expandedSteps host limit t more) := List.foldlM_append ..

theorem exists_first_failure {host : Host σ} {limit : Nat} {steps : List Step} {e : Expr} {h h' : σ} {halt : Halt}
    (hsteps : expandedSteps host limit e steps h = .error halt h') :
    ∃ done d rest, steps = done ++ d :: rest ∧ (∃ t, (expandedSteps host limit e done).outcome h = .ok t) ∧
      (expandedSteps host limit e (done ++ [d])).outcome h = .error halt := by
  induction steps generalizing e h with
  | nil => exact nomatch hsteps
  | cons d steps ih =>
    rw [expandedSteps_cons] at hsteps
    cases hd : (d.tree e).expanded host limit h with
    | error halt₁ h₁ =>
      cases (bind_of_error hd).symm.trans hsteps
      exact ⟨[], d, steps, rfl, ⟨e, rfl⟩, outcome_eq_error_iff.mpr ⟨_, bind_of_error hd⟩⟩
    | ok t h₁ =>
      obtain ⟨done, d', rest, rfl, ⟨t', hdone⟩, hd'⟩ := ih ((bind_of_ok hd).symm.trans hsteps)
      obtain ⟨h₂, hdone⟩ := outcome_eq_ok_iff.mp hdone
      obtain ⟨h₃, hd'⟩ := outcome_eq_error_iff.mp hd'
      refine ⟨d :: done, d', rest, rfl, ⟨t', outcome_eq_ok_iff.mpr ⟨h₂, ?_⟩⟩, outcome_eq_error_iff.mpr ⟨h₃, ?_⟩⟩
      · exact (congrFun (expandedSteps_cons ..) h).trans ((bind_of_ok hd).trans hdone)
      · exact (congrFun (expandedSteps_cons ..) h).trans ((bind_of_ok hd).trans hd')

theorem expandedSteps_of_prefix {host : Host σ} {limit : Nat} {e t : Expr} {h : σ} {start done : List Step}
    (hpre : start <+: done) (hdone : (expandedSteps host limit e done).outcome h = .ok t) :
    ∃ t', (expandedSteps host limit e start).outcome h = .ok t' := by
  obtain ⟨more, rfl⟩ := hpre
  obtain ⟨h', hdone⟩ := outcome_eq_ok_iff.mp hdone
  rw [expandedSteps_append] at hdone
  obtain ⟨t', h₁, ht', -⟩ := bind_eq_ok_iff.mp hdone
  exact ⟨t', outcome_eq_ok_iff.mpr ⟨h₁, ht'⟩⟩

/-- The composition stops with `halt` at the first step whose tree does not expand: up to there every tree expands and
every step gives a query.  Where no step is left it is the tree of the end that does not expand. -/
def StopsFirst (host : Host σ) (limit root : Nat) (e : Expr) (steps : List Step) (s : Session σ) (halt : Halt) : Prop :=
  ∃ done rest, steps = done ++ rest ∧
    (∀ start, start ≠ [] → start <+: done →
      ∃ t, ((composed e start).expanded host limit).outcome s.hostState = .ok t) ∧
    (∃ q, (stepwise host limit (.plain root e) done).outcome s = .ok q) ∧
    ∀ d ∈ rest.head?,
      ((composed e (done ++ [d])).expanded host limit).outcome s.hostState = .error halt ∧
      (stepwise host limit (.plain root e) (done ++ [d])).outcome s = .error halt

theorem stopsFirst_of_expandedSteps {host : Host σ} {limit : Nat} (root : Nat) {e : Expr} {steps : List Step}
    {done rest : List Step} (hsteps : steps = done ++ rest) {s : Session σ} {halt : Halt}
    (hdone : ∃ t, (expandedSteps host limit e done).outcome s.hostState = .ok t)
    (hnext : ∀ d ∈ rest.head?, (expandedSteps host limit e (done ++ [d])).outcome s.hostState = .error halt) :
    StopsFirst host limit root e steps s halt := by
  have hfollows := fun steps => stepwise_follows host limit root e steps
  refine ⟨done, rest, hsteps, fun start hstart hpre => ?_, ?_, fun d hd => ⟨?_, ?_⟩⟩
  · obtain ⟨t, hdone⟩ := hdone
    rw [expanded_composed_of_ne_nil host limit e hstart]
    exact expandedSteps_of_prefix hpre hdone
  · exact ((hfollows done).exists_outcome_ok_iff rfl).2 hdone
  · rw [expanded_composed_of_ne_nil host limit e (by simp)]
    exact hnext d hd
  · exact ((hfollows _).outcome_error_iff rfl).2 (hnext d hd)

/-- **A wrapped composition is its tree expanded once.**  It has the value, or the error, of the backend on the expanded
composition.  If the composition does not expand, the error is that of the expansion, and it comes up at the first step
whose tree does not expand. -/
theorem stepwise_eq_oneShot (host : Host σ) (b : Backend σ) (limit root : Nat) (e : Expr) (steps : List Step)
    (T : Terminal) (s : Session σ) :
    (stepwise host limit (.plain root e) steps >>= T.run host b).outcome s =
        (oneShot host b limit e steps T).outcome s.hostState ∧
      ∀ halt, ((T.tree (composed e steps)).expanded host limit).outcome s.hostState = .error halt →
        (stepwise host limit (.plain root e) steps >>= T.run host b).outcome s = .error halt ∧
          StopsFirst host limit root e steps s halt := by
  have hrun : (stepwise host limit (.plain root e) steps >>= T.run host b).outcome s =
      (oneShot host b limit e steps T).outcome s.hostState :=
    ((stepwise_run_follows host b limit root e steps T).outcome_eq rfl).symm
  refine ⟨hrun, fun halt hhalt => ⟨?_, ?_⟩⟩
  · obtain ⟨h', hhalt⟩ := outcome_eq_error_iff.mp hhalt
    exact hrun.trans (outcome_eq_error_iff.mpr ⟨h', bind_of_error hhalt⟩)
  -- Either the steps expand and the tree at the end does not, or there is a first step whose tree does not.
  rw [expanded_composed] at hhalt
  obtain ⟨h', hhalt⟩ := outcome_eq_error_iff.mp hhalt
  cases hall : expandedSteps host limit e steps s.hostState with
  | ok t h₁ =>
    exact stopsFirst_of_expandedSteps root (List.append_nil steps).symm ⟨t, outcome_eq_ok_iff.mpr ⟨h₁, hall⟩⟩
      fun _ hd => nomatch hd
  | error halt₁ h₁ =>
    cases (bind_of_error hall).symm.trans hhalt
    obtain ⟨done, d, rest, hsteps, hdone, hd⟩ := exists_first_failure hall
    refine stopsFirst_of_expandedSteps root hsteps hdone fun d' hd' => ?_
    cases hd'
    exact hd

end Query

end Splice
