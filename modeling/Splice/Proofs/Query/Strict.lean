import Splice.Query.Engine
import Splice.Proofs.Tree.Visits
import Splice.Proofs.Evaluation.Watched
/-!
# What a strict engine keeps out

A strict engine refuses trees with marker calls and trees with host calls (`Strict.check_nodes`).  If besides its
captured values hold no such calls, and its rows no lambdas, **an accepted tree contacts nothing when it is executed**
(`Engine.strict_contacts`).

The condition on captured values is needed, for the check does not look into them: whatever lambda a value captured as
the argument of an operator is, the tree is accepted and the lambda runs on every row (`Engine.watch_selectHeld`).
-/
namespace Splice

open Run

namespace Strict

def HostFree (e : Expr) : Prop := ∀ n, Expr.Within n e → ∀ f args, n ≠ .call (.host f) args

theorem count_follows (e : Expr) :
    Follows onValues (· = ·) (Same fun n => n = 0 → e.MarkerFree) (e.fold Marker.countNode)
      (e.fold Marker.countNode) := by
  have hsum : ∀ {cs : List Expr} {as bs : List Nat} {n : Nat},
      Pointwise (fun c => Same fun n => n = 0 → c.MarkerFree) cs as bs → as.foldr (· + ·) n = 0 →
        n = 0 ∧ ∀ c ∈ cs, c.MarkerFree := by
    intro cs as bs n h
    induction h with
    | nil => exact fun h => ⟨h, by simp⟩
    | cons ha _ ih =>
      intro h
      obtain ⟨hn, hcs⟩ := ih (Nat.add_eq_zero_iff.1 h).2
      exact ⟨hn, List.forall_mem_cons.2 ⟨ha.2 (Nat.add_eq_zero_iff.1 h).1, hcs⟩⟩
  refine Expr.fold_follows (P := fun e n => n = 0 → e.MarkerFree) (fun e as has => follows_pure ⟨rfl, fun h => ?_⟩) e
  obtain ⟨hmarker, hcs⟩ := hsum has h
  exact Expr.markerFree_iff.2 ⟨by simpa using hmarker, hcs⟩

theorem checkNode_follows (e : Expr) :
    Follows onValues (· = ·) (Same fun _ => HostFree e) (e.fold checkNode) (e.fold checkNode) := by
  have hall : ∀ {cs : List Expr} {as bs : List Product},
      Pointwise (fun c => Same fun _ => HostFree c) cs as bs → ∀ c ∈ cs, HostFree c := by
    intro cs as bs h
    induction h with
    | nil => simp
    | cons ha _ ih => exact List.forall_mem_cons.2 ⟨ha.2, ih⟩
  refine Expr.fold_follows (P := fun e _ => HostFree e) (fun e as has => ?_) e
  unfold checkNode
  split
  case h_1 => exact follows_fail _
  case h_2 hnot =>
    refine follows_ite (fun _ => follows_pure ⟨rfl, ?_⟩) fun _ => follows_fail _
    exact Expr.all_nodes_iff.2 ⟨hnot, hall has⟩

/-- **A tree that passes the check has no marker call and no host call.** -/
theorem check_nodes {e : Expr} (h : check e = .ok ()) : e.MarkerFree ∧ HostFree e := by
  obtain ⟨markers, hcount, h⟩ := exists_of_bind_eq_ok h
  obtain ⟨_, hcount⟩ := outcome_eq_ok_iff.1 hcount
  obtain ⟨_, _, _, ⟨-, hfree⟩, -⟩ := (count_follows e).of_ok rfl hcount
  split at h
  case isFalse => cases h
  case isTrue hnone =>
    obtain ⟨product, hcheck, -⟩ := exists_of_bind_eq_ok h
    obtain ⟨_, hcheck⟩ := outcome_eq_ok_iff.1 hcheck
    obtain ⟨_, _, _, ⟨-, hhost⟩, -⟩ := (checkNode_follows e).of_ok rfl hcheck
    exact ⟨hfree hnone, hhost⟩

theorem inert_of_check {e : Expr} (h : check e = .ok ())
    (hcaptured : ∀ name v site, Expr.Within (.captured name v site) e → v.Inert) : e.Inert := by
  obtain ⟨hmarker, hhost⟩ := check_nodes h
  -- The check is about the whole tree, but what it says of the nodes passes to the children.
  clear h
  induction e using Expr.children_induction with
  | node e ih =>
    refine .node (hhost e .self) (fun args heq => ?_) (fun name v site heq => ?_) fun c hc => ?_
    · subst heq
      exact Bool.noConfusion (hmarker _ .self)
    · exact hcaptured name v site (heq ▸ .self)
    · exact ih c hc (fun name v site hw => hcaptured name v site (.child hc hw)) (hmarker.child hc)
        fun n hn => hhost n (.child hc hn)

end Strict

/-! ## The engine under observation -/

namespace Engine

variable {σ : Type}

/-- The value of a query, at most `fuel` levels deep, with the contacts noted. -/
def watch (g : Engine σ) (fuel : Nat) (e : Expr) : Run (Watch σ) Value := do
  Run.lift (g.validate e)
  (Env.watchWithin { host := g.host, sources := some g.catalog.rows } fuel e).inside
    (fun w => { hostState := w }) fun _ s => s.hostState

/-- **Watching an engine changes nothing**: the same value or the same error, and the same state of the host program. -/
theorem watch_follows (g : Engine σ) (e : Expr) :
    Follows strictly (fun (w : Watch σ) h => w.hostState = h) (· = ·) (g.watch g.host.fuel e) (g.execute e) := by
  unfold watch execute
  refine follows_bind (Q := fun _ _ => True) ?_ fun _ _ _ => ?_
  · cases g.validate e with
    | ok _ => exact follows_pure trivial
    | error halt => exact follows_throw halt
  · exact follows_inside (fun _ _ h => ⟨rfl, rfl, h⟩) (fun _ _ _ _ _ h => h.2.2)
      ((Env.watchWithin_follows _ g.host.fuel e []).weaken fun _ _ h => h.1)

theorem validate_of_strict {g : Engine σ} (hstrict : g.strict = true) (e : Expr) : g.validate e = Strict.check e :=
  if_pos hstrict

theorem rows_inert {g : Engine σ} (hrows : ∀ entry ∈ g.catalog.sources, ∀ row ∈ entry.2, row.lambdaFree = true)
    {name : String} {v : Value} (h : g.catalog.rows name = .ok v) : v.Inert := by
  unfold Catalog.rows at h
  split at h
  case h_2 => cases h
  case h_1 rows hget =>
    cases h
    refine .list fun row hrow => Value.inert_of_lambdaFree ?_
    exact hrows _ (Fields.mem_of_get? hget) row hrow

theorem watch_of_validate {g : Engine σ} (hstrict : g.strict = true)
    (hrows : ∀ entry ∈ g.catalog.sources, ∀ row ∈ entry.2, row.lambdaFree = true) {e : Expr}
    (hvalid : g.validate e = .ok ())
    (hcaptured : ∀ name v site, Expr.Within (.captured name v site) e → v.Inert) (fuel : Nat) (h : σ) :
    (g.watch fuel e).final ⟨h, []⟩ = ⟨h, []⟩ := by
  have he : e.Inert := Strict.inert_of_check ((validate_of_strict hstrict e).symm.trans hvalid) hcaptured
  have hsource : ∀ name v, Env.source { host := g.host, sources := some g.catalog.rows } name = .ok v → v.Inert :=
    fun _ _ => rows_inert hrows
  have hwatch := Env.watchWithin_inert hsource h fuel he (s := []) (by simp [Scope.Holds])
  unfold watch
  rw [hvalid]
  refine (final_inside _ _ _ _).trans ?_
  exact (hwatch.final (s := ⟨[], ⟨h, []⟩⟩) (t := ⟨[], h⟩) ⟨rfl, rfl, rfl, rfl⟩).2.2.1

/-! ## What the check does not see -/

/-- A source under a selection by a captured lambda. -/
def selectHeld (source name : String) (f : Lambda) (site : Site) : Expr :=
  .call (.operator .select) [.source source, .captured name (.ofLambda f) site]

theorem validate_selectHeld (g : Engine σ) (source name : String) (f : Lambda) (site : Site) :
    g.validate (selectHeld source name f site) = .ok () := by
  unfold validate Strict.check Marker.count Expr.fold
  rw [Visitor.loop_eq_visit, Visitor.loop_eq_visit]
  split <;> rfl

theorem watch_selectHeld {g : Engine σ} {source : String} {rows : List Value}
    (hrows : g.catalog.rows source = .ok (.list rows)) (name : String) (f : Lambda) (site : Site) (fuel : Nat) :
    let env : Env σ := { host := g.host, sources := some g.catalog.rows }
    g.watch (fuel + 2) (selectHeld source name f site) =
      (Value.list <$> Operators.mapRows (env.watchWithin (fuel + 1)) f rows : Eval (Watch σ) Value).inside
        (fun w => { hostState := w }) fun _ s => s.hostState := by
  intro env
  have hreceiver : env.watchWithin (fuel + 1) (.source source) = pure (.list rows) := by
    show Run.attempt (g.catalog.rows source) = _
    rw [hrows]
    rfl
  have hselect : env.watchWithin (fuel + 2) (selectHeld source name f site) =
      Value.list <$> Operators.mapRows (env.watchWithin (fuel + 1)) f rows := by
    show (do
      let g ← Operators.lambdaArgument (env.watchWithin (fuel + 1)) .select [.captured name (.ofLambda f) site]
      let v ← env.watchWithin (fuel + 1) (.source source)
      Operators.onReceiver (env.watchWithin (fuel + 1)) .select g v) = _
    rw [hreceiver]
    rfl
  unfold watch
  rw [validate_selectHeld, hselect]
  rfl

/-- **What a strict engine lets through.**  An accepted tree contacts nothing, as far as its captured values are inert:
no host function is called and no marker call is reached, however the execution goes on and ends.  Of captured lambdas
nothing is asked: every one of them is accepted after a receiver, and what it contacts on the rows is contacted. -/
theorem strict_contacts {g : Engine σ} (hstrict : g.strict = true)
    (hrows : ∀ entry ∈ g.catalog.sources, ∀ row ∈ entry.2, row.lambdaFree = true) :
    (∀ e, g.validate e = .ok () → (∀ name v site, Expr.Within (.captured name v site) e → v.Inert) →
      ∀ fuel h, (g.watch fuel e).final ⟨h, []⟩ = ⟨h, []⟩) ∧
    ∀ source rows, g.catalog.rows source = .ok (.list rows) → ∀ name f site,
      g.validate (selectHeld source name f site) = .ok () ∧
      ∀ fuel, g.watch (fuel + 2) (selectHeld source name f site) =
        (Value.list <$> Operators.mapRows (Env.watchWithin ⟨g.host, some g.catalog.rows⟩ (fuel + 1)) f rows :
          Eval (Watch σ) Value).inside (fun w => { hostState := w }) fun _ s => s.hostState :=
  ⟨fun _ hvalid hcaptured fuel h => watch_of_validate hstrict hrows hvalid hcaptured fuel h,
    fun source _ hsource name f site =>
      ⟨validate_selectHeld g source name f site, fun fuel => watch_selectHeld hsource name f site fuel⟩⟩

/-- An engine with one source of one row, over a host program with one function, which gives its argument back. -/
def oneRow : Engine Unit where
  host := { call := fun _ args => pure (args.headD .null) }
  catalog := ⟨[("s", [.int 1])]⟩

def addOne : Lambda :=
  ⟨[⟨⟨0, 0⟩, "x", .any⟩], .binary .add (.param ⟨⟨0, 0⟩, "x", .any⟩) (.literal (.int 1) ⟨0⟩)⟩

theorem inert_addOne : (Value.ofLambda addOne).Inert := by
  refine .lambda (.node (by simp [addOne]) (by simp [addOne]) (by simp [addOne]) fun c hc => ?_)
  simp only [addOne, Expr.children, List.mem_cons, List.not_mem_nil, or_false] at hc
  rcases hc with rfl | rfl
  · exact .node (by simp) (by simp) (by simp) (by simp [Expr.children])
  · exact .node (by simp) (by simp) (by simp) (by simp [Expr.children])

def callHost : Lambda :=
  ⟨[⟨⟨0, 0⟩, "x", .any⟩], .call (.host ⟨0, "h"⟩) [.param ⟨⟨0, 0⟩, "x", .any⟩]⟩

theorem oneRow_lambdaFree : ∀ entry ∈ oneRow.catalog.sources, ∀ row ∈ entry.2, row.lambdaFree = true := by
  simp [oneRow, Value.lambdaFree]

theorem captured_selectHeld {source name name' : String} {f : Lambda} {site site' : Site} {v : Value}
    (h : Expr.Within (.captured name' v site') (selectHeld source name f site)) : v = .ofLambda f := by
  cases h with
  | child hc h =>
    simp only [selectHeld, Expr.children, List.mem_cons, List.not_mem_nil, or_false] at hc
    rcases hc with rfl | rfl
    · cases h with
      | child hc => cases hc
    · cases h with
      | self => rfl
      | child hc => cases hc

theorem strict_contacts_addOne :
    (∀ entry ∈ oneRow.catalog.sources, ∀ row ∈ entry.2, row.lambdaFree = true) ∧
      oneRow.validate (selectHeld "s" "f" addOne ⟨1⟩) = .ok () ∧
      (oneRow.watch 5 (selectHeld "s" "f" addOne ⟨1⟩)).final ⟨(), []⟩ = ⟨(), []⟩ :=
  have hvalid : oneRow.validate (selectHeld "s" "f" addOne ⟨1⟩) = .ok () :=
    validate_selectHeld oneRow "s" "f" addOne ⟨1⟩
  ⟨oneRow_lambdaFree, hvalid, (strict_contacts (g := oneRow) rfl oneRow_lambdaFree).1 _ hvalid
    (fun _ _ _ h => captured_selectHeld h ▸ inert_addOne) 5 ()⟩

/-- An accepted tree whose execution calls a host function. -/
theorem strict_contacts_callHost :
    oneRow.strict = true ∧ (∀ entry ∈ oneRow.catalog.sources, ∀ row ∈ entry.2, row.lambdaFree = true) ∧
      oneRow.validate (selectHeld "s" "f" callHost ⟨1⟩) = .ok () ∧
      (oneRow.watch 5 (selectHeld "s" "f" callHost ⟨1⟩)).final ⟨(), []⟩ = ⟨(), [.host ⟨0, "h"⟩ [.int 1]]⟩ := by
  refine ⟨rfl, oneRow_lambdaFree, validate_selectHeld oneRow "s" "f" callHost ⟨1⟩, ?_⟩
  unfold watch
  rw [validate_selectHeld]
  rfl

end Engine

end Splice
