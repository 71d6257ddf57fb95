import Splice.Proofs.Evaluation.FirstOrder
import Splice.Proofs.Evaluation.Stopping
/-!
# First-order evaluations end

Evaluation is no recursion on the tree: an operator applies lambdas that are values, to every row again.  In a
first-order tree the only lambdas that are applied are those that are written there, so the recursion goes from a node
to a node below it, whatever the rows are, and **its depth is at most the height of the tree**
(`Env.endsWithin_height`).

The proof compares evaluation with one that is cut off: below a given depth everything is null.  That one always ends,
and no evaluation of a first-order tree comes to the place where it is cut off.

**One lambda among the data is enough for an evaluation without end** (`Endless.diverges_applySelf`).  Scope is dynamic:
a lambda that is bound to a parameter is found again by its own body, whatever it is applied to.
-/
namespace Splice

open Run

variable {σ : Type} {s : Scope}

/-! ## The height of a tree -/

namespace Expr

mutual
/-- The number of nodes on the longest way down; a leaf has height one. -/
def height : Expr → Nat
  | .literal .. | .captured .. | .source _ | .param _ => 1
  | .member base _ => base.height + 1
  | .call _ args => heightAll args + 1
  | .lambda _ body => body.height + 1
  | .unary _ operand => operand.height + 1
  | .binary _ left right => max left.height right.height + 1
  | .compare _ left right => max left.height right.height + 1
  | .cond test yes no => max test.height (max yes.height no.height) + 1
  | .record _ fields => heightFields fields + 1
termination_by structural e => e
def heightAll : List Expr → Nat
  | [] => 0
  | e :: es => max e.height (heightAll es)
termination_by structural es => es
def heightFields : List (String × Expr) → Nat
  | [] => 0
  | (_, e) :: es => max e.height (heightFields es)
termination_by structural es => es
end

theorem heightFields_eq (fields : List (String × Expr)) : heightFields fields = heightAll (fields.map Prod.snd) := by
  induction fields with
  | nil => rfl
  | cons field fields ih => simp [heightFields, heightAll, ih]

/-- **A node is one higher than the highest of its children.** -/
theorem height_eq (e : Expr) : e.height = heightAll e.children + 1 := by
  cases e <;> simp [height, children, heightAll, heightFields_eq]

theorem height_le_heightAll {c : Expr} : ∀ {es : List Expr}, c ∈ es → c.height ≤ heightAll es
  | e :: es, h => by
    rcases List.mem_cons.1 h with rfl | h
    · exact Nat.le_max_left _ _
    · exact Nat.le_trans (height_le_heightAll h) (Nat.le_max_right _ _)

theorem height_lt_of_mem_children {c e : Expr} (h : c ∈ e.children) : c.height < e.height := by
  rw [e.height_eq]
  exact Nat.lt_succ_of_le (height_le_heightAll h)

end Expr

/-! ## Evaluation cut off -/

/-- Evaluate a tree in the scope, and take null for everything that lies more than `depth` levels down. -/
def Env.truncatedWithin (env : Env σ) : (depth : Nat) → Expr → Eval σ Value
  | 0, _ => pure .null
  | depth + 1, e =>
    Evaluation.step env (Evaluation.unexpanded (env.truncatedWithin depth)) (env.truncatedWithin depth) e

/-- **An evaluation that is cut off always ends**, with a value or with an error. -/
theorem Env.truncatedWithin_stopsOnly (env : Env σ) (depth : Nat) (e : Expr) :
    StopsOnly IsError (env.truncatedWithin depth e) := by
  have herror : ∀ cause, IsError (.error cause) := fun cause => ⟨cause, rfl⟩
  induction depth generalizing e with
  | zero => exact stopsOnly_pure _
  | succ depth ih =>
    exact Evaluation.step_stopsOnly herror ih env (fun args => Evaluation.unexpanded_stopsOnly herror ih args) e

/-- **No evaluation of a first-order tree goes deeper than the tree is high.** -/
theorem Env.evaluateWithin_truncated {env : Env σ} (n : Nat) {e : Expr} (he : e.FirstOrderThroughout)
    (hfeeds : env.Feeds e) (hs : s.Holds Value.Plain) (hn : e.height ≤ n) {m : Nat} (hm : e.height ≤ m) :
    Follows strictly (At (· = ·) s s) (Same Value.Plain) (env.evaluateWithin n e) (env.truncatedWithin m e) := by
  -- On the levels of the evaluation; the rows that a lambda is applied to enlarge the scope, never the tree.
  induction n generalizing e s m with
  | zero => exact absurd hn (by rw [e.height_eq]; omega)
  | succ n ih =>
    obtain ⟨m, rfl⟩ : ∃ k, m = k + 1 := ⟨m - 1, by have := e.height_eq; omega⟩
    refine Evaluation.step_throughout he hfeeds (Expr.rebuilds_children e) hs (fun _ _ => rfl) fun p hp => ?_
    obtain ⟨c, c'⟩ := p
    obtain ⟨rfl, hchild⟩ := Evaluation.mem_zip_self hp
    have hoperand := he.child hchild
    have hlt := Expr.height_lt_of_mem_children hchild
    rcases c.lambda_or_not with ⟨params, body, rfl⟩ | hnot
    · have hbody : body ∈ (Expr.lambda params body).children := List.mem_cons_self
      have := Expr.height_lt_of_mem_children hbody
      refine .lambda fun row hrow _ => ?_
      exact ih (e := body) hoperand ((hfeeds.child hchild).child hbody) (hs.push params (by simpa using hrow))
        (by omega) (by omega)
    · rw [Expr.underLambda_eq hnot] at hoperand
      exact .other hnot ⟨hnot, ih hoperand (hfeeds.child hchild) hs (by omega) (by omega)⟩

/-! ## Where an evaluation ends -/

/-- How deep the recursion may go makes no difference from this depth on: there is a value without lambdas, or an
error. -/
def Env.EndsWithin (env : Env σ) (depth : Nat) (e : Expr) (s : EvalState σ) : Prop :=
  (∃ v, v.Plain ∧ ∀ n, depth ≤ n → (env.evaluateWithin n e).outcome s = .ok v) ∨
    ∃ cause, ∀ n, depth ≤ n → (env.evaluateWithin n e).outcome s = .error (.error cause)

/-- However deep the recursion may go, it is not deep enough. -/
def Env.Diverges (env : Env σ) (e : Expr) (s : EvalState σ) : Prop :=
  ∀ n, (env.evaluateWithin n e).outcome s = .error .outOfFuel

/-- **A first-order tree has one result**, a value without lambdas or an error, and it has it at every depth from the
height of the tree on. -/
theorem Env.exists_result_height {env : Env σ} {e : Expr} (he : e.FirstOrderThroughout) (hfeeds : env.Feeds e)
    (hs : s.Holds Value.Plain) (h : σ) :
    ∃ r h', (∀ v, r = .ok v → v.Plain) ∧
      ∀ n, e.height ≤ n → env.evaluateWithin n e ⟨s, h⟩ = Run.attempt r ⟨s, h'⟩ := by
  have hfollows : ∀ n, e.height ≤ n →
      Follows strictly (At (· = ·) s s) (Same Value.Plain) (env.evaluateWithin n e) (env.truncatedWithin e.height e) :=
    fun n hn => evaluateWithin_truncated n he hfeeds hs hn (Nat.le_refl _)
  -- What is cut off at the height of the tree is the same at every depth, so it settles the result of all of them.
  have hsettled : ∀ (r : Except Error Value) (k : σ), env.truncatedWithin e.height e ⟨s, h⟩ = Run.attempt r ⟨s, k⟩ →
      ∀ n, e.height ≤ n → env.evaluateWithin n e ⟨s, h⟩ = Run.attempt r ⟨s, k⟩ := by
    intro r k hcut n hn
    cases hn' : env.evaluateWithin n e ⟨s, h⟩ with
    | ok v st =>
      obtain ⟨-, _, rfl, hcut'⟩ := (hfollows n hn).at_ok hn'
      exact hcut'.symm.trans hcut
    | error halt st =>
      obtain ⟨_, rfl, hcut'⟩ := (hfollows n hn).at_error id hn'
      exact hcut'.symm.trans hcut
  cases hfirst : env.evaluateWithin e.height e ⟨s, h⟩ with
  | ok v st =>
    obtain ⟨hv, k, rfl, hcut⟩ := (hfollows e.height (Nat.le_refl _)).at_ok hfirst
    exact ⟨.ok v, k, fun _ heq => Except.ok.inj heq ▸ hv, hsettled (.ok v) k hcut⟩
  | error halt st =>
    obtain ⟨k, rfl, hcut⟩ := (hfollows e.height (Nat.le_refl _)).at_error id hfirst
    obtain ⟨cause, rfl⟩ := env.truncatedWithin_stopsOnly e.height e _ _ _ hcut
    exact ⟨.error cause, k, (fun _ heq => nomatch heq), hsettled (.error cause) k hcut⟩

/-- **The evaluation of a first-order tree ends within the height of the tree.** -/
theorem Env.endsWithin_height {env : Env σ} {e : Expr} (he : e.FirstOrderThroughout) (hfeeds : env.Feeds e)
    (hs : s.Holds Value.Plain) (h : σ) : env.EndsWithin e.height e ⟨s, h⟩ := by
  obtain ⟨r, h', hplain, hresult⟩ := exists_result_height he hfeeds hs h
  cases r with
  | ok v => exact .inl ⟨v, hplain v rfl, fun n hn => outcome_eq_ok_iff.2 ⟨_, hresult n hn⟩⟩
  | error cause => exact .inr ⟨cause, fun n hn => outcome_eq_error_iff.2 ⟨_, hresult n hn⟩⟩

/-! ## One lambda is enough -/

namespace Endless

/-- The computation leaves the state alone and has this value, if it is let go deep enough. -/
def Yields {α : Type} (x : Eval σ α) (s : EvalState σ) (a : α) : Prop :=
  x s = .ok a s ∨ x.outcome s = .error .outOfFuel

theorem yields_of_succ {env : Env σ} {e : Expr} {s : EvalState σ} {v : Value}
    (h : ∀ n, env.evaluateWithin (n + 1) e s = .ok v s) : ∀ n, Yields (env.evaluateWithin n e) s v
  | 0 => .inr rfl
  | n + 1 => .inl (h n)

theorem evaluateWithin_select (env : Env σ) (n : Nat) (fs arg : Expr) :
    env.evaluateWithin (n + 1) (.call (.operator .select) [fs, arg]) =
      (Operators.lambdaAt (env.evaluateWithin n) arg >>= fun f => env.evaluateWithin n fs >>= fun v =>
        Operators.rowsOf .select v >>= fun rows => Value.list <$> Operators.mapRows (env.evaluateWithin n) f rows) := by
  show (some <$> Operators.lambdaAt (env.evaluateWithin n) arg >>= fun f => env.evaluateWithin n fs >>= fun v =>
    Operators.onReceiver (env.evaluateWithin n) .select f v) = _
  rw [bind_map_left]
  rfl

/-- **A selection comes to no end if its lambda comes to none on the first row.** -/
theorem select_outOfFuel {env : Env σ} {n : Nat} {fs arg : Expr} {s : EvalState σ} {f : Lambda} {row : Value}
    {rows : List Value} (harg : Yields (Operators.lambdaAt (env.evaluateWithin n) arg) s f)
    (hfs : Yields (env.evaluateWithin n fs) s (.list (row :: rows))) (harity : f.arity = 1)
    (hbody : (env.evaluateWithin n f.body).outcome { s with scope := s.scope.push f.params [row] } =
      .error .outOfFuel) :
    (env.evaluateWithin (n + 1) (.call (.operator .select) [fs, arg])).outcome s = .error .outOfFuel := by
  have hrow : (Operators.onRow (env.evaluateWithin n) f row).outcome s = .error .outOfFuel := by
    have happly : Operators.onRow (env.evaluateWithin n) f row =
        Eval.within f.params [row] (env.evaluateWithin n f.body) := if_pos harity
    rw [happly]
    exact (outcome_inside _ _ _ _).trans hbody
  rw [evaluateWithin_select]
  rcases harg with harg | harg
  case inr => exact outcome_bind_of_error harg
  rw [outcome_bind_of_ok harg]
  rcases hfs with hfs | hfs
  case inr => exact outcome_bind_of_error hfs
  rw [outcome_bind_of_ok hfs]
  show (Value.list <$> Operators.mapRows (env.evaluateWithin n) f (row :: rows)).outcome s = _
  rw [← bind_pure_comp]
  exact outcome_bind_of_error (outcome_bind_of_error hrow)

def self : Param := ⟨⟨0, 0⟩, "f", .any⟩

def ignored : Param := ⟨⟨0, 1⟩, "x", .any⟩

def once : Expr := .captured "once" (.list [.null]) ⟨0⟩

/-- Apply whatever `self` is bound to, once. -/
def applySelf : Expr := .call (.operator .select) [once, .param self]

/-- A lambda that looks itself up in the scope in which it is applied. -/
def loop : Value := .lambda [ignored] applySelf

/-- Apply each of the lambdas with itself in scope. -/
def applyEach (fs : Expr) : Expr := .call (.operator .select) [fs, .lambda [self] applySelf]

/-- The list of one lambda that is made while the tree is evaluated. -/
def makeLoop : Expr := .call (.operator .select) [once, .lambda [ignored] (.lambda [ignored] applySelf)]

theorem yields_self (env : Env σ) {s : EvalState σ} (hself : s.scope.get? self.id = some loop) (n : Nat) :
    Yields (Operators.lambdaAt (env.evaluateWithin n) (.param self)) s ⟨[ignored], applySelf⟩ := by
  cases n with
  | zero => exact .inr rfl
  | succ n =>
    have hvalue : env.evaluateWithin (n + 1) (.param self) s = .ok loop s := Eval.lookup_of_get? hself
    exact .inl (bind_of_ok hvalue)

theorem diverges_applySelf (env : Env σ) {s : EvalState σ} (hself : s.scope.get? self.id = some loop) :
    env.Diverges applySelf s := by
  intro n
  induction n generalizing s with
  | zero => rfl
  | succ n ih =>
    -- Below the application of `self` the scope is larger, and `self` is bound to the same lambda.
    exact select_outOfFuel (yields_self env hself n) (yields_of_succ (fun _ => rfl) n) rfl (ih hself)

theorem diverges_applyEach {env : Env σ} {fs : Expr} {s : EvalState σ}
    (hfs : ∀ n, Yields (env.evaluateWithin n fs) s (.list [loop])) : env.Diverges (applyEach fs) s
  | 0 => rfl
  | n + 1 => select_outOfFuel (.inl rfl) (hfs n) rfl (diverges_applySelf env rfl n)

theorem yields_makeLoop (env : Env σ) (s : EvalState σ) :
    ∀ n, Yields (env.evaluateWithin n makeLoop) s (.list [loop])
  | 0 | 1 => .inr rfl
  | n + 2 => by
    show EStateM.Result.ok (Value.list [loop]) { s with scope := (s.scope.push [ignored] [.null]).cut s.scope.length } =
      _ ∨ _
    rw [Scope.cut_push]
    exact .inl rfl

end Endless

end Splice
