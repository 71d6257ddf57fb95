import Splice.Proofs.Operators.Rows
import Splice.Proofs.Evaluation.Substituted
/-!
# Operators behind `where` and `select`

Every operator that takes a lambda has a loop of its own.  **The loops agree**: an operator with a lambda comes to what
it comes to without one, behind the `where` or `select` of the same lambda (`Env.operators_factor`).  A count and an
aggregate do so step for step, in errors as in values.  `any` does not look at the rows after its answer, so it may have
one where `where` fails.

A `where` of a `where` asks all rows the first question before it asks the second one; one `where` of both questions
asks row by row, so the functions of the host program are called in another order.  The two keep the same rows if rows
may be asked the questions in either order (`EitherOrder`), as where the host program leaves no traces.  With a counter
behind the questions they keep different rows (`Env.filter_filter_depends_on_order`).
-/
namespace Splice

open Run

variable {σ : Type}

/-- What an operator on rows takes as its receiver. -/
inductive Value.IsRows : Value → Prop
  | null : IsRows .null
  | list (rows : List Value) : IsRows (.list rows)

namespace Operators

variable {ev : Expr → Eval σ Value} {f : Lambda} {rows kept : List Value} {s s' : EvalState σ}

/-! ## Loops over the same rows -/

/-- **Counting is keeping.** -/
theorem countRows_eq (ev : Expr → Eval σ Value) (f : Lambda) (rows : List Value) :
    countRows ev f rows = List.length <$> keepRows ev f rows := by
  induction rows with
  | nil => rfl
  | cons row rows ih =>
    simp only [countRows, keepRows, ih, map_bind, bind_map_left, map_pure]
    refine bind_congr fun keep => bind_congr fun rest => ?_
    cases keep <;> rfl

theorem anyRow_of_keepRows (h : keepRows ev f rows s = .ok kept s') :
    ∃ t, anyRow ev f rows s = .ok (!kept.isEmpty) t := by
  induction rows generalizing s kept with
  | nil =>
    cases h
    exact ⟨_, rfl⟩
  | cons row rows ih =>
    obtain ⟨keep, t, hkeep, h⟩ := bind_eq_ok_iff.1 h
    obtain ⟨rest, t', hrest, h⟩ := bind_eq_ok_iff.1 h
    cases h
    cases keep with
    | true => exact ⟨t, bind_of_ok hkeep⟩
    | false =>
      obtain ⟨t, hany⟩ := ih hrest
      exact ⟨t, (bind_of_ok hkeep).trans hany⟩

/-- The lambda is false or null on each of the rows. -/
inductive Rejects (ev : Expr → Eval σ Value) (f : Lambda) : List Value → EvalState σ → EvalState σ → Prop
  | nil (s : EvalState σ) : Rejects ev f [] s s
  | cons {row v : Value} {rows : List Value} {s t s' : EvalState σ} : onRow ev f row s = .ok v t →
      v = .bool false ∨ v = .null → Rejects ev f rows t s' → Rejects ev f (row :: rows) s s'

theorem condition_eq_ok_iff {v : Value} {b : Bool} :
    Scalar.condition v = .ok b ↔ v = .bool b ∨ v = .null ∧ b = false := by
  cases v <;> simp [Scalar.condition, eq_comm]

theorem holds_eq_ok_iff {row : Value} {b : Bool} :
    holds ev f row s = .ok b s' ↔ ∃ v, onRow ev f row s = .ok v s' ∧ (v = .bool b ∨ v = .null ∧ b = false) := by
  unfold holds
  simp only [bind_eq_ok_iff, attempt_eq_ok_iff, condition_eq_ok_iff]
  constructor
  · rintro ⟨v, t, hrow, hv, rfl⟩
    exact ⟨v, hrow, hv⟩
  · rintro ⟨v, hrow, hv⟩
    exact ⟨v, s', hrow, hv, rfl⟩

/-- **`any` is true at the first row that the predicate holds of.** -/
theorem anyRow_eq_true_iff : anyRow ev f rows s = .ok true s' ↔
    ∃ before row after t, rows = before ++ row :: after ∧ Rejects ev f before s t ∧
      onRow ev f row t = .ok (.bool true) s' := by
  constructor
  · intro h
    induction rows generalizing s with
    | nil => cases h
    | cons row rows ih =>
      obtain ⟨b, t, hrow, h⟩ := bind_eq_ok_iff.1 h
      obtain ⟨v, hv, hb⟩ := holds_eq_ok_iff.1 hrow
      cases b with
      | true =>
        cases h
        obtain rfl : v = .bool true := hb.resolve_right nofun
        exact ⟨[], row, rows, s, rfl, .nil s, hv⟩
      | false =>
        obtain ⟨before, row', after, t', rfl, hbefore, hrow'⟩ := ih h
        exact ⟨row :: before, row', after, t', rfl, .cons hv (hb.imp_right And.left) hbefore, hrow'⟩
  · rintro ⟨before, row, after, t, rfl, hbefore, hrow⟩
    induction hbefore with
    | nil t => exact bind_of_ok (holds_eq_ok_iff.2 ⟨_, hrow, .inl rfl⟩)
    | cons hv hfalse _ ih =>
      exact (bind_of_ok (holds_eq_ok_iff.2 ⟨_, hv, hfalse.imp_right (⟨·, rfl⟩)⟩)).trans (ih hrow)

variable {r p : Expr} {op : QueryOp}

theorem call_filter_eq_ok_iff {v : Value} : call ev .filter [r, p] s = .ok v s' ↔
    ∃ f rows t, Receives ev r p s f rows t ∧ ∃ kept, keepRows ev f rows t = .ok kept s' ∧ Value.list kept = v :=
  call_loop_eq_ok_iff (by decide) fun _ _ => rfl

theorem call_any_eq_ok_iff {v : Value} : call ev .any [r, p] s = .ok v s' ↔
    ∃ f rows t, Receives ev r p s f rows t ∧ ∃ found, anyRow ev f rows t = .ok found s' ∧ Value.bool found = v :=
  call_loop_eq_ok_iff (by decide) fun _ _ => rfl

/-! ## One loop after another -/

/-- The loop of `outer` with a lambda is the loop of `inner`, and then `outer` without a lambda. -/
theorem call_factor {inner outer : QueryOp} {ev' : Expr → Eval σ Value}
    (hloops : ∀ f v, v.IsRows →
      onReceiver ev outer (some f) v = (do onReceiver ev' outer none (← onReceiver ev inner (some f) v)))
    (hr : ∀ f t, lambdaAt ev p s = .ok f t → ∀ v t', ev r t = .ok v t' → v.IsRows) :
    call ev outer [r, p] s = (do onReceiver ev' outer none (← call ev inner [r, p])) s := by
  simp only [call_eq, bind_assoc]
  cases hf : lambdaAt ev p s with
  | error halt t => rw [bind_of_error hf, bind_of_error hf]
  | ok f t =>
    rw [bind_of_ok hf, bind_of_ok hf]
    cases hv : ev r t with
    | error halt t' => rw [bind_of_error hv, bind_of_error hv]
    | ok v t' => rw [bind_of_ok hv, bind_of_ok hv, hloops f v (hr f t hf v t' hv)]

theorem onReceiver_count_filter {ev' : Expr → Eval σ Value} (f : Lambda) {v : Value} (hv : v.IsRows) :
    onReceiver ev .count (some f) v = (do onReceiver ev' .count none (← onReceiver ev .filter (some f) v)) := by
  have hrows : ∀ rows, (countValue <$> countRows ev f rows : Eval σ Value) =
      (do onReceiver ev' .count none (← Value.list <$> keepRows ev f rows)) := by
    intro rows
    rw [countRows_eq, Functor.map_map, bind_map_left, ← bind_pure_comp]
    rfl
  cases hv with
  | null => exact hrows []
  | list rows => exact hrows rows

theorem onReceiver_aggregate_select {ev' : Expr → Eval σ Value} {total : List Value → Except Error Value}
    (hop : Aggregate.of? op = some total) (f : Lambda) {v : Value} (hv : v.IsRows) :
    onReceiver ev op (some f) v = (do onReceiver ev' op none (← onReceiver ev .select (some f) v)) := by
  have hrows : ∀ rows, (do Run.attempt (total (← selectedRows ev (some f) rows)) : Eval σ Value) =
      (do onReceiver ev' op none (← Value.list <$> mapRows ev f rows)) := by
    intro rows
    simp only [onReceiver_of_aggregate hop, bind_map_left, selectedRows, valuesOf, rowsOf, bind_assoc, pure_bind]
  rw [onReceiver_of_aggregate hop]
  cases hv with
  | null => exact hrows []
  | list rows => exact hrows rows

/-! ## One question after another -/

/-- Of the rows, those are kept whose answer is true.  An answer may change the state of the host program, which is `h`
before the first row and `h'` after the last one. -/
inductive Kept (answer : Value → σ → Bool → σ → Prop) : List Value → σ → List Value → σ → Prop
  | nil (h : σ) : Kept answer [] h [] h
  | cons {row : Value} {rows kept : List Value} {b : Bool} {h k h' : σ} : answer row h b k → Kept answer rows k kept h' →
      Kept answer (row :: rows) h (if b then row :: kept else kept) h'

/-- The answer to two questions: the second one is asked where the first one is true. -/
def Both (first second : Value → σ → Bool → σ → Prop) (row : Value) (h : σ) (b : Bool) (h' : σ) : Prop :=
  (∃ k, first row h true k ∧ second row k b h') ∨ first row h false h' ∧ b = false

/-- A row that is asked the first question and a row that is asked the second one give the same answers in either order,
and leave the host program in the same state. -/
def EitherOrder (first second : Value → σ → Bool → σ → Prop) : Prop :=
  ∀ row row' b b' h h', (∃ k, first row h b k ∧ second row' k b' h') ↔ ∃ k, second row' h b' k ∧ first row k b h'

section

variable {first second : Value → σ → Bool → σ → Prop} (horder : EitherOrder first second) {h h' : σ}
include horder

/-- **A question that may be asked before or after another one may be asked before or after all rows were asked it.** -/
theorem Kept.eitherOrder {row : Value} {b : Bool} : (∃ k, Kept first rows h kept k ∧ second row k b h') ↔
    ∃ k, second row h b k ∧ Kept first rows k kept h' := by
  constructor
  · rintro ⟨k, hfirst, hsecond⟩
    induction hfirst with
    | nil h => exact ⟨h', hsecond, .nil h'⟩
    | cons hrow _ ih =>
      obtain ⟨k, hsecond, hrest⟩ := ih hsecond
      obtain ⟨k', hsecond, hrow⟩ := (horder _ _ _ _ _ _).1 ⟨_, hrow, hsecond⟩
      exact ⟨k', hsecond, .cons hrow hrest⟩
  · rintro ⟨k, hsecond, hfirst⟩
    induction hfirst generalizing h with
    | nil k => exact ⟨h, .nil h, hsecond⟩
    | cons hrow _ ih =>
      obtain ⟨k, hrow, hsecond⟩ := (horder _ _ _ _ _ _).2 ⟨_, hsecond, hrow⟩
      obtain ⟨k', hrest, hsecond⟩ := ih hsecond
      exact ⟨k', .cons hrow hrest, hsecond⟩

/-- **Rows that are kept twice are those that are kept for both reasons.** -/
theorem kept_both_iff : Kept (Both first second) rows h kept h' ↔
    ∃ mid k, Kept first rows h mid k ∧ Kept second mid k kept h' := by
  constructor
  · intro hboth
    induction hboth with
    | nil h => exact ⟨[], h, .nil h, .nil h⟩
    | cons hrow _ ih =>
      obtain ⟨mid, k, hfirst, hsecond⟩ := ih
      obtain ⟨k', hrow, hrow'⟩ | ⟨hrow, rfl⟩ := hrow
      -- The second question comes before the other rows are asked the first one; it may as well come after them.
      · obtain ⟨k'', hfirst, hrow'⟩ := (Kept.eitherOrder horder).2 ⟨_, hrow', hfirst⟩
        exact ⟨_, k'', .cons hrow hfirst, .cons hrow' hsecond⟩
      · exact ⟨_, k, .cons hrow hfirst, hsecond⟩
  · rintro ⟨mid, k, hfirst, hsecond⟩
    induction rows generalizing h mid k kept with
    | nil =>
      cases hfirst
      cases hsecond
      exact .nil _
    | cons row rows ih =>
      cases hfirst with
      | @cons _ _ mid b _ _ _ hrow hfirst =>
        cases b with
        | true =>
          cases hsecond with
          | cons hrow' hsecond =>
            obtain ⟨k', hrow', hfirst⟩ := (Kept.eitherOrder horder).1 ⟨_, hfirst, hrow'⟩
            exact .cons (.inl ⟨_, hrow, hrow'⟩) (ih _ _ hfirst hsecond)
        | false => exact .cons (.inr ⟨hrow, rfl⟩) (ih _ _ hfirst hsecond)

end

end Operators

/-! ## The conjunction of two questions -/

theorem Eval.within_bind {α β : Type} {x : Eval σ α} (g : α → Eval σ β) (params : List Param) (args : List Value)
    (hx : ∀ s, (x.final s).scope = s.scope) :
    Eval.within params args (x >>= g) = (do Eval.within params args (g (← Eval.within params args x))) := by
  funext ⟨scope, h⟩
  have hscope := hx ⟨scope.push params args, h⟩
  unfold Run.final at hscope
  cases hstep : x ⟨scope.push params args, h⟩ with
  | error halt t =>
    have hwithin : Eval.within params args x ⟨scope, h⟩ = .error halt ⟨t.scope.cut scope.length, t.hostState⟩ :=
      inside_eq_error_iff.2 ⟨t, hstep, rfl⟩
    rw [bind_of_error hwithin]
    exact inside_eq_error_iff.2 ⟨t, bind_of_error hstep, rfl⟩
  | ok a t =>
    obtain ⟨pushed, k⟩ := t
    rw [hstep] at hscope
    obtain rfl : pushed = scope.push params args := hscope
    have hwithin : Eval.within params args x ⟨scope, h⟩ = .ok a ⟨scope, k⟩ :=
      inside_eq_ok_iff.2 ⟨_, hstep, congrArg (EvalState.mk · k) (scope.cut_push params args)⟩
    rw [bind_of_ok hwithin]
    unfold Eval.within inside
    rw [bind_of_ok hstep]

theorem Eval.within_attempt {α : Type} (params : List Param) (args : List Value) (r : Except Error α) :
    (Eval.within params args (Run.attempt r) : Eval σ α) = Run.attempt r := by
  funext ⟨scope, h⟩
  cases r with
  | ok a => exact inside_eq_ok_iff.2 ⟨_, rfl, congrArg (EvalState.mk · h) (scope.cut_push params args)⟩
  | error cause => exact inside_eq_error_iff.2 ⟨_, rfl, congrArg (EvalState.mk · h) (scope.cut_push params args)⟩

theorem Evaluation.test_and (env : Env σ) (n : Nat) (left right : Expr) :
    Evaluation.test (env.evaluateWithin (n + 1)) (.binary .and left right) = (do
      if ← Evaluation.test (env.evaluateWithin n) left then Evaluation.test (env.evaluateWithin n) right
      else pure false) := by
  show ((Evaluation.test (env.evaluateWithin n) left >>= fun b =>
      if b then Value.bool <$> Evaluation.test (env.evaluateWithin n) right else pure (.bool false)) >>=
    fun v => Run.attempt (Scalar.condition v)) = _
  rw [bind_assoc]
  refine bind_congr fun b => ?_
  cases b with
  | true =>
    show (Value.bool <$> _ >>= _) = _
    rw [bind_map_left]
    exact bind_pure _
  | false => rfl

section

variable (env : Env σ) (n : Nat)

theorem Operators.holds_lambda (x : Param) (b : Expr) (row : Value) :
    Operators.holds (env.evaluateWithin n) ⟨[x], b⟩ row =
      Eval.within [x] [row] (Evaluation.test (env.evaluateWithin n) b) := by
  unfold Evaluation.test
  rw [Eval.within_bind _ _ _ (final_scope_of_follows (env.evaluateWithin_scope n b))]
  simp only [Eval.within_attempt]
  rfl

/-- **A conjunction asks a row the second question after the first one**, if it is still open. -/
theorem Operators.holds_and (x : Param) (left right : Expr) (row : Value) :
    Operators.holds (env.evaluateWithin (n + 1)) ⟨[x], .binary .and left right⟩ row = (do
      if ← Operators.holds (env.evaluateWithin n) ⟨[x], left⟩ row then
        Operators.holds (env.evaluateWithin n) ⟨[x], right⟩ row
      else pure false) := by
  have hscope := final_scope_of_follows fun s => Evaluation.test_follows (env.evaluateWithin_scope n left s)
  rw [holds_lambda, Evaluation.test_and, Eval.within_bind _ _ _ hscope, holds_lambda, holds_lambda]
  refine bind_congr fun b => ?_
  cases b with
  | true => rfl
  | false => exact Eval.within_attempt [x] [row] (.ok false)

end

namespace Env

open Operators

variable {env : Env σ} {s : Scope} {h h' : σ} {r : Expr} {x : Param} {b left right : Expr} {rows kept : List Value}

/-! ## What `where` keeps -/

/-- The predicate has this answer on a row, and takes the host program from one state to the other. -/
def Decides (env : Env σ) (s : Scope) (x : Param) (b : Expr) (row : Value) (h : σ) (answer : Bool) (h' : σ) : Prop :=
  ∃ n, holds (env.evaluateWithin n) ⟨[x], b⟩ row ⟨s, h⟩ = .ok answer ⟨s, h'⟩

/-- The receiver has these rows. -/
def Lists (env : Env σ) (s : Scope) (r : Expr) (h : σ) (rows : List Value) (h' : σ) : Prop :=
  ∃ v, env.Answers r s h (.ok v) h' ∧ (v = .list rows ∨ v = .null ∧ rows = [])

theorem answers_operator_iff {op : QueryOp} {args : List Expr} {v : Value} :
    env.Answers (.call (.operator op) args) s h (.ok v) h' ↔
      ∃ n, call (env.evaluateWithin n) op args ⟨s, h⟩ = .ok v ⟨s, h'⟩ := by
  rw [answers_ok_iff]
  constructor
  · rintro ⟨n, hn⟩
    cases n with
    | zero => cases hn
    | succ n => exact ⟨n, hn⟩
  · rintro ⟨n, hn⟩
    exact ⟨n + 1, hn⟩

theorem exists_answers_operator_iff {op : QueryOp} {args : List Expr} {v : Value} :
    (∃ h', env.Answers (.call (.operator op) args) s h (.ok v) h') ↔
      ∃ n t, call (env.evaluateWithin n) op args ⟨s, h⟩ = .ok v t := by
  simp only [answers_operator_iff]
  constructor
  · rintro ⟨h', n, hn⟩
    exact ⟨n, _, hn⟩
  · rintro ⟨n, t, hn⟩
    obtain ⟨-, k, rfl, hk⟩ := (env.evaluateWithin_scope (n + 1) (.call (.operator op) args) s).at_ok hn
    exact ⟨k, n, hk⟩

section

variable {row : Value} {answer : Bool} {n : Nat} {t : EvalState σ}

theorem decides_of_holds (hrow : holds (env.evaluateWithin n) ⟨[x], b⟩ row ⟨s, h⟩ = .ok answer t) :
    ∃ k, t = ⟨s, k⟩ ∧ env.Decides s x b row h answer k := by
  obtain ⟨v, hv, hanswer⟩ := holds_eq_ok_iff.1 hrow
  have hfollows : Follows strictly (At (· = ·) s s) (Same fun _ => True) (onRow (env.evaluateWithin n) ⟨[x], b⟩ row)
      (onRow (env.evaluateWithin n) ⟨[x], b⟩ row) := apply_follows fun _ => env.evaluateWithin_scope n b _
  obtain ⟨-, k, rfl, hv⟩ := hfollows.at_ok hv
  exact ⟨k, rfl, n, holds_eq_ok_iff.2 ⟨v, hv, hanswer⟩⟩

/-- The answer stays the answer however much deeper the predicate may go. -/
theorem Decides.within (hrow : env.Decides s x b row h answer h') :
    ∃ depth, ∀ n, depth ≤ n → holds (env.evaluateWithin n) ⟨[x], b⟩ row ⟨s, h⟩ = .ok answer ⟨s, h'⟩ := by
  obtain ⟨depth, hdepth⟩ := hrow
  obtain ⟨v, hv, hanswer⟩ := holds_eq_ok_iff.1 hdepth
  refine ⟨depth, fun n hn => holds_eq_ok_iff.2 ⟨v, ?_, hanswer⟩⟩
  have hfollows : Follows Unanswered (At (· = ·) s s) (Same fun _ => True) (onRow (env.evaluateWithin depth) ⟨[x], b⟩ row)
      (onRow (env.evaluateWithin n) ⟨[x], b⟩ row) :=
    apply_follows fun _ => env.evaluateWithin_deeper (fun _ => rfl) rfl hn b _
  obtain ⟨-, k, hk, hrow⟩ := hfollows.at_ok hv
  cases hk
  exact hrow

end

theorem decides_and :
    env.Decides s x (.binary .and left right) = Both (env.Decides s x left) (env.Decides s x right) := by
  funext row h answer h'
  refine propext ⟨fun hboth => ?_, ?_⟩
  · obtain ⟨depth, hboth⟩ := hboth.within
    have hboth := hboth (depth + 1) (Nat.le_succ depth)
    rw [holds_and, bind_eq_ok_iff] at hboth
    obtain ⟨b, t, hleft, hrest⟩ := hboth
    obtain ⟨k, rfl, hfirst⟩ := decides_of_holds hleft
    cases b with
    | true => exact .inl ⟨k, hfirst, depth, hrest⟩
    | false =>
      cases hrest
      exact .inr ⟨hfirst, rfl⟩
  · rintro (⟨k, hleft, hright⟩ | ⟨⟨n, hleft⟩, rfl⟩)
    · obtain ⟨depth, hleft⟩ := hleft.within
      obtain ⟨depth', hright⟩ := hright.within
      refine ⟨max depth depth' + 1, ?_⟩
      rw [holds_and]
      exact (bind_of_ok (hleft _ (Nat.le_max_left ..))).trans (hright _ (Nat.le_max_right ..))
    · refine ⟨n + 1, ?_⟩
      rw [holds_and]
      exact bind_of_ok hleft

theorem kept_of_keepRows {n : Nat} {t : EvalState σ}
    (hrows : keepRows (env.evaluateWithin n) ⟨[x], b⟩ rows ⟨s, h⟩ = .ok kept t) :
    ∃ k, t = ⟨s, k⟩ ∧ Kept (env.Decides s x b) rows h kept k := by
  induction rows generalizing h kept with
  | nil =>
    cases hrows
    exact ⟨h, rfl, .nil h⟩
  | cons row rows ih =>
    obtain ⟨keep, t', hrow, hrows⟩ := bind_eq_ok_iff.1 hrows
    obtain ⟨rest, t'', hrest, hresult⟩ := bind_eq_ok_iff.1 hrows
    cases hresult
    obtain ⟨k, rfl, hanswer⟩ := decides_of_holds hrow
    obtain ⟨k', rfl, hkept⟩ := ih hrest
    exact ⟨k', rfl, .cons hanswer hkept⟩

theorem keepRows_of_kept (hkept : Kept (env.Decides s x b) rows h kept h') :
    ∃ depth, ∀ n, depth ≤ n → keepRows (env.evaluateWithin n) ⟨[x], b⟩ rows ⟨s, h⟩ = .ok kept ⟨s, h'⟩ := by
  induction hkept with
  | nil h => exact ⟨0, fun _ _ => rfl⟩
  | cons hrow _ ih =>
    obtain ⟨depth, hrow⟩ := hrow.within
    obtain ⟨depth', hrest⟩ := ih
    refine ⟨max depth depth', fun n hn => ?_⟩
    exact (bind_of_ok (hrow n (Nat.le_trans (Nat.le_max_left ..) hn))).trans
      (bind_of_ok (hrest n (Nat.le_trans (Nat.le_max_right ..) hn)))

/-- **What `where` has as its value**: the rows whose answers are true. -/
theorem answers_filter_iff {v : Value} :
    env.Answers (.call (.operator .filter) [r, .lambda [x] b]) s h (.ok v) h' ↔ ∃ rows k kept,
      env.Lists s r h rows k ∧ Kept (env.Decides s x b) rows k kept h' ∧ Value.list kept = v := by
  constructor
  · intro hanswers
    obtain ⟨n, hn⟩ := answers_operator_iff.1 hanswers
    obtain ⟨f, rows, t, ⟨_, u, hf, hu, hrows⟩, kept, hkept, hv⟩ := call_filter_eq_ok_iff.1 hn
    cases hf
    obtain ⟨-, k, rfl, hu⟩ := (env.evaluateWithin_scope n r s).at_ok hu
    obtain ⟨_, hk, hkept⟩ := kept_of_keepRows hkept
    cases hk
    exact ⟨rows, k, kept, ⟨u, answers_ok_iff.2 ⟨n, hu⟩, hrows⟩, hkept, hv⟩
  · rintro ⟨rows, k, kept, ⟨u, ⟨depth, hu⟩, hrows⟩, hkept, hv⟩
    obtain ⟨depth', hkept⟩ := keepRows_of_kept hkept
    exact answers_operator_iff.2 ⟨max depth depth', call_filter_eq_ok_iff.2 ⟨_, rows, _,
      ⟨_, u, rfl, hu _ (Nat.le_max_left ..), hrows⟩, kept, hkept _ (Nat.le_max_right ..), hv⟩⟩

theorem lists_filter_iff : env.Lists s (.call (.operator .filter) [r, .lambda [x] b]) h kept h' ↔
    ∃ rows k, env.Lists s r h rows k ∧ Kept (env.Decides s x b) rows k kept h' := by
  constructor
  · rintro ⟨v, hv, hkept⟩
    obtain ⟨rows, k, kept', hrows, hkept', rfl⟩ := answers_filter_iff.1 hv
    obtain heq | ⟨heq, -⟩ := hkept
    · cases heq
      exact ⟨rows, k, hrows, hkept'⟩
    · cases heq
  · rintro ⟨rows, k, hrows, hkept⟩
    exact ⟨_, answers_filter_iff.2 ⟨rows, k, kept, hrows, hkept, rfl⟩, .inl rfl⟩

/-- **Two questions of the rows, one after the other, are one question**, if rows may be asked them in either order. -/
theorem answers_filter_filter_iff (horder : EitherOrder (env.Decides s x left) (env.Decides s x right)) {v : Value} :
    env.Answers (.call (.operator .filter) [.call (.operator .filter) [r, .lambda [x] left], .lambda [x] right])
        s h (.ok v) h' ↔
      env.Answers (.call (.operator .filter) [r, .lambda [x] (.binary .and left right)]) s h (.ok v) h' := by
  rw [answers_filter_iff, answers_filter_iff, decides_and]
  constructor
  · rintro ⟨mid, k, kept, hmid, hsecond, hv⟩
    obtain ⟨rows, k', hrows, hfirst⟩ := lists_filter_iff.1 hmid
    exact ⟨rows, k', kept, hrows, (kept_both_iff horder).2 ⟨mid, k, hfirst, hsecond⟩, hv⟩
  · rintro ⟨rows, k', kept, hrows, hboth, hv⟩
    obtain ⟨mid, k, hfirst, hsecond⟩ := (kept_both_iff horder).1 hboth
    exact ⟨mid, k, kept, lists_filter_iff.2 ⟨rows, k', hrows, hfirst⟩, hsecond, hv⟩

/-- **Questions may be asked in either order if the host program leaves no traces.** -/
theorem eitherOrder_of_traceless (htraceless : env.host.Traceless) (s : Scope) (x : Param) (left right : Expr) :
    EitherOrder (env.Decides s x left) (env.Decides s x right) := by
  have hsame : ∀ {b row h answer h'}, env.Decides s x b row h answer h' → h' = h := by
    rintro b row h answer h' ⟨n, hn⟩
    obtain ⟨v, hv, -⟩ := holds_eq_ok_iff.1 hn
    exact congrArg EvalState.hostState (htraceless.onRow_ok hv)
  intro row row' answer answer' h h'
  constructor
  · rintro ⟨k, hleft, hright⟩
    obtain rfl := hsame hleft
    obtain rfl := hsame hright
    exact ⟨_, hright, hleft⟩
  · rintro ⟨k, hright, hleft⟩
    obtain rfl := hsame hright
    obtain rfl := hsame hleft
    exact ⟨_, hleft, hright⟩

/-! ## The operators behind `where` and `select` -/

/-- An operator with a lambda has the answers of the operator alone behind another one with this lambda. -/
theorem answers_factor {p : Expr} {inner outer : QueryOp}
    (hloops : ∀ n f v, v.IsRows → onReceiver (env.evaluateWithin n) outer (some f) v =
      (do onReceiver (env.evaluateWithin (n + 1)) outer none (← onReceiver (env.evaluateWithin n) inner (some f) v)))
    (hr : ∀ n f t, lambdaAt (env.evaluateWithin n) p ⟨s, h⟩ = .ok f t →
      ∀ v t', env.evaluateWithin n r t = .ok v t' → v.IsRows) (res : Except Error Value) (h' : σ) :
    env.Answers (.call (.operator outer) [r, p]) s h res h' ↔
      env.Answers (.call (.operator outer) [.call (.operator inner) [r, p]]) s h res h' := by
  refine answers_congr (fun n => ?_) res h'
  exact call_factor (hloops n) (hr n)

/-- **`any` is true as soon as one answer is.** -/
theorem answers_any_true_iff {p : Expr} :
    (∃ h', env.Answers (.call (.operator .any) [r, p]) s h (.ok (.bool true)) h') ↔
    ∃ n f before row after t t', Receives (env.evaluateWithin n) r p ⟨s, h⟩ f (before ++ row :: after) t ∧
      Rejects (env.evaluateWithin n) f before t t' ∧
      (onRow (env.evaluateWithin n) f row).outcome t' = .ok (.bool true) := by
  simp only [exists_answers_operator_iff, call_any_eq_ok_iff, outcome_eq_ok_iff]
  constructor
  · rintro ⟨n, t'', f, rows, t, hreceives, found, hfound, hv⟩
    cases hv
    obtain ⟨before, row, after, t', rfl, hbefore, hrow⟩ := anyRow_eq_true_iff.1 hfound
    exact ⟨n, f, before, row, after, t, t', hreceives, hbefore, t'', hrow⟩
  · rintro ⟨n, f, before, row, after, t, t', hreceives, hbefore, t'', hrow⟩
    have hfound := anyRow_eq_true_iff.2 ⟨before, row, after, t', rfl, hbefore, hrow⟩
    exact ⟨n, t'', f, _, t, hreceives, true, hfound, rfl⟩

/-- **Where `where` has rows, `any` says whether there are some.** -/
theorem answers_any_iff {p : Expr} (hfilter : ∃ v h', env.Answers (.call (.operator .filter) [r, p]) s h (.ok v) h')
    (res : Except Error Value) : (∃ h', env.Answers (.call (.operator .any) [r, p]) s h res h') ↔
      ∃ h', env.Answers (.call (.operator .any) [.call (.operator .filter) [r, p]]) s h res h' := by
  obtain ⟨v, hfilter⟩ := hfilter
  obtain ⟨n, t', hn⟩ := exists_answers_operator_iff.1 hfilter
  obtain ⟨f, rows, t, hreceives, kept, hkept, rfl⟩ := call_filter_eq_ok_iff.1 hn
  obtain ⟨t'', hany⟩ := anyRow_of_keepRows hkept
  obtain ⟨k, hdirect⟩ := exists_answers_operator_iff.2
    ⟨n, t'', call_any_eq_ok_iff.2 ⟨f, rows, t, hreceives, _, hany, rfl⟩⟩
  have hbehind : call (env.evaluateWithin (n + 1)) .any [.call (.operator .filter) [r, p]] ⟨s, h⟩ =
      .ok (.bool (!kept.isEmpty)) t' := bind_of_ok hn
  obtain ⟨k', hbehind⟩ := exists_answers_operator_iff.2 ⟨n + 1, t', hbehind⟩
  constructor
  · rintro ⟨_, hres⟩
    obtain ⟨rfl, -⟩ := hres.unique hdirect
    exact ⟨k', hbehind⟩
  · rintro ⟨_, hres⟩
    obtain ⟨rfl, -⟩ := hres.unique hbehind
    exact ⟨k, hdirect⟩

/-- **The operators factor through `where` and `select`.**  Let the receiver, evaluated after the lambda, have lists or
null as its value.  Then a count or an aggregate with a lambda is the one without, behind `where` or `select`, whatever
comes of it.  So is `any` if `where` has a value; in any case it is true as soon as the predicate is, where the rows
before gave false or null.  A `where` of a `where` is the `where` of a conjunction if rows may be asked the two
questions in either order, as they may if the host program leaves no traces. -/
theorem operators_factor (env : Env σ) (s : Scope) (h : σ) (r p : Expr)
    (hr : ∀ n f t, lambdaAt (env.evaluateWithin n) p ⟨s, h⟩ = .ok f t →
      ∀ v t', env.evaluateWithin n r t = .ok v t' → v.IsRows) :
    (∀ res h', env.Answers (.call (.operator .count) [r, p]) s h res h' ↔
      env.Answers (.call (.operator .count) [.call (.operator .filter) [r, p]]) s h res h') ∧
    (∀ op ∈ [QueryOp.sum, .average, .min, .max], ∀ res h', env.Answers (.call (.operator op) [r, p]) s h res h' ↔
      env.Answers (.call (.operator op) [.call (.operator .select) [r, p]]) s h res h') ∧
    ((∃ v h', env.Answers (.call (.operator .filter) [r, p]) s h (.ok v) h') →
      ∀ res, (∃ h', env.Answers (.call (.operator .any) [r, p]) s h res h') ↔
        ∃ h', env.Answers (.call (.operator .any) [.call (.operator .filter) [r, p]]) s h res h') ∧
    ((∃ h', env.Answers (.call (.operator .any) [r, p]) s h (.ok (.bool true)) h') ↔
      ∃ n f before row after t t', Receives (env.evaluateWithin n) r p ⟨s, h⟩ f (before ++ row :: after) t ∧
        Rejects (env.evaluateWithin n) f before t t' ∧
        (onRow (env.evaluateWithin n) f row).outcome t' = .ok (.bool true)) ∧
    (∀ x first second, EitherOrder (env.Decides s x first) (env.Decides s x second) → ∀ v h',
      env.Answers (.call (.operator .filter)
        [.call (.operator .filter) [r, .lambda [x] first], .lambda [x] second]) s h (.ok v) h' ↔
      env.Answers (.call (.operator .filter) [r, .lambda [x] (.binary .and first second)]) s h (.ok v) h') ∧
    (env.host.Traceless → ∀ x first second, EitherOrder (env.Decides s x first) (env.Decides s x second)) := by
  refine ⟨fun res h' => ?_, fun op hop res h' => ?_, answers_any_iff, answers_any_true_iff,
    fun _ _ _ horder _ _ => answers_filter_filter_iff horder, fun htraceless => eitherOrder_of_traceless htraceless s⟩
  · exact answers_factor (fun _ f v hv => onReceiver_count_filter f hv) hr res h'
  · have htotal : ∃ total, Aggregate.of? op = some total := by
      simp only [List.mem_cons, List.not_mem_nil, or_false] at hop
      obtain rfl | rfl | rfl | rfl := hop <;> exact ⟨_, rfl⟩
    obtain ⟨total, htotal⟩ := htotal
    exact answers_factor (fun _ f v hv => onReceiver_aggregate_select htotal f hv) hr res h'

/-! A row for each answer that a predicate may give, in a program that counts. -/

def flags : Expr := written [.bool true, .null, .bool false]

def isSet : Expr := .lambda [row] (.param row)

def ticked : Expr := .isOne .tick

def isUnset : Expr := .unary .not (.param row)

/-- The first question changes the counter whatever the row is, and the second one does not look at it. -/
theorem eitherOrder_ticked : EitherOrder (counting.Decides [] row ticked) (counting.Decides [] row isUnset) := by
  have hticked : ∀ {v h b h'}, counting.Decides [] row ticked v h b h' ↔ b = true ∧ h' = h + 1 := by
    intro v h b h'
    constructor
    · intro hv
      obtain ⟨depth, hv⟩ := hv.within
      cases hv (depth + 3) (Nat.le_add_right depth 3)
      exact ⟨rfl, rfl⟩
    · rintro ⟨rfl, rfl⟩
      exact ⟨3, rfl⟩
  have hunset : ∀ {v h b h'}, counting.Decides [] row isUnset v h b h' ↔
      (Scalar.unary .not v >>= Scalar.condition) = .ok b ∧ h' = h := by
    intro v h b h'
    constructor
    · intro hv
      obtain ⟨depth, hv⟩ := hv.within
      have hv := hv (depth + 2) (Nat.le_add_right depth 2)
      cases v <;> cases hv <;> exact ⟨rfl, rfl⟩
    · rintro ⟨hb, rfl⟩
      refine ⟨2, ?_⟩
      cases v <;> cases hb <;> rfl
  intro v v' b b' h h'
  simp only [hticked, hunset]
  constructor
  · rintro ⟨_, ⟨hb, rfl⟩, hb', rfl⟩
    exact ⟨h, ⟨hb', rfl⟩, hb, rfl⟩
  · rintro ⟨_, ⟨hb', rfl⟩, hb, rfl⟩
    exact ⟨_, ⟨hb, rfl⟩, hb', rfl⟩

theorem operators_factor_flags :
    (∀ n f t, lambdaAt (counting.evaluateWithin n) isSet ⟨[], 0⟩ = .ok f t →
      ∀ v t', counting.evaluateWithin n flags t = .ok v t' → v.IsRows) ∧
    counting.Answers (.call (.operator .filter) [flags, isSet]) [] 0 (.ok (.list [.bool true])) 0 ∧
    counting.Answers (.call (.operator .count) [.call (.operator .filter) [flags, isSet]]) [] 0 (.ok (.int 1)) 0 ∧
    (∃ h', counting.Answers (.call (.operator .any) [.call (.operator .filter) [flags, isSet]]) [] 0
      (.ok (.bool true)) h') ∧
    EitherOrder (counting.Decides [] row ticked) (counting.Decides [] row isUnset) ∧
    counting.Answers (.call (.operator .filter)
      [.call (.operator .filter) [flags, .lambda [row] ticked], .lambda [row] isUnset]) [] 0
        (.ok (.list [.bool false])) 3 := by
  have hflags : ∀ n f t, lambdaAt (counting.evaluateWithin n) isSet ⟨[], 0⟩ = .ok f t →
      ∀ v t', counting.evaluateWithin n flags t = .ok v t' → v.IsRows := by
    intro n f t _ v t' hv
    cases n with
    | zero => cases hv
    | succ n =>
      cases hv
      exact .list _
  have hfilter : counting.Answers (.call (.operator .filter) [flags, isSet]) [] 0 (.ok (.list [.bool true])) 0 :=
    answers_ok_iff.2 ⟨2, rfl⟩
  obtain ⟨hcount, -, hany, -, hboth, -⟩ := operators_factor counting [] 0 flags isSet hflags
  refine ⟨hflags, hfilter, (hcount _ _).1 (answers_ok_iff.2 ⟨2, rfl⟩), ?_, eitherOrder_ticked, ?_⟩
  · exact (hany ⟨_, 0, hfilter⟩ _).1 ⟨0, answers_ok_iff.2 ⟨2, rfl⟩⟩
  · exact (hboth row ticked isUnset eitherOrder_ticked _ _).2 (answers_ok_iff.2 ⟨5, rfl⟩)

/-! Two rows, and a question that sees how often the other one was asked. -/

def tens : Expr := written [.int 10, .int 20]

def tickedTwice : Expr := .compare .gtEq .ticks (.literal (.int 2) ⟨0⟩)

/-- **Asking all rows the one question before the other is not asking row by row**: every row is kept if both were
asked the first question before, and only the last one if not. -/
theorem filter_filter_depends_on_order :
    (∀ n v t, counting.evaluateWithin n tens ⟨[], 0⟩ = .ok v t → v.IsRows) ∧
    counting.Answers (.call (.operator .filter)
      [.call (.operator .filter) [tens, .lambda [row] ticked], .lambda [row] tickedTwice]) [] 0
        (.ok (.list [.int 10, .int 20])) 2 ∧
    counting.Answers (.call (.operator .filter) [tens, .lambda [row] (.binary .and ticked tickedTwice)]) [] 0
      (.ok (.list [.int 20])) 2 ∧
    ¬ ∃ h', counting.Answers (.call (.operator .filter) [tens, .lambda [row] (.binary .and ticked tickedTwice)]) [] 0
      (.ok (.list [.int 10, .int 20])) h' := by
  have hjoined : counting.Answers (.call (.operator .filter) [tens, .lambda [row] (.binary .and ticked tickedTwice)])
      [] 0 (.ok (.list [.int 20])) 2 := answers_ok_iff.2 ⟨6, rfl⟩
  refine ⟨fun n v t hv => ?_, answers_ok_iff.2 ⟨6, rfl⟩, hjoined, fun ⟨h', hboth⟩ => ?_⟩
  · cases n with
    | zero => cases hv
    | succ n =>
      cases hv
      exact .list _
  · obtain ⟨heq, -⟩ := hboth.unique hjoined
    cases heq

end Env

end Splice
