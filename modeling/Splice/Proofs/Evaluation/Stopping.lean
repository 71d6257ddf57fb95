import Splice.Evaluation.Rules
import Splice.Proofs.Stopping
/-!
# For which reasons an evaluation stops

The rules of evaluation raise errors of their own, and nothing else: **the rule of a node stops with an error, or where
the evaluation of a part stops** (`Evaluation.step_stopsOnly`).  That is so in every state and for every evaluator of
the parts, so no scope and no value is spoken of.
-/
namespace Splice

open Run

variable {σ α : Type} {why : Halt → Prop}

theorem Eval.within_stopsOnly {params : List Param} {args : List Value} {x : Eval σ α} (hx : StopsOnly why x) :
    StopsOnly why (Eval.within params args x) := stopsOnly_inside hx

theorem Eval.lookup_stopsOnly (herror : ∀ cause, why (.error cause)) (p : Param) :
    StopsOnly why (Eval.lookup p : Eval σ Value) := by
  refine stopsOnly_bind (fun _ _ _ h => nomatch h) fun st => ?_
  split
  · exact stopsOnly_pure _
  · exact stopsOnly_fail (herror _)

namespace Operators

variable {ev : Expr → Eval σ Value} {f : Lambda} (herror : ∀ cause, why (.error cause))
  (hev : ∀ e, StopsOnly why (ev e))
include herror hev

theorem apply_stopsOnly (f : Lambda) (args : List Value) : StopsOnly why (apply ev f args) :=
  stopsOnly_ite (Eval.within_stopsOnly (hev f.body)) (stopsOnly_fail (herror _))

theorem lambdaAt_stopsOnly (e : Expr) : StopsOnly why (lambdaAt ev e) := by
  unfold lambdaAt
  split
  · exact stopsOnly_pure _
  · refine stopsOnly_bind (hev _) fun v => ?_
    split
    · exact stopsOnly_pure _
    · exact stopsOnly_fail (herror _)

theorem lambdaArgument_stopsOnly (op : QueryOp) (args : List Expr) : StopsOnly why (lambdaArgument ev op args) := by
  unfold lambdaArgument
  split
  · exact stopsOnly_pure _
  · exact stopsOnly_map (lambdaAt_stopsOnly herror hev _)
  · exact stopsOnly_fail (herror _)

omit hev in
theorem required_stopsOnly (op : QueryOp) (g : Option Lambda) :
    StopsOnly why (required op g : Eval σ Lambda) := by
  cases g with
  | some f => exact stopsOnly_pure f
  | none => exact stopsOnly_fail (herror _)

omit hev in
theorem rowsOf_stopsOnly (op : QueryOp) (v : Value) : StopsOnly why (rowsOf op v : Eval σ (List Value)) := by
  unfold rowsOf
  split
  · exact stopsOnly_pure _
  · exact stopsOnly_pure _
  · exact stopsOnly_fail (herror _)

/-! ## Loops over rows -/

theorem holds_stopsOnly (f : Lambda) (row : Value) : StopsOnly why (holds ev f row) :=
  stopsOnly_bind (apply_stopsOnly herror hev f [row]) fun _ => stopsOnly_attempt fun cause _ => herror cause

theorem keepRows_stopsOnly (f : Lambda) (rows : List Value) : StopsOnly why (keepRows ev f rows) := by
  induction rows with
  | nil => exact stopsOnly_pure _
  | cons row rows ih =>
    refine stopsOnly_bind (holds_stopsOnly herror hev f row) fun keep => ?_
    exact stopsOnly_bind ih fun rest => stopsOnly_pure _

theorem mapRows_stopsOnly (f : Lambda) (rows : List Value) : StopsOnly why (mapRows ev f rows) := by
  induction rows with
  | nil => exact stopsOnly_pure _
  | cons row rows ih =>
    refine stopsOnly_bind (apply_stopsOnly herror hev f [row]) fun v => ?_
    exact stopsOnly_bind ih fun rest => stopsOnly_pure _

theorem countRows_stopsOnly (f : Lambda) (rows : List Value) : StopsOnly why (countRows ev f rows) := by
  induction rows with
  | nil => exact stopsOnly_pure _
  | cons row rows ih =>
    refine stopsOnly_bind (holds_stopsOnly herror hev f row) fun counts => ?_
    exact stopsOnly_bind ih fun rest => stopsOnly_pure _

theorem anyRow_stopsOnly (f : Lambda) (rows : List Value) : StopsOnly why (anyRow ev f rows) := by
  induction rows with
  | nil => exact stopsOnly_pure _
  | cons row rows ih =>
    refine stopsOnly_bind (holds_stopsOnly herror hev f row) fun found => ?_
    exact stopsOnly_ite (stopsOnly_pure _) ih

theorem selectedRows_stopsOnly (g : Option Lambda) (rows : List Value) : StopsOnly why (selectedRows ev g rows) := by
  refine stopsOnly_bind ?_ fun values => stopsOnly_pure _
  cases g with
  | none => exact stopsOnly_pure rows
  | some f => exact mapRows_stopsOnly herror hev f rows

/-! ## The operators -/

omit hev in
theorem onRows_stopsOnly (op : QueryOp) (g : Option Lambda) (v : Value) {loop : Lambda → List Value → Eval σ Value}
    (hloop : ∀ f rows, StopsOnly why (loop f rows)) :
    StopsOnly why (do loop (← required op g) (← rowsOf op v)) :=
  stopsOnly_bind (required_stopsOnly herror op g) fun f =>
    stopsOnly_bind (rowsOf_stopsOnly herror op v) fun rows => hloop f rows

theorem aggregate_stopsOnly (op : QueryOp) (g : Option Lambda) (v : Value)
    (total : List Value → Except Error Value) :
    StopsOnly why (do Run.attempt (total (← selectedRows ev g (← rowsOf op v)))) :=
  stopsOnly_bind (rowsOf_stopsOnly herror op v) fun rows =>
    stopsOnly_bind (selectedRows_stopsOnly herror hev g rows) fun _ => stopsOnly_attempt fun cause _ => herror cause

theorem onReceiver_stopsOnly (op : QueryOp) (g : Option Lambda) (v : Value) :
    StopsOnly why (onReceiver ev op g v) := by
  cases op with
  | toText => exact stopsOnly_pure _
  | filter => exact onRows_stopsOnly herror _ g v fun f rows => stopsOnly_map (keepRows_stopsOnly herror hev f rows)
  | select => exact onRows_stopsOnly herror _ g v fun f rows => stopsOnly_map (mapRows_stopsOnly herror hev f rows)
  | orderBy =>
    refine onRows_stopsOnly herror _ g v fun f rows => ?_
    refine stopsOnly_bind (stopsOnly_bind (mapRows_stopsOnly herror hev f rows) fun _ => stopsOnly_pure _) fun _ => ?_
    exact stopsOnly_map (stopsOnly_attempt fun cause _ => herror cause)
  | count =>
    refine stopsOnly_bind (rowsOf_stopsOnly herror _ v) fun rows => ?_
    cases g with
    | none => exact stopsOnly_pure _
    | some f => exact stopsOnly_map (countRows_stopsOnly herror hev f rows)
  | any =>
    refine stopsOnly_bind (rowsOf_stopsOnly herror _ v) fun rows => ?_
    cases g with
    | none => exact stopsOnly_pure _
    | some f => exact stopsOnly_map (anyRow_stopsOnly herror hev f rows)
  | average | sum | min | max => exact aggregate_stopsOnly herror hev _ g v _

theorem call_stopsOnly (op : QueryOp) (args : List Expr) : StopsOnly why (call ev op args) := by
  cases args with
  | nil => exact stopsOnly_fail (herror _)
  | cons receiver rest =>
    refine stopsOnly_bind (lambdaArgument_stopsOnly herror hev op rest) fun g => ?_
    exact stopsOnly_bind (hev receiver) fun v => onReceiver_stopsOnly herror hev op g v

end Operators

namespace Evaluation

variable {ev : Expr → Eval σ Value} (herror : ∀ cause, why (.error cause)) (hev : ∀ e, StopsOnly why (ev e))
include herror hev

omit herror in
theorem evalAll_stopsOnly (es : List Expr) : StopsOnly why (evalAll ev es) := by
  induction es with
  | nil => exact stopsOnly_pure _
  | cons e es ih => exact stopsOnly_bind (hev e) fun v => stopsOnly_bind ih fun vs => stopsOnly_pure _

omit herror in
theorem evalFields_stopsOnly (r : Record) (fields : List (String × Expr)) : StopsOnly why (evalFields ev r fields) := by
  induction fields generalizing r with
  | nil => exact stopsOnly_pure _
  | cons field fields ih => exact stopsOnly_bind (hev field.2) fun v => ih _

theorem test_stopsOnly (e : Expr) : StopsOnly why (test ev e) :=
  stopsOnly_bind (hev e) fun _ => stopsOnly_attempt fun cause _ => herror cause

theorem both_stopsOnly (left right : Expr) (op : Value → Value → Except Error Value) :
    StopsOnly why (do Run.attempt (op (← ev left) (← ev right))) :=
  stopsOnly_bind (hev left) fun _ => stopsOnly_bind (hev right) fun _ => stopsOnly_attempt fun cause _ => herror cause

theorem unexpanded_stopsOnly (args : List Expr) : StopsOnly why (unexpanded ev args) := by
  refine stopsOnly_bind (evalAll_stopsOnly hev args) fun vs => ?_
  cases vs with
  | nil => exact stopsOnly_fail (herror _)
  | cons reference actuals => exact stopsOnly_fail (herror _)

/-- **The rule of a node stops with an error, or as the evaluation of a part does.** -/
theorem step_stopsOnly (env : Env σ) {marker : List Expr → Eval σ Value}
    (hmarker : ∀ args, StopsOnly why (marker args)) (e : Expr) : StopsOnly why (step env marker ev e) := by
  have hattempt : ∀ r : Except Error Value, StopsOnly why (Run.attempt r : Eval σ Value) :=
    fun r => stopsOnly_attempt fun cause _ => herror cause
  cases e with
  | literal | captured | lambda => exact stopsOnly_pure _
  | source name => exact hattempt _
  | param p => exact Eval.lookup_stopsOnly herror p
  | member base name => exact stopsOnly_bind (hev base) fun _ => hattempt _
  | call callee args =>
    cases callee with
    | operator op => exact Operators.call_stopsOnly herror hev op args
    | host f =>
      refine stopsOnly_bind (evalAll_stopsOnly hev args) fun vs => ?_
      exact stopsOnly_inside (stopsOnly_attemptOn herror)
    | project => exact hmarker args
  | unary op operand => exact stopsOnly_bind (hev operand) fun _ => hattempt _
  | binary op left right =>
    cases op with
    | and =>
      refine stopsOnly_bind (test_stopsOnly herror hev left) fun _ => ?_
      exact stopsOnly_ite (stopsOnly_map (test_stopsOnly herror hev right)) (stopsOnly_pure _)
    | or =>
      refine stopsOnly_bind (test_stopsOnly herror hev left) fun _ => ?_
      exact stopsOnly_ite (stopsOnly_pure _) (stopsOnly_map (test_stopsOnly herror hev right))
    | _ => exact both_stopsOnly herror hev left right _
  | compare op left right => exact both_stopsOnly herror hev left right _
  | cond c yes no =>
    exact stopsOnly_bind (test_stopsOnly herror hev c) fun _ => stopsOnly_ite (hev yes) (hev no)
  | record typeName fields => exact stopsOnly_map (evalFields_stopsOnly hev _ fields)

end Evaluation

end Splice
