import Splice.Evaluation.Scope
import Splice.Evaluation.Sorting
import Splice.Evaluation.Aggregate
/-!
# Query operators

A query operator has a receiver and at most one lambda argument.  The number of arguments is checked before anything
is evaluated; then the lambda argument is resolved, and only then the receiver is evaluated.  A missing lambda is
noticed before a receiver that is no sequence.  `null` is an empty sequence.

The operators do not know the evaluator: they are written over `ev`, which evaluates a tree in the scope, so the same
rules serve every evaluator of trees.
-/
namespace Splice.Operators

variable {σ : Type}

/-- Apply a lambda: the number of arguments must be right, and the body sees them on top of the scope. -/
def apply (ev : Expr → Eval σ Value) (f : Lambda) (args : List Value) : Eval σ Value :=
  if f.arity = args.length then Eval.within f.params args (ev f.body)
  else Run.fail (.arityMismatch f.arity args.length)

/-- The lambda in an argument position: written there, or the value of what is written there. -/
def lambdaAt (ev : Expr → Eval σ Value) : Expr → Eval σ Lambda
  | .lambda params body => pure ⟨params, body⟩
  | e => do
    let v ← ev e
    match v.asLambda? with
    | some f => pure f
    | none => Run.fail (.typeMismatch "lambda" v.typeName)

def lambdaArgument (ev : Expr → Eval σ Value) (op : QueryOp) : List Expr → Eval σ (Option Lambda)
  | [] => pure none
  | [e] => some <$> lambdaAt ev e
  | rest => Run.fail (.tooManyLambdas op.text rest.length)

def required (op : QueryOp) : Option Lambda → Eval σ Lambda
  | some f => pure f
  | none => Run.fail (.missingLambda op.text)

def rowsOf (op : QueryOp) : Value → Eval σ (List Value)
  | .list items => pure items
  | .null => pure []
  | v => Run.fail (.typeMismatch s!"list receiver for {op.text}" v.typeName)

/-! ## Loops over rows -/

def onRow (ev : Expr → Eval σ Value) (f : Lambda) (row : Value) : Eval σ Value := apply ev f [row]

def holds (ev : Expr → Eval σ Value) (f : Lambda) (row : Value) : Eval σ Bool := do
  Run.attempt (Scalar.condition (← onRow ev f row))

def keepRows (ev : Expr → Eval σ Value) (f : Lambda) : List Value → Eval σ (List Value)
  | [] => pure []
  | row :: rows => do
    let keep ← holds ev f row
    let rest ← keepRows ev f rows
    return if keep then row :: rest else rest

def mapRows (ev : Expr → Eval σ Value) (f : Lambda) : List Value → Eval σ (List Value)
  | [] => pure []
  | row :: rows => do
    let v ← onRow ev f row
    let rest ← mapRows ev f rows
    return v :: rest

def countRows (ev : Expr → Eval σ Value) (f : Lambda) : List Value → Eval σ Nat
  | [] => pure 0
  | row :: rows => do
    let counts ← holds ev f row
    let rest ← countRows ev f rows
    return if counts then rest + 1 else rest

/-- Whether the predicate holds of a row; rows after the first such row are not looked at. -/
def anyRow (ev : Expr → Eval σ Value) (f : Lambda) : List Value → Eval σ Bool
  | [] => pure false
  | row :: rows => do if ← holds ev f row then pure true else anyRow ev f rows

def keyRows (ev : Expr → Eval σ Value) (f : Lambda) (rows : List Value) : Eval σ (List Sorting.Keyed) := do
  let keys ← mapRows ev f rows
  return List.zipWith Sorting.Keyed.mk keys rows

/-- The rows themselves, or what the selector makes of them. -/
def valuesOf (ev : Expr → Eval σ Value) (f : Option Lambda) (rows : List Value) : Eval σ (List Value) :=
  match f with
  | some f => mapRows ev f rows
  | none => pure rows

/-- The values that an aggregate is about: without nulls. -/
def selectedRows (ev : Expr → Eval σ Value) (f : Option Lambda) (rows : List Value) : Eval σ (List Value) := do
  let values ← valuesOf ev f rows
  return values.filter (!·.isNull)

/-! ## The operators -/

/-- A value as a text; null stays null. -/
def textValue : Value → Value
  | .null => .null
  | v => .string v.text

def countValue (n : Nat) : Value := .int (Int64.ofNat n)

def onReceiver (ev : Expr → Eval σ Value) (op : QueryOp) (f : Option Lambda) (receiver : Value) : Eval σ Value :=
  match op with
  | .toText => pure (textValue receiver)
  | .filter => do
    let f ← required op f
    let rows ← rowsOf op receiver
    Value.list <$> keepRows ev f rows
  | .select => do
    let f ← required op f
    let rows ← rowsOf op receiver
    Value.list <$> mapRows ev f rows
  | .orderBy => do
    let f ← required op f
    let rows ← rowsOf op receiver
    let keyed ← keyRows ev f rows
    Value.list <$> Run.attempt (Sorting.sortRows keyed)
  | .count => do
    let rows ← rowsOf op receiver
    match f with
    | none => pure (countValue rows.length)
    | some f => countValue <$> countRows ev f rows
  | .any => do
    let rows ← rowsOf op receiver
    match f with
    | none => pure (.bool !rows.isEmpty)
    | some f => Value.bool <$> anyRow ev f rows
  | .average => do Run.attempt (Aggregate.average (← selectedRows ev f (← rowsOf op receiver)))
  | .sum => do Run.attempt (Aggregate.sum (← selectedRows ev f (← rowsOf op receiver)))
  | .min => do Run.attempt (Aggregate.extreme .lt (← selectedRows ev f (← rowsOf op receiver)))
  | .max => do Run.attempt (Aggregate.extreme .gt (← selectedRows ev f (← rowsOf op receiver)))

def call (ev : Expr → Eval σ Value) (op : QueryOp) : List Expr → Eval σ Value
  | [] => Run.fail (.missingReceiver op.text)
  | receiver :: rest => do
    let f ← lambdaArgument ev op rest
    let v ← ev receiver
    onReceiver ev op f v

end Splice.Operators
