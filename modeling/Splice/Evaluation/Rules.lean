import Splice.Evaluation.Operators
import Splice.Marker
/-!
# The rules of evaluation

`step` is the rule for one node: the trees below it, and the bodies of the lambdas that it applies, are left to `ev`.
`evaluateWithin` ties the knot with fuel.  **The fuel bounds the depth of the recursion, not the number of steps**: it
falls by one from a tree to the trees below it and to the bodies applied there, so a loop over any number of rows costs
nothing.  Lambda values make evaluations without end possible; those, and only those that are too deep, end as
`Halt.outOfFuel`.

What a marker call does is a parameter of `step`.  In evaluation it fails, after its arguments were evaluated.
-/
namespace Splice

/-- The program that a query is written in: what its functions do, and how deep an evaluation may recurse.  Its
functions share a state `σ`; a program without state has `σ = Unit`, and its functions are functions of their arguments
alone. -/
structure Host (σ : Type) where
  call : HostFunction → List Value → EStateM Error σ Value
  fuel : Nat := 1000000

variable {σ : Type}

/-- What a tree can refer to beside its parameters. -/
structure Env (σ : Type) where
  host : Host σ
  /-- The rows behind the query sources; a closed context has none. -/
  sources : Option (String → Except Error Value) := none

namespace Env

def source (env : Env σ) (name : String) : Except Error Value :=
  match env.sources with
  | some rows => rows name
  | none => .error (.closedContext name)

end Env

namespace Evaluation

/-- The values of argument trees, from left to right. -/
def evalAll (ev : Expr → Eval σ Value) : List Expr → Eval σ (List Value)
  | [] => pure []
  | e :: es => do
    let v ← ev e
    let vs ← evalAll ev es
    return v :: vs

/-- The record that field trees build on the fields assigned so far. -/
def evalFields (ev : Expr → Eval σ Value) (r : Record) : List (String × Expr) → Eval σ Record
  | [] => pure r
  | (name, e) :: rest => do
    let v ← ev e
    evalFields ev (r.set name v) rest

def test (ev : Expr → Eval σ Value) (e : Expr) : Eval σ Bool := do Run.attempt (Scalar.condition (← ev e))

/-- The rule for one node. -/
def step (env : Env σ) (marker : List Expr → Eval σ Value) (ev : Expr → Eval σ Value) : Expr → Eval σ Value
  | .literal l _ => pure (.ofLiteral l)
  | .captured _ v _ => pure v
  | .source name => Run.attempt (env.source name)
  | .param p => Eval.lookup p
  | .member base name => do Run.attempt (Scalar.member (← ev base) name)
  | .call (.operator op) args => Operators.call ev op args
  | .call (.host f) args => do Eval.onHost (.attemptOn (env.host.call f (← evalAll ev args)))
  | .call .project args => marker args
  | .lambda params body => pure (.lambda params body)
  | .unary op operand => do Run.attempt (Scalar.unary op (← ev operand))
  | .binary .and left right => do
    if ← test ev left then Value.bool <$> test ev right else pure (.bool false)
  | .binary .or left right => do
    if ← test ev left then pure (.bool true) else Value.bool <$> test ev right
  | .binary op left right => do
    let l ← ev left
    let r ← ev right
    Run.attempt (Scalar.binary op l r)
  | .compare op left right => do
    let l ← ev left
    let r ← ev right
    Run.attempt (Scalar.compare op l r)
  | .cond c yes no => do if ← test ev c then ev yes else ev no
  | .record typeName fields => Value.ofRecord <$> evalFields ev ⟨typeName, []⟩ fields

/-- The rule for a marker call: it has no value. -/
def unexpanded (ev : Expr → Eval σ Value) (args : List Expr) : Eval σ Value := do
  match ← evalAll ev args with
  | [] => Run.attempt (Marker.invoke .null [])
  | reference :: actuals => Run.attempt (Marker.invoke reference actuals)

end Evaluation

namespace Env

/-- Evaluate a tree in the scope, at most `fuel` levels deep. -/
def evaluateWithin (env : Env σ) : Nat → Expr → Eval σ Value
  | 0, _ => throw .outOfFuel
  | fuel + 1, e => Evaluation.step env (Evaluation.unexpanded (env.evaluateWithin fuel)) (env.evaluateWithin fuel) e

def evaluate (env : Env σ) (e : Expr) : Eval σ Value := env.evaluateWithin env.host.fuel e

def apply (env : Env σ) (f : Lambda) (args : List Value) : Eval σ Value := Operators.apply env.evaluate f args

/-- The value of a tree that sees no parameters. -/
def value (env : Env σ) (e : Expr) : Run σ Value :=
  (env.evaluate e).inside (fun h => { hostState := h }) fun _ s => s.hostState

end Env

end Splice
