/-!
# What can go wrong, and in which words

Every operation of the library fails with an `Error`.  There are eight kinds; `Error.message` is the one place where
their wording is fixed.  The named causes below say what went wrong in the words of the operation that noticed it, so
no other module spells an error text.

A computation that is bounded by fuel can also stop without an answer.  `Halt` keeps that outcome apart from the
errors: running out of fuel is never reported as a failure of the query.

`Run σ` is the shape of everything here that threads a state and may stop: when it stops, the state reached is kept.
-/
namespace Splice

inductive Error where
  /-- Something that has no meaning outside projection expansion was executed. -/
  | unsupportedOperation (what : String)
  /-- A projection reference could not be turned into a lambda. -/
  | evaluationError (why : String)
  /-- A lambda with `expected` parameters was given `actual` arguments. -/
  | arityMismatch (expected actual : Nat)
  /-- Projections nest deeper than `limit`. -/
  | cyclicProjection (limit : Nat)
  /-- A value does not have the shape that an operator needs. -/
  | typeMismatch (expected got : String)
  /-- A value or a tree that an operation refuses. -/
  | invalidArgument (why : String)
  /-- No rows are registered under this name. -/
  | notFound (name : String)
  /-- A node was rebuilt with a wrong number of children. -/
  | internal (what : String)
deriving DecidableEq

def Error.message : Error → String
  | .unsupportedOperation what => s!"unsupported operation: {what}"
  | .evaluationError why => s!"projection evaluation failed: {why}"
  | .arityMismatch expected actual =>
    s!"projection declares {expected} parameter(s) but the call site supplies {actual}"
  | .cyclicProjection limit => s!"projection expansion exceeded the nesting limit of {limit}"
  | .typeMismatch expected got => s!"type mismatch: expected {expected}, got {got}"
  | .invalidArgument why => s!"Invalid argument: {why}"
  | .notFound name => s!"query source not found: {name}"
  | .internal what => s!"An internal operation failed: {what}"

/-! ## Named causes -/

namespace Error

/-- A marker call was evaluated instead of being expanded. -/
def unexpandedMarker : Error :=
  .unsupportedOperation
    "project() cannot be invoked directly; it must be routed through the wrapped query source first (call with_projections() on the source being queried)"

def unboundParameter (name : String) : Error := .evaluationError s!"parameter '{name}' is not bound"

def closedContext (name : String) : Error :=
  .evaluationError s!"query source '{name}' is not available in a closed context"

def referenceHolds (name got : String) : Error :=
  .evaluationError s!"projection reference `{name}` holds a {got} value, expected a lambda"

def referenceFailed (text : String) (cause : Error) : Error :=
  .evaluationError s!"projection reference `{text}` failed: {cause.message}"

def referenceEvaluatedTo (text got : String) : Error :=
  .evaluationError s!"projection reference `{text}` evaluated to a {got} value, expected a lambda"

def missingReference : Error :=
  .invalidArgument "projection marker call is missing its projection reference"

/-- `owner` is a record's type name or the name of a value's type. -/
def noMember (owner member : String) : Error := .invalidArgument s!"{owner} has no member '{member}'"

def divisionByZero : Error := .invalidArgument "division by zero"

def integerOverflow (left op right : String) : Error :=
  .invalidArgument s!"integer overflow in {left} {op} {right}"

def negationOverflow (operand : String) : Error := .invalidArgument s!"negating {operand} overflows"

def sumOverflow : Error := .invalidArgument "integer overflow in sum"

def unorderedNumber : Error := .invalidArgument "cannot order NaN"

def missingReceiver (op : String) : Error := .invalidArgument s!"{op} requires a receiver"

def missingLambda (op : String) : Error := .invalidArgument s!"{op} requires a lambda argument"

def tooManyLambdas (op : String) (count : Nat) : Error :=
  .invalidArgument s!"{op} takes at most one lambda argument, got {count}"

def untranslatableHost (name : String) : Error :=
  .invalidArgument s!"host function `{name}` cannot be translated"

def lambdaAsValue : Error :=
  .invalidArgument "a lambda cannot be used as a value; invoke it through a projection instead"

def childCount (expected got : Nat) : Error :=
  .internal s!"with_children: node has {expected} children, got {got}"

def missingResults (visit : String) : Error := .internal s!"{visit}: result stack underflow"

def resultCount (visit : String) (got : Nat) : Error := .internal s!"{visit}: expected 1 result, got {got}"

end Error

/-! ## Computations that may stop -/

/-- Why a computation stopped without a value. -/
inductive Halt where
  | error (cause : Error)
  | outOfFuel
deriving DecidableEq

/-- A computation over a state `σ`.  The state survives a stop. -/
abbrev Run (σ : Type) := EStateM Halt σ

namespace Run

variable {σ α : Type}

def fail (e : Error) : Run σ α := throw (.error e)

def attempt : Except Error α → Run σ α
  | .ok a => pure a
  | .error e => fail e

def lift : Except Halt α → Run σ α
  | .ok a => pure a
  | .error h => throw h

/-- A computation that may fail and keeps its state then. -/
def attemptOn (x : EStateM Error σ α) : Run σ α := fun s =>
  match x s with
  | .ok a s' => .ok a s'
  | .error e s' => .error (.error e) s'

/-- The same computation, with its errors in other words. -/
def blaming (x : Run σ α) (reword : Error → Error) : Run σ α := fun s =>
  match x s with
  | .error (.error e) s' => .error (.error (reword e)) s'
  | outcome => outcome

/-- Run a computation on the state that `enter` makes of this one; `leave` brings back what it left, also when it
stopped. -/
def inside {τ : Type} (enter : σ → τ) (leave : σ → τ → σ) (x : Run τ α) : Run σ α := fun s =>
  match x (enter s) with
  | .ok a t => .ok a (leave s t)
  | .error h t => .error h (leave s t)

/-- The outcome from a given state, the state left aside. -/
def outcome (x : Run σ α) (s : σ) : Except Halt α :=
  match x s with
  | .ok a _ => .ok a
  | .error h _ => .error h

/-- **What is brought back does not change the outcome.** -/
theorem outcome_inside {τ : Type} (enter : σ → τ) (leave : σ → τ → σ) (x : Run τ α) (s : σ) :
    (x.inside enter leave).outcome s = x.outcome (enter s) := by
  simp only [outcome, inside]
  cases x (enter s) <;> rfl

end Run

end Splice
