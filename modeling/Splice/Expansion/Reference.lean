import Splice.Evaluation.Rules
/-!
# What a projection reference denotes

Argument 0 of a marker call must denote a lambda.  It comes in three shapes: the lambda is written there, or it is a
captured value, or anything else, which is then evaluated **on its own**: without query sources and without any
parameter, so a reference that depends on the rows of a query fails.

All failures here are evaluation errors, whatever failed inside the evaluation.
-/
namespace Splice

variable {σ : Type}

/-- How a reference denotes its lambda. -/
inductive Reference where
  /-- A lambda written at the call site. -/
  | inline (f : Lambda)
  /-- A value held by the host. -/
  | constant (name : String) (value : Value)
  /-- A tree to be evaluated. -/
  | invocation (e : Expr)

namespace Reference

def ofExpr : Expr → Reference
  | .lambda params body => .inline ⟨params, body⟩
  | .captured name value _ => .constant name value
  | e => .invocation e

def shape : Reference → String
  | .inline _ => "inline"
  | .constant .. => "constant"
  | .invocation _ => "invocation"

/-- The failure of an evaluation, as the failure of the reference `text`. -/
def blame (text : String) : Error → Error
  | .evaluationError why => .evaluationError why
  | cause => .referenceFailed text cause

/-- A value that must be a lambda; `wrongType` is the error for a value of another type. -/
def lambdaOf (wrongType : String → Error) (v : Value) : Run σ Lambda :=
  match v.asLambda? with
  | some f => pure f
  | none => Run.fail (wrongType v.typeName)

def resolve (host : Host σ) : Reference → Run σ Lambda
  | .inline f => pure f
  | .constant name value => lambdaOf (.referenceHolds name) value
  | .invocation e => do
    let v ← (Env.value { host } e).blaming (blame e.text)
    lambdaOf (.referenceEvaluatedTo e.text) v

end Reference

def Expr.resolve (host : Host σ) (e : Expr) : Run σ Lambda := (Reference.ofExpr e).resolve host

end Splice
