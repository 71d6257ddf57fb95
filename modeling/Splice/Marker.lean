import Splice.Tree.Visit
/-!
# The projection marker

A marker call `project(reference, a1, .., aN)` stands for the body of the lambda that `reference` denotes, with the
lambda's parameters bound to `a1 .. aN`.  It is a call of `Callee.project`, whatever it contains; one without
arguments is a marker too, but has no parts.  **A marker has no value**: `Marker.invoke` always fails, and only
expansion consumes it.
-/
namespace Splice.Marker

/-- The marker call on a reference and any number of actual arguments. -/
def call (reference : Expr) (actuals : List Expr) : Expr := .call .project (reference :: actuals)

def isMarker : Expr → Bool
  | .call .project _ => true
  | _ => false

def parts? : Expr → Option (Expr × List Expr)
  | .call .project (reference :: actuals) => some (reference, actuals)
  | _ => none

/-- What executing a marker does. -/
def invoke (_reference : Value) (_actuals : List Value) : Except Error Value := .error .unexpandedMarker

/-- The number of marker calls in a tree from the numbers in its children. -/
def countNode (node : Expr) (counts : List Nat) : Run Unit Nat :=
  pure (counts.foldr (· + ·) (isMarker node).toNat)

def count (e : Expr) : Except Halt Nat := (e.fold countNode).outcome ()

end Splice.Marker
