import Splice.Marker
/-!
# Trees that a backend can translate

A backend that ships a query elsewhere cannot run host functions and has no lambda values.  `Strict.check` accepts the
trees that it can take: no marker call, no host call, and a lambda only after the receiver of a query operator.

Markers are looked for first, in the whole tree, because a tree that was never expanded should be reported as such.
The other rules are checked from the leaves up, children before their parent and from left to right; the first node
that breaks one is the one reported.
-/
namespace Splice.Strict

/-- What a checked tree produces, as far as its parent is concerned. -/
inductive Product where
  | data
  | lambda
deriving DecidableEq

def productOf (node : Expr) : Product := if node.asLambda?.isSome then .lambda else .data

/-- Whether a node takes these products of its children: a query operator takes lambdas after its receiver, and no
other node takes any. -/
def takes (node : Expr) (children : List Product) : Bool :=
  match node with
  | .call (.operator _) _ => children.head? != some .lambda
  | _ => children.all (· != .lambda)

/-- Check one node, its children being checked. -/
def checkNode (node : Expr) (children : List Product) : Run Unit Product :=
  match node with
  | .call (.host f) _ => Run.fail (.untranslatableHost f.name)
  | node => if takes node children then pure (productOf node) else Run.fail .lambdaAsValue

/-- Whether a backend can translate the tree; if not, why. -/
def check (e : Expr) : Except Halt Unit := do
  let markers ← Marker.count e
  if markers = 0 then
    match ← (e.fold checkNode).outcome () with
    | .data => pure ()
    | .lambda => throw (.error .lambdaAsValue)
  else throw (.error .unexpandedMarker)

end Splice.Strict
