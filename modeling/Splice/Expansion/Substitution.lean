import Splice.Tree.Visit
/-!
# Substituting trees for parameters

A `Substitution` maps parameter identities to trees.  Applying it replaces every occurrence of such a parameter, in
nested lambdas too, and leaves what captured values hold alone.  **All parameters are replaced at once**: a tree that
was put in is not visited again, even if it mentions parameters of the same substitution.

Matching is by identity, so a nested lambda whose parameter has the same name as a replaced one is safe.  A tree without
an occurrence is kept.
-/
namespace Splice

/-- Trees for parameters; the first entry of an identity counts. -/
structure Substitution where
  entries : List (ParamId × Expr) := []

namespace Substitution

/-- The substitution of the pairs, a later pair for an identity in the place of an earlier one. -/
def ofList (pairs : List (ParamId × Expr)) : Substitution := ⟨pairs.reverse⟩

def get? (s : Substitution) (id : ParamId) : Option Expr := List.lookup id s.entries

def isEmpty (s : Substitution) : Bool := s.entries.isEmpty

/-- The substitution that gives a lambda's parameters the actual arguments at their positions. -/
def ofCall (params : List Param) (actuals : List Expr) : Substitution :=
  .ofList ((params.map Param.id).zip actuals)

/-- The tree that takes the place of a node, if the node is a parameter of the substitution. -/
def replacement? (s : Substitution) : Expr → Option Expr
  | .param p => s.get? p.id
  | _ => none

/-- The pass that replaces parameters; its state is the number of occurrences replaced so far. -/
def pass (s : Substitution) : Pass Nat where
  enter e :=
    match s.replacement? e with
    | some t => do
      modify (· + 1)
      return some t
    | none => pure none
  exit _ rebuilt := pure rebuilt

def substitute (s : Substitution) (e : Expr) : Run Nat Edit :=
  if s.isEmpty then pure .keep else e.transform s.pass

def apply (s : Substitution) (e : Expr) : Except Halt Expr :=
  (·.result e) <$> (s.substitute e).outcome 0

end Substitution

end Splice
