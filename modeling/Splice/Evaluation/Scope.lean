import Splice.Tree.Basic
/-!
# The state of an evaluation

The evaluator keeps the bindings of the lambdas that it is inside of on a stack, innermost first.  Applying a lambda
pushes the bindings of its parameters, runs the body, and cuts the stack back to the height that it had before,
whether the body gave a value or stopped.  A look-up takes the innermost binding of the identity, so of two equal
formals of one lambda the last one counts.

Beside the bindings an evaluation carries the state `σ` of the host program, which only host functions see.
-/
namespace Splice

/-- Bindings, innermost first. -/
abbrev Scope := List (ParamId × Value)

namespace Scope

def get? (scope : Scope) (id : ParamId) : Option Value := List.lookup id scope

/-- The scope with the arguments of a call on top; the last parameter is innermost. -/
def push (scope : Scope) (params : List Param) (args : List Value) : Scope :=
  ((params.map Param.id).zip args).reverse ++ scope

/-- The outermost `height` bindings. -/
def cut (scope : Scope) (height : Nat) : Scope := scope.drop (scope.length - height)

/-- **Cutting back to the old height undoes a push.** -/
theorem cut_push (scope : Scope) (params : List Param) (args : List Value) :
    (scope.push params args).cut scope.length = scope := by
  simp [push, cut]

end Scope

/-- The bindings in scope and the state of the host program. -/
structure EvalState (σ : Type) where
  scope : Scope := []
  hostState : σ

/-- An evaluation: it reads and changes the scope and the state of the host program, and may stop. -/
abbrev Eval (σ : Type) := Run (EvalState σ)

namespace Eval

variable {σ α : Type}

/-- Run `body` with the arguments of a call in scope. -/
def within (params : List Param) (args : List Value) (body : Eval σ α) : Eval σ α :=
  body.inside (fun s => { s with scope := s.scope.push params args })
    fun s s' => { s' with scope := s'.scope.cut s.scope.length }

/-- Run what only the host program sees. -/
def onHost (x : Run σ α) : Eval σ α := x.inside EvalState.hostState fun s h => { s with hostState := h }

def lookup (p : Param) : Eval σ Value := do
  match (← get).scope.get? p.id with
  | some v => pure v
  | none => Run.fail (.unboundParameter p.name)

end Eval

end Splice
