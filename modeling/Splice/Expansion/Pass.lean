import Splice.Expansion.Substitution
import Splice.Expansion.Reference
/-!
# Projection expansion

Expansion is one pass over a tree, from the leaves up.  Where the rebuilt node is a marker call, the body of the lambda
that its reference denotes is expanded in turn, and takes the place of the call with the lambda's parameters bound to
the actual arguments.  The arguments were expanded before their call, and the body before the arguments go into it, so
**one pass leaves no marker behind**.

Bodies expand inside one another.  An expansion counts how deep it is and refuses to go beyond its limit, so a
projection that refers to itself ends in an error.  Of several reasons to fail, a reference that denotes no lambda
comes first, then a wrong number of arguments, then the limit.

The pass re-enters itself through the bodies.  `pass room` may do so `room` times; an expansion starts at depth zero
with `room` equal to the limit, so the guard on the depth is reached before the room is used up.
-/
namespace Splice

/-- The limit of an expansion, its two counters and the state of the host program. -/
structure Expansion (σ : Type) where
  /-- How many projections may nest. -/
  limit : Nat
  /-- How many bodies are being expanded inside one another now. -/
  depth : Nat := 0
  /-- How many marker calls have been replaced. -/
  inlined : Nat := 0
  hostState : σ

namespace Expansion

variable {σ : Type}

/-- A limit that no expansion reaches. -/
def unlimited : Nat := 18446744073709551615

/-- The limit of an expansion for which none was chosen. -/
def defaultLimit : Nat := 64

def tooDeep {α : Type} : Run (Expansion σ) α := do Run.fail (.cyclicProjection (← get).limit)

/-- Run one level deeper, and come back whatever happens. -/
def deeper {α : Type} (x : Run (Expansion σ) α) : Run (Expansion σ) α :=
  x.inside (fun s => { s with depth := s.depth + 1 }) fun _ s => { s with depth := s.depth - 1 }

def onHost {α : Type} (x : Run σ α) : Run (Expansion σ) α :=
  x.inside Expansion.hostState fun s h => { s with hostState := h }

/-- What takes the place of a marker call; `expandBody` expands the body of a lambda. -/
def splice (host : Host σ) (expandBody : Expr → Run (Expansion σ) Edit) (reference : Expr) (actuals : List Expr) :
    Run (Expansion σ) Expr := do
  let f ← onHost (reference.resolve host)
  if f.arity = actuals.length then
    let s ← get
    if s.depth < s.limit then
      let body ← deeper (expandBody f.body)
      modify fun s => { s with inlined := s.inlined + 1 }
      Run.lift ((Substitution.ofCall f.params actuals).apply (body.result f.body))
    else tooDeep
  else Run.fail (.arityMismatch f.arity actuals.length)

/-- The pass on a node that was rebuilt: a marker call is replaced, any other node is left as it is. -/
def onNode (host : Host σ) (expandBody : Expr → Run (Expansion σ) Edit) (before : Expr) (rebuilt : Edit) :
    Run (Expansion σ) Edit :=
  let node := rebuilt.result before
  if Marker.isMarker node then
    match Marker.parts? node with
    | some (reference, actuals) => Edit.put <$> splice host expandBody reference actuals
    | none => Run.fail .missingReference
  else pure rebuilt

/-- The pass that may enter bodies within bodies `room` times. -/
def pass (host : Host σ) : (room : Nat) → Pass (Expansion σ)
  | 0 => { exit := onNode host fun _ => tooDeep }
  | room + 1 => { exit := onNode host fun body => body.transform (pass host room) }

/-- Expand all marker calls of a tree.  The counters start afresh. -/
def expand (host : Host σ) (e : Expr) : Run (Expansion σ) Edit := do
  modify fun s => { s with depth := 0, inlined := 0 }
  e.transform (pass host (← get).limit)

end Expansion

/-- Expand all marker calls of a tree, at most `limit` projections deep. -/
def Expr.expand {σ : Type} (host : Host σ) (limit : Nat) (e : Expr) : Run σ Edit :=
  (Expansion.expand host e).inside (fun h => { limit, hostState := h }) fun _ s => s.hostState

end Splice
