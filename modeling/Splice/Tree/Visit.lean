import Splice.Tree.Children
/-!
# Visiting a tree bottom-up, with explicit stacks

A `Visitor` meets every node twice: `enter` when the node is first reached, where it may end the visit of the whole
subtree with a result, and `exit` when the results of all children are there, in the order of the children.  Both may
change a state and both may stop the visit.

`Visitor.loop` runs a visitor without recursion on the tree.  The work stack holds the frames that are still to be
done, the result stack the results that are still to be used, newest first; a frame to leave a node lies below the
frames to enter its children.  The weight of the work stack falls with every step, because entering a node costs more
than leaving it and entering its children together, so the loop ends.

`Expr.transform` and `Expr.fold` are the two visits that the rest of the library is built on.
-/
namespace Splice

variable {σ α : Type}

/-- A step that a visit still has to do. -/
inductive Frame (α : Type) where
  | enter (e : Expr)
  /-- Leave a node that has this many results waiting. -/
  | exit (e : Expr) (arity : Nat)
  /-- A result that needs no further work. -/
  | done (a : α)

namespace Frame

def weight : Frame α → Nat
  | .enter e => 2 * e.size
  | .exit .. | .done _ => 1

def totalWeight : List (Frame α) → Nat
  | [] => 0
  | f :: work => f.weight + totalWeight work

theorem totalWeight_enter (es : List Expr) (work : List (Frame α)) :
    totalWeight (es.map .enter ++ work) = 2 * Expr.sizeAll es + totalWeight work := by
  induction es with
  | nil => simp [Expr.sizeAll]
  | cons e es ih =>
    simp only [List.map_cons, List.cons_append, totalWeight, weight, Expr.sizeAll, ih]
    omega

/-- **Leaving a node and entering its children costs less than entering it.** -/
theorem totalWeight_children (e : Expr) (n : Nat) (work : List (Frame α)) :
    totalWeight (e.children.map Frame.enter ++ .exit e n :: work) < totalWeight (.enter e :: work) := by
  have := e.size_eq
  simp only [totalWeight_enter, totalWeight, weight]
  omega

end Frame

/-- What is done on the way down and on the way up. -/
structure Visitor (σ α : Type) where
  /-- A result here ends the visit of the subtree. -/
  enter : Expr → Run σ (Option α)
  /-- The result of a node from those of its children. -/
  exit : Expr → List α → Run σ α

namespace Visitor

/-- The newest `n` results, oldest of them first, and the rest. -/
def takeResults (visit : String) (n : Nat) (results : List α) : Run σ (List α × List α) :=
  let newest := results.take n
  if newest.length < n then Run.fail (.missingResults visit)
  else pure (newest.reverse, results.drop n)

def onlyResult (visit : String) : List α → Run σ α
  | [a] => pure a
  | results => Run.fail (.resultCount visit results.length)

def loop (v : Visitor σ α) (visit : String) : List (Frame α) → List α → Run σ α
  | [], results => onlyResult visit results
  | .enter e :: work, results => do
    match ← v.enter e with
    | some a => v.loop visit (.done a :: work) results
    | none => v.loop visit (e.children.map .enter ++ .exit e e.children.length :: work) results
  | .exit e n :: work, results => do
    let (outputs, rest) ← takeResults visit n results
    let a ← v.exit e outputs
    v.loop visit work (a :: rest)
  | .done a :: work, results => v.loop visit work (a :: results)
termination_by work => Frame.totalWeight work
decreasing_by
  · have := e.size_pos
    simp only [Frame.totalWeight, Frame.weight]
    omega
  · exact Frame.totalWeight_children e _ work
  · simp [Frame.totalWeight, Frame.weight]
  · simp [Frame.totalWeight, Frame.weight]

end Visitor

/-! ## Passes

A pass makes a tree of a tree: it may end the visit of a subtree with an edit on the way down, and edits the nodes,
rebuilt around the edits of their children, on the way up. -/

/-- What a pass does with a node. -/
structure Pass (σ : Type) where
  /-- An edit here is the one of the whole subtree, which is not visited, and neither is what the edit puts there. -/
  enter : Expr → Run σ (Option Edit) := fun _ => pure none
  /-- The node, and the edit that the edits of its children make of it. -/
  exit : Expr → Edit → Run σ Edit

def Pass.visitor (p : Pass σ) : Visitor σ Edit where
  enter := p.enter
  exit e edits := do p.exit e (← Run.attempt (e.rebuild edits))

def Expr.transform (p : Pass σ) (e : Expr) : Run σ Edit := p.visitor.loop "pass" [.enter e] []

/-! ## Folding -/

/-- The visit of a fold: a leaf has its result at once. -/
def Visitor.ofCombine (combine : Expr → List α → Run σ α) : Visitor σ α where
  enter e := if e.children.isEmpty then some <$> combine e [] else pure none
  exit := combine

/-- Compute a result for a tree from the results of its children. -/
def Expr.fold (combine : Expr → List α → Run σ α) (e : Expr) : Run σ α :=
  (Visitor.ofCombine combine).loop "fold" [.enter e] []

end Splice
