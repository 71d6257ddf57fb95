import Splice.Tree.Visit
/-!
# The visit of a tree as a recursion

`Visitor.visit` says what a visit does without any stack: enter the node; if that gives no result, visit the children
from left to right and leave the node with their results.  **The loop does the same** (`Visitor.loop_eq_visit`): the
same calls in the same order on the same states, with the same result or the same stop.  So the loop ends with exactly
one result, and never misses one.
-/
namespace Splice.Visitor

variable {σ α : Type}

/-- Meet a node whose children are visited by `visitChildren`. -/
def around (v : Visitor σ α) (e : Expr) (visitChildren : Run σ (List α)) : Run σ α := do
  match ← v.enter e with
  | some a => pure a
  | none => v.exit e (← visitChildren)

mutual
def visit (v : Visitor σ α) : Expr → Run σ α
  | .literal l site => v.around (.literal l site) (pure [])
  | .captured name value site => v.around (.captured name value site) (pure [])
  | .source name => v.around (.source name) (pure [])
  | .param p => v.around (.param p) (pure [])
  | .member base name => v.around (.member base name) do return [← v.visit base]
  | .call callee args => v.around (.call callee args) (v.visitAll args)
  | .lambda params body => v.around (.lambda params body) do return [← v.visit body]
  | .unary op operand => v.around (.unary op operand) do return [← v.visit operand]
  | .binary op left right => v.around (.binary op left right) do
    let a ← v.visit left
    let b ← v.visit right
    return [a, b]
  | .compare op left right => v.around (.compare op left right) do
    let a ← v.visit left
    let b ← v.visit right
    return [a, b]
  | .cond test yes no => v.around (.cond test yes no) do
    let a ← v.visit test
    let b ← v.visit yes
    let c ← v.visit no
    return [a, b, c]
  | .record typeName fields => v.around (.record typeName fields) (v.visitFields fields)
termination_by structural e => e
def visitAll (v : Visitor σ α) : List Expr → Run σ (List α)
  | [] => pure []
  | e :: es => do
    let a ← v.visit e
    let as ← v.visitAll es
    return a :: as
termination_by structural es => es
def visitFields (v : Visitor σ α) : List (String × Expr) → Run σ (List α)
  | [] => pure []
  | (_, e) :: es => do
    let a ← v.visit e
    let as ← v.visitFields es
    return a :: as
termination_by structural es => es
end

theorem visitFields_eq (v : Visitor σ α) (fields : List (String × Expr)) :
    v.visitFields fields = v.visitAll (fields.map Prod.snd) := by
  induction fields with
  | nil => rfl
  | cons field fields ih => simp [visitFields, visitAll, ih]

/-- **One rule for every node.** -/
theorem visit_eq (v : Visitor σ α) (e : Expr) : v.visit e = v.around e (v.visitAll e.children) := by
  cases e <;> simp [visit, Expr.children, visitAll, visitFields_eq]

/-! ## The loop does what the recursion does -/

/-- What follows a visit of trees may rely on one result for each. -/
theorem visitAll_bind_congr {β : Type} (v : Visitor σ α) {f g : List α → Run σ β} :
    ∀ es : List Expr, (∀ as, as.length = es.length → f as = g as) → v.visitAll es >>= f = v.visitAll es >>= g
  | [], h => by simp [visitAll, h]
  | e :: es, h => by
    simp only [visitAll, bind_assoc, pure_bind]
    congr 1; funext a
    exact visitAll_bind_congr v es fun as has => h (a :: as) (by simp [has])

theorem takeResults_append (visit : String) (as results : List α) :
    takeResults (σ := σ) visit as.length (as.reverse ++ results) = pure (as, results) := by
  simp [takeResults]

/-- Frames to enter trees leave one result for each on the result stack, if each by itself does. -/
theorem loop_children (v : Visitor σ α) (visit : String) (es : List Expr)
    (ih : ∀ e ∈ es, ∀ work results,
      v.loop visit (.enter e :: work) results = v.visit e >>= fun a => v.loop visit work (a :: results))
    (work : List (Frame α)) (results : List α) :
    v.loop visit (es.map .enter ++ work) results =
      v.visitAll es >>= fun as => v.loop visit work (as.reverse ++ results) := by
  induction es generalizing results with
  | nil => simp [visitAll]
  | cons e es ihs =>
    simp only [List.map_cons, List.cons_append, visitAll, bind_assoc, pure_bind]
    rw [ih e (by simp)]
    congr 1; funext a
    rw [ihs fun c hc => ih c (by simp [hc])]
    simp

/-- **A frame to enter a tree is a visit of the tree, whose result goes onto the result stack.** -/
theorem loop_enter (v : Visitor σ α) (visit : String) (e : Expr) (work : List (Frame α)) (results : List α) :
    v.loop visit (.enter e :: work) results = v.visit e >>= fun a => v.loop visit work (a :: results) := by
  rw [visit_eq, loop]
  simp only [around, bind_assoc]
  congr 1; funext r
  cases r with
  | some a => simp [loop]
  | none =>
    dsimp only
    rw [loop_children v visit e.children fun c hc work results =>
      have := Expr.size_lt_of_mem_children hc
      loop_enter v visit c work results]
    rw [bind_assoc]
    refine visitAll_bind_congr v e.children fun as has => ?_
    rw [loop, ← has, takeResults_append, pure_bind]
termination_by e.size

/-- **The loop is the recursion.** -/
theorem loop_eq_visit (v : Visitor σ α) (visit : String) (e : Expr) : v.loop visit [.enter e] [] = v.visit e := by
  rw [loop_enter]
  simp [loop, onlyResult]

end Splice.Visitor
