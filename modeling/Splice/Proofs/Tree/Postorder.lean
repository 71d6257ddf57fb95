import Splice.Proofs.Tree.Visits
/-!
# Nodes in postorder

`Expr.postorder` lists the nodes of a tree in the order in which a visit leaves them: the nodes of the children from
left to right, then the node itself.  A tree that stands in two places is listed twice, so what is counted in the list
is counted by occurrence.

**A fold that may refuse a node refuses the first one in this order** (`Expr.fold_eq_findSome?`), whatever it makes of
the others.
-/
namespace Splice

open Run

variable {σ α : Type}

namespace Expr

mutual
/-- The nodes of a tree, every node after those of its children. -/
def postorder : Expr → List Expr
  | .literal l site => [.literal l site]
  | .captured name value site => [.captured name value site]
  | .source name => [.source name]
  | .param p => [.param p]
  | .member base name => postorder base ++ [.member base name]
  | .call callee args => postorderAll args ++ [.call callee args]
  | .lambda params body => postorder body ++ [.lambda params body]
  | .unary op operand => postorder operand ++ [.unary op operand]
  | .binary op left right => postorder left ++ postorder right ++ [.binary op left right]
  | .compare op left right => postorder left ++ postorder right ++ [.compare op left right]
  | .cond test yes no => postorder test ++ postorder yes ++ postorder no ++ [.cond test yes no]
  | .record typeName fields => postorderFields fields ++ [.record typeName fields]
termination_by structural e => e
def postorderAll : List Expr → List Expr
  | [] => []
  | e :: es => postorder e ++ postorderAll es
termination_by structural es => es
def postorderFields : List (String × Expr) → List Expr
  | [] => []
  | (_, e) :: es => postorder e ++ postorderFields es
termination_by structural es => es
end

theorem postorderAll_eq (es : List Expr) : postorderAll es = es.flatMap postorder := by
  induction es with
  | nil => rfl
  | cons e es ih => rw [postorderAll, ih, List.flatMap_cons]

theorem postorderFields_eq (fields : List (String × Expr)) :
    postorderFields fields = (fields.map Prod.snd).flatMap postorder := by
  induction fields with
  | nil => rfl
  | cons field fields ih => rw [postorderFields, ih, List.map_cons, List.flatMap_cons]

/-- **The nodes of the children, then the node.** -/
theorem postorder_eq (e : Expr) : e.postorder = e.children.flatMap postorder ++ [e] := by
  cases e <;> simp [postorder, children, postorderAll_eq, postorderFields_eq]

theorem mem_postorder_iff {n e : Expr} : n ∈ e.postorder ↔ Within n e := by
  induction e using children_induction with
  | node e ih =>
    rw [postorder_eq, List.mem_append, List.mem_flatMap, List.mem_singleton]
    constructor
    · rintro (⟨c, hc, hn⟩ | rfl)
      · exact .child hc ((ih c hc).1 hn)
      · exact .self
    · intro h
      cases h with
      | self => exact .inr rfl
      | child hc hn => exact .inl ⟨_, hc, (ih _ hc).2 hn⟩

theorem countP_postorder (p : Expr → Bool) (e : Expr) :
    e.postorder.countP p = (e.children.map fun c => c.postorder.countP p).foldr (· + ·) (p e).toNat := by
  have hall : ∀ es : List Expr, (es.flatMap postorder ++ [e]).countP p =
      (es.map fun c => c.postorder.countP p).foldr (· + ·) (p e).toNat := by
    intro es
    induction es with
    | nil => cases hp : p e <;> simp [hp]
    | cons c es ih => rw [List.flatMap_cons, List.append_assoc, List.countP_append, ih, List.map_cons, List.foldr_cons]
  rw [postorder_eq, hall]

end Expr

/-! ## Folds that may refuse a node -/

/-- The value, unless something is wrong. -/
def Run.barring (fault : Option Error) (a : α) : Run σ α :=
  match fault with
  | some cause => fail cause
  | none => pure a

theorem Run.outcome_barring (fault : Option Error) (a : α) (s : σ) :
    (Run.barring fault a).outcome s = (fault.map Halt.error).elim (.ok a) .error := by
  cases fault <;> rfl

namespace Expr

variable {combine : Expr → List α → Run σ α} {product : Expr → α} {fault : Expr → Option Error}

theorem visitAll_eq_findSome? {es : List Expr}
    (h : ∀ e ∈ es, (Visitor.ofCombine combine).visit e = Run.barring (e.postorder.findSome? fault) (product e)) :
    (Visitor.ofCombine combine).visitAll es =
      Run.barring ((es.flatMap postorder).findSome? fault) (es.map product) := by
  induction es with
  | nil => rfl
  | cons e es ih =>
    rw [Visitor.visitAll, h e List.mem_cons_self, ih fun c hc => h c (List.mem_cons_of_mem e hc), List.flatMap_cons,
      List.findSome?_append, List.map_cons]
    cases e.postorder.findSome? fault <;> cases (es.flatMap postorder).findSome? fault <;> rfl

/-- **A fold that judges every node by the products of its children refuses the first node that is at fault**, and gives
the product of the tree if none is. -/
theorem fold_eq_findSome? (h : ∀ e, combine e (e.children.map product) = Run.barring (fault e) (product e)) (e : Expr) :
    e.fold combine = Run.barring (e.postorder.findSome? fault) (product e) := by
  rw [fold, Visitor.loop_eq_visit]
  induction e using children_induction with
  | node e ih =>
    have hself : [e].findSome? fault = fault e := List.findSome?_singleton
    rw [Visitor.visit_eq, visitAll_eq_findSome? ih, postorder_eq, List.findSome?_append, hself]
    have hnode := h e
    simp only [Visitor.around, Visitor.ofCombine]
    by_cases hleaf : e.children.isEmpty = true
    · rw [if_pos hleaf]
      rw [List.isEmpty_iff.1 hleaf] at hnode ⊢
      rw [List.map_nil] at hnode
      rw [hnode]
      cases fault e <;> rfl
    · rw [if_neg hleaf, pure_bind]
      cases (e.children.flatMap postorder).findSome? fault with
      | some cause => rfl
      | none => exact hnode

end Expr

end Splice
