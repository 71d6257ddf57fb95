import Splice.Tree.Basic
/-!
# Children, and rebuilding a node around new ones

Every node lists its children in a fixed order (`Expr.children`) and can be rebuilt around as many new ones
(`Expr.withChildren`); what a captured value holds is not a child.  The two are a lens: **the rebuilt node has exactly
the new children, and rebuilding it again forgets the first time**.

A pass over a tree must be able to say that it changed nothing, which equality of trees cannot tell.  So the outcome of
a pass on a node is an `Edit`: the node was kept, or something was put in its place.  `Expr.rebuild` keeps a node
exactly when every child was kept, so an edit is `keep` for a whole subtree that no pass touched.
-/
namespace Splice

/-- What a pass made of a node. -/
inductive Edit where
  | keep
  | put (e : Expr)

namespace Edit

/-- A tree is the edit that puts it in the place of the node. -/
instance : Coe Expr Edit := ⟨.put⟩

def result (before : Expr) : Edit → Expr
  | .keep => before
  | .put e => e

def isKeep : Edit → Bool
  | .keep => true
  | .put _ => false

end Edit

namespace Expr

def children : Expr → List Expr
  | .literal .. | .captured .. | .source _ | .param _ => []
  | .member base _ => [base]
  | .call _ args => args
  | .lambda _ body => [body]
  | .unary _ operand => [operand]
  | .binary _ left right => [left, right]
  | .compare _ left right => [left, right]
  | .cond test yes no => [test, yes, no]
  | .record _ fields => fields.map Prod.snd

/-- The node with new children in the place of its own; none if their number differs. -/
def ofChildren? : Expr → List Expr → Option Expr
  | .literal l site, [] => some (.literal l site)
  | .captured name value site, [] => some (.captured name value site)
  | .source name, [] => some (.source name)
  | .param p, [] => some (.param p)
  | .member _ name, [base] => some (.member base name)
  | .call callee args, cs => if cs.length = args.length then some (.call callee cs) else none
  | .lambda params _, [body] => some (.lambda params body)
  | .unary op _, [operand] => some (.unary op operand)
  | .binary op _ _, [left, right] => some (.binary op left right)
  | .compare op _ _, [left, right] => some (.compare op left right)
  | .cond _ _ _, [test, yes, no] => some (.cond test yes no)
  | .record typeName fields, cs =>
    if cs.length = fields.length then some (.record typeName ((fields.map Prod.fst).zip cs)) else none
  | _, _ => none

/-- The node with new children in the place of its own. -/
def withChildren (e : Expr) (cs : List Expr) : Except Error Expr :=
  match e.ofChildren? cs with
  | some e' => .ok e'
  | none => .error (.childCount e.children.length cs.length)

/-- The node after an edit of each of its children. -/
def rebuild (e : Expr) (edits : List Edit) : Except Error Edit :=
  if e.children.length ≠ edits.length then .error (.childCount e.children.length edits.length)
  else if edits.all Edit.isKeep then .ok .keep
  else Edit.put <$> e.withChildren (List.zipWith Edit.result e.children edits)

/-! ## Size -/

mutual
def size : Expr → Nat
  | .literal .. | .captured .. | .source _ | .param _ => 1
  | .member base _ => base.size + 1
  | .call _ args => sizeAll args + 1
  | .lambda _ body => body.size + 1
  | .unary _ operand => operand.size + 1
  | .binary _ left right => left.size + right.size + 1
  | .compare _ left right => left.size + right.size + 1
  | .cond test yes no => test.size + yes.size + no.size + 1
  | .record _ fields => sizeFields fields + 1
termination_by structural e => e
def sizeAll : List Expr → Nat
  | [] => 0
  | e :: es => e.size + sizeAll es
termination_by structural es => es
def sizeFields : List (String × Expr) → Nat
  | [] => 0
  | (_, e) :: es => e.size + sizeFields es
termination_by structural es => es
end

theorem sizeFields_eq : ∀ fields : List (String × Expr), sizeFields fields = sizeAll (fields.map Prod.snd)
  | [] => rfl
  | (_, e) :: es => by simp [sizeFields, sizeAll, sizeFields_eq es]

/-- **A node is one more than its children together.** -/
theorem size_eq (e : Expr) : e.size = sizeAll e.children + 1 := by
  cases e <;> simp [size, children, sizeAll, sizeFields_eq, Nat.add_assoc]

theorem size_pos (e : Expr) : 0 < e.size := by simp [size_eq e]

theorem size_le_sizeAll {c : Expr} : ∀ {es : List Expr}, c ∈ es → c.size ≤ sizeAll es
  | e :: es, h => by
    rcases List.mem_cons.1 h with rfl | h
    · simp [sizeAll]
    · have := size_le_sizeAll h
      simp only [sizeAll]
      omega

theorem size_lt_of_mem_children {c e : Expr} (h : c ∈ e.children) : c.size < e.size := by
  have := size_le_sizeAll h
  have := e.size_eq
  omega

/-! ## The lens -/

/-- **A node takes exactly as many children as it has.** -/
theorem ofChildren?_isSome (e : Expr) (cs : List Expr) :
    (e.ofChildren? cs).isSome ↔ cs.length = e.children.length := by
  cases e <;> rcases cs with _ | ⟨a, _ | ⟨b, _ | ⟨c, _ | ⟨d, cs⟩⟩⟩⟩ <;> simp [ofChildren?, children]

theorem children_of_ofChildren? {e e' : Expr} {cs : List Expr} (h : e.ofChildren? cs = some e') :
    e'.children = cs := by
  unfold ofChildren? at h
  split at h
  case h_6 =>
    split at h
    · obtain rfl := Option.some.inj h
      rfl
    · cases h
  case h_12 =>
    split at h
    case isTrue hlen =>
      obtain rfl := Option.some.inj h
      exact List.map_snd_zip (by simp [hlen])
    · cases h
  all_goals
    first
    | obtain rfl := Option.some.inj h
      rfl
    | cases h

end Expr

end Splice
