import Splice.Proofs.Tree.Visits
/-!
# Children as a lens

A node is its head and its children (`Expr.eq_of_head`): the head is all that it holds itself, from the operator down to
the names of a record's fields, repeated ones included.  Giving a node new children leaves its head alone, so **reading
gives back what was written, writing what was read changes nothing, and the last writing counts**
(`Node.withChildren_lens`).

Trees are shared, and a pass tells by handles what it changed.  A `Node` is a tree together with the handles of its
children.  New children come as handles too: a child is an edit that keeps the old one exactly if it is the same handle
at the same place, however equal two trees may be.  **The node itself is kept exactly if all its children are.**
-/
namespace Splice

/-! ## Heads -/

/-- What a node is, its children left aside. -/
inductive Head where
  | literal (l : Literal) (site : Site)
  | captured (name : String) (value : Value) (site : Site)
  | source (name : String)
  | param (p : Param)
  | member (name : String)
  | call (callee : Callee)
  | lambda (params : List Param)
  | unary (op : UnaryOp)
  | binary (op : BinaryOp)
  | compare (op : CompareOp)
  | cond
  | record (typeName : String) (names : List String)

namespace Expr

def head : Expr → Head
  | .literal l site => .literal l site
  | .captured name value site => .captured name value site
  | .source name => .source name
  | .param p => .param p
  | .member _ name => .member name
  | .call callee _ => .call callee
  | .lambda params _ => .lambda params
  | .unary op _ => .unary op
  | .binary op _ _ => .binary op
  | .compare op _ _ => .compare op
  | .cond _ _ _ => .cond
  | .record typeName fields => .record typeName (fields.map Prod.fst)

/-- **A node is its head and its children.** -/
theorem eq_of_head {e e' : Expr} (hhead : e'.head = e.head) (hchildren : e'.children = e.children) : e' = e := by
  cases e with
  | record typeName fields =>
    cases e' with
    | record typeName' fields' =>
      obtain ⟨rfl, hnames⟩ := Head.record.inj hhead
      exact congrArg (record typeName') ((List.zip_of_prod hnames hchildren).trans (List.zip_of_prod rfl rfl).symm)
    | _ => cases hhead
  | _ => cases e' <;> simp_all [head, children]

theorem Rebuilds.head_eq {e e' : Expr} {cs : List Expr} (h : Rebuilds e cs e') : e'.head = e.head := by
  cases h with
  | @record typeName fields cs hlen =>
    have hnames : ((fields.map Prod.fst).zip cs).map Prod.fst = fields.map Prod.fst :=
      List.map_fst_zip (by simp [hlen])
    exact congrArg (Head.record typeName) hnames
  | _ => rfl

theorem withChildren_of_length_ne {e : Expr} {cs : List Expr} (h : cs.length ≠ e.children.length) :
    e.withChildren cs = .error (.childCount e.children.length cs.length) := by
  have hnone : e.ofChildren? cs = none := by
    rw [← Option.not_isSome_iff_eq_none, ofChildren?_isSome]
    exact h
  unfold withChildren
  rw [hnone]

end Expr

/-! ## Handles -/

/-- A node in memory: a tree, and the handles of its children.  `tree` is what is held by the handles. -/
structure Node {H : Type} (tree : H → Expr) where
  expr : Expr
  children : List H
  holds : children.map tree = expr.children

namespace Node

variable {H : Type} {tree : H → Expr}

theorem length_children (n : Node tree) : n.children.length = n.expr.children.length := by
  rw [← n.holds, List.length_map]

variable [DecidableEq H]

/-- What the new children are to the old ones. -/
def edits (tree : H → Expr) : List H → List H → List Edit
  | _, [] => []
  | [], new :: news => .put (tree new) :: edits tree [] news
  | old :: olds, new :: news => (if new = old then .keep else .put (tree new)) :: edits tree olds news

/-- Give the node new children. -/
def withChildren (n : Node tree) (cs : List H) : Except Error Edit := n.expr.rebuild (edits tree n.children cs)

/-- The tree that the node is with new children. -/
def rebuilt (n : Node tree) (cs : List H) : Except Error Expr := Edit.result n.expr <$> n.withChildren cs

variable {olds news cs : List H}

theorem length_edits : (edits tree olds news).length = news.length := by
  induction news generalizing olds with
  | nil => cases olds <;> rfl
  | cons new news ih => cases olds <;> exact congrArg (· + 1) ih

theorem zipWith_result_edits (h : news.length = olds.length) :
    List.zipWith Edit.result (olds.map tree) (edits tree olds news) = news.map tree := by
  induction olds generalizing news with
  | nil =>
    cases List.length_eq_zero_iff.1 h
    rfl
  | cons old olds ih =>
    cases news with
    | nil => cases h
    | cons new news =>
      rw [List.map_cons, edits, List.zipWith_cons_cons, ih (Nat.succ.inj h), List.map_cons]
      by_cases hsame : new = old
      · rw [if_pos hsame, hsame]
        rfl
      · rw [if_neg hsame]
        rfl

/-- **All children are kept exactly if every one is the old one at its place.** -/
theorem all_edits_isKeep (h : news.length = olds.length) :
    (edits tree olds news).all Edit.isKeep = true ↔ news = olds := by
  induction olds generalizing news with
  | nil =>
    cases List.length_eq_zero_iff.1 h
    simp [edits]
  | cons old olds ih =>
    cases news with
    | nil => cases h
    | cons new news =>
      rw [edits, List.all_cons, Bool.and_eq_true, ih (Nat.succ.inj h), List.cons.injEq]
      refine and_congr_left fun _ => ?_
      by_cases hsame : new = old <;> simp [hsame, Edit.isKeep]

theorem withChildren_spec {n : Node tree} (h : cs.length = n.children.length) :
    ∃ edit, n.withChildren cs = .ok edit ∧ n.expr.Rebuilds (cs.map tree) (edit.result n.expr) ∧
      (edit = .keep ↔ cs = n.children) := by
  have hlen : (edits tree n.children cs).length = n.expr.children.length := by
    rw [length_edits, h, n.length_children]
  obtain ⟨edit, hedit, hrebuilds, hkeep⟩ := Expr.rebuild_spec hlen
  rw [← n.holds, zipWith_result_edits h] at hrebuilds
  refine ⟨edit, hedit, hrebuilds, ?_⟩
  rw [← all_edits_isKeep h, ← hkeep]
  cases edit <;> simp [Edit.isKeep]

theorem withChildren_of_length_ne {n : Node tree} (h : cs.length ≠ n.children.length) :
    n.withChildren cs = .error (.childCount n.children.length cs.length) := by
  unfold withChildren Expr.rebuild
  rw [length_edits, ← n.length_children, if_pos h.symm]

/-- The tree does not depend on what is shared. -/
theorem rebuilt_eq (n : Node tree) (cs : List H) : n.rebuilt cs = n.expr.withChildren (cs.map tree) := by
  unfold rebuilt
  by_cases h : cs.length = n.children.length
  · obtain ⟨edit, hedit, hrebuilds, -⟩ := withChildren_spec h
    rw [hedit, Expr.withChildren_eq_ok_iff.2 hrebuilds]
    rfl
  · have hlen : (cs.map tree).length ≠ n.expr.children.length := by
      rw [List.length_map, ← n.length_children]
      exact h
    rw [withChildren_of_length_ne h, Expr.withChildren_of_length_ne hlen, List.length_map, n.length_children]
    rfl

/-- **Children are a lens.**  A list of another length is refused.  A list of the same length gives the one tree that
has the head of the node and these children, the node itself exactly if the children are its own by handle; and new
children are not seen any more once there are newer ones. -/
theorem withChildren_lens (n : Node tree) (cs : List H) :
    ((∃ what, n.withChildren cs = .error (.internal what)) ↔ cs.length ≠ n.children.length) ∧
    (cs.length = n.children.length → ∃ (edit : Edit) (n' : Node tree),
      n.withChildren cs = .ok edit ∧ n'.expr = edit.result n.expr ∧ n'.children = cs ∧
      n'.expr.head = n.expr.head ∧ (∀ t : Expr, t.head = n.expr.head → t.children = cs.map tree → t = n'.expr) ∧
      (edit = .keep ↔ cs = n.children) ∧
      ∀ ds, n'.rebuilt ds = n.rebuilt ds) := by
  refine ⟨⟨?_, fun h => ⟨_, withChildren_of_length_ne h⟩⟩, fun h => ?_⟩
  · rintro ⟨what, hwhat⟩ hlen
    obtain ⟨edit, hedit, -⟩ := withChildren_spec hlen
    cases hedit.symm.trans hwhat
  · obtain ⟨edit, hedit, hrebuilds, hkeep⟩ := withChildren_spec h
    refine ⟨edit, ⟨edit.result n.expr, cs, hrebuilds.children.symm⟩, hedit, rfl, rfl, hrebuilds.head_eq, ?_, hkeep, ?_⟩
    · exact fun t hhead hchildren => Expr.eq_of_head (hhead.trans hrebuilds.head_eq.symm)
        (hchildren.trans hrebuilds.children.symm)
    · intro ds
      rw [rebuilt_eq, rebuilt_eq]
      exact hrebuilds.withChildren_eq _

/-- A sum of two ones that are apart in memory. -/
def onePlusOne : Node fun _ : Nat => .literal (.int 1) ⟨0⟩ := ⟨.binary .add _ _, [0, 1], rfl⟩

/-- With one of them in both places it is another node, and the same tree. -/
theorem withChildren_lens_sharedOne :
    [0, 0].length = onePlusOne.children.length ∧
      ∃ edit, onePlusOne.withChildren [0, 0] = .ok edit ∧ edit ≠ .keep ∧
        edit.result onePlusOne.expr = onePlusOne.expr := by
  have hlen : [0, 0].length = onePlusOne.children.length := rfl
  obtain ⟨edit, n', hedit, hexpr, -, -, honly, hkeep, -⟩ := (withChildren_lens onePlusOne [0, 0]).2 hlen
  refine ⟨hlen, edit, hedit, fun h => ?_, ?_⟩
  · exact absurd (hkeep.1 h) (by decide)
  · rw [← hexpr, ← honly onePlusOne.expr rfl rfl]

end Node

end Splice
