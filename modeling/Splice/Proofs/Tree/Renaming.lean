import Splice.Proofs.Tree.Nodes
/-!
# Other names for parameters

`Expr.rename` gives every parameter of a tree another display name, where it is bound and where it occurs, and in the
trees that captured values hold too.  The new name may depend on all there is to the parameter; its identity and its type
stay.  Nothing else of a tree changes: a renamed node has the renamed children, and is rebuilt as the node is.

Two trees **differ in names only** if they are one tree when all names are taken away (`Expr.unnamed`).  They may name
each occurrence of a parameter in its own way, which no renaming does.
-/
namespace Splice

def Param.rename (name : Param → String) (p : Param) : Param := { p with name := name p }

mutual
def Value.rename (name : Param → String) : Value → Value
  | .null => .null
  | .bool b => .bool b
  | .int n => .int n
  | .float x => .float x
  | .string s => .string s
  | .record typeName fields => .record typeName (Value.renameFields name fields)
  | .list items => .list (Value.renameAll name items)
  | .lambda params body => .lambda (params.map (Param.rename name)) (body.rename name)
termination_by structural v => v
def Value.renameAll (name : Param → String) : List Value → List Value
  | [] => []
  | v :: vs => v.rename name :: Value.renameAll name vs
termination_by structural vs => vs
def Value.renameFields (name : Param → String) : List (String × Value) → List (String × Value)
  | [] => []
  | (field, v) :: vs => (field, v.rename name) :: Value.renameFields name vs
termination_by structural vs => vs
/-- The tree with other names for its parameters. -/
def Expr.rename (name : Param → String) : Expr → Expr
  | .literal l site => .literal l site
  | .captured held value site => .captured held (value.rename name) site
  | .source s => .source s
  | .param p => .param (p.rename name)
  | .member base field => .member (base.rename name) field
  | .call callee args => .call callee (Expr.renameAll name args)
  | .lambda params body => .lambda (params.map (Param.rename name)) (body.rename name)
  | .unary op operand => .unary op (operand.rename name)
  | .binary op left right => .binary op (left.rename name) (right.rename name)
  | .compare op left right => .compare op (left.rename name) (right.rename name)
  | .cond test yes no => .cond (test.rename name) (yes.rename name) (no.rename name)
  | .record typeName fields => .record typeName (Expr.renameFields name fields)
termination_by structural e => e
def Expr.renameAll (name : Param → String) : List Expr → List Expr
  | [] => []
  | e :: es => e.rename name :: Expr.renameAll name es
termination_by structural es => es
def Expr.renameFields (name : Param → String) : List (String × Expr) → List (String × Expr)
  | [] => []
  | (field, e) :: es => (field, e.rename name) :: Expr.renameFields name es
termination_by structural es => es
end

def Lambda.rename (name : Param → String) (f : Lambda) : Lambda :=
  ⟨f.params.map (Param.rename name), f.body.rename name⟩

def Edit.rename (name : Param → String) : Edit → Edit
  | .keep => .keep
  | .put e => .put (e.rename name)

/-- The tree without the names of its parameters. -/
def Expr.unnamed (e : Expr) : Expr := e.rename fun _ => ""

def Edit.unnamed (edit : Edit) : Edit := edit.rename fun _ => ""

variable {name : Param → String}

theorem Lambda.arity_rename (f : Lambda) : (f.rename name).arity = f.arity := List.length_map _

/-! ## Values -/

namespace Value

theorem typeName_rename (v : Value) : (v.rename name).typeName = v.typeName := by
  cases v <;> rfl

theorem asLambda?_rename (v : Value) : (v.rename name).asLambda? = v.asLambda?.map (Lambda.rename name) := by
  cases v <;> rfl

end Value

/-! ## Trees -/

namespace Expr

theorem renameAll_eq (es : List Expr) : renameAll name es = es.map (rename name) := by
  induction es with
  | nil => rfl
  | cons e es ih => rw [renameAll, ih, List.map_cons]

theorem renameFields_eq (fields : List (String × Expr)) :
    renameFields name fields = (fields.map Prod.fst).zip ((fields.map Prod.snd).map (rename name)) := by
  induction fields with
  | nil => rfl
  | cons field fields ih => rw [renameFields, ih]; rfl

theorem children_rename (e : Expr) : (e.rename name).children = e.children.map (rename name) := by
  cases e with
  | call callee args => exact renameAll_eq args
  | record typeName fields =>
    show (renameFields name fields).map Prod.snd = (fields.map Prod.snd).map (rename name)
    rw [renameFields_eq]
    exact List.map_snd_zip (by simp)
  | _ => rfl

theorem isMarker_rename (e : Expr) : Marker.isMarker (e.rename name) = Marker.isMarker e := by
  cases e with
  | call callee args => cases callee <;> rfl
  | _ => rfl

theorem rename_call (reference : Expr) (actuals : List Expr) :
    (Marker.call reference actuals).rename name =
      Marker.call (reference.rename name) (actuals.map (rename name)) := by
  rw [← renameAll_eq]
  rfl

theorem exists_of_rename_call {e : Expr} {args : List Expr} (h : e.rename name = .call .project args) :
    ∃ args', e = .call .project args' ∧ args'.map (rename name) = args := by
  cases e with
  | call callee args' =>
    obtain ⟨rfl, rfl⟩ := Expr.call.inj h
    exact ⟨args', rfl, (renameAll_eq args').symm⟩
  | _ => cases h

theorem exists_of_rename_cons {e r : Expr} {as : List Expr} (h : e.rename name = Marker.call r as) :
    ∃ reference actuals, e = Marker.call reference actuals ∧ reference.rename name = r ∧
      actuals.map (rename name) = as := by
  obtain ⟨args, rfl, hargs⟩ := exists_of_rename_call h
  obtain ⟨reference, actuals, rfl, hr, has⟩ := List.map_eq_cons_iff.1 hargs
  exact ⟨reference, actuals, rfl, hr, has⟩

/-- **A renamed node is rebuilt around renamed children as the node is around its own.** -/
theorem Rebuilds.rename {e e' : Expr} {cs : List Expr} (h : Rebuilds e cs e') :
    Rebuilds (e.rename name) (cs.map (Expr.rename name)) (e'.rename name) := by
  cases h with
  | call hlen =>
    rw [Expr.rename, Expr.rename, renameAll_eq, renameAll_eq]
    exact .call (by simp [hlen])
  | @record typeName fields cs hlen =>
    have hlength : (cs.map (Expr.rename name)).length = (renameFields name fields).length := by
      simp [renameFields_eq, hlen]
    have hnames : ∀ fields : List (String × Expr), (renameFields name fields).map Prod.fst = fields.map Prod.fst := by
      intro fields
      rw [renameFields_eq]
      exact List.map_fst_zip (by simp)
    have hfields : renameFields name ((fields.map Prod.fst).zip cs) =
        (fields.map Prod.fst).zip (cs.map (Expr.rename name)) := by
      rw [renameFields_eq, List.map_fst_zip (by simp [hlen]), List.map_snd_zip (by simp [hlen])]
    rw [Expr.rename, Expr.rename, hfields, ← hnames fields]
    exact .record hlength
  | _ => constructor

theorem markerFree_rename_iff {e : Expr} : (e.rename name).MarkerFree ↔ e.MarkerFree := by
  induction e using children_induction with
  | node e ih =>
    rw [markerFree_iff, markerFree_iff, isMarker_rename, children_rename, List.forall_mem_map]
    exact and_congr_right fun _ => forall_congr' fun c => forall_congr' fun hc => ih c hc

end Expr

end Splice
