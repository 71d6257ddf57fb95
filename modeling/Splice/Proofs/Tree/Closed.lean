import Splice.Proofs.Tree.Nodes
import Splice.Proofs.Evaluation.Hereditary
/-!
# Closed trees and closed values

A tree is closed if every parameter in it stands in the body of a lambda that binds the parameter.  What captured values
hold does not belong to the tree, but it comes into play when the tree is evaluated or expanded: a tree is sealed if the
lambdas that its captured values hold are closed and sealed themselves.
-/
namespace Splice

namespace Expr

/-! ## Free parameters -/

def param? : Expr → Option Param
  | .param p => some p
  | _ => none

def captured? : Expr → Option Value
  | .captured _ v _ => some v
  | _ => none

/-- The identities that a node binds in its children. -/
def binders : Expr → List ParamId
  | .lambda params _ => params.map Param.id
  | _ => []

theorem free_iff {e : Expr} {id : ParamId} :
    Free id e ↔ (∃ p ∈ e.param?, p.id = id) ∨ (id ∉ e.binders ∧ ∃ c ∈ e.children, Free id c) := by
  constructor
  · intro h
    cases h with
    | param hp => exact .inl ⟨_, rfl, hp⟩
    | lambda hid hbody => exact .inr ⟨hid, _, List.mem_cons_self, hbody⟩
    | child hnot hc h =>
      refine .inr ⟨?_, _, hc, h⟩
      cases e with
      | lambda params body => exact absurd rfl (hnot params body)
      | _ => exact List.not_mem_nil
  · rintro (⟨p, hp, rfl⟩ | ⟨hid, c, hc, h⟩)
    · cases e with
      | param q =>
        cases hp
        exact .param rfl
      | _ => cases hp
    · cases e with
      | lambda params body =>
        cases List.mem_singleton.1 hc
        exact .lambda hid h
      | _ => exact .child (by simp) hc h

theorem Rebuilds.param?_eq {e e' : Expr} {cs : List Expr} (h : Rebuilds e cs e') : e'.param? = e.param? := by
  cases h <;> rfl

theorem Rebuilds.binders_eq {e e' : Expr} {cs : List Expr} (h : Rebuilds e cs e') : e'.binders = e.binders := by
  cases h <;> rfl

/-- **A node that is rebuilt has the free parameters of its new children, without those that it binds.** -/
theorem Rebuilds.free_iff {e e' : Expr} {cs : List Expr} {id : ParamId} (h : Rebuilds e cs e') :
    Free id e' ↔ (∃ p ∈ e.param?, p.id = id) ∨ (id ∉ e.binders ∧ ∃ c ∈ cs, Free id c) := by
  rw [Expr.free_iff, h.param?_eq, h.binders_eq, h.children]

theorem Free.of_call {reference c : Expr} {actuals : List Expr} {id : ParamId} (hc : c ∈ reference :: actuals)
    (h : Free id c) : Free id (Marker.call reference actuals) := .child (by simp [Marker.call]) hc h

theorem Free.exists_param {e : Expr} {id : ParamId} (h : Free id e) : ∃ p, Within (.param p) e ∧ p.id = id := by
  induction h with
  | @param p hp => exact ⟨p, .self, hp⟩
  | lambda _ _ ih =>
    obtain ⟨p, hp, hid⟩ := ih
    exact ⟨p, .child List.mem_cons_self hp, hid⟩
  | child _ hc _ ih =>
    obtain ⟨p, hp, hid⟩ := ih
    exact ⟨p, .child hc hp, hid⟩

def freeIn (id : ParamId) : (layers : Nat) → Expr → Bool
  | 0, _ => false
  | layers + 1, e => e.param?.any (·.id == id) || (!e.binders.contains id && e.children.any (freeIn id layers))

theorem freeIn_iff {id : ParamId} {layers : Nat} {e : Expr} (h : e.size ≤ layers) :
    freeIn id layers e = true ↔ Free id e := by
  induction layers generalizing e with
  | zero => exact absurd e.size_pos (Nat.not_lt.2 h)
  | succ layers ih =>
    have hchildren : e.children.any (freeIn id layers) = true ↔ ∃ c ∈ e.children, Free id c := by
      rw [List.any_eq_true]
      refine exists_congr fun c => and_congr_right fun hc => ?_
      exact ih (Nat.le_of_lt_succ (Nat.lt_of_lt_of_le (size_lt_of_mem_children hc) h))
    rw [freeIn, free_iff, Bool.or_eq_true, Bool.and_eq_true, hchildren]
    simp [Option.any_eq_true]

instance (id : ParamId) (e : Expr) : Decidable (Free id e) := decidable_of_iff _ (freeIn_iff (Nat.le_refl e.size))

/-! ## Closed trees -/

def Closed (e : Expr) : Prop := ∀ id, ¬ Free id e

theorem closed_iff {e : Expr} : e.Closed ↔ ∀ n, Within n e → ∀ p ∈ n.param?, ¬ Free p.id e := by
  constructor
  · exact fun h n _ p _ => h p.id
  · intro h id hfree
    obtain ⟨p, hp, rfl⟩ := hfree.exists_param
    exact h _ hp p rfl hfree

instance (e : Expr) : Decidable e.Closed := decidable_of_iff _ closed_iff.symm

end Expr

/-! ## The lambdas in a value -/

mutual
def Value.lambdas : Value → List Lambda
  | .null | .bool _ | .int _ | .float _ | .string _ => []
  | .record _ fields => Value.fieldsLambdas fields
  | .list items => Value.itemsLambdas items
  | .lambda params body => [⟨params, body⟩]
termination_by structural v => v
def Value.itemsLambdas : List Value → List Lambda
  | [] => []
  | v :: vs => v.lambdas ++ Value.itemsLambdas vs
termination_by structural vs => vs
def Value.fieldsLambdas : List (String × Value) → List Lambda
  | [] => []
  | (_, v) :: vs => v.lambdas ++ Value.fieldsLambdas vs
termination_by structural vs => vs
end

theorem forall_itemsLambdas_iff {B : Lambda → Prop} {items : List Value} :
    (∀ f ∈ Value.itemsLambdas items, B f) ↔ ∀ v ∈ items, ∀ f ∈ v.lambdas, B f := by
  induction items with
  | nil => simp [Value.itemsLambdas]
  | cons v vs ih => rw [Value.itemsLambdas, List.forall_mem_append, ih, List.forall_mem_cons]

theorem forall_fieldsLambdas_iff {B : Lambda → Prop} {fields : List (String × Value)} :
    (∀ f ∈ Value.fieldsLambdas fields, B f) ↔ ∀ field ∈ fields, ∀ f ∈ field.2.lambdas, B f := by
  induction fields with
  | nil => simp [Value.fieldsLambdas]
  | cons field fields ih => rw [Value.fieldsLambdas, List.forall_mem_append, ih, List.forall_mem_cons]

/-- **A condition on the lambdas in a value is hereditary.** -/
theorem hereditary_lambdas (B : Lambda → Prop) : Hereditary fun v => ∀ f ∈ v.lambdas, B f where
  null _ h := nomatch h
  bool _ _ h := nomatch h
  int _ _ h := nomatch h
  float _ _ h := nomatch h
  string _ _ h := nomatch h
  list _ := forall_itemsLambdas_iff
  record _ _ := forall_fieldsLambdas_iff

theorem forall_lambdas_ofLambda_iff {B : Lambda → Prop} {f : Lambda} :
    (∀ g ∈ (Value.ofLambda f).lambdas, B g) ↔ B f := by
  show (∀ g ∈ [f], B g) ↔ B f
  simp

/-! ## Sealed trees -/

/-- The lambdas that captured values of the tree hold are closed, and their bodies are sealed. -/
inductive Expr.Sealed : Expr → Prop
  | intro {e : Expr} :
      (∀ name v site, Expr.Within (.captured name v site) e → ∀ f ∈ v.lambdas, (Expr.ofLambda f).Closed) →
      (∀ name v site, Expr.Within (.captured name v site) e → ∀ f ∈ v.lambdas, Expr.Sealed f.body) → Expr.Sealed e

def Value.Closed (v : Value) : Prop := ∀ f ∈ v.lambdas, (Expr.ofLambda f).Closed ∧ f.body.Sealed

namespace Expr

def SealedNode (n : Expr) : Prop := ∀ name v site, n = .captured name v site → v.Closed

theorem sealed_iff {e : Expr} : e.Sealed ↔ ∀ n, Within n e → n.SealedNode := by
  constructor
  · rintro ⟨hclosed, hsealed⟩ n hn name v site rfl f hf
    exact ⟨hclosed name v site hn f hf, hsealed name v site hn f hf⟩
  · intro h
    exact ⟨fun name v site hw f hf => (h _ hw name v site rfl f hf).1,
      fun name v site hw f hf => (h _ hw name v site rfl f hf).2⟩

theorem shallow_sealedNode : Shallow SealedNode := by
  intro e cs e' hrebuilds he name v site heq
  subst heq
  cases hrebuilds
  exact he name v site rfl

theorem Sealed.child {e c : Expr} (h : e.Sealed) (hc : c ∈ e.children) : c.Sealed :=
  sealed_iff.2 fun n hn => sealed_iff.1 h n (.child hc hn)

theorem sealed_of_isEmpty {e : Expr}
    (h : ∀ n, Within n e → ∀ v ∈ n.captured?, v.lambdas.isEmpty = true) : e.Sealed := by
  refine sealed_iff.2 fun n hn name v site heq f hf => ?_
  subst heq
  have hnil := List.isEmpty_iff.1 (h _ hn v rfl)
  exact nomatch hnil ▸ hf

theorem Sealed.captured {name : String} {v : Value} {site : Site} (h : Sealed (.captured name v site)) : v.Closed :=
  sealed_iff.1 h _ .self name v site rfl

theorem Rebuilds.sealed {e e' : Expr} {cs : List Expr} (h : Rebuilds e cs e') (he : e.Sealed)
    (hcs : ∀ c ∈ cs, c.Sealed) : e'.Sealed := by
  rw [sealed_iff, all_nodes_iff, h.children]
  exact ⟨shallow_sealedNode e cs e' h (sealed_iff.1 he e .self), fun c hc => sealed_iff.1 (hcs c hc)⟩

end Expr

end Splice
