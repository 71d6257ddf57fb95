import Splice.Marker
import Splice.Tree.Recursion
/-!
# The nodes of a tree

A node of a tree is the tree itself or a node of one of its children, so a law about all trees is proved from the
children up (`Expr.children_induction`) and a condition on all nodes is checked node by node (`Expr.all_nodes_iff`).
What a captured value holds is not a node.

Three conditions on trees are stated here with it: no node is a marker call, no lambda node binds an identity, and a
parameter occurs outside every lambda that binds it.
-/
namespace Splice

/-- Three lists of one length, related place by place. -/
inductive Pointwise {α β γ : Type} (Q : α → β → γ → Prop) : List α → List β → List γ → Prop
  | nil : Pointwise Q [] [] []
  | cons {a b c as bs cs} : Q a b c → Pointwise Q as bs cs → Pointwise Q (a :: as) (b :: bs) (c :: cs)

theorem Pointwise.lengths {α β γ : Type} {Q : α → β → γ → Prop} {as : List α} {bs : List β} {cs : List γ}
    (h : Pointwise Q as bs cs) : bs.length = as.length ∧ cs.length = as.length := by
  induction h with
  | nil => exact ⟨rfl, rfl⟩
  | cons _ _ ih => exact ⟨congrArg (· + 1) ih.1, congrArg (· + 1) ih.2⟩

theorem mem_of_lookup {α : Type} {entries : List (ParamId × α)} {id : ParamId} {a : α}
    (h : List.lookup id entries = some a) : (id, a) ∈ entries := by
  obtain ⟨before, after, rfl, -⟩ := List.lookup_eq_some_iff.1 h
  exact List.mem_append_right _ List.mem_cons_self

theorem lookup_map_snd {α β : Type} (f : α → β) (entries : List (ParamId × α)) (id : ParamId) :
    List.lookup id (entries.map fun entry => (entry.1, f entry.2)) = (List.lookup id entries).map f := by
  induction entries with
  | nil => rfl
  | cons entry entries ih =>
    rw [List.map_cons, List.lookup_cons, List.lookup_cons, ih]
    show (match id == entry.1 with | true => some (f entry.2) | false => _) = _
    cases id == entry.1 <;> rfl

namespace Expr

/-- **A law that passes from the children of a node to the node holds of every tree.** -/
theorem children_induction {motive : Expr → Prop} (node : ∀ e, (∀ c ∈ e.children, motive c) → motive e) (e : Expr) :
    motive e :=
  node e fun c hc =>
    have := size_lt_of_mem_children hc
    children_induction node c
termination_by e.size

theorem exists_succ_of_size_le {e : Expr} {m : Nat} (h : e.size ≤ m) : ∃ k, m = k + 1 :=
  Nat.exists_eq_succ_of_ne_zero (Nat.ne_of_gt (Nat.lt_of_lt_of_le e.size_pos h))

/-! ## Rebuilding a node -/

/-- `e'` is the node `e` with the children `cs` in the place of its own. -/
inductive Rebuilds : Expr → List Expr → Expr → Prop
  | literal {l site} : Rebuilds (.literal l site) [] (.literal l site)
  | captured {name value site} : Rebuilds (.captured name value site) [] (.captured name value site)
  | source {name} : Rebuilds (.source name) [] (.source name)
  | param {p} : Rebuilds (.param p) [] (.param p)
  | member {base name base'} : Rebuilds (.member base name) [base'] (.member base' name)
  | call {callee args args'} : args'.length = args.length → Rebuilds (.call callee args) args' (.call callee args')
  | lambda {params body body'} : Rebuilds (.lambda params body) [body'] (.lambda params body')
  | unary {op operand operand'} : Rebuilds (.unary op operand) [operand'] (.unary op operand')
  | binary {op left right left' right'} : Rebuilds (.binary op left right) [left', right'] (.binary op left' right')
  | compare {op left right left' right'} : Rebuilds (.compare op left right) [left', right'] (.compare op left' right')
  | cond {test yes no test' yes' no'} : Rebuilds (.cond test yes no) [test', yes', no'] (.cond test' yes' no')
  | record {typeName fields cs} : cs.length = fields.length →
      Rebuilds (.record typeName fields) cs (.record typeName ((fields.map Prod.fst).zip cs))

/-- **`ofChildren?` rebuilds nodes, and nothing else.** -/
theorem ofChildren?_eq_some_iff {e e' : Expr} {cs : List Expr} : e.ofChildren? cs = some e' ↔ Rebuilds e cs e' := by
  constructor
  · intro h
    unfold ofChildren? at h
    split at h
    case h_6 =>
      split at h
      case isTrue hlen =>
        cases h
        exact .call hlen
      case isFalse => cases h
    case h_12 =>
      split at h
      case isTrue hlen =>
        cases h
        exact .record hlen
      case isFalse => cases h
    case h_13 => cases h
    all_goals
      cases h
      constructor
  · intro h
    cases h with
    | call hlen => simp [ofChildren?, hlen]
    | record hlen => simp [ofChildren?, hlen]
    | _ => rfl

theorem rebuilds_children (e : Expr) : Rebuilds e e.children e := by
  cases e with
  | record typeName fields =>
    have hfields : (fields.map Prod.fst).zip (fields.map Prod.snd) = fields := by
      rw [List.zip_map']
      simp
    have h : Rebuilds (.record typeName fields) (fields.map Prod.snd) (.record typeName _) := .record (by simp)
    rwa [hfields] at h
  | call => exact .call rfl
  | _ => constructor

theorem Rebuilds.children {e e' : Expr} {cs : List Expr} (h : Rebuilds e cs e') : e'.children = cs :=
  children_of_ofChildren? (ofChildren?_eq_some_iff.2 h)

theorem Rebuilds.length {e e' : Expr} {cs : List Expr} (h : Rebuilds e cs e') : cs.length = e.children.length :=
  (ofChildren?_isSome e cs).1 (by rw [ofChildren?_eq_some_iff.2 h]; rfl)

theorem exists_rebuilds {e : Expr} {cs : List Expr} (h : cs.length = e.children.length) : ∃ e', Rebuilds e cs e' := by
  obtain ⟨e', he'⟩ := Option.isSome_iff_exists.1 ((ofChildren?_isSome e cs).2 h)
  exact ⟨e', ofChildren?_eq_some_iff.1 he'⟩

theorem withChildren_eq_ok_iff {e e' : Expr} {cs : List Expr} : e.withChildren cs = .ok e' ↔ Rebuilds e cs e' := by
  rw [← ofChildren?_eq_some_iff]
  unfold withChildren
  split <;> simp_all

theorem Rebuilds.unique {e a b : Expr} {cs : List Expr} (ha : Rebuilds e cs a) (hb : Rebuilds e cs b) : a = b := by
  rw [← ofChildren?_eq_some_iff] at ha hb
  exact Option.some.inj (ha.symm.trans hb)

/-- A node that was rebuilt is rebuilt again like the first one. -/
theorem Rebuilds.withChildren_eq {e e' : Expr} {cs : List Expr} (h : Rebuilds e cs e') (ds : List Expr) :
    e'.withChildren ds = e.withChildren ds := by
  have hof : e'.ofChildren? ds = e.ofChildren? ds := by
    cases h with
    | call hlen => simp only [ofChildren?, hlen]
    | @record typeName fields _ hlen =>
      have hnames : ((fields.map Prod.fst).zip cs).map Prod.fst = fields.map Prod.fst :=
        List.map_fst_zip (by simp [hlen])
      simp only [ofChildren?, hnames, List.length_zip, List.length_map, hlen, Nat.min_self]
    | _ => rcases ds with _ | ⟨a, _ | ⟨b, _ | ⟨c, _ | ⟨d, ds⟩⟩⟩⟩ <;> rfl
  unfold Expr.withChildren
  rw [hof, h.children, h.length]

theorem Rebuilds.isMarker {e e' : Expr} {cs : List Expr} (h : Rebuilds e cs e') :
    Marker.isMarker e' = Marker.isMarker e := by
  cases h with
  | @call callee => cases callee <;> rfl
  | _ => rfl

theorem isMarker_iff {e : Expr} : Marker.isMarker e = true ↔ ∃ args, e = .call .project args := by
  constructor
  · intro h
    unfold Marker.isMarker at h
    split at h
    · exact ⟨_, rfl⟩
    · cases h
  · rintro ⟨args, rfl⟩
    rfl

theorem Rebuilds.of_call {e r : Expr} {cs as : List Expr} (h : Rebuilds e cs (Marker.call r as)) :
    cs = r :: as ∧ ∃ reference actuals, e = Marker.call reference actuals := by
  cases h with
  | @call _ args _ hlen =>
    cases args with
    | nil => cases hlen
    | cons reference actuals => exact ⟨rfl, reference, actuals, rfl⟩

/-! ## Nodes -/

/-- `n` is a node of the tree: the tree itself, or a node of one of its children. -/
inductive Within (n : Expr) : Expr → Prop
  | self : Within n n
  | child {e c : Expr} : c ∈ e.children → Within n c → Within n e

theorem all_nodes_iff {P : Expr → Prop} {e : Expr} :
    (∀ n, Within n e → P n) ↔ P e ∧ ∀ c ∈ e.children, ∀ n, Within n c → P n := by
  constructor
  · intro h
    exact ⟨h e .self, fun c hc n hn => h n (.child hc hn)⟩
  · rintro ⟨he, hc⟩ n hn
    cases hn with
    | self => exact he
    | child hmem hn => exact hc _ hmem n hn

/-- Whether all nodes are as stated, in so many layers of the tree. -/
def everyNode (p : Expr → Bool) : (layers : Nat) → Expr → Bool
  | 0, _ => false
  | layers + 1, e => p e && e.children.all (everyNode p layers)

theorem everyNode_iff {p : Expr → Bool} {layers : Nat} {e : Expr} (h : e.size ≤ layers) :
    everyNode p layers e = true ↔ ∀ n, Within n e → p n = true := by
  induction layers generalizing e with
  | zero => exact absurd e.size_pos (Nat.not_lt.2 h)
  | succ layers ih =>
    rw [everyNode, Bool.and_eq_true, List.all_eq_true, all_nodes_iff]
    refine and_congr_right fun _ => forall_congr' fun c => forall_congr' fun hc => ?_
    exact ih (Nat.le_of_lt_succ (Nat.lt_of_lt_of_le (size_lt_of_mem_children hc) h))

instance {P : Expr → Prop} [DecidablePred P] (e : Expr) : Decidable (∀ n, Within n e → P n) :=
  decidable_of_iff (everyNode (fun n => decide (P n)) e.size e = true) (by simp [everyNode_iff (Nat.le_refl e.size)])

/-- A condition on a node that does not look at its children. -/
def Shallow (P : Expr → Prop) : Prop := ∀ e cs e', Rebuilds e cs e' → P e → P e'

/-- No node is a marker call. -/
def MarkerFree (e : Expr) : Prop := ∀ n, Within n e → Marker.isMarker n = false

instance (e : Expr) : Decidable e.MarkerFree := inferInstanceAs (Decidable (∀ n, Within n e → _))

theorem markerFree_iff {e : Expr} : e.MarkerFree ↔ Marker.isMarker e = false ∧ ∀ c ∈ e.children, c.MarkerFree :=
  all_nodes_iff

theorem shallow_not_marker : Shallow fun e => Marker.isMarker e = false :=
  fun _ _ _ hrebuilds he => hrebuilds.isMarker.trans he

theorem markerFree_leaf {e : Expr} (hmarker : Marker.isMarker e = false) (hchildren : e.children = []) :
    e.MarkerFree := markerFree_iff.2 ⟨hmarker, by simp [hchildren]⟩

theorem MarkerFree.child {e c : Expr} (h : e.MarkerFree) (hc : c ∈ e.children) : c.MarkerFree :=
  (markerFree_iff.1 h).2 c hc

/-- A lambda node of the tree has a parameter of this identity. -/
def Binds (e : Expr) (id : ParamId) : Prop :=
  ∃ params body, Within (.lambda params body) e ∧ id ∈ params.map Param.id

/-- The identities that the node itself binds. -/
def formals : Expr → List ParamId
  | .lambda params _ => params.map Param.id
  | _ => []

theorem forall_binds_iff {P : ParamId → Prop} {e : Expr} :
    (∀ id, e.Binds id → P id) ↔ ∀ n, Within n e → ∀ id ∈ n.formals, P id := by
  constructor
  · intro h n hn id hid
    cases n with
    | lambda params body => exact h id ⟨params, body, hn, hid⟩
    | _ => cases hid
  · rintro h id ⟨params, body, hn, hid⟩
    exact h _ hn id hid

theorem Binds.child {e c : Expr} {id : ParamId} (hc : c ∈ e.children) (h : c.Binds id) : e.Binds id := by
  obtain ⟨params, body, hw, hid⟩ := h
  exact ⟨params, body, .child hc hw, hid⟩

/-- A parameter of this identity occurs outside every lambda node that binds the identity. -/
inductive Free (id : ParamId) : Expr → Prop
  | param {p : Param} : p.id = id → Free id (.param p)
  | lambda {params : List Param} {body : Expr} : id ∉ params.map Param.id → Free id body → Free id (.lambda params body)
  | child {e c : Expr} : (∀ params body, e ≠ .lambda params body) → c ∈ e.children → Free id c → Free id e

end Expr

end Splice
