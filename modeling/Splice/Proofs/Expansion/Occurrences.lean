import Splice.Proofs.Expansion.Replacement
import Splice.Proofs.Tree.Closed
import Splice.Proofs.Tree.Postorder
import Mathlib.Algebra.BigOperators.Group.Finset.Piecewise
/-!
# What a substitution replaces

A substitution is applied to every node of a tree once.  An occurrence of one of its parameters gives way to the tree of
the parameter, as this tree is; every other node stays one node (`Substitution.postorder_replace`).  Two laws follow.

**The books of a substitution balance** (`Substitution.substitute_accounts`): as many replacements are counted as there
are occurrences; what the result has of a parameter comes from the places where it is left alone and from the trees that
were put in; and of what a pass makes of the nodes (`Pass.noting` writes it down) exactly those without an occurrence
are kept.

**Two substitutions, one after the other, are one** (`Substitution.apply_andThen`): the second is applied to the trees
that the first puts in, and nothing is applied to them before.
-/
namespace Splice

open Run

/-! ## What a pass makes of every node -/

section Noting

variable {σ α : Type}

/-- The pass that also writes down the nodes that it comes to, and what it makes of each. -/
def Pass.noting (p : Pass σ) : Pass (σ × List (Expr × Edit)) where
  enter e := do
    match ← (p.enter e).inside Prod.fst fun st s => (s, st.2) with
    | some edit => modify fun st => (st.1, st.2 ++ [(e, edit)])
                   return some edit
    | none => return none
  exit e rebuilt := do
    let edit ← (p.exit e rebuilt).inside Prod.fst fun st s => (s, st.2)
    modify fun st => (st.1, st.2 ++ [(e, edit)])
    return edit

/-- The part of the state that a pass has for itself. -/
def Noted (st : σ × List (Expr × Edit)) (s : σ) : Prop := st.1 = s

theorem noted_follows (x : Run σ α) :
    Follows strictly Noted (· = ·) (x.inside Prod.fst fun st s => (s, st.2)) x :=
  follows_of_inside (fun _ _ h => h) (fun _ _ _ _ _ h => h) (follows_refl x)

/-- **Writing down changes nothing else.** -/
theorem Pass.noting_follows (p : Pass σ) (e : Expr) :
    Follows strictly Noted (· = ·) (e.transform p.noting) (e.transform p) := by
  unfold Expr.transform
  rw [Visitor.loop_eq_visit, Visitor.loop_eq_visit]
  refine (Visitor.visit_follows (Q := fun _ => Same fun _ => True) (fun e => ?_) (fun e as bs has => ?_) e).weaken
    fun _ _ h => h.1
  · show Follows strictly Noted _ (p.noting.enter e) (p.enter e)
    rw [← bind_pure (p.enter e)]
    refine follows_bind (noted_follows _) ?_
    rintro r _ rfl
    cases r with
    | none => exact follows_pure trivial
    | some edit => exact fun _ s hst => ⟨some edit, s, rfl, ⟨rfl, trivial⟩, hst⟩
  · cases has.eq_of_same
    refine follows_bind (follows_attempt (P := fun _ => True) fun _ _ => trivial) ?_
    rintro rebuilt _ ⟨rfl, -⟩
    show Follows strictly Noted _ (p.noting.exit e rebuilt) (p.exit e rebuilt)
    rw [← bind_pure (p.exit e rebuilt)]
    refine follows_bind (noted_follows _) ?_
    rintro edit _ rfl
    exact fun _ s hst => ⟨edit, s, rfl, ⟨rfl, trivial⟩, hst⟩

end Noting

namespace Substitution

variable {s : Substitution}

/-! ## The books of a substitution -/

theorem replacement?_eq (s : Substitution) (e : Expr) : s.replacement? e = e.param?.bind fun p => s.get? p.id := by
  cases e <;> rfl

/-- The node is an occurrence of a parameter of the substitution. -/
def hit (s : Substitution) (n : Expr) : Bool := n.param?.any fun p => (s.get? p.id).isSome

/-- How many parameters of the substitution occur in the tree. -/
def hits (s : Substitution) (e : Expr) : Nat := e.postorder.countP s.hit

/-- What the substitution makes of a tree. -/
def edit (s : Substitution) (e : Expr) : Edit := if s.hits e = 0 then .keep else .put (s.replace e)

theorem hit_eq (s : Substitution) (n : Expr) : s.hit n = (s.replacement? n).isSome := by
  rw [hit, replacement?_eq]
  cases n.param? <;> rfl

theorem hits_eq_zero_iff {e : Expr} : s.hits e = 0 ↔ s.Misses e := by
  simp [hits, List.countP_eq_zero, misses_iff, Expr.mem_postorder_iff, hit_eq]

theorem edit_isKeep (s : Substitution) (e : Expr) : (s.edit e).isKeep = true ↔ s.hits e = 0 := by
  unfold edit
  split
  case isTrue h => exact iff_of_true rfl h
  case isFalse h => exact iff_of_false nofun h

theorem edit_result (s : Substitution) (e : Expr) : (s.edit e).result e = s.replace e := by
  unfold edit
  split
  case isTrue h => exact (replace_of_misses (hits_eq_zero_iff.1 h)).symm
  case isFalse => rfl

theorem eq_edit {e : Expr} {made : Edit} (hresult : made.result e = s.replace e)
    (hkeep : made.isKeep = true ↔ s.hits e = 0) : made = s.edit e := by
  unfold edit
  cases made with
  | keep => rw [if_pos (hkeep.1 rfl)]
  | put t =>
    rw [if_neg fun h => nomatch hkeep.2 h]
    exact congrArg Edit.put hresult

theorem hits_of_replacement? {e t : Expr} (h : s.replacement? e = some t) : s.hits e = 1 := by
  obtain ⟨p, rfl, -⟩ := replacement?_eq_some_iff.1 h
  simp [hits, Expr.postorder, hit_eq, h]

theorem hits_of_not_replacement? {e : Expr} (h : s.replacement? e = none) :
    s.hits e = (e.children.flatMap Expr.postorder).countP s.hit := by
  simp [hits, Expr.postorder_eq e, hit_eq, h]

/-- A node that is not replaced is kept exactly if all its children are. -/
theorem rebuild_edit {e : Expr} (h : s.replacement? e = none) : e.rebuild (e.children.map s.edit) = .ok (s.edit e) := by
  have hlength : (e.children.map s.edit).length = e.children.length := List.length_map _
  obtain ⟨made, hmade, hrebuilds, hkeep⟩ := Expr.rebuild_spec hlength
  have hresults : List.zipWith Edit.result e.children (e.children.map s.edit) = e.children.map s.replace := by
    rw [List.zipWith_map_right, List.zipWith_self]
    exact List.map_congr_left fun c _ => s.edit_result c
  rw [hresults] at hrebuilds
  rw [hmade, eq_edit (hrebuilds.unique (replace_rebuilds h))]
  rw [hits_of_not_replacement? h]
  simp only [hkeep, List.all_map, List.all_eq_true, Function.comp_apply, edit_isKeep, hits, List.countP_eq_zero,
    List.mem_flatMap]
  exact ⟨fun hall n ⟨c, hc, hn⟩ => hall c hc n hn, fun hall c hc n hn => hall n ⟨c, hc, hn⟩⟩

/-! ## What becomes of every node -/

def note (s : Substitution) (n : Expr) : Expr × Edit := (n, s.edit n)

theorem visitAll_noting {es : List Expr}
    (h : ∀ e ∈ es, ∀ n log, s.pass.noting.visitor.visit e (n, log) =
      .ok (s.edit e) (n + s.hits e, log ++ e.postorder.map s.note)) (n : Nat) (log : List (Expr × Edit)) :
    s.pass.noting.visitor.visitAll es (n, log) = .ok (es.map s.edit)
      (n + (es.flatMap Expr.postorder).countP s.hit, log ++ (es.flatMap Expr.postorder).map s.note) := by
  induction es generalizing n log with
  | nil =>
    simp only [List.flatMap_nil, List.map_nil, List.append_nil]
    rfl
  | cons e es ih =>
    rw [Visitor.visitAll, bind_of_ok (h e List.mem_cons_self n log),
      bind_of_ok (ih (fun c hc => h c (List.mem_cons_of_mem e hc)) _ _), List.flatMap_cons, List.countP_append,
      List.map_append, List.append_assoc, Nat.add_assoc]
    rfl

/-- **A substitution comes to every node once, in postorder, and keeps those without an occurrence.** -/
theorem visit_noting (s : Substitution) (e : Expr) (n : Nat) (log : List (Expr × Edit)) :
    s.pass.noting.visitor.visit e (n, log) = .ok (s.edit e) (n + s.hits e, log ++ e.postorder.map s.note) := by
  induction e using Expr.children_induction generalizing n log with
  | node e ih =>
    rw [Visitor.visit_eq]
    cases hr : s.replacement? e with
    | some t =>
      have hedit : s.edit e = .put t := by
        rw [edit, hits_of_replacement? hr, if_neg Nat.one_ne_zero, replace_of_replacement? hr]
      have henter : s.pass.noting.visitor.enter e (n, log) =
          .ok (some (.put t)) (n + 1, log ++ [(e, .put t)]) := by
        simp only [Pass.visitor, Pass.noting, pass, hr]
        rfl
      obtain ⟨p, rfl, -⟩ := replacement?_eq_some_iff.1 hr
      rw [Visitor.around, bind_of_ok henter, hedit, hits_of_replacement? hr, Expr.postorder, List.map_singleton, note,
        hedit]
      rfl
    | none =>
      have henter : s.pass.noting.visitor.enter e (n, log) = .ok none (n, log) := by
        simp only [Pass.visitor, Pass.noting, pass, hr]
        rfl
      rw [Visitor.around, bind_of_ok henter]
      dsimp only
      rw [bind_of_ok (visitAll_noting ih n log), hits_of_not_replacement? hr, Expr.postorder_eq, List.map_append,
        ← List.append_assoc]
      simp only [Pass.visitor, rebuild_edit hr]
      rfl

theorem transform_noting (s : Substitution) (e : Expr) (n : Nat) (log : List (Expr × Edit)) :
    e.transform s.pass.noting (n, log) = .ok (s.edit e) (n + s.hits e, log ++ e.postorder.map s.note) := by
  rw [Expr.transform, Visitor.loop_eq_visit, visit_noting]

/-- **Every occurrence is counted**, and the tree is kept if there is none. -/
theorem substitute_eq (s : Substitution) (e : Expr) (n : Nat) : s.substitute e n = .ok (s.edit e) (n + s.hits e) := by
  unfold substitute
  split
  case isTrue hempty =>
    have hhits : s.hits e = 0 := hits_eq_zero_iff.2 (misses_of_isEmpty hempty e)
    rw [edit, if_pos hhits, hhits]
    rfl
  case isFalse =>
    have hnoted : Noted (n, ([] : List (Expr × Edit))) n := rfl
    obtain ⟨_, _, hpass, rfl, rfl⟩ := (s.pass.noting_follows e).of_ok hnoted (s.transform_noting e n [])
    exact hpass

/-! ## The nodes of the result -/

/-- The nodes that stand in the place of a node: those of its tree if it is a parameter of the substitution, otherwise
the node around its new children. -/
def nodesFor (s : Substitution) (n : Expr) : List Expr := ((s.replacement? n).map Expr.postorder).getD [s.replace n]

/-- **In the place of every node stands one node, or a tree that was put in, as it is.** -/
theorem postorder_replace (s : Substitution) (e : Expr) : (s.replace e).postorder = e.postorder.flatMap s.nodesFor := by
  induction e using Expr.children_induction with
  | node e ih =>
    cases hr : s.replacement? e with
    | some t =>
      obtain ⟨p, rfl, -⟩ := replacement?_eq_some_iff.1 hr
      simp [Expr.postorder, nodesFor, hr, replace_of_replacement? hr]
    | none =>
      have hchildren : (e.children.map s.replace).flatMap Expr.postorder =
          (e.children.flatMap Expr.postorder).flatMap s.nodesFor := by
        rw [List.flatMap_map, List.flatMap_assoc]
        exact List.flatMap_congr ih
      rw [Expr.postorder_eq, (replace_rebuilds hr).children, hchildren, Expr.postorder_eq e, List.flatMap_append]
      simp [nodesFor, hr]

end Substitution

/-! ## Parameters of the result -/

namespace Expr

/-- The node is an occurrence of the parameter of this identity. -/
def isParam (id : ParamId) (n : Expr) : Bool := n.param?.any fun p => decide (p.id = id)

/-- How often the parameter of this identity occurs in the tree. -/
def occurrences (id : ParamId) (e : Expr) : Nat := e.postorder.countP (isParam id)

end Expr

namespace Substitution

/-- The identities that the substitution replaces. -/
def keys (s : Substitution) : Finset ParamId := (s.entries.map Prod.fst).toFinset

theorem mem_keys_iff {s : Substitution} {id : ParamId} : id ∈ s.keys ↔ (s.get? id).isSome = true := by
  rw [keys, List.mem_toFinset, List.mem_map, get?, List.lookup_isSome_iff]
  simp only [beq_iff_eq, eq_comm (a := id)]

/-- What one node contributes to the occurrences in the result. -/
theorem countP_nodesFor (s : Substitution) (id : ParamId) (n : Expr) :
    (s.nodesFor n).countP (Expr.isParam id) =
      (if (s.get? id).isSome then 0 else (n.isParam id).toNat) +
        ∑ q ∈ s.keys, (n.isParam q).toNat * (s.get? q).elim 0 (Expr.occurrences id) := by
  cases hp : n.param? with
  | none =>
    have hr : s.replacement? n = none := by rw [replacement?_eq, hp]; rfl
    have hreplaced : (s.replace n).param? = none := (replace_rebuilds hr).param?_eq.trans hp
    simp [nodesFor, hr, Expr.isParam, hp, hreplaced]
  | some p =>
    obtain rfl : n = .param p := by cases n <;> cases hp; rfl
    have hparam : ∀ q, (Expr.param p).isParam q = decide (p.id = q) := fun _ => rfl
    -- Of the sum, at most the term of the parameter itself is left.
    have hsum : ∑ q ∈ s.keys, (decide (p.id = q)).toNat * (s.get? q).elim 0 (Expr.occurrences id) =
        (s.get? p.id).elim 0 (Expr.occurrences id) := by
      have hterm : ∀ q, (decide (p.id = q)).toNat * (s.get? q).elim 0 (Expr.occurrences id) =
          if p.id = q then (s.get? q).elim 0 (Expr.occurrences id) else 0 := by
        intro q
        by_cases h : p.id = q <;> simp [h]
      simp only [hterm, Finset.sum_ite_eq, mem_keys_iff]
      cases s.get? p.id <;> rfl
    simp only [hparam, hsum]
    cases hg : s.get? p.id with
    | none =>
      have hr : s.replacement? (.param p) = none := hg
      by_cases hid : p.id = id
      · subst hid
        simp [nodesFor, hr, replace_param, hg, hparam]
      · simp [nodesFor, hr, replace_param, hg, hparam, hid]
    | some t =>
      have hr : s.replacement? (.param p) = some t := hg
      by_cases hid : p.id = id
      · subst hid
        simp [nodesFor, hr, hg, Expr.occurrences]
      · simp [nodesFor, hr, hid, Expr.occurrences]

/-- **The occurrences in the result**: those that are left alone, and those in the trees that were put in. -/
theorem occurrences_replace (s : Substitution) (id : ParamId) (e : Expr) :
    (s.replace e).occurrences id =
      (if (s.get? id).isSome then 0 else e.occurrences id) +
        ∑ q ∈ s.keys, e.occurrences q * (s.get? q).elim 0 (Expr.occurrences id) := by
  have hall : ∀ ns : List Expr, (ns.flatMap s.nodesFor).countP (Expr.isParam id) =
      (if (s.get? id).isSome then 0 else ns.countP (Expr.isParam id)) +
        ∑ q ∈ s.keys, ns.countP (Expr.isParam q) * (s.get? q).elim 0 (Expr.occurrences id) := by
    intro ns
    induction ns with
    | nil => simp
    | cons n ns ih =>
      have hcons : ∀ q, (n :: ns).countP (Expr.isParam q) = (n.isParam q).toNat + ns.countP (Expr.isParam q) := by
        intro q
        rw [List.countP_cons, Nat.add_comm]
        cases n.isParam q <;> rfl
      simp only [List.flatMap_cons, List.countP_append, ih, countP_nodesFor, hcons, Nat.add_mul,
        Finset.sum_add_distrib]
      split <;> omega
  rw [Expr.occurrences, postorder_replace, hall]
  rfl

/-- **The books of a substitution balance.**  Applying it never fails, and the count of replacements goes up by the
occurrences of its parameters.  In the result a parameter occurs where the tree has it, unless it is replaced, and where
the trees have it that were put in, once for each time they were.  The pass comes to every node of the tree once, and
keeps those without an occurrence in them; a node that is not kept is replaced, or is put together around what was made
of its children.  What a captured value holds is left alone. -/
theorem substitute_accounts (s : Substitution) (e : Expr) (n : Nat) :
    s.substitute e n = .ok (s.edit e) (n + s.hits e) ∧
      s.apply e = .ok ((s.edit e).result e) ∧
      (∀ id, ((s.edit e).result e).occurrences id =
        (if (s.get? id).isSome then 0 else e.occurrences id) +
          ∑ q ∈ s.keys, e.occurrences q * (s.get? q).elim 0 (Expr.occurrences id)) ∧
      (∀ log, e.transform s.pass.noting (n, log) =
        .ok (s.edit e) (n + s.hits e, log ++ e.postorder.map fun c => (c, s.edit c))) ∧
      (∀ c, ((s.edit c).isKeep = true ↔ s.hits c = 0) ∧
        (s.replacement? c = some ((s.edit c).result c) ∨
          Expr.Rebuilds c (c.children.map fun d => (s.edit d).result d) ((s.edit c).result c))) ∧
      ∀ name value site, s.edit (.captured name value site) = .keep := by
  refine ⟨s.substitute_eq e n, ?_, fun id => ?_, s.transform_noting e n, fun c => ⟨s.edit_isKeep c, ?_⟩,
    fun name value site => rfl⟩
  · rw [edit_result, apply_eq]
  · rw [edit_result, occurrences_replace]
  · simp only [edit_result]
    cases hr : s.replacement? c with
    | some t => exact .inl (congrArg some (replace_of_replacement? hr).symm)
    | none => exact .inr (replace_rebuilds hr)

/-! ## Two substitutions -/

/-- One substitution after another: the second one is applied to the trees that the first one puts in. -/
def andThen (s t : Substitution) : Substitution :=
  ⟨s.entries.map (fun entry => (entry.1, t.replace entry.2)) ++ t.entries⟩

theorem get?_andThen (s t : Substitution) (id : ParamId) :
    (s.andThen t).get? id = ((s.get? id).map t.replace).or (t.get? id) := by
  rw [get?, andThen, List.lookup_append, lookup_map_snd]
  rfl

/-- **Two substitutions, one after the other, are one.**  It puts in what the second one makes of the trees of the first
one, and for the other parameters what the second one has for them.  So no substitution is applied to the trees that it
puts in itself: in the place of a parameter stand the nodes of its tree as they are, parameters of the substitution
among them. -/
theorem apply_andThen (s t : Substitution) (e : Expr) :
    (s.apply e >>= t.apply) = (s.andThen t).apply e ∧
      (∀ id, (s.andThen t).get? id = ((s.get? id).map t.replace).or (t.get? id)) ∧
      (∀ r, t.apply r = .ok (t.replace r)) ∧
      (s.replace e).postorder = e.postorder.flatMap s.nodesFor := by
  refine ⟨?_, get?_andThen s t, apply_eq t, postorder_replace s e⟩
  have hparam : ∀ p, t.replace (s.replace (.param p)) = (s.andThen t).replace (.param p) := by
    intro p
    rw [replace_param s, replace_param (s.andThen t), get?_andThen]
    cases s.get? p.id with
    | none => rfl
    | some r => rfl
  rw [apply_eq, apply_eq, ← replace_replace fun p _ => hparam p]
  exact apply_eq t (s.replace e)

end Substitution

end Splice
