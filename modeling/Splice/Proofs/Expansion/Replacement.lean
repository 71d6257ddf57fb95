import Splice.Expansion.Substitution
import Splice.Proofs.Tree.Visits
/-!
# Substitution as a function on trees

`Substitution.apply` is a counting pass over the tree.  `Substitution.replace` is the same substitution as a plain
recursion, and **the pass never fails and gives its tree** (`Substitution.apply_eq`).
-/
namespace Splice.Substitution

open Run

mutual
/-- The tree with all parameters of the substitution replaced. -/
def replace (s : Substitution) : Expr → Expr
  | .literal l site => .literal l site
  | .captured name value site => .captured name value site
  | .source name => .source name
  | .param p => (s.get? p.id).getD (.param p)
  | .member base name => .member (s.replace base) name
  | .call callee args => .call callee (s.replaceAll args)
  | .lambda params body => .lambda params (s.replace body)
  | .unary op operand => .unary op (s.replace operand)
  | .binary op left right => .binary op (s.replace left) (s.replace right)
  | .compare op left right => .compare op (s.replace left) (s.replace right)
  | .cond test yes no => .cond (s.replace test) (s.replace yes) (s.replace no)
  | .record typeName fields => .record typeName (s.replaceFields fields)
termination_by structural e => e
def replaceAll (s : Substitution) : List Expr → List Expr
  | [] => []
  | e :: es => s.replace e :: s.replaceAll es
termination_by structural es => es
def replaceFields (s : Substitution) : List (String × Expr) → List (String × Expr)
  | [] => []
  | (name, e) :: es => (name, s.replace e) :: s.replaceFields es
termination_by structural es => es
end

theorem replaceAll_eq (s : Substitution) (es : List Expr) : s.replaceAll es = es.map s.replace := by
  induction es with
  | nil => rfl
  | cons e es ih => rw [replaceAll, ih, List.map_cons]

theorem replaceFields_eq (s : Substitution) (fields : List (String × Expr)) :
    s.replaceFields fields = (fields.map Prod.fst).zip ((fields.map Prod.snd).map s.replace) := by
  induction fields with
  | nil => rfl
  | cons field fields ih => rw [replaceFields, ih]; rfl

theorem replace_param (s : Substitution) (p : Param) : s.replace (.param p) = (s.get? p.id).getD (.param p) := rfl

theorem replacement?_eq_some_iff {s : Substitution} {e t : Expr} :
    s.replacement? e = some t ↔ ∃ p, e = .param p ∧ s.get? p.id = some t := by
  constructor
  · intro h
    unfold replacement? at h
    split at h
    · exact ⟨_, rfl, h⟩
    · cases h
  · rintro ⟨p, rfl, hp⟩
    exact hp

theorem replace_of_replacement? {s : Substitution} {e t : Expr} (h : s.replacement? e = some t) : s.replace e = t := by
  obtain ⟨p, rfl, hp⟩ := replacement?_eq_some_iff.1 h
  rw [replace_param, hp]
  rfl

/-- **A node that is not replaced is rebuilt around its children.** -/
theorem replace_rebuilds {s : Substitution} {e : Expr} (h : s.replacement? e = none) :
    Expr.Rebuilds e (e.children.map s.replace) (s.replace e) := by
  cases e with
  | param p =>
    have hp : s.get? p.id = none := h
    rw [replace_param, hp]
    exact .param
  | call callee args =>
    rw [replace, replaceAll_eq]
    exact .call (by simp [Expr.children])
  | record typeName fields =>
    rw [replace, replaceFields_eq]
    exact .record (by simp [Expr.children])
  | _ => constructor

/-- **Substitution brings in nodes of the trees that it puts in, and no others**, as far as the children of a node do
not matter. -/
theorem replace_nodes {P : Expr → Prop} (hP : Expr.Shallow P) {s : Substitution}
    (hs : ∀ id t, s.get? id = some t → ∀ n, Expr.Within n t → P n) {e : Expr} (he : ∀ n, Expr.Within n e → P n) :
    ∀ n, Expr.Within n (s.replace e) → P n := by
  induction e using Expr.children_induction with
  | node e ih =>
    cases hr : s.replacement? e with
    | some t =>
      obtain ⟨p, rfl, hp⟩ := replacement?_eq_some_iff.1 hr
      rw [replace_of_replacement? hr]
      exact hs p.id t hp
    | none =>
      have hrebuilds := replace_rebuilds hr
      rw [Expr.all_nodes_iff, hrebuilds.children]
      refine ⟨hP _ _ _ hrebuilds (he e .self), fun c hc => ?_⟩
      obtain ⟨c', hc', rfl⟩ := List.mem_map.1 hc
      exact ih c' hc' fun n hn => he n (.child hc' hn)

/-! ## Parameters that occur and parameters that do not -/

/-- No parameter of the substitution occurs in the tree. -/
def Misses (s : Substitution) (e : Expr) : Prop := ∀ p, Expr.Within (.param p) e → s.get? p.id = none

theorem misses_iff {s : Substitution} {e : Expr} : s.Misses e ↔ ∀ n, Expr.Within n e → s.replacement? n = none := by
  constructor
  · intro h n hn
    cases hr : s.replacement? n with
    | none => rfl
    | some t =>
      obtain ⟨p, rfl, hp⟩ := replacement?_eq_some_iff.1 hr
      exact nomatch (h p hn).symm.trans hp
  · exact fun h p hp => h _ hp

instance (s : Substitution) (e : Expr) : Decidable (s.Misses e) := decidable_of_iff _ misses_iff.symm

theorem Misses.child {s : Substitution} {e c : Expr} (h : s.Misses e) (hc : c ∈ e.children) : s.Misses c :=
  fun p hp => h p (.child hc hp)

theorem shallow_replacement? (s : Substitution) : Expr.Shallow fun e => s.replacement? e = none := by
  intro e cs e' hrebuilds he
  cases hrebuilds with
  | param => exact he
  | _ => rfl

/-- A node that is not replaced may be rebuilt before the substitution or after it. -/
theorem replace_of_rebuilds {s : Substitution} {e e' : Expr} {cs : List Expr} (h : s.replacement? e = none)
    (hrebuilds : Expr.Rebuilds e cs e') : Expr.Rebuilds (s.replace e) (cs.map s.replace) (s.replace e') := by
  have hreplace := replace_rebuilds (shallow_replacement? s e cs e' hrebuilds h)
  rw [hrebuilds.children, ← Expr.withChildren_eq_ok_iff, hrebuilds.withChildren_eq] at hreplace
  rw [← Expr.withChildren_eq_ok_iff, (replace_rebuilds h).withChildren_eq]
  exact hreplace

theorem replace_of_misses {s : Substitution} {e : Expr} (h : s.Misses e) : s.replace e = e := by
  induction e using Expr.children_induction with
  | node e ih =>
    have hr := replace_rebuilds (misses_iff.1 h e .self)
    rw [List.map_congr_left (g := id) fun c hc => ih c hc (h.child hc), List.map_id] at hr
    exact hr.unique (Expr.rebuilds_children e)

/-- **Two substitutions, one after the other, are one that does the same to the parameters of the tree.** -/
theorem replace_replace {s t u : Substitution} {e : Expr}
    (h : ∀ p, Expr.Within (.param p) e → t.replace (s.replace (.param p)) = u.replace (.param p)) :
    t.replace (s.replace e) = u.replace e := by
  induction e using Expr.children_induction with
  | node e ih =>
    by_cases hparam : ∃ p, e = .param p
    · obtain ⟨p, rfl⟩ := hparam
      exact h p .self
    · have hnone : ∀ (v : Substitution) (cs e'), Expr.Rebuilds e cs e' → v.replacement? e' = none := by
        intro v cs e' hrebuilds
        cases hrebuilds with
        | param => exact absurd ⟨_, rfl⟩ hparam
        | _ => rfl
      have hs := replace_rebuilds (hnone s _ _ (Expr.rebuilds_children e))
      have hst := replace_rebuilds (hnone t _ _ hs)
      have hu := replace_rebuilds (hnone u _ _ (Expr.rebuilds_children e))
      have hchildren : (s.replace e).children.map t.replace = e.children.map u.replace := by
        rw [hs.children, List.map_map]
        exact List.map_congr_left fun c hc => ih c hc fun p hp => h p (.child hc hp)
      rw [hchildren, ← Expr.withChildren_eq_ok_iff, hs.withChildren_eq, Expr.withChildren_eq_ok_iff] at hst
      exact hst.unique hu

/-! ## The pass gives this tree -/

theorem misses_of_isEmpty {s : Substitution} (h : s.isEmpty = true) (e : Expr) : s.Misses e := by
  intro p _
  rcases s with ⟨_ | ⟨entry, entries⟩⟩
  · rfl
  · cases h

theorem visitAll_gives {s : Substitution} :
    ∀ es : List Expr, (∀ e ∈ es, Gives (fun edit => edit.result e = s.replace e) (s.pass.visitor.visit e)) →
      Gives (fun edits => edits.length = es.length ∧ List.zipWith Edit.result es edits = es.map s.replace)
        (s.pass.visitor.visitAll es)
  | [], _ => gives_pure ⟨rfl, rfl⟩
  | e :: es, h => by
    refine gives_bind (h e List.mem_cons_self) fun edit hedit => ?_
    refine gives_bind (visitAll_gives es fun c hc => h c (List.mem_cons_of_mem e hc)) fun edits hedits => ?_
    exact gives_pure ⟨by simp [hedits.1], by simp [hedit, hedits.2]⟩

theorem visit_gives (s : Substitution) (e : Expr) :
    Gives (fun edit => edit.result e = s.replace e) (s.pass.visitor.visit e) := by
  induction e using Expr.children_induction with
  | node e ih =>
    rw [Visitor.visit_eq]
    cases hr : s.replacement? e with
    | some t =>
      have henter : Gives (· = some (.put t)) (s.pass.visitor.enter e) := by
        intro n
        simp only [Pass.visitor, pass, hr]
        exact ⟨_, _, rfl, rfl⟩
      refine gives_bind henter fun a ha => ?_
      subst ha
      exact gives_pure (replace_of_replacement? hr).symm
    | none =>
      have henter : Gives (· = none) (s.pass.visitor.enter e) := by
        intro n
        simp only [Pass.visitor, pass, hr]
        exact ⟨_, _, rfl, rfl⟩
      refine gives_bind henter fun a ha => ?_
      subst ha
      refine gives_bind (visitAll_gives e.children ih) fun edits hedits => ?_
      obtain ⟨edit, hedit, hrebuilds, -⟩ := Expr.rebuild_spec hedits.1
      rw [hedits.2] at hrebuilds
      simp only [Pass.visitor, pass, hedit]
      exact gives_pure (hrebuilds.unique (replace_rebuilds hr))

/-- **Applying a substitution never fails, and gives the tree with its parameters replaced.** -/
theorem apply_eq (s : Substitution) (e : Expr) : s.apply e = .ok (s.replace e) := by
  have h : Gives (fun edit => edit.result e = s.replace e) (s.substitute e) := by
    unfold substitute
    split
    case isTrue hempty => exact gives_pure (replace_of_misses (misses_of_isEmpty hempty e)).symm
    case isFalse =>
      unfold Expr.transform
      rw [Visitor.loop_eq_visit]
      exact visit_gives s e
  obtain ⟨edit, n, hn, hedit⟩ := h 0
  unfold apply outcome
  rw [hn, ← hedit]
  rfl

end Splice.Substitution
