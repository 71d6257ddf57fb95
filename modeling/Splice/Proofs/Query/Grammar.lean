import Splice.Proofs.Query.Strict
import Splice.Proofs.Tree.Postorder
/-!
# The trees that the strict check accepts

The check is two folds over a tree, and what it accepts can be said without them: no marker call, no host call, and a
lambda nowhere but after the receiver of an operator (`Strict.Translatable`).  What it reports can be said, too: a marker
call before anything else, and otherwise the first node in postorder that breaks a rule by itself or by what it takes;
the root has no parent that could refuse it, so it comes last.

**A strict engine accepts the trees of this grammar and reports the first violation of any other tree; a lenient engine
accepts all trees** (`Engine.validate_translatable`).
-/
namespace Splice

open Run

/-- The node makes a lambda: it is one, or holds one. -/
def Expr.MakesLambda (e : Expr) : Prop :=
  (∃ params body, e = .lambda params body) ∨ ∃ name params body site, e = .captured name (.lambda params body) site

theorem Expr.makesLambda_iff {e : Expr} : e.MakesLambda ↔ e.asLambda?.isSome = true := by
  constructor
  · rintro (⟨params, body, rfl⟩ | ⟨name, params, body, site, rfl⟩) <;> rfl
  · intro h
    cases e with
    | lambda params body => exact .inl ⟨params, body, rfl⟩
    | captured name value site =>
      cases value with
      | lambda params body => exact .inr ⟨name, params, body, site, rfl⟩
      | _ => cases h
    | _ => cases h

namespace Strict

/-- The node takes a lambda as child number `i`: it is an operator, and this child is not its receiver. -/
def Admits (n : Expr) (i : Nat) : Prop := (∃ op args, n = .call (.operator op) args) ∧ 1 ≤ i

/-- One of the children makes a lambda where the node takes none. -/
def Misplaces (n : Expr) : Prop := ∃ i c, n.children[i]? = some c ∧ c.MakesLambda ∧ ¬ Admits n i

def CallsHost (n : Expr) : Prop := ∃ f args, n = .call (.host f) args

/-- No backend can translate the node, whatever the tree around it is. -/
def Violates (n : Expr) : Prop := CallsHost n ∨ Misplaces n

/-- How a node that violates the rules is reported. -/
def complaint : Expr → Error
  | .call (.host f) _ => .untranslatableHost f.name
  | _ => .lambdaAsValue

/-- A tree that a backend can translate. -/
structure Translatable (e : Expr) : Prop where
  markerFree : e.MarkerFree
  hostFree : HostFree e
  /-- A lambda stands after the receiver of an operator. -/
  placed : ∀ n, Expr.Within n e → ∀ i c, n.children[i]? = some c → c.MakesLambda → Admits n i
  root : ¬ e.MakesLambda

theorem translatable_iff {e : Expr} :
    Translatable e ↔ e.MarkerFree ∧ (∀ n, Expr.Within n e → ¬ Violates n) ∧ ¬ e.MakesLambda := by
  constructor
  · rintro ⟨hmarker, hhost, hplaced, hroot⟩
    refine ⟨hmarker, fun n hn => ?_, hroot⟩
    rintro (⟨f, args, hcall⟩ | ⟨i, c, hc, hlambda, hnot⟩)
    · exact hhost n hn f args hcall
    · exact hnot (hplaced n hn i c hc hlambda)
  · rintro ⟨hmarker, hnodes, hroot⟩
    refine ⟨hmarker, fun n hn f args hcall => hnodes n hn (.inl ⟨f, args, hcall⟩), ?_, hroot⟩
    intro n hn i c hc hlambda
    exact Classical.byContradiction fun hnot => hnodes n hn (.inr ⟨i, c, hc, hlambda, hnot⟩)

/-! ## The check of one node -/

theorem productOf_eq_lambda_iff {e : Expr} : productOf e = .lambda ↔ e.MakesLambda := by
  rw [Expr.makesLambda_iff, productOf]
  cases e.asLambda? <;> simp

theorem all_children_iff {n : Expr} :
    (n.children.map productOf).all (· != .lambda) = true ↔
      ∀ (i : Nat) (c : Expr), n.children[i]? = some c → ¬ c.MakesLambda := by
  simp only [List.all_map, List.all_eq_true, Function.comp_apply, bne_iff_ne, ne_eq, productOf_eq_lambda_iff]
  constructor
  · exact fun h i c hc => h c (List.mem_of_getElem? hc)
  · intro h c hc
    obtain ⟨i, hi⟩ := List.mem_iff_getElem?.1 hc
    exact h i c hi

/-- **A node takes the products of its children exactly if it misplaces none of them.** -/
theorem takes_iff (n : Expr) : takes n (n.children.map productOf) = true ↔ ¬ Misplaces n := by
  unfold takes
  split
  case h_1 op args =>
    have hreceiver : ((Expr.call (.operator op) args).children.map productOf).head? ≠ some .lambda ↔
        ∀ c, args[0]? = some c → ¬ c.MakesLambda := by
      cases args with
      | nil => simp [Expr.children]
      | cons receiver rest => simp [Expr.children, productOf_eq_lambda_iff]
    rw [bne_iff_ne, hreceiver]
    constructor
    · rintro h ⟨i, c, hc, hlambda, hnot⟩
      cases i with
      | zero => exact h c hc hlambda
      | succ i => exact hnot ⟨⟨op, args, rfl⟩, Nat.le_add_left 1 i⟩
    · exact fun h c hc hlambda => h ⟨0, c, hc, hlambda, fun hadmits => absurd hadmits.2 (by decide)⟩
  case h_2 hnot =>
    rw [all_children_iff]
    constructor
    · rintro h ⟨i, c, hc, hlambda, -⟩
      exact h i c hc hlambda
    · intro h i c hc hlambda
      refine h ⟨i, c, hc, hlambda, ?_⟩
      rintro ⟨⟨op, args, heq⟩, -⟩
      exact hnot op args heq

/-- What the check finds wrong with a node. -/
def fault : Expr → Option Error
  | .call (.host f) _ => some (.untranslatableHost f.name)
  | n => if takes n (n.children.map productOf) then none else some .lambdaAsValue

theorem fault_of_not_host {n : Expr} (h : ¬ CallsHost n) :
    fault n = if takes n (n.children.map productOf) then none else some .lambdaAsValue := by
  unfold fault
  split
  · exact absurd ⟨_, _, rfl⟩ h
  · rfl

theorem checkNode_eq (n : Expr) : checkNode n (n.children.map productOf) = Run.barring (fault n) (productOf n) := by
  by_cases hhost : CallsHost n
  · obtain ⟨f, args, rfl⟩ := hhost
    rfl
  · rw [fault_of_not_host hhost]
    unfold checkNode
    split
    · exact absurd ⟨_, _, rfl⟩ hhost
    · split <;> rfl

theorem fault_eq_none_iff {n : Expr} : fault n = none ↔ ¬ Violates n := by
  by_cases hhost : CallsHost n
  · have hfault : fault n ≠ none := by
      obtain ⟨f, args, rfl⟩ := hhost
      exact nofun
    exact iff_of_false hfault fun h => h (.inl hhost)
  · rw [fault_of_not_host hhost]
    have hviolates : Violates n ↔ Misplaces n := or_iff_right hhost
    rw [hviolates, ← takes_iff]
    split <;> simp_all

theorem fault_of_violates {n : Expr} (h : Violates n) : fault n = some (complaint n) := by
  cases hfault : fault n with
  | none => exact absurd h (fault_eq_none_iff.1 hfault)
  | some cause =>
    by_cases hhost : CallsHost n
    · obtain ⟨f, args, rfl⟩ := hhost
      exact hfault.symm
    · have hcomplaint : complaint n = .lambdaAsValue := by
        unfold complaint
        split
        · exact absurd ⟨_, _, rfl⟩ hhost
        · rfl
      rw [fault_of_not_host hhost] at hfault
      split at hfault <;> cases hfault
      rw [hcomplaint]

instance (n : Expr) : Decidable (Violates n) :=
  decidable_of_iff (fault n ≠ none) (by rw [ne_eq, fault_eq_none_iff, Classical.not_not])

instance (e : Expr) : Decidable e.MakesLambda := decidable_of_iff _ Expr.makesLambda_iff.symm

instance (e : Expr) : Decidable (Translatable e) := decidable_of_iff' _ translatable_iff

/-! ## The check of a tree -/

theorem count_eq (e : Expr) : Marker.count e = .ok (e.postorder.countP Marker.isMarker) := by
  have hnode : ∀ e : Expr, Marker.countNode e (e.children.map fun c => c.postorder.countP Marker.isMarker) =
      Run.barring none (e.postorder.countP Marker.isMarker) := fun e => by
    rw [Expr.countP_postorder]
    rfl
  have hnone : e.postorder.findSome? (fun _ => (none : Option Error)) = none := by simp
  rw [Marker.count, Expr.fold_eq_findSome? hnode, hnone]
  rfl

theorem count_eq_zero_iff {e : Expr} : e.postorder.countP Marker.isMarker = 0 ↔ e.MarkerFree := by
  simp [List.countP_eq_zero, Expr.mem_postorder_iff, Expr.MarkerFree]

/-- **A marker call is reported before anything else.** -/
theorem check_of_marker {e : Expr} (h : ¬ e.MarkerFree) : check e = .error (.error .unexpandedMarker) := by
  unfold check
  rw [count_eq]
  exact if_neg fun hzero => h (count_eq_zero_iff.1 hzero)

theorem check_of_markerFree {e : Expr} (h : e.MarkerFree) :
    check e = ((e.fold checkNode).outcome () >>= fun product =>
      if product = .data then .ok () else .error (.error .lambdaAsValue)) := by
  unfold check
  rw [count_eq, count_eq_zero_iff.2 h]
  cases (e.fold checkNode).outcome () with
  | error halt => rfl
  | ok product => cases product <;> rfl

theorem fold_checkNode (e : Expr) :
    (e.fold checkNode).outcome () =
      ((e.postorder.findSome? fault).map Halt.error).elim (.ok (productOf e)) .error := by
  rw [Expr.fold_eq_findSome? checkNode_eq, outcome_barring]

/-- **Of several violations the first one in postorder is reported.** -/
theorem check_of_first {e n : Expr} {before after : List Expr} (hmarker : e.MarkerFree)
    (horder : e.postorder = before ++ n :: after) (hbefore : ∀ m ∈ before, ¬ Violates m) (hn : Violates n) :
    check e = .error (.error (complaint n)) := by
  have hfirst : e.postorder.findSome? fault = some (complaint n) :=
    List.findSome?_eq_some_iff.2
      ⟨before, n, after, horder, fault_of_violates hn, fun m hm => fault_eq_none_iff.2 (hbefore m hm)⟩
  rw [check_of_markerFree hmarker, fold_checkNode, hfirst]
  rfl

theorem check_of_nodes {e : Expr} (hmarker : e.MarkerFree) (hnodes : ∀ n, Expr.Within n e → ¬ Violates n) :
    check e = if productOf e = .data then .ok () else .error (.error .lambdaAsValue) := by
  have hnone : e.postorder.findSome? fault = none :=
    List.findSome?_eq_none_iff.2 fun n hn => fault_eq_none_iff.2 (hnodes n (Expr.mem_postorder_iff.1 hn))
  rw [check_of_markerFree hmarker, fold_checkNode, hnone]
  rfl

/-- A tree with a violation has a first one. -/
theorem exists_first {e : Expr} (h : ¬ ∀ n, Expr.Within n e → ¬ Violates n) :
    ∃ before n after, e.postorder = before ++ n :: after ∧ (∀ m ∈ before, ¬ Violates m) ∧ Violates n := by
  cases hfirst : e.postorder.findSome? fault with
  | none =>
    refine absurd (fun n hn => fault_eq_none_iff.1 ?_) h
    exact List.findSome?_eq_none_iff.1 hfirst n (Expr.mem_postorder_iff.2 hn)
  | some cause =>
    obtain ⟨before, n, after, horder, hn, hbefore⟩ := List.findSome?_eq_some_iff.1 hfirst
    refine ⟨before, n, after, horder, fun m hm => fault_eq_none_iff.1 (hbefore m hm), ?_⟩
    exact Classical.byContradiction fun hnot => nomatch (fault_eq_none_iff.2 hnot).symm.trans hn

/-- **The check accepts exactly the trees of the grammar.** -/
theorem check_eq_ok_iff_translatable {e : Expr} : check e = .ok () ↔ Translatable e := by
  rw [translatable_iff]
  by_cases hmarker : e.MarkerFree
  case neg => exact iff_of_false (by rw [check_of_marker hmarker]; exact nofun) fun h => hmarker h.1
  by_cases hnodes : ∀ n, Expr.Within n e → ¬ Violates n
  case neg =>
    obtain ⟨before, n, after, horder, hbefore, hn⟩ := exists_first hnodes
    exact iff_of_false (by rw [check_of_first hmarker horder hbefore hn]; exact nofun) fun h => hnodes h.2.1
  rw [check_of_nodes hmarker hnodes, ← productOf_eq_lambda_iff]
  cases productOf e with
  | data => exact iff_of_true rfl ⟨hmarker, hnodes, nofun⟩
  | lambda => exact iff_of_false nofun fun h => h.2.2 rfl

/-- An operator takes a lambda after its receiver, not as its receiver. -/
example : Translatable (.call (.operator .count) [.source "s", .lambda [] (.source "s")]) ∧
    ¬ Translatable (.call (.operator .count) [.lambda [] (.source "s")]) := by decide

end Strict

namespace Engine

variable {σ : Type}

/-- **Which trees an engine accepts, and what it says of the others.**  A lenient engine accepts every tree.  A strict
one accepts those of the grammar; a marker call anywhere is reported as such; otherwise the first node in postorder that
violates the rules is reported, and a root that makes a lambda if there is no such node. -/
theorem validate_translatable (g : Engine σ) (e : Expr) :
    (g.strict = false → g.validate e = .ok ()) ∧
    (g.strict = true →
      (g.validate e = .ok () ↔ Strict.Translatable e) ∧
      (¬ e.MarkerFree → g.validate e = .error (.error .unexpandedMarker)) ∧
      (e.MarkerFree → ∀ before n after, e.postorder = before ++ n :: after →
        (∀ m ∈ before, ¬ Strict.Violates m) → Strict.Violates n →
          g.validate e = .error (.error (Strict.complaint n))) ∧
      (e.MarkerFree → (∀ n, Expr.Within n e → ¬ Strict.Violates n) → e.MakesLambda →
        g.validate e = .error (.error .lambdaAsValue))) := by
  constructor
  · intro hlenient
    unfold validate
    rw [hlenient]
    rfl
  · intro hstrict
    rw [validate_of_strict hstrict]
    refine ⟨Strict.check_eq_ok_iff_translatable, Strict.check_of_marker, ?_, ?_⟩
    · exact fun hmarker before n after horder hbefore hn => Strict.check_of_first hmarker horder hbefore hn
    · intro hmarker hnodes hroot
      rw [Strict.check_of_nodes hmarker hnodes, Strict.productOf_eq_lambda_iff.2 hroot]
      rfl

/-- The negation of a lambda that calls a host function: both the call and the negation violate the rules. -/
def negatedCallHost : Expr := .unary .not (.ofLambda callHost)

/-- The call comes first in postorder.  A marker call comes before it, and a root that makes a lambda after all. -/
theorem validate_negatedCallHost :
    (negatedCallHost.MarkerFree ∧ Strict.Violates negatedCallHost ∧
      oneRow.validate negatedCallHost = .error (.error (.untranslatableHost "h"))) ∧
    { oneRow with strict := false }.validate negatedCallHost = .ok () ∧
    (¬ (Expr.binary .and negatedCallHost (.call .project [])).MarkerFree ∧
      oneRow.validate (.binary .and negatedCallHost (.call .project [])) = .error (.error .unexpandedMarker)) ∧
    ((Expr.ofLambda addOne).MarkerFree ∧ (Expr.ofLambda addOne).MakesLambda ∧
      oneRow.validate (.ofLambda addOne) = .error (.error .lambdaAsValue)) ∧
    Strict.Translatable (selectHeld "s" "f" callHost ⟨1⟩) := by
  have hfree : negatedCallHost.MarkerFree := by decide
  have hmarker : ¬ (Expr.binary .and negatedCallHost (.call .project [])).MarkerFree := by decide
  have hlambda : (Expr.ofLambda addOne).MarkerFree := by decide
  have hnodes : ∀ n, Expr.Within n (.ofLambda addOne) → ¬ Strict.Violates n := by decide
  refine ⟨⟨hfree, by decide, ?_⟩, ?_, ⟨hmarker, ?_⟩, ⟨hlambda, by decide, ?_⟩, ?_⟩
  · exact ((validate_translatable oneRow negatedCallHost).2 rfl).2.2.1 hfree [.param ⟨⟨0, 0⟩, "x", .any⟩]
      callHost.body _ rfl (by decide) (by decide)
  · exact (validate_translatable _ _).1 rfl
  · exact ((validate_translatable oneRow _).2 rfl).2.1 hmarker
  · exact ((validate_translatable oneRow _).2 rfl).2.2.2 hlambda hnodes (by decide)
  · exact ((validate_translatable oneRow _).2 rfl).1.1 (validate_selectHeld oneRow "s" "f" callHost ⟨1⟩)

end Engine

end Splice
