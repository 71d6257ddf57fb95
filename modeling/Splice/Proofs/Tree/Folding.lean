import Splice.Proofs.Tree.Postorder
import Splice.Proofs.Tree.Rewriting
/-!
# Folds by recursion

`Expr.folded` folds a tree without stacks and without errors of its own: the children from left to right, then the node
with their results.  **The loop of `Expr.fold` does the same** (`Expr.fold_eq_folded`), whatever state the combination
of results reads and changes and wherever it stops.  A leaf is combined when it is reached, and its result waits on the
work stack; that is the same, as there is nothing between its arrival and its turn.

A combination may keep a log of its calls.  What is in it after a fold is said of trees (`Fold.Completes`): the log of
a tree is those of its children, one after the other, and then the call for the node, on the results that the children
came to.  So there is one call for each node, in postorder.  Where a call stops the fold there is the beginning of such
a log, up to this call (`Fold.Breaks`).
-/
namespace Splice

open Run

variable {σ α : Type}

/-! ## Folding by recursion -/

namespace Expr

mutual
/-- Fold the children from left to right, then combine their results. -/
def folded (combine : Expr → List α → Run σ α) (e : Expr) : Run σ α := do
  combine e (← foldedAll combine e.children)
termination_by (e.size, 0)
decreasing_by
  have := e.size_eq
  exact Prod.Lex.left _ _ (by omega)
def foldedAll (combine : Expr → List α → Run σ α) : List Expr → Run σ (List α)
  | [] => pure []
  | e :: es => do
    let a ← folded combine e
    let as ← foldedAll combine es
    return a :: as
termination_by es => (sizeAll es, 1)
decreasing_by
  · exact Prod.Lex.right' _ (Nat.le_add_right _ _) Nat.one_pos
  · have := e.size_pos
    exact Prod.Lex.left _ _ (by simp only [sizeAll]; omega)
end

variable {combine : Expr → List α → Run σ α}

theorem visitAll_eq_foldedAll {es : List Expr}
    (h : ∀ e ∈ es, (Visitor.ofCombine combine).visit e = e.folded combine) :
    (Visitor.ofCombine combine).visitAll es = foldedAll combine es := by
  induction es with
  | nil => rw [foldedAll]; rfl
  | cons e es ih =>
    rw [Visitor.visitAll, foldedAll, h e List.mem_cons_self, ih fun c hc => h c (List.mem_cons_of_mem e hc)]

theorem visit_eq_folded (combine : Expr → List α → Run σ α) (e : Expr) :
    (Visitor.ofCombine combine).visit e = e.folded combine := by
  induction e using children_induction with
  | node e ih =>
    rw [Visitor.visit_eq, visitAll_eq_foldedAll ih, folded]
    simp only [Visitor.around, Visitor.ofCombine]
    by_cases hleaf : e.children.isEmpty = true
    · rw [if_pos hleaf, bind_map_left, List.isEmpty_iff.1 hleaf, foldedAll, pure_bind]
      exact bind_pure _
    · rw [if_neg hleaf, pure_bind]

end Expr

/-! ## The log of the calls -/

namespace Fold

/-- A call of the combination: the node, the results that it is given, and what it gave, unless it stopped. -/
structure Call (α : Type) where
  node : Expr
  inputs : List α
  output : Option α

/-- The combination that also logs its calls, oldest first. -/
def logging (combine : Expr → List α → Run σ α) (e : Expr) (as : List α) : Run (σ × List (Call α)) α :=
  fun (s, calls) =>
    match combine e as s with
    | .ok a s' => .ok a (s', calls ++ [⟨e, as, some a⟩])
    | .error halt s' => .error halt (s', calls ++ [⟨e, as, none⟩])

mutual
/-- With these calls the fold of the tree comes to this result. -/
inductive Completes : Expr → List (Call α) → α → Prop
  | node {e : Expr} {calls : List (Call α)} {as : List α} {a : α} : CompletesAll e.children calls as →
      Completes e (calls ++ [⟨e, as, some a⟩]) a
inductive CompletesAll : List Expr → List (Call α) → List α → Prop
  | nil : CompletesAll [] [] []
  | cons {e : Expr} {es : List Expr} {calls calls' : List (Call α)} {a : α} {as : List α} : Completes e calls a →
      CompletesAll es calls' as → CompletesAll (e :: es) (calls ++ calls') (a :: as)
end

/-- After these calls the fold of the tree comes to the call for the node `n`, on the results `as`. -/
inductive Breaks (n : Expr) (as : List α) : Expr → List (Call α) → Prop
  | here {calls : List (Call α)} : CompletesAll n.children calls as → Breaks n as n calls
  | child {e c : Expr} {before after : List Expr} {calls calls' : List (Call α)} {bs : List α} :
      e.children = before ++ c :: after → CompletesAll before calls bs → Breaks n as c calls' →
      Breaks n as e (calls ++ calls')

variable {e n : Expr} {es : List Expr} {calls : List (Call α)} {a : α} {as : List α}

/-! ### One call for each node -/

theorem CompletesAll.nodes (h : CompletesAll es calls as)
    (hes : ∀ e ∈ es, ∀ (calls : List (Call α)) a, Completes e calls a → calls.map Call.node = e.postorder) :
    calls.map Call.node = es.flatMap Expr.postorder := by
  induction es generalizing calls as with
  | nil =>
    cases h
    rfl
  | cons e es ih =>
    cases h with
    | cons he h =>
      rw [List.map_append, List.flatMap_cons, hes e List.mem_cons_self _ _ he,
        ih h fun c hc => hes c (List.mem_cons_of_mem e hc)]

/-- **The calls of a fold are for the nodes in postorder.** -/
theorem Completes.nodes (h : Completes e calls a) : calls.map Call.node = e.postorder := by
  induction e using Expr.children_induction generalizing calls a with
  | node e ih =>
    cases h with
    | node h =>
      rw [List.map_append, h.nodes fun c hc _ _ => ih c hc, Expr.postorder_eq]
      rfl

theorem Breaks.nodes (h : Breaks n as e calls) : ∃ rest, e.postorder = calls.map Call.node ++ n :: rest := by
  induction h with
  | here h =>
    exact ⟨[], by rw [Expr.postorder_eq, h.nodes fun _ _ _ _ => Completes.nodes]⟩
  | @child e c before after calls calls' bs hchildren hbefore _ ih =>
    obtain ⟨rest, hrest⟩ := ih
    refine ⟨rest ++ (after.flatMap Expr.postorder ++ [e]), ?_⟩
    rw [Expr.postorder_eq, hchildren, List.flatMap_append, List.flatMap_cons, hrest, List.map_append,
      hbefore.nodes fun _ _ _ _ => Completes.nodes]
    simp only [List.append_assoc, List.cons_append]

/-! ### What a fold logs -/

variable {combine : Expr → List α → Run σ α} {s s' : σ} {halt : Halt} {log : List (Call α)}

theorem logging_of_ok (h : combine e as s = .ok a s') :
    logging combine e as (s, log) = .ok a (s', log ++ [⟨e, as, some a⟩]) := by simp only [logging, h]

theorem logging_of_error (h : combine e as s = .error halt s') :
    logging combine e as (s, log) = .error halt (s', log ++ [⟨e, as, none⟩]) := by simp only [logging, h]

/-- What the fold of a tree logs if it gives a result. -/
def LogsResult (combine : Expr → List α → Run σ α) (e : Expr) : Prop :=
  ∀ s a s' log, e.folded combine s = .ok a s' →
    ∃ calls, e.folded (logging combine) (s, log) = .ok a (s', log ++ calls) ∧ Completes e calls a

/-- What the fold of a tree logs if it stops. -/
def LogsStop (combine : Expr → List α → Run σ α) (e : Expr) : Prop :=
  ∀ s halt s' log, e.folded combine s = .error halt s' →
    ∃ calls n as k, e.folded (logging combine) (s, log) = .error halt (s', log ++ (calls ++ [⟨n, as, none⟩])) ∧
      Breaks n as e calls ∧ combine n as k = .error halt s'

theorem foldedAll_logging_of_ok (log : List (Call α)) (hes : ∀ e ∈ es, LogsResult combine e)
    (h : Expr.foldedAll combine es s = .ok as s') :
    ∃ calls, Expr.foldedAll (logging combine) es (s, log) = .ok as (s', log ++ calls) ∧ CompletesAll es calls as := by
  induction es generalizing s as log with
  | nil =>
    rw [Expr.foldedAll] at h
    cases h
    rw [Expr.foldedAll]
    exact ⟨[], by rw [List.append_nil]; rfl, .nil⟩
  | cons e es ih =>
    rw [Expr.foldedAll] at h
    obtain ⟨a, t, ha, h⟩ := bind_eq_ok_iff.1 h
    obtain ⟨as, t', has, h⟩ := bind_eq_ok_iff.1 h
    cases h
    obtain ⟨calls, hcalls, hcompletes⟩ := hes e List.mem_cons_self s a t log ha
    obtain ⟨calls', hcalls', hcompletes'⟩ := ih _ (fun c hc => hes c (List.mem_cons_of_mem e hc)) has
    refine ⟨calls ++ calls', ?_, .cons hcompletes hcompletes'⟩
    rw [Expr.foldedAll, bind_of_ok hcalls, bind_of_ok hcalls', List.append_assoc]
    rfl

theorem foldedAll_logging_of_error (log : List (Call α)) (hok : ∀ e ∈ es, LogsResult combine e)
    (hes : ∀ e ∈ es, LogsStop combine e) (h : Expr.foldedAll combine es s = .error halt s') :
    ∃ before c after calls bs calls' n as k, es = before ++ c :: after ∧
      Expr.foldedAll (logging combine) es (s, log) = .error halt (s', log ++ (calls ++ calls' ++ [⟨n, as, none⟩])) ∧
      CompletesAll before calls bs ∧ Breaks n as c calls' ∧ combine n as k = .error halt s' := by
  induction es generalizing s log with
  | nil =>
    rw [Expr.foldedAll] at h
    cases h
  | cons e es ih =>
    rw [Expr.foldedAll] at h ⊢
    rcases bind_eq_error_iff.1 h with he | ⟨a, t, ha, h⟩
    · obtain ⟨calls, n, as, k, hcalls, hbreaks, hstop⟩ := hes e List.mem_cons_self s halt s' log he
      exact ⟨[], e, es, [], [], calls, n, as, k, rfl, bind_of_error hcalls, .nil, hbreaks, hstop⟩
    · rcases bind_eq_error_iff.1 h with htail | ⟨_, _, -, h⟩
      · obtain ⟨calls, hcalls, hcompletes⟩ := hok e List.mem_cons_self s a t log ha
        obtain ⟨before, c, after, calls', bs, calls'', n, as, k, rfl, hcalls', hbefore, hbreaks, hstop⟩ :=
          ih (log ++ calls) (fun c hc => hok c (List.mem_cons_of_mem e hc))
            (fun c hc => hes c (List.mem_cons_of_mem e hc)) htail
        refine ⟨e :: before, c, after, calls ++ calls', a :: bs, calls'', n, as, k, rfl, ?_,
          .cons hcompletes hbefore, hbreaks, hstop⟩
        rw [bind_of_ok hcalls, bind_of_error hcalls']
        simp only [List.append_assoc]
      · cases h

theorem logsResult (combine : Expr → List α → Run σ α) (e : Expr) : LogsResult combine e := by
  induction e using Expr.children_induction with
  | node e ih =>
    intro s a s' log h
    rw [Expr.folded] at h ⊢
    obtain ⟨as, t, has, ha⟩ := bind_eq_ok_iff.1 h
    obtain ⟨calls, hcalls, hcompletes⟩ := foldedAll_logging_of_ok log ih has
    refine ⟨calls ++ [⟨e, as, some a⟩], ?_, .node hcompletes⟩
    rw [bind_of_ok hcalls, logging_of_ok ha, List.append_assoc]

theorem logsStop (combine : Expr → List α → Run σ α) (e : Expr) : LogsStop combine e := by
  induction e using Expr.children_induction with
  | node e ih =>
    intro s halt s' log h
    rw [Expr.folded] at h ⊢
    rcases bind_eq_error_iff.1 h with hchildren | ⟨as, t, has, hnode⟩
    · obtain ⟨before, c, after, calls, bs, calls', n, as, k, hes, hcalls, hbefore, hbreaks, hstop⟩ :=
        foldedAll_logging_of_error log (fun c _ => logsResult combine c) ih hchildren
      exact ⟨calls ++ calls', n, as, k, bind_of_error hcalls, .child hes hbefore hbreaks, hstop⟩
    · obtain ⟨calls, hcalls, hcompletes⟩ := foldedAll_logging_of_ok log (fun c _ => logsResult combine c) has
      refine ⟨calls, e, as, t, ?_, .here hcompletes, hnode⟩
      rw [bind_of_ok hcalls, logging_of_error hnode, List.append_assoc]

end Fold

/-- **A fold is the recursion.**  The loop comes to the result or the stop of `Expr.folded`, in the same state, whatever
the combination does to the state.  It takes at most two turns for each node of the tree; then no work is left, and no
result but one.  If it gives a result, the combination was called once for each node in postorder, on the results of
the children of the node.  If it stops, it is with the first call that stops, after the calls for the nodes before: no
error comes from the stacks. -/
theorem Expr.fold_eq_folded (combine : Expr → List α → Run σ α) (e : Expr) :
    e.fold combine = e.folded combine ∧
      (∀ more, (Visitor.ofCombine combine).turns "fold" (2 * e.size + more) ⟨[.enter e], []⟩ =
        (fun a => ⟨[], [a]⟩) <$> e.folded combine) ∧
      (∀ s a s', e.fold combine s = .ok a s' → ∃ calls,
        e.fold (Fold.logging combine) (s, []) = .ok a (s', calls) ∧
          Fold.Completes e calls a ∧ calls.map Fold.Call.node = e.postorder) ∧
      ∀ s halt s', e.fold combine s = .error halt s' → ∃ calls n as k rest,
        e.fold (Fold.logging combine) (s, []) = .error halt (s', calls ++ [⟨n, as, none⟩]) ∧
          Fold.Breaks n as e calls ∧ e.postorder = calls.map Fold.Call.node ++ n :: rest ∧
          combine n as k = .error halt s' := by
  have hloop : ∀ {σ : Type} (combine : Expr → List α → Run σ α), e.fold combine = e.folded combine := fun combine => by
    rw [Expr.fold, Visitor.loop_eq_visit, visit_eq_folded]
  refine ⟨hloop combine, fun more => ?_, fun s a s' h => ?_, fun s halt s' h => ?_⟩
  · rw [Visitor.turns_enter, visit_eq_folded]
  · rw [hloop] at h ⊢
    obtain ⟨calls, hcalls, hcompletes⟩ := Fold.logsResult combine e s a s' [] h
    exact ⟨calls, hcalls, hcompletes, hcompletes.nodes⟩
  · rw [hloop] at h ⊢
    obtain ⟨calls, n, as, k, hcalls, hbreaks, hstop⟩ := Fold.logsStop combine e s halt s' [] h
    obtain ⟨rest, hrest⟩ := hbreaks.nodes
    exact ⟨calls, n, as, k, rest, hcalls, hbreaks, hrest, hstop⟩

end Splice
