import Splice.Proofs.Stopping
import Splice.Proofs.Tree.Visits
/-!
# Passes as recursive rewriting

`Pass.rewrite` says what a pass over a tree does without stacks and without errors of its own: enter the node; if that
gives no edit, rewrite the children from left to right, put the node together around their edits, and leave it.  **The
loop of `Expr.transform` does the same** (`Expr.transform_eq_rewrite`), whatever state the calls of the pass read and
change and wherever they stop.

That the loop ends is seen turn by turn.  A turn takes one frame from the work stack, and the weight of what is on it
falls; and it keeps the books: the results that are there and those that the frames are going to leave or to take come
out at one.  So no turn misses a result, and when the work is done there is exactly one.
-/
namespace Splice

open Run

variable {σ α : Type}

/-! ## One turn of the loop -/

theorem Frame.weight_pos (f : Frame α) : 0 < f.weight := by
  cases f with
  | enter e => exact Nat.mul_pos Nat.two_pos e.size_pos
  | _ => exact Nat.one_pos

namespace Visitor

/-- The work stack and the result stack of a visit, the newest result first. -/
structure Stacks (α : Type) where
  work : List (Frame α)
  results : List α := []

/-- The stacks after one frame; a visit that is through stays as it is. -/
def turn (v : Visitor σ α) (visit : String) : Stacks α → Run σ (Stacks α)
  | ⟨[], results⟩ => pure ⟨[], results⟩
  | ⟨.enter e :: work, results⟩ => do
    match ← v.enter e with
    | some a => pure ⟨.done a :: work, results⟩
    | none => pure ⟨e.children.map .enter ++ .exit e e.children.length :: work, results⟩
  | ⟨.exit e n :: work, results⟩ => do
    let (outputs, rest) ← takeResults visit n results
    let a ← v.exit e outputs
    return ⟨work, a :: rest⟩
  | ⟨.done a :: work, results⟩ => pure ⟨work, a :: results⟩

def turns (v : Visitor σ α) (visit : String) : Nat → Stacks α → Run σ (Stacks α)
  | 0, st => pure st
  | n + 1, st => do v.turns visit n (← v.turn visit st)

/-- How many results there are after the work, if none is missed on the way. -/
def resultsLeft : List (Frame α) → Nat → Option Nat
  | [], n => some n
  | .enter _ :: work, n | .done _ :: work, n => resultsLeft work (n + 1)
  | .exit _ arity :: work, n => if arity ≤ n then resultsLeft work (n - arity + 1) else none

theorem resultsLeft_enter (es : List Expr) (work : List (Frame α)) (n : Nat) :
    resultsLeft (es.map .enter ++ work) n = resultsLeft work (n + es.length) := by
  induction es generalizing n with
  | nil => rfl
  | cons e es ih =>
    rw [List.map_cons, List.cons_append, resultsLeft, ih, List.length_cons]
    congr 1
    omega

/-- **The work gets less in every turn.** -/
theorem totalWeight_turn {v : Visitor σ α} {visit : String} {st st' : Stacks α} {s s' : σ}
    (hwork : st.work ≠ []) (h : v.turn visit st s = .ok st' s') :
    Frame.totalWeight st'.work < Frame.totalWeight st.work := by
  unfold turn at h
  split at h
  case h_1 => exact absurd rfl hwork
  case h_2 e work results =>
    obtain ⟨r, k, -, h⟩ := bind_eq_ok_iff.1 h
    have := e.size_pos
    cases r with
    | some a =>
      cases h
      simp only [Frame.totalWeight, Frame.weight]
      omega
    | none =>
      cases h
      exact Frame.totalWeight_children e _ work
  case h_3 =>
    obtain ⟨⟨outputs, rest⟩, k, -, h⟩ := bind_eq_ok_iff.1 h
    obtain ⟨a, k', -, h⟩ := bind_eq_ok_iff.1 h
    cases h
    simp [Frame.totalWeight, Frame.weight]
  case h_4 =>
    cases h
    simp [Frame.totalWeight, Frame.weight]

theorem takeResults_eq_ok {visit : String} {n : Nat} {results outputs rest : List α} {s s' : σ}
    (h : takeResults visit n results s = .ok (outputs, rest) s') : n + rest.length = results.length := by
  unfold takeResults at h
  split at h
  case isTrue => cases h
  case isFalse hlen =>
    cases h
    rw [List.length_take] at hlen
    rw [List.length_drop]
    omega

/-- **The number of results at the end stays the same in every turn.** -/
theorem resultsLeft_turn {v : Visitor σ α} {visit : String} {st st' : Stacks α} {s s' : σ}
    (h : v.turn visit st s = .ok st' s') :
    resultsLeft st'.work st'.results.length = resultsLeft st.work st.results.length := by
  unfold turn at h
  split at h
  case h_1 =>
    cases h
    rfl
  case h_2 e work results =>
    obtain ⟨r, k, -, h⟩ := bind_eq_ok_iff.1 h
    cases r with
    | some a =>
      cases h
      rfl
    | none =>
      cases h
      dsimp only
      rw [resultsLeft_enter, resultsLeft, resultsLeft, if_pos (by omega), Nat.add_sub_cancel]
  case h_3 e n work results =>
    obtain ⟨⟨outputs, rest⟩, k, htake, h⟩ := bind_eq_ok_iff.1 h
    obtain ⟨a, k', -, h⟩ := bind_eq_ok_iff.1 h
    cases h
    have hlen := takeResults_eq_ok htake
    dsimp only
    rw [resultsLeft, ← hlen, if_pos (by omega), Nat.add_sub_cancel_left, List.length_cons]
  case h_4 =>
    cases h
    rfl

/-! ## The loop, turn by turn -/

theorem loop_eq_turn (v : Visitor σ α) (visit : String) (st : Stacks α) :
    v.loop visit st.work st.results =
      (v.turn visit st >>= fun st' => v.loop visit st'.work st'.results) := by
  obtain ⟨_ | ⟨f, work⟩, results⟩ := st
  · rw [turn, pure_bind]
  cases f with
  | enter e =>
    rw [loop, turn, bind_assoc]
    congr 1; funext r
    cases r <;> rfl
  | exit e n =>
    rw [loop, turn]
    simp only [bind_assoc, pure_bind]
  | done a => rw [loop, turn, pure_bind]

/-- **The loop is its turns.** -/
theorem loop_eq_turns (v : Visitor σ α) (visit : String) (n : Nat) (st : Stacks α) :
    v.loop visit st.work st.results =
      (v.turns visit n st >>= fun st' => v.loop visit st'.work st'.results) := by
  induction n generalizing st with
  | zero => rw [turns, pure_bind]
  | succ n ih =>
    rw [loop_eq_turn, turns, bind_assoc]
    congr 1; funext st'
    exact ih st'

/-- **As many turns as the work weighs are enough for it**, and the books are kept. -/
theorem turns_eq_ok {v : Visitor σ α} {visit : String} {n : Nat} {st st' : Stacks α} {s s' : σ}
    (hn : Frame.totalWeight st.work ≤ n) (h : v.turns visit n st s = .ok st' s') :
    st'.work = [] ∧ some st'.results.length = resultsLeft st.work st.results.length := by
  -- On the turns: the weight bounds those that are still to come, and the books say what they will leave.
  induction n generalizing st s with
  | zero =>
    obtain ⟨_ | ⟨f, work⟩, results⟩ := st
    · cases h
      exact ⟨rfl, rfl⟩
    · have := f.weight_pos
      simp only [Frame.totalWeight] at hn
      omega
  | succ n ih =>
    obtain ⟨next, k, hturn, h⟩ := bind_eq_ok_iff.1 h
    rw [← resultsLeft_turn hturn]
    refine ih ?_ h
    by_cases hwork : st.work = []
    · obtain ⟨work, results⟩ := st
      obtain rfl : work = [] := hwork
      cases hturn
      exact Nat.zero_le _
    · have := totalWeight_turn hwork hturn
      omega

/-- **The turns of a visit**: after twice as many as the tree has nodes there is the result of the recursion, and
nothing else on the stacks. -/
theorem turns_enter (v : Visitor σ α) (visit : String) (e : Expr) (more : Nat) :
    v.turns visit (2 * e.size + more) ⟨[.enter e], []⟩ = (fun a => ⟨[], [a]⟩) <$> v.visit e := by
  rw [← loop_eq_visit v visit e, loop_eq_turns v visit (2 * e.size + more) ⟨[.enter e], []⟩, map_bind]
  funext s
  cases h : v.turns visit (2 * e.size + more) ⟨[.enter e], []⟩ s with
  | error halt s' => rw [bind_of_error h]
  | ok st s' =>
    obtain ⟨hwork, hresults⟩ := turns_eq_ok (by simp [Frame.totalWeight, Frame.weight]) h
    obtain ⟨a, ha⟩ := List.length_eq_one_iff.1 (Option.some.inj hresults)
    obtain ⟨work, results⟩ := st
    obtain rfl : work = [] := hwork
    obtain rfl : results = [a] := ha
    rw [bind_of_ok h, loop]
    rfl

end Visitor

/-! ## Rewriting by recursion -/

namespace Expr

/-- The node put together around the edits of its children, one for each; it is kept if all of them are. -/
def rebuilt (e : Expr) (edits : List Edit) (h : edits.length = e.children.length) : Edit :=
  if edits.all Edit.isKeep then .keep
  else .put ((e.ofChildren? (List.zipWith Edit.result e.children edits)).get
    ((ofChildren?_isSome e _).2 (by simp [h])))

theorem rebuild_eq (e : Expr) (edits : List Edit) (h : edits.length = e.children.length) :
    e.rebuild edits = .ok (e.rebuilt edits h) := by
  unfold rebuild rebuilt
  rw [if_neg (by simp [h])]
  split
  · rfl
  · unfold withChildren
    split
    case h_1 e' he' => simp only [he', Option.get_some]; rfl
    case h_2 hnone =>
      have hsome := (ofChildren?_isSome e (List.zipWith Edit.result e.children edits)).2 (by simp [h])
      rw [hnone] at hsome
      cases hsome

end Expr

namespace Pass

mutual
/-- Rewrite a tree: enter it; if that gives no edit, rewrite its children, put it together and leave it. -/
def rewrite (p : Pass σ) (e : Expr) : Run σ Edit := do
  match ← p.enter e with
  | some edit => pure edit
  | none =>
    let ⟨edits, h⟩ ← p.rewriteAll e.children
    p.exit e (e.rebuilt edits h)
termination_by (e.size, 0)
decreasing_by
  have := e.size_eq
  exact Prod.Lex.left _ _ (by omega)
/-- Rewrite trees from left to right, with one edit for each. -/
def rewriteAll (p : Pass σ) : (es : List Expr) → Run σ { edits : List Edit // edits.length = es.length }
  | [] => pure ⟨[], rfl⟩
  | e :: es => do
    let edit ← p.rewrite e
    let ⟨edits, h⟩ ← p.rewriteAll es
    return ⟨edit :: edits, congrArg (· + 1) h⟩
termination_by es => (Expr.sizeAll es, 1)
decreasing_by
  · simp only [Expr.sizeAll]
    rcases Nat.eq_zero_or_pos (Expr.sizeAll es) with h | h
    · rw [h]
      exact Prod.Lex.right _ Nat.one_pos
    · exact Prod.Lex.left _ _ (by omega)
  · have := e.size_pos
    exact Prod.Lex.left _ _ (by simp only [Expr.sizeAll]; omega)
end

theorem visitAll_eq (p : Pass σ) (es : List Expr) (h : ∀ e ∈ es, p.visitor.visit e = p.rewrite e) :
    p.visitor.visitAll es = Subtype.val <$> p.rewriteAll es := by
  induction es with
  | nil => rw [rewriteAll, map_pure]; rfl
  | cons e es ih =>
    rw [Visitor.visitAll, rewriteAll, h e List.mem_cons_self, ih fun c hc => h c (List.mem_cons_of_mem e hc)]
    simp only [map_bind, bind_map_left, map_pure]

theorem visit_eq_rewrite (p : Pass σ) (e : Expr) : p.visitor.visit e = p.rewrite e := by
  induction e using Expr.children_induction with
  | node e ih =>
    rw [Visitor.visit_eq, Visitor.around, rewrite, p.visitAll_eq e.children ih]
    congr 1; funext r
    cases r with
    | some edit => rfl
    | none =>
      dsimp only
      rw [bind_map_left]
      congr 1; funext edits
      simp only [visitor, e.rebuild_eq edits.1 edits.2, Run.attempt, pure_bind]

/-! ## Where rewriting stops -/

/-- One of the calls of the pass stops like this, and leaves this state. -/
def StopsAt (p : Pass σ) (halt : Halt) (s : σ) : Prop :=
  (∃ e k, p.enter e k = .error halt s) ∨ ∃ e edit k, p.exit e edit k = .error halt s

theorem rewriteAll_stopsAt {p : Pass σ} {halt : Halt} {es : List Expr}
    (hes : ∀ e ∈ es, ∀ s s', p.rewrite e s = .error halt s' → p.StopsAt halt s') {s s' : σ}
    (h : p.rewriteAll es s = .error halt s') : p.StopsAt halt s' := by
  induction es generalizing s with
  | nil =>
    rw [rewriteAll] at h
    cases h
  | cons e es ih =>
    rw [rewriteAll] at h
    rcases bind_eq_error_iff.1 h with he | ⟨edit, k, -, h⟩
    · exact hes e List.mem_cons_self s s' he
    · rcases bind_eq_error_iff.1 h with htail | ⟨edits, k', -, h⟩
      · exact ih (fun c hc => hes c (List.mem_cons_of_mem e hc)) htail
      · cases h

/-- **Rewriting has no errors of its own**: it stops where a call stops. -/
theorem rewrite_stopsAt {p : Pass σ} {e : Expr} {s s' : σ} {halt : Halt} (h : p.rewrite e s = .error halt s') :
    p.StopsAt halt s' := by
  induction e using Expr.children_induction generalizing s s' with
  | node e ih =>
    rw [rewrite] at h
    rcases bind_eq_error_iff.1 h with henter | ⟨r, k, -, h⟩
    · exact .inl ⟨e, s, henter⟩
    cases r with
    | some edit => cases h
    | none =>
      rcases bind_eq_error_iff.1 h with hchildren | ⟨edits, k', -, hexit⟩
      · exact rewriteAll_stopsAt (fun c hc s s' hc' => ih c hc hc') hchildren
      · exact .inr ⟨e, e.rebuilt edits.1 edits.2, k', hexit⟩

end Pass

/-- **A pass over a tree is the recursion.**  The loop makes the calls of `Pass.rewrite` in their order and on the same
states, whatever the calls do to the state (they may write themselves down there), and comes to the same edit or to the
same stop.  It takes at most two turns for each node of the tree; then no work is left, and no result but one.  Where it
stops, one of the calls has stopped like this in this state, so no error comes from the stacks. -/
theorem Expr.transform_eq_rewrite (p : Pass σ) (e : Expr) :
    e.transform p = p.rewrite e ∧
      (∀ more, p.visitor.turns "pass" (2 * e.size + more) ⟨[.enter e], []⟩ =
        (fun edit => ⟨[], [edit]⟩) <$> p.rewrite e) ∧
      ∀ s halt s', e.transform p s = .error halt s' → p.StopsAt halt s' := by
  have hloop : e.transform p = p.rewrite e := by
    rw [Expr.transform, Visitor.loop_eq_visit, p.visit_eq_rewrite]
  refine ⟨hloop, fun more => ?_, fun s halt s' h => ?_⟩
  · rw [Visitor.turns_enter, p.visit_eq_rewrite]
  · rw [hloop] at h
    exact Pass.rewrite_stopsAt h

end Splice
