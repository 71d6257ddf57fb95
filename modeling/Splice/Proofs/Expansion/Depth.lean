import Splice.Proofs.Expansion.Recursion
/-!
# Expansion, depth by depth

`Expansion.expandAt` says what an expansion is, without counters that change and without stacks: the children of a
node expand at the depth of the node, from left to right, and the body of a lambda that takes the place of a marker
call expands one deeper.  A marker call fails for want of a reference first, then for the reference, the number of
arguments and the depth, in this order.

**The pass is this recursion from every state** (`Expansion.expand_eq_expandAt`).  What earlier expansions left in the
counters makes no difference, whether they gave a tree or failed.

The levels that are left at a depth (`expandWithin`) are the other way to count, which the proofs about expansion use.
-/
namespace Splice

open Run

variable {σ : Type}

namespace Substitution

/-- **A call binds a parameter to the actual argument at the last of its positions.** -/
theorem get?_ofCall_eq_some_iff {params : List Param} {actuals : List Expr} {id : ParamId} {a : Expr} :
    (ofCall params actuals).get? id = some a ↔
      ∃ i : Nat, (params.map Param.id)[i]? = some id ∧ actuals[i]? = some a ∧
        ∀ j, i < j → j < actuals.length → (params.map Param.id)[j]? ≠ some id := by
  show List.lookup id ((params.map Param.id).zip actuals).reverse = some a ↔ _
  generalize params.map Param.id = ids
  rw [List.lookup_eq_some_iff]
  constructor
  · rintro ⟨after, before, heq, hafter⟩
    have hzip : ids.zip actuals = before.reverse ++ (id, a) :: after.reverse := by
      simpa using congrArg List.reverse heq
    have hplace : (ids.zip actuals)[before.length]? = some (id, a) := by simp [hzip]
    obtain ⟨hid, ha⟩ := List.getElem?_zip_eq_some.1 hplace
    refine ⟨before.length, hid, ha, fun j hj hlt hjid => ?_⟩
    obtain ⟨k, rfl⟩ : ∃ k, j = before.length + 1 + k := ⟨j - before.length - 1, by omega⟩
    have hpair : (ids.zip actuals)[before.length + 1 + k]? = some (id, actuals[before.length + 1 + k]) :=
      List.getElem?_zip_eq_some.2 ⟨hjid, List.getElem?_eq_getElem hlt⟩
    rw [hzip, List.getElem?_append_right (by simp; omega), List.length_reverse,
      show before.length + 1 + k - before.length = k + 1 by omega, List.getElem?_cons_succ] at hpair
    simpa using hafter _ (List.mem_reverse.1 (List.mem_of_getElem? hpair))
  · rintro ⟨i, hid, ha, hlast⟩
    have hplace : (ids.zip actuals)[i]? = some (id, a) := List.getElem?_zip_eq_some.2 ⟨hid, ha⟩
    obtain ⟨hlt, hget⟩ := List.getElem?_eq_some_iff.1 hplace
    have hzip : ids.zip actuals = (ids.zip actuals).take i ++ (id, a) :: (ids.zip actuals).drop (i + 1) := by
      rw [← hget, ← List.drop_eq_getElem_cons hlt, List.take_append_drop]
    refine ⟨((ids.zip actuals).drop (i + 1)).reverse, ((ids.zip actuals).take i).reverse, ?_, fun p hp => ?_⟩
    · simpa using congrArg List.reverse hzip
    · obtain ⟨k, hk⟩ := List.mem_iff_getElem?.1 (List.mem_reverse.1 hp)
      rw [List.getElem?_drop] at hk
      obtain ⟨hpid, hpa⟩ := List.getElem?_zip_eq_some.1 hk
      rw [bne_iff_ne]
      rintro rfl
      exact hlast (i + 1 + k) (by omega) (List.getElem?_eq_some_iff.1 hpa).1 hpid

end Substitution

namespace Expansion

mutual
/-- The expansion of a tree that stands `depth` bodies deep. -/
def expandAt (host : Host σ) (limit depth : Nat) (e : Expr) : Run σ Expr := do
  let cs ← expandAllAt host limit depth e.children
  match ← Run.attempt (e.withChildren cs) with
  | .call .project [] => Run.fail .missingReference
  | .call .project (reference :: actuals) => do
    let f ← reference.resolve host
    if f.arity ≠ actuals.length then Run.fail (.arityMismatch f.arity actuals.length)
    else if depth ≥ limit then Run.fail (.cyclicProjection limit)
    else do
      let body ← expandAt host limit (depth + 1) f.body
      return (Substitution.ofCall f.params actuals).replace body
  | node => pure node
termination_by (limit - depth, 2 * e.size)
decreasing_by
  · have := e.size_eq
    exact Prod.Lex.right _ (by omega)
  · exact Prod.Lex.left _ _ (by omega)

def expandAllAt (host : Host σ) (limit depth : Nat) : List Expr → Run σ (List Expr)
  | [] => pure []
  | e :: es => do
    let t ← expandAt host limit depth e
    let ts ← expandAllAt host limit depth es
    return t :: ts
termination_by es => (limit - depth, 2 * Expr.sizeAll es + 1)
decreasing_by
  · exact Prod.Lex.right _ (by simp only [Expr.sizeAll]; omega)
  · have := e.size_pos
    exact Prod.Lex.right _ (by simp only [Expr.sizeAll]; omega)
end

/-! ## Depths and levels -/

/-- What becomes of the body of a lambda for which a marker call stands at this depth. -/
def expandBodyAt (host : Host σ) (limit depth : Nat) (body : Expr) : Run σ Expr :=
  if depth ≥ limit then Run.fail (.cyclicProjection limit) else expandAt host limit (depth + 1) body

theorem expandAt_eq_finish (host : Host σ) (limit depth : Nat) (e : Expr) :
    expandAt host limit depth e =
      (expandAllAt host limit depth e.children >>= fun cs =>
        Run.attempt (e.withChildren cs) >>= finish host (expandBodyAt host limit depth)) := by
  rw [expandAt]
  congr 1; funext cs
  congr 1; funext node
  split
  case h_1 => rfl
  case h_2 reference actuals =>
    show _ = (reference.resolve host >>= _)
    congr 1; funext f
    by_cases harity : f.arity = actuals.length
    · rw [if_neg (not_not_intro harity), if_pos harity, expandBodyAt]
      split <;> rfl
    · rw [if_pos harity, if_neg harity]
  case h_3 hnone hsome =>
    unfold finish
    split
    · exact absurd rfl hnone
    · exact absurd rfl (hsome _ _)
    · rfl

/-- **At a depth as many levels are left as the limit allows below it**, the tree itself being one more. -/
theorem expandAt_eq_expandWithin (host : Host σ) (limit : Nat) :
    ∀ (levels depth : Nat), limit - depth = levels → ∀ e,
      expandAt host limit depth e = expandWithin host limit (levels + 1) e := by
  -- The children of a node stand at its depth, so only the way into the body needs the induction on the levels.
  have hnode : ∀ {levels depth : Nat}, expandBodyAt host limit depth = expandWithin host limit levels → ∀ e,
      expandAt host limit depth e = expandWithin host limit (levels + 1) e := by
    intro levels depth hbody e
    induction e using Expr.children_induction with
    | node e ih =>
      have hall : ∀ es : List Expr, (∀ c ∈ es, c ∈ e.children) →
          expandAllAt host limit depth es = expandAllWithin host limit levels es := by
        intro es hes
        induction es with
        | nil => rw [expandAllAt]; rfl
        | cons c es ihes =>
          rw [expandAllAt, expandAllWithin_cons, ih c (hes c List.mem_cons_self),
            ihes fun c' hc' => hes c' (List.mem_cons_of_mem c hc')]
      rw [expandAt_eq_finish, expandWithin_eq, hall e.children fun _ hc => hc, hbody]
  intro levels
  induction levels with
  | zero =>
    intro depth hlevels
    refine hnode (funext fun body => ?_)
    rw [expandBodyAt, if_pos (by omega)]
    rfl
  | succ levels ih =>
    intro depth hlevels
    refine hnode (funext fun body => ?_)
    rw [expandBodyAt, if_neg (by omega), ih (depth + 1) (by omega)]

/-! ## The pass is the recursion -/

/-- **Whatever state earlier expansions left, an expansion is the recursion from depth zero**: the same tree or the same
failure, with the host program in the same state after it, and the limit is kept for the next one.  The parameters of a
lambda are replaced all at once, each by the actual argument at the last of its positions. -/
theorem expand_eq_expandAt (host : Host σ) (e : Expr) (s : Expansion σ) :
    (Edit.result e <$> expand host e).outcome s = (expandAt host s.limit 0 e).outcome s.hostState ∧
      ((expand host e).final s).hostState = (expandAt host s.limit 0 e).final s.hostState ∧
      ((expand host e).final s).limit = s.limit ∧
      ∀ (params : List Param) (actuals : List Expr) (id : ParamId) (a : Expr),
        (Substitution.ofCall params actuals).get? id = some a ↔
          ∃ i : Nat, (params.map Param.id)[i]? = some id ∧ actuals[i]? = some a ∧
            ∀ j, i < j → j < actuals.length → (params.map Param.id)[j]? ≠ some id := by
  have hfollows := expand_follows host s.limit e
  rw [← expandAt_eq_expandWithin host s.limit s.limit 0 (Nat.sub_zero _)] at hfollows
  have hfinal := hfollows.final (s := s) ⟨rfl, rfl⟩
  refine ⟨?_, hfinal.2, hfinal.1, fun _ _ _ _ => Substitution.get?_ofCall_eq_some_iff⟩
  exact ((follows_of_map (hfollows.weaken fun _ _ h => h.1)).outcome_eq (s := s) ⟨rfl, rfl⟩).symm

end Expansion

end Splice
