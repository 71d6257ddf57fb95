import Splice.Evaluation.Sorting
import Mathlib.Data.List.FinRange
/-!
# Stable comparison sorts

A comparison sort learns about its rows only by comparing two of them.  `Comparing` is a program that asks for
comparisons; a `ComparisonSort` is one that puts the positions of any number of rows in order, stably, **as long as the
answers come from a total preorder**.  Which comparisons it asks for is its own affair.

Where two rows cannot be compared they count as equal, and the first such failure is the failure of the sort.  The
answers then come from no order, and nothing is promised of the result; but without a failure the sort cannot tell the
answers from those of any order that agrees with them (`answer_eq_attempt`).

The sort that the library runs is one of these (`insertion_sortRows`).
-/
namespace Splice.Sorting

/-! ## Programs that compare -/

/-- A program that asks for comparisons and comes to a result. -/
inductive Comparing (α β : Type) where
  | done (result : β)
  | ask (left right : α) (next : Ordering → Comparing α β)

namespace Comparing

variable {α β γ : Type}

def bind : Comparing α β → (β → Comparing α γ) → Comparing α γ
  | .done b, f => f b
  | .ask left right next, f => .ask left right fun o => (next o).bind f

/-- The result if comparisons are answered by `cmp`. -/
def answer (cmp : α → α → Ordering) : Comparing α β → β
  | .done b => b
  | .ask left right next => (next (cmp left right)).answer cmp

/-- The result if comparisons may fail, and the first failure; a comparison that fails is answered by equality. -/
def attempt (cmp : α → α → Except Error Ordering) : Comparing α β → β × Option Error
  | .done b => (b, none)
  | .ask left right next =>
    match cmp left right with
    | .ok o => (next o).attempt cmp
    | .error e => (((next .eq).attempt cmp).1, some e)

theorem answer_bind (cmp : α → α → Ordering) (x : Comparing α β) (f : β → Comparing α γ) :
    (x.bind f).answer cmp = (f (x.answer cmp)).answer cmp := by
  induction x with
  | done b => rfl
  | ask left right next ih => exact ih _

theorem attempt_bind (cmp : α → α → Except Error Ordering) (x : Comparing α β) (f : β → Comparing α γ) :
    (x.bind f).attempt cmp =
      (((f (x.attempt cmp).1).attempt cmp).1, (x.attempt cmp).2.or ((f (x.attempt cmp).1).attempt cmp).2) := by
  induction x with
  | done b => rfl
  | ask left right next ih =>
    simp only [bind, attempt]
    cases cmp left right with
    | ok o => exact ih o
    | error e => rw [ih .eq]; rfl

/-- **Without a failure, the answers are those of every order that agrees with the comparisons that succeed.** -/
theorem answer_eq_attempt {cmp : α → α → Except Error Ordering} {cmp' : α → α → Ordering}
    (h : ∀ a b o, cmp a b = .ok o → cmp' a b = o) {x : Comparing α β} (hx : (x.attempt cmp).2 = none) :
    x.answer cmp' = (x.attempt cmp).1 := by
  induction x with
  | done b => rfl
  | ask left right next ih =>
    unfold attempt at hx ⊢
    unfold answer
    split at hx
    case h_1 o ho =>
      rw [h _ _ _ ho]
      exact ih o hx
    case h_2 => cases hx

/-- A failure is the failure of a comparison. -/
theorem exists_of_attempt {cmp : α → α → Except Error Ordering} {x : Comparing α β} {e : Error}
    (hx : (x.attempt cmp).2 = some e) : ∃ a b, cmp a b = .error e := by
  induction x with
  | done b => cases hx
  | ask left right next ih =>
    unfold attempt at hx
    split at hx
    case h_1 o ho => exact ih o hx
    case h_2 e' he =>
      cases hx
      exact ⟨left, right, he⟩

end Comparing

/-! ## Sorts -/

/-- In order, and where equal, in the order of positions. -/
def InOrder {n : Nat} (cmp : Fin n → Fin n → Ordering) (i j : Fin n) : Prop := cmp i j = .lt ∨ cmp i j = .eq ∧ i < j

/-- A comparison sort that is stable: given a total preorder, it puts the positions of `n` rows in order. -/
structure ComparisonSort where
  positions : (n : Nat) → Comparing (Fin n) (List (Fin n))
  stable : ∀ {n : Nat} (cmp : Fin n → Fin n → Ordering) [Std.TransCmp cmp],
    ((positions n).answer cmp).Perm (List.finRange n) ∧ ((positions n).answer cmp).Pairwise (InOrder cmp)

/-- The order of the keys at two positions. -/
def keyOrderAt (rows : List Keyed) (i j : Fin rows.length) : Except Error Ordering :=
  Scalar.keyOrder (rows.get i).key (rows.get j).key

/-- The positions as the sort leaves them, and the first comparison that failed. -/
def ComparisonSort.run (S : ComparisonSort) (rows : List Keyed) : List (Fin rows.length) × Option Error :=
  (S.positions rows.length).attempt (keyOrderAt rows)

/-- The rows in the order of their keys, or the first comparison that failed. -/
def ComparisonSort.sortRows (S : ComparisonSort) (rows : List Keyed) : Except Error (List Value) :=
  match (S.run rows).2 with
  | some e => .error e
  | none => .ok ((S.run rows).1.map fun i => (rows.get i).row)

/-! ## Insertion -/

/-- Put an element to the right of the first element that it is not less than; the list is read from the right. -/
def inserting {α : Type} (moving : α) : List α → Comparing α (List α)
  | [] => .done [moving]
  | neighbour :: rest => .ask moving neighbour fun
    | .lt => (inserting moving rest).bind fun placed => .done (neighbour :: placed)
    | _ => .done (moving :: neighbour :: rest)

/-- Insert the elements one after the other into those that are sorted so far, the last of them first. -/
def insertingAll {α : Type} (sorted : List α) : List α → Comparing α (List α)
  | [] => .done sorted.reverse
  | moving :: rest => (inserting moving sorted).bind fun sorted => insertingAll sorted rest

section

variable {n : Nat} {cmp : Fin n → Fin n → Ordering}

theorem InOrder.trans [Std.TransCmp cmp] {i j k : Fin n} (hij : InOrder cmp i j) (hjk : InOrder cmp j k) :
    InOrder cmp i k := by
  obtain hij | ⟨hij, hlt⟩ := hij <;> obtain hjk | ⟨hjk, hlt'⟩ := hjk
  · exact .inl (Std.TransCmp.lt_trans hij hjk)
  · exact .inl (Std.TransCmp.lt_of_lt_of_eq hij hjk)
  · exact .inl (Std.TransCmp.lt_of_eq_of_lt hij hjk)
  · exact .inr ⟨Std.TransCmp.eq_trans hij hjk, hlt.trans hlt'⟩

theorem answer_inserting_cons (i j : Fin n) (rest : List (Fin n)) :
    (inserting i (j :: rest)).answer cmp =
      if cmp i j = .lt then j :: (inserting i rest).answer cmp else i :: j :: rest := by
  rw [inserting, Comparing.answer]
  cases cmp i j with
  | lt => exact Comparing.answer_bind ..
  | eq | gt => rfl

theorem perm_inserting (i : Fin n) (sorted : List (Fin n)) : ((inserting i sorted).answer cmp).Perm (i :: sorted) := by
  induction sorted with
  | nil => exact .refl _
  | cons j rest ih =>
    rw [answer_inserting_cons]
    split
    · exact (ih.cons j).trans (.swap i j rest)
    · exact .refl _

theorem pairwise_inserting [Std.TransCmp cmp] {i : Fin n} {sorted : List (Fin n)} (hlt : ∀ j ∈ sorted, j < i)
    (hsorted : sorted.Pairwise (flip (InOrder cmp))) :
    ((inserting i sorted).answer cmp).Pairwise (flip (InOrder cmp)) := by
  induction sorted with
  | nil => exact List.pairwise_singleton _ _
  | cons j rest ih =>
    rw [List.pairwise_cons] at hsorted
    rw [answer_inserting_cons]
    split
    case isTrue hless =>
      refine List.pairwise_cons.2 ⟨fun k hk => ?_, ih (fun k hk => hlt k (List.mem_cons_of_mem _ hk)) hsorted.2⟩
      obtain rfl | hk := List.mem_cons.1 ((perm_inserting i rest).mem_iff.1 hk)
      · exact .inl hless
      · exact hsorted.1 k hk
    case isFalse hless =>
      have hji : InOrder cmp j i := by
        cases hcmp : cmp i j with
        | lt => exact absurd hcmp hless
        | eq => exact .inr ⟨Std.OrientedCmp.eq_symm hcmp, hlt j (List.mem_cons_self ..)⟩
        | gt => exact .inl (Std.OrientedCmp.lt_of_gt hcmp)
      refine List.pairwise_cons.2 ⟨fun k hk => ?_, List.pairwise_cons.2 hsorted⟩
      obtain rfl | hk := List.mem_cons.1 hk
      · exact hji
      · exact (hsorted.1 k hk).trans hji

/-- The invariant of the insertion: the sorted elements are in order, and before all elements that are still to come. -/
theorem answer_insertingAll [Std.TransCmp cmp] {sorted rest : List (Fin n)}
    (hsorted : sorted.Pairwise (flip (InOrder cmp))) (hrest : rest.Pairwise (· < ·))
    (hlt : ∀ j ∈ sorted, ∀ i ∈ rest, j < i) :
    ((insertingAll sorted rest).answer cmp).Perm (sorted ++ rest) ∧
      ((insertingAll sorted rest).answer cmp).Pairwise (InOrder cmp) := by
  induction rest generalizing sorted with
  | nil =>
    rw [List.append_nil]
    exact ⟨List.reverse_perm sorted, List.pairwise_reverse.2 hsorted⟩
  | cons i rest ih =>
    rw [List.pairwise_cons] at hrest
    have hperm : ((inserting i sorted).answer cmp).Perm (i :: sorted) := perm_inserting i sorted
    have hplaced := pairwise_inserting (fun j hj => hlt j hj i (List.mem_cons_self ..)) hsorted
    have hbefore : ∀ j ∈ (inserting i sorted).answer cmp, ∀ k ∈ rest, j < k := by
      intro j hj k hk
      obtain rfl | hj := List.mem_cons.1 (hperm.mem_iff.1 hj)
      · exact hrest.1 k hk
      · exact hlt j hj k (List.mem_cons_of_mem _ hk)
    unfold insertingAll
    rw [Comparing.answer_bind]
    obtain ⟨hall, hinOrder⟩ := ih hplaced hrest.2 hbefore
    exact ⟨hall.trans ((hperm.append_right rest).trans List.perm_middle.symm), hinOrder⟩

end

/-- Sorting by insertion, from the left to the right. -/
def insertion : ComparisonSort where
  positions n := insertingAll [] (List.finRange n)
  stable _ := answer_insertingAll .nil (List.pairwise_lt_finRange _) (fun _ hj => nomatch hj)

/-! ## The sort that runs -/

section

variable {rows : List Keyed}

theorem insert_map_get (i : Fin rows.length) (sorted : List (Fin rows.length)) :
    insert (rows.get i) (sorted.map rows.get) =
      (((inserting i sorted).attempt (keyOrderAt rows)).1.map rows.get,
        ((inserting i sorted).attempt (keyOrderAt rows)).2) := by
  induction sorted with
  | nil => rfl
  | cons j rest ih =>
    have hkeys : Scalar.keyOrder (rows.get i).key (rows.get j).key = keyOrderAt rows i j := rfl
    rw [List.map_cons, insert, inserting, Comparing.attempt, hkeys]
    cases keyOrderAt rows i j with
    | error e => rfl
    | ok o =>
      cases o with
      | lt =>
        simp only [Comparing.attempt_bind, ih]
        simp [Comparing.attempt]
      | eq | gt => rfl

theorem foldl_add_map_get (sorted rest : List (Fin rows.length)) (failure : Option Error) :
    (rest.map rows.get).foldl Progress.add ⟨sorted.map rows.get, failure⟩ =
      ⟨((insertingAll sorted rest).attempt (keyOrderAt rows)).1.reverse.map rows.get,
        failure.or ((insertingAll sorted rest).attempt (keyOrderAt rows)).2⟩ := by
  induction rest generalizing sorted failure with
  | nil => simp [insertingAll, Comparing.attempt]
  | cons i rest ih =>
    rw [List.map_cons, List.foldl_cons, insertingAll, Comparing.attempt_bind, ← Option.or_assoc, ← ih]
    simp only [Progress.add, insert_map_get]

/-- **The sort that the library runs is insertion.** -/
theorem insertion_sortRows (rows : List Keyed) : insertion.sortRows rows = sortRows rows := by
  have hfold : rows.foldl Progress.add {} = ⟨(insertion.run rows).1.reverse.map rows.get, (insertion.run rows).2⟩ := by
    have h := foldl_add_map_get [] (List.finRange rows.length) none
    rwa [List.map_get_finRange] at h
  unfold sortRows ComparisonSort.sortRows
  rw [hfold]
  cases (insertion.run rows).2 with
  | some e => rfl
  | none => simp [Function.comp_def]

end

end Splice.Sorting
