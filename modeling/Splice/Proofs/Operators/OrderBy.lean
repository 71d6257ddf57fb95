import Splice.Proofs.Operators.ComparisonSort
import Splice.Proofs.Operators.Rows
import Splice.Proofs.Scalar.Keys
/-!
# Sorting rows by keys

**If all keys but null are of one kind, the rows come out in the order of their keys, and those of equal keys in the
order that they had; otherwise the sort fails** (`call_orderBy`).

That it fails does not depend on the comparisons that a sort makes.  If all of them succeed, the sort cannot tell
whether it is asked for the kinds upward or downward, so it puts the rows in order both ways; and then all keys can be
compared.
-/
namespace Splice

namespace Sorting

/-! ## Every sort of keyed rows -/

/-- A permutation of the positions that has the keys in their natural order, and equal keys as they were. -/
structure StableOrder (rows : List Keyed) (order : List (Fin rows.length)) : Prop where
  perm : order.Perm (List.finRange rows.length)
  inOrder : order.Pairwise fun i j =>
    (rows.get i).key.Below (rows.get j).key ∨ (rows.get i).key = (rows.get j).key ∧ i < j

/-- No two keys but null are of different kinds. -/
def OneKind (rows : List Keyed) : Prop := ∀ a ∈ rows, ∀ b ∈ rows, a.key.Comparable b.key

/-- A comparison of two keys of different kinds. -/
def Mismatch (rows : List Keyed) (e : Error) : Prop :=
  ∃ a ∈ rows, ∃ b ∈ rows, ¬a.key.Comparable b.key ∧
    e = .typeMismatch "comparable values" s!"{a.key.typeName} and {b.key.typeName}"

section

variable {rows : List Keyed}

/-- The total order of the rows that has the kinds of their keys upward or downward. -/
def keyCompareAt (sign : Int) (rows : List Keyed) (i j : Fin rows.length) : Ordering :=
  Scalar.keyCompare sign (rows.get i).key (rows.get j).key

instance (sign : Int) : Std.TransCmp (keyCompareAt sign rows) :=
  inferInstanceAs (Std.TransCmp (compareLex (compareOn fun i : Fin rows.length => Scalar.shelf sign (rows.get i).key)
    (compareLex (compareOn fun i => Scalar.measure (rows.get i).key)
      (compareOn fun i => Scalar.text (rows.get i).key))))

variable (hkeys : ∀ r ∈ rows, r.key.isKey = true)
include hkeys

theorem keyOrderAt_of_comparable {sign : Int} (hsign : sign = 1 ∨ sign = -1) {i j : Fin rows.length}
    (h : (rows.get i).key.Comparable (rows.get j).key) : keyOrderAt rows i j = .ok (keyCompareAt sign rows i j) :=
  Scalar.keyOrder_of_comparable (hkeys _ (rows.get_mem i)) (hkeys _ (rows.get_mem j)) hsign h

theorem keyOrderAt_of_not_comparable {i j : Fin rows.length} (h : ¬(rows.get i).key.Comparable (rows.get j).key) :
    ∃ e, keyOrderAt rows i j = .error e ∧ Mismatch rows e :=
  ⟨_, Scalar.keyOrder_of_not_comparable (hkeys _ (rows.get_mem i)) (hkeys _ (rows.get_mem j)) h,
    _, rows.get_mem i, _, rows.get_mem j, h, rfl⟩

/-- Both total orders agree with every comparison that succeeds. -/
theorem keyCompareAt_of_ok {sign : Int} (hsign : sign = 1 ∨ sign = -1) (i j : Fin rows.length) (o : Ordering)
    (h : keyOrderAt rows i j = .ok o) : keyCompareAt sign rows i j = o :=
  (Scalar.compared_of_keyOrder (hkeys _ (rows.get_mem i)) (hkeys _ (rows.get_mem j)) h).keyCompare_eq hsign

theorem mismatch_of_error {i j : Fin rows.length} {e : Error} (h : keyOrderAt rows i j = .error e) :
    Mismatch rows e := by
  by_cases hcomparable : (rows.get i).key.Comparable (rows.get j).key
  · cases h.symm.trans (keyOrderAt_of_comparable hkeys (.inl rfl) hcomparable)
  · obtain ⟨e', he, hmismatch⟩ := keyOrderAt_of_not_comparable hkeys hcomparable
    cases he.symm.trans h
    exact hmismatch

/-- A sort whose comparisons all succeed has the positions in order, both ways. -/
theorem stable_of_run {S : ComparisonSort} (h : (S.run rows).2 = none) {sign : Int} (hsign : sign = 1 ∨ sign = -1) :
    (S.run rows).1.Perm (List.finRange rows.length) ∧
      (S.run rows).1.Pairwise (InOrder (keyCompareAt sign rows)) := by
  unfold ComparisonSort.run
  rw [← Comparing.answer_eq_attempt (keyCompareAt_of_ok hkeys hsign) h]
  exact S.stable (keyCompareAt sign rows)

/-- **Rows with keys of one kind are sorted.** -/
theorem sortRows_of_oneKind (hone : OneKind rows) (S : ComparisonSort) :
    ∃ order, StableOrder rows order ∧ S.sortRows rows = .ok (order.map fun i => (rows.get i).row) := by
  have hok : ∀ i j, keyOrderAt rows i j = .ok (keyCompareAt 1 rows i j) := fun i j =>
    keyOrderAt_of_comparable hkeys (.inl rfl) (hone _ (rows.get_mem i) _ (rows.get_mem j))
  have hnone : (S.run rows).2 = none := by
    cases hfailure : (S.run rows).2 with
    | none => rfl
    | some e =>
      obtain ⟨i, j, he⟩ := Comparing.exists_of_attempt hfailure
      cases he.symm.trans (hok i j)
  obtain ⟨hperm, hpairwise⟩ := stable_of_run hkeys hnone (.inl rfl)
  refine ⟨_, ⟨hperm, hpairwise.imp fun {i j} hij => ?_⟩, by simp only [ComparisonSort.sortRows, hnone]⟩
  have hcompared := Scalar.compared_of_keyOrder (hkeys _ (rows.get_mem i)) (hkeys _ (rows.get_mem j)) (hok i j)
  obtain hlt | ⟨heq, hlt⟩ := hij
  · exact .inl (hcompared.below hlt)
  · exact .inr ⟨hcompared.eq heq, hlt⟩

/-- **Rows with keys of different kinds are not sorted**, whatever comparisons a sort makes. -/
theorem sortRows_of_not_oneKind (hone : ¬OneKind rows) (S : ComparisonSort) :
    ∃ e, S.sortRows rows = .error e ∧ Mismatch rows e := by
  cases hfailure : (S.run rows).2 with
  | some e =>
    obtain ⟨i, j, he⟩ := Comparing.exists_of_attempt hfailure
    exact ⟨e, by simp only [ComparisonSort.sortRows, hfailure], mismatch_of_error hkeys he⟩
  | none =>
    obtain ⟨hperm, hup⟩ := stable_of_run hkeys hfailure (.inl rfl)
    obtain ⟨-, hdown⟩ := stable_of_run hkeys hfailure (.inr rfl)
    have hle : ∀ {sign : Int} {i j : Fin rows.length}, InOrder (keyCompareAt sign rows) i j →
        Scalar.keyCompare sign (rows.get i).key (rows.get j).key ≠ .gt := by
      rintro sign i j (h | ⟨h, -⟩) hgt <;> cases h.symm.trans hgt
    -- Of two positions one comes first, and then their keys are in order both ways.
    have hcomparable := (hup.and hdown).imp fun {i j} h =>
      Scalar.comparable_of_keyCompare (hkeys _ (rows.get_mem i)) (hkeys _ (rows.get_mem j)) (hle h.1) (hle h.2)
    have hall := List.Pairwise.forall_of_forall_of_flip (fun i _ => Value.Comparable.refl (rows.get i).key) hcomparable
      (hcomparable.imp fun h => h.symm)
    refine absurd (fun r hr r' hr' => ?_) hone
    obtain ⟨i, rfl⟩ := List.mem_iff_get.1 hr
    obtain ⟨j, rfl⟩ := List.mem_iff_get.1 hr'
    exact hall (hperm.mem_iff.2 (List.mem_finRange i)) (hperm.mem_iff.2 (List.mem_finRange j))

end

/-! ### There is one stable order -/

theorem StableOrder.unique {rows : List Keyed} {order order' : List (Fin rows.length)} (h : StableOrder rows order)
    (h' : StableOrder rows order') : order = order' := by
  refine List.Perm.eq_of_pairwise ?_ h.inOrder h'.inOrder (h.perm.trans h'.perm.symm)
  rintro i j - - (hij | ⟨heq, hlt⟩) (hji | ⟨heq', hgt⟩)
  · exact absurd hji hij.not_below
  · rw [heq'] at hij
    exact absurd hij hij.not_below
  · rw [heq] at hji
    exact absurd hji hji.not_below
  · exact absurd hgt hlt.asymm

end Sorting

namespace Operators

variable {σ : Type}

/-- **Sorting by keys**: if all keys but null are of one kind, the rows in the order of their keys, those of equal keys
as they were; else a type mismatch.  Every stable comparison sort does the same. -/
theorem call_orderBy {ev : Expr → Eval σ Value} {receiver argument : Expr} {s s' s'' : EvalState σ} {f : Lambda}
    {rows : List Sorting.Keyed} (hreceives : Receives ev receiver argument s f (rows.map (·.row)) s')
    (hvalues : mapRows ev f (rows.map (·.row)) s' = .ok (rows.map (·.key)) s'')
    (hkeys : ∀ r ∈ rows, r.key.isKey = true) :
    (Sorting.OneKind rows → ∃ order, Sorting.StableOrder rows order ∧
      call ev .orderBy [receiver, argument] s = .ok (.list (order.map fun i => (rows.get i).row)) s'' ∧
      ∀ S : Sorting.ComparisonSort, S.sortRows rows = .ok (order.map fun i => (rows.get i).row)) ∧
    (¬Sorting.OneKind rows →
      (∃ e, call ev .orderBy [receiver, argument] s = .error (.error e) s'' ∧ Sorting.Mismatch rows e) ∧
      ∀ S : Sorting.ComparisonSort, ∃ e, S.sortRows rows = .error e ∧ Sorting.Mismatch rows e) := by
  have hkeyed : List.zipWith Sorting.Keyed.mk (rows.map (·.key)) (rows.map (·.row)) = rows := by
    rw [List.zipWith_map]
    simp
  have hcall : call ev .orderBy [receiver, argument] s =
      (Value.list <$> Run.attempt (Sorting.insertion.sortRows rows) : Eval σ Value) s'' := by
    rw [hreceives.call_orderBy_eq hvalues, hkeyed, Sorting.insertion_sortRows]
  constructor
  · intro hone
    obtain ⟨order, horder, hsort⟩ := Sorting.sortRows_of_oneKind hkeys hone Sorting.insertion
    refine ⟨order, horder, ?_, fun S => ?_⟩
    · rw [hcall, hsort]
      rfl
    · obtain ⟨order', horder', hsort'⟩ := Sorting.sortRows_of_oneKind hkeys hone S
      rw [hsort', horder'.unique horder]
  · intro hone
    refine ⟨?_, Sorting.sortRows_of_not_oneKind hkeys hone⟩
    obtain ⟨e, hsort, hmismatch⟩ := Sorting.sortRows_of_not_oneKind hkeys hone Sorting.insertion
    refine ⟨e, ?_, hmismatch⟩
    rw [hcall, hsort]
    rfl

/-- Rows that are their own keys. -/
def ownKeys (values : List Value) : List Sorting.Keyed := values.map fun v => ⟨v, v⟩

def sortOf (values : List Value) : Eval Unit Value :=
  call listing.evaluate .orderBy [written values, .lambda [row] (.param row)]

/-- Two integers and a null are sorted; an integer and a string are not, also with a null between them. -/
theorem call_orderBy_nullBetween :
    (∃ order, Sorting.StableOrder (ownKeys [.int 2, .null, .int 1]) order ∧
      sortOf [.int 2, .null, .int 1] { hostState := () } =
        .ok (.list (order.map fun i => ((ownKeys [.int 2, .null, .int 1]).get i).row)) { hostState := () }) ∧
    ∃ e, sortOf [.int 2, .null, .string "a"] { hostState := () } = .error (.error e) { hostState := () } ∧
      Sorting.Mismatch (ownKeys [.int 2, .null, .string "a"]) e := by
  have hvalues : ∀ values, mapRows listing.evaluate ⟨[row], .param row⟩ ((ownKeys values).map (·.row))
      { hostState := () } = .ok ((ownKeys values).map (·.key)) { hostState := () } := by
    intro values
    simp only [ownKeys, List.map_map, Function.comp_def]
    exact mapRows_row _
  constructor
  · have hkeys : ∀ r ∈ ownKeys [.int 2, .null, .int 1], r.key.isKey = true := by
      simp [ownKeys, Value.isKey]
    have hone : Sorting.OneKind (ownKeys [.int 2, .null, .int 1]) := by
      simp [Sorting.OneKind, ownKeys, Value.Comparable, Value.kind?, Value.isNull]
    obtain ⟨order, horder, hcall, -⟩ := (call_orderBy (receives_written _) (hvalues _) hkeys).1 hone
    exact ⟨order, horder, hcall⟩
  · have hkeys : ∀ r ∈ ownKeys [.int 2, .null, .string "a"], r.key.isKey = true := by
      simp [ownKeys, Value.isKey]
    have hmixed : ¬Sorting.OneKind (ownKeys [.int 2, .null, .string "a"]) := by
      simp [Sorting.OneKind, ownKeys, Value.Comparable, Value.kind?, Value.isNull]
    obtain ⟨⟨e, hcall, hmismatch⟩, -⟩ := (call_orderBy (receives_written _) (hvalues _) hkeys).2 hmixed
    exact ⟨e, hcall, hmismatch⟩

end Operators

end Splice
