import Splice.Evaluation.Operators
/-!
# Conditions on values that evaluation keeps

A condition on values is hereditary if it says nothing about values without parts, and holds of a record or of a list
exactly if it holds of all that is in there.  What it says about lambdas is left open; that is where such conditions
differ.

**Operators make no lambdas.**  What an operator on values gives is found in its operands or is no lambda, so a
hereditary condition on the operands holds of the result: one lemma for each operator that the evaluator has on values.
-/
namespace Splice

/-- A condition on values that is only about the lambdas in them. -/
structure Hereditary (P : Value → Prop) : Prop where
  null : P .null
  bool : ∀ b, P (.bool b)
  int : ∀ n, P (.int n)
  float : ∀ x, P (.float x)
  string : ∀ s, P (.string s)
  list : ∀ items, P (.list items) ↔ ∀ v ∈ items, P v
  record : ∀ typeName fields, P (.record typeName fields) ↔ ∀ field ∈ fields, P field.2

theorem hereditary_true : Hereditary fun _ => True := by
  constructor <;> simp

mutual
/-- Whether a value is no lambda, and no lambda is found in it. -/
def Value.lambdaFree : Value → Bool
  | .null | .bool _ | .int _ | .float _ | .string _ => true
  | .record _ fields => Value.fieldsLambdaFree fields
  | .list items => Value.itemsLambdaFree items
  | .lambda .. => false
termination_by structural v => v
def Value.itemsLambdaFree : List Value → Bool
  | [] => true
  | v :: vs => v.lambdaFree && Value.itemsLambdaFree vs
termination_by structural vs => vs
def Value.fieldsLambdaFree : List (String × Value) → Bool
  | [] => true
  | (_, v) :: vs => v.lambdaFree && Value.fieldsLambdaFree vs
termination_by structural vs => vs
end

theorem itemsLambdaFree_iff {items : List Value} :
    Value.itemsLambdaFree items = true ↔ ∀ v ∈ items, v.lambdaFree = true := by
  induction items with
  | nil => simp [Value.itemsLambdaFree]
  | cons v vs ih => rw [Value.itemsLambdaFree, Bool.and_eq_true, ih, List.forall_mem_cons]

theorem fieldsLambdaFree_iff {fields : List (String × Value)} :
    Value.fieldsLambdaFree fields = true ↔ ∀ field ∈ fields, field.2.lambdaFree = true := by
  induction fields with
  | nil => simp [Value.fieldsLambdaFree]
  | cons field fields ih => rw [Value.fieldsLambdaFree, Bool.and_eq_true, ih, List.forall_mem_cons]

theorem hereditary_lambdaFree : Hereditary fun v => v.lambdaFree = true where
  null := rfl
  bool _ := rfl
  int _ := rfl
  float _ := rfl
  string _ := rfl
  list _ := itemsLambdaFree_iff
  record _ _ := fieldsLambdaFree_iff

theorem exists_of_bind_eq_ok {ε α β : Type} {x : Except ε α} {f : α → Except ε β} {b : β}
    (h : (x >>= f) = .ok b) : ∃ a, x = .ok a ∧ f a = .ok b := by
  cases x with
  | ok a => exact ⟨a, rfl, h⟩
  | error e => cases h

namespace Hereditary

variable {P : Value → Prop} (hP : Hereditary P)
include hP

theorem ofLiteral (l : Literal) : P (.ofLiteral l) := by
  cases l with
  | null => exact hP.null
  | bool b => exact hP.bool b
  | int n => exact hP.int n
  | float x => exact hP.float x
  | string s => exact hP.string s

theorem textValue (v : Value) : P (Operators.textValue v) := by
  unfold Operators.textValue
  split
  · exact hP.null
  · exact hP.string _

/-! ## Operators on values -/

theorem unary {op : UnaryOp} {v r : Value} (h : Scalar.unary op v = .ok r) : P r := by
  unfold Scalar.unary at h
  split at h
  · cases h
    exact hP.null
  · cases h
    exact hP.bool _
  · split at h <;> cases h
    exact hP.int _
  · cases h
    exact hP.float _
  · cases h
  · cases h

theorem integers {op : BinaryOp} {a b : Int64} {r : Value} (h : Scalar.integers op a b = .ok r) : P r := by
  cases op with
  | add | subtract | multiply =>
    simp only [Scalar.integers] at h
    split at h <;> cases h
    exact hP.int _
  | divide | modulo =>
    simp only [Scalar.integers] at h
    split at h
    · cases h
    · split at h <;> cases h
      exact hP.int _
  | and | or => cases h

theorem arithmetic {op : BinaryOp} {a b r : Value} (h : Scalar.arithmetic op a b = .ok r) : P r := by
  unfold Scalar.arithmetic at h
  split at h
  · cases h
    exact hP.null
  · cases h
    exact hP.null
  · exact hP.integers h
  · split at h <;> cases h
    exact hP.float _

theorem ofBool {x : Except Error Bool} {r : Value} (h : Value.bool <$> x = .ok r) : P r := by
  cases x with
  | ok b =>
    cases h
    exact hP.bool b
  | error e => cases h

theorem binary {op : BinaryOp} {a b r : Value} (h : Scalar.binary op a b = .ok r) : P r := by
  cases op with
  | add =>
    simp only [Scalar.binary] at h
    split at h
    · cases h
      exact hP.string _
    · exact hP.arithmetic h
  | and =>
    obtain ⟨holds, -, h⟩ := exists_of_bind_eq_ok h
    cases holds with
    | true => exact hP.ofBool h
    | false => exact hP.ofBool (x := pure false) h
  | or =>
    obtain ⟨holds, -, h⟩ := exists_of_bind_eq_ok h
    cases holds with
    | true => exact hP.ofBool (x := pure true) h
    | false => exact hP.ofBool h
  | subtract | multiply | divide | modulo => exact hP.arithmetic h

theorem compare {op : CompareOp} {a b r : Value} (h : Scalar.compare op a b = .ok r) : P r := by
  unfold Scalar.compare at h
  split at h
  · cases h
    exact hP.bool _
  · exact hP.ofBool h

theorem member {v r : Value} {name : String} (hv : P v) (h : Scalar.member v name = .ok r) : P r := by
  unfold Scalar.member at h
  split at h
  · cases h
    exact hP.null
  · split at h
    · cases h
      exact (hP.record _ _).1 hv _ (Fields.mem_of_get? ‹_›)
    · cases h
  · split at h <;> cases h
    exact hP.int _
  · split at h <;> cases h
    exact hP.int _
  · cases h

theorem set {r : Record} {name : String} {v : Value} (hr : P (.ofRecord r)) (hv : P v) :
    P (.ofRecord (r.set name v)) := by
  obtain ⟨typeName, fields⟩ := r
  simp only [Value.ofRecord, Record.set, hP.record] at hr ⊢
  induction fields with
  | nil =>
    simp only [Fields.set, List.mem_singleton, forall_eq]
    exact hv
  | cons field fields ih =>
    obtain ⟨n, w⟩ := field
    rw [List.forall_mem_cons] at hr
    unfold Fields.set
    split
    · exact List.forall_mem_cons.2 ⟨hv, hr.2⟩
    · exact List.forall_mem_cons.2 ⟨hr.1, ih hr.2⟩

/-! ## Aggregates -/

omit hP in
theorem foldlM_ok {α β : Type} {Q : β → Prop} {f : β → α → Except Error β} {as : List α}
    (hf : ∀ b, Q b → ∀ a ∈ as, ∀ b', f b a = .ok b' → Q b') {b b' : β} (hb : Q b)
    (h : as.foldlM f b = .ok b') : Q b' := by
  induction as generalizing b with
  | nil =>
    cases h
    exact hb
  | cons a as ih =>
    rw [List.foldlM_cons] at h
    obtain ⟨c, hc, h⟩ := exists_of_bind_eq_ok h
    exact ih (fun b hb a ha => hf b hb a (List.mem_cons_of_mem _ ha)) (hf b hb a List.mem_cons_self c hc) h

theorem plus {total v r : Value} (h : Aggregate.plus total v = .ok r) : P r := by
  unfold Aggregate.plus at h
  split at h
  · split at h <;> cases h
    exact hP.int _
  · obtain ⟨x, -, h⟩ := exists_of_bind_eq_ok h
    obtain ⟨y, -, h⟩ := exists_of_bind_eq_ok h
    cases h
    exact hP.float _

theorem sum {values : List Value} {r : Value} (h : Aggregate.sum values = .ok r) : P r :=
  foldlM_ok (fun _ _ _ _ _ h => hP.plus h) (hP.int 0) h

theorem average {values : List Value} {r : Value} (h : Aggregate.average values = .ok r) : P r := by
  unfold Aggregate.average at h
  split at h
  · cases h
    exact hP.null
  · obtain ⟨total, -, h⟩ := exists_of_bind_eq_ok h
    cases h
    exact hP.float _

theorem extreme {wanted : Ordering} {values : List Value} (hvalues : ∀ v ∈ values, P v) {r : Value}
    (h : Aggregate.extreme wanted values = .ok r) : P r := by
  cases values with
  | nil =>
    cases h
    exact hP.null
  | cons v values =>
    rw [List.forall_mem_cons] at hvalues
    refine foldlM_ok (fun best hbest w hw b hb => ?_) hvalues.1 h
    obtain ⟨o, -, hb⟩ := exists_of_bind_eq_ok hb
    split at hb <;> cases hb
    · exact hvalues.2 w hw
    · exact hbest

end Hereditary

/-! ## Sorting -/

namespace Sorting

theorem mem_insert {moving k : Keyed} {sorted : List Keyed} (h : k ∈ (insert moving sorted).1) :
    k = moving ∨ k ∈ sorted := by
  induction sorted with
  | nil => exact .inl (List.mem_singleton.1 h)
  | cons neighbour rest ih =>
    unfold insert at h
    split at h
    · rcases List.mem_cons.1 h with rfl | h
      · exact .inr List.mem_cons_self
      · exact (ih h).imp_right (List.mem_cons_of_mem _)
    · exact List.mem_cons.1 h
    · exact List.mem_cons.1 h

theorem mem_foldl_add {rows : List Keyed} {p : Progress} {k : Keyed} (h : k ∈ (rows.foldl Progress.add p).sorted) :
    k ∈ p.sorted ∨ k ∈ rows := by
  induction rows generalizing p with
  | nil => exact .inl h
  | cons row rows ih =>
    rcases ih h with h | h
    · rcases mem_insert h with rfl | h
      · exact .inr List.mem_cons_self
      · exact .inl h
    · exact .inr (List.mem_cons_of_mem _ h)

/-- **Sorting invents no rows.** -/
theorem mem_sortRows {rows : List Keyed} {sorted : List Value} (h : sortRows rows = .ok sorted) {v : Value}
    (hv : v ∈ sorted) : ∃ k ∈ rows, k.row = v := by
  unfold sortRows at h
  dsimp only at h
  split at h <;> cases h
  obtain ⟨k, hk, rfl⟩ := List.mem_map.1 hv
  rcases mem_foldl_add (List.mem_reverse.1 hk) with hk | hk
  · cases hk
  · exact ⟨k, hk, rfl⟩

end Sorting

end Splice
