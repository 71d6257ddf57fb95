import Splice.Proofs.Scalar.Comparable
/-!
# Comparison from the other side

Equality of trees and values is symmetric, and so is their order but for the direction.  **A comparison gives the same
from the other side, operator and operands swapped, but for one case** (`compare_mirror`): equality where one operand is
a record, a list or a lambda and the other is a scalar.  With the composite on the left they differ; with the composite
on the right they cannot be compared.
-/
namespace Splice

/-! ## Equality of structure -/

theorem params_comm : ∀ ps qs : List Param, (ps == qs) = (qs == ps)
  | [], [] | [], _ :: _ | _ :: _, [] => rfl
  | p :: ps, q :: qs => by
    rw [List.cons_beq_cons, List.cons_beq_cons, params_comm ps qs]
    exact congrArg (· && _) (BEq.comm : (p.id == q.id) = (q.id == p.id))

theorem Literal.beq_comm (a b : Literal) : (a == b) = (b == a) := by
  cases a <;> cases b <;> try rfl
  case bool.bool x y => exact (BEq.comm : (x == y) = (y == x))
  case int.int m n => exact (BEq.comm : (m == n) = (n == m))
  case float.float x y => exact (BEq.comm : (x == y) = (y == x))
  case string.string s t => exact (BEq.comm : (s == t) = (t == s))

mutual
theorem Value.equal_comm : ∀ a b : Value, a.equal b = b.equal a
  | .null, b => by cases b <;> rfl
  | .bool _, b | .int _, b | .float _, b | .string _, b => by cases b <;> first | rfl | exact BEq.comm
  | .record t fields, b => by
    cases b with
    | record u others => simp only [Value.equal, BEq.comm, Value.equalFields_comm fields others]
    | _ => rfl
  | .list items, b => by
    cases b with
    | list others => exact Value.equalAll_comm items others
    | _ => rfl
  | .lambda params body, b => by
    cases b with
    | lambda others other => simp only [Value.equal, params_comm params, Expr.equal_comm body other]
    | _ => rfl
theorem Value.equalAll_comm : ∀ vs ws : List Value, Value.equalAll vs ws = Value.equalAll ws vs
  | [], [] | [], _ :: _ | _ :: _, [] => rfl
  | v :: vs, w :: ws => by simp only [Value.equalAll, Value.equal_comm v w, Value.equalAll_comm vs ws]
theorem Value.equalFields_comm :
    ∀ vs ws : List (String × Value), Value.equalFields vs ws = Value.equalFields ws vs
  | [], [] | [], _ :: _ | _ :: _, [] => rfl
  | (m, v) :: vs, (n, w) :: ws => by
    simp only [Value.equalFields, Value.equal_comm v w, Value.equalFields_comm vs ws, BEq.comm]
theorem Expr.equal_comm : ∀ a b : Expr, a.equal b = b.equal a
  | .literal l s, b => by
    cases b with
    | literal k t => simp only [Expr.equal, Literal.beq_comm l k, BEq.comm]
    | _ => rfl
  | .captured m v s, b => by
    cases b with
    | captured n w t => simp only [Expr.equal, Value.equal_comm v w, BEq.comm]
    | _ => rfl
  | .source m, b => by
    cases b with
    | source n => exact (BEq.comm : (m == n) = (n == m))
    | _ => rfl
  | .param p, b => by
    cases b with
    | param q => exact (BEq.comm : (p.id == q.id) = (q.id == p.id))
    | _ => rfl
  | .member base m, b => by
    cases b with
    | member other n => simp only [Expr.equal, Expr.equal_comm base other, BEq.comm]
    | _ => rfl
  | .call f args, b => by
    cases b with
    | call g others => simp only [Expr.equal, Expr.equalAll_comm args others, BEq.comm]
    | _ => rfl
  | .lambda params body, b => by
    cases b with
    | lambda others other => simp only [Expr.equal, params_comm params, Expr.equal_comm body other]
    | _ => rfl
  | .unary o operand, b => by
    cases b with
    | unary p other => simp only [Expr.equal, Expr.equal_comm operand other, BEq.comm]
    | _ => rfl
  | .binary o left right, b => by
    cases b with
    | binary p left' right' =>
      simp only [Expr.equal, Expr.equal_comm left left', Expr.equal_comm right right', BEq.comm]
    | _ => rfl
  | .compare o left right, b => by
    cases b with
    | compare p left' right' =>
      simp only [Expr.equal, Expr.equal_comm left left', Expr.equal_comm right right', BEq.comm]
    | _ => rfl
  | .cond test yes no, b => by
    cases b with
    | cond test' yes' no' =>
      simp only [Expr.equal, Expr.equal_comm test test', Expr.equal_comm yes yes', Expr.equal_comm no no']
    | _ => rfl
  | .record t fields, b => by
    cases b with
    | record u others => simp only [Expr.equal, BEq.comm, Expr.equalFields_comm fields others]
    | _ => rfl
theorem Expr.equalAll_comm : ∀ es fs : List Expr, Expr.equalAll es fs = Expr.equalAll fs es
  | [], [] | [], _ :: _ | _ :: _, [] => rfl
  | e :: es, f :: fs => by simp only [Expr.equalAll, Expr.equal_comm e f, Expr.equalAll_comm es fs]
theorem Expr.equalFields_comm : ∀ es fs : List (String × Expr), Expr.equalFields es fs = Expr.equalFields fs es
  | [], [] | [], _ :: _ | _ :: _, [] => rfl
  | (m, e) :: es, (n, f) :: fs => by
    simp only [Expr.equalFields, Expr.equal_comm e f, Expr.equalFields_comm es fs, BEq.comm]
end

/-! ## Comparisons -/

namespace CompareOp

/-- The operator that says the same from the other side. -/
def mirror : CompareOp → CompareOp
  | .eq => .eq
  | .notEq => .notEq
  | .lt => .gt
  | .ltEq => .gtEq
  | .gt => .lt
  | .gtEq => .ltEq

/-- Whether an operator holds of operands in this order. -/
def accepts : CompareOp → Ordering → Bool
  | .eq, o => o == .eq
  | .notEq, o => !(o == .eq)
  | .lt, o => o == .lt
  | .ltEq, o => o != .gt
  | .gt, o => o == .gt
  | .gtEq, o => o != .lt

theorem accepts_mirror (op : CompareOp) (o : Ordering) : op.mirror.accepts o.swap = op.accepts o := by
  cases op <;> cases o <;> rfl

/-- Whether it is equality or its negation. -/
def isEquality (op : CompareOp) : Bool := op == .eq || op == .notEq

theorem isEquality_mirror (op : CompareOp) : op.mirror.isEquality = op.isEquality := by cases op <;> rfl

theorem mirror_of_isEquality {op : CompareOp} (h : op.isEquality = true) : op.mirror = op := by
  cases op with
  | eq | notEq => rfl
  | _ => cases h

end CompareOp

/-- Whether a value holds other values or a tree. -/
def Value.isComposite : Value → Bool
  | .record .. | .list _ | .lambda .. => true
  | _ => false

namespace Scalar

/-- Both give one truth value, or both fail. -/
def Agree (x y : Except Error Value) : Prop :=
  (∃ b, x = .ok (.bool b) ∧ y = .ok (.bool b)) ∨ ∃ e e', x = .error e ∧ y = .error e'

theorem not_agree {x y : Except Error Value} {v : Value} {e : Error} (hx : x = .ok v) (hy : y = .error e) :
    ¬Agree x y ∧ ¬Agree y x := by
  subst hx hy
  constructor
  · rintro (⟨b, -, h⟩ | ⟨e, e', h, -⟩) <;> cases h
  · rintro (⟨b, h, -⟩ | ⟨e, e', -, h⟩) <;> cases h

theorem order_mirror (a b : Value) :
    (∃ o, order a b = .ok o ∧ order b a = .ok o.swap) ∨ ∃ e e', order a b = .error e ∧ order b a = .error e' := by
  cases hab : order a b with
  | ok o =>
    obtain ⟨⟨k, ha, hb⟩, rfl⟩ := order_eq_ok_iff.1 hab
    exact .inl ⟨_, rfl, order_eq_ok_iff.2 ⟨⟨k, hb, ha⟩, Value.standing_swap a b⟩⟩
  | error e =>
    cases hba : order b a with
    | ok o =>
      obtain ⟨⟨k, hb, ha⟩, -⟩ := order_eq_ok_iff.1 hba
      cases hab.symm.trans (order_of_kind ha hb)
    | error e' => exact .inr ⟨e, e', rfl, rfl⟩

theorem order_of_composite {a b : Value} (h : b.isComposite = true) :
    order a b = .error (.typeMismatch "comparable values" s!"{a.typeName} and {b.typeName}") := by
  cases b with
  | record | list | lambda => cases a <;> rfl
  | _ => cases h

theorem isNull_of_composite {a : Value} (h : a.isComposite = true) : a.isNull = false := by
  cases a with
  | null => cases h
  | _ => rfl

theorem equal_of_composite {a : Value} (h : a.isComposite = true) (b : Value) : equal a b = .ok (a == b) := by
  cases a with
  | record | list | lambda => rfl
  | _ => cases h

theorem equal_of_order {a : Value} (h : a.isComposite = false) (b : Value) :
    equal a b = (· == .eq) <$> order a b := by
  cases a with
  | record | list | lambda => cases h
  | _ => rfl

theorem beq_of_mixed {a b : Value} (ha : a.isComposite = true) (hb : b.isComposite = false) : (a == b) = false := by
  cases a <;> cases b <;> first | rfl | contradiction

section

variable {op : CompareOp} {a b : Value}

theorem compare_mirror_null (h : a.isNull = true ∨ b.isNull = true) :
    Agree (compare op a b) (compare op.mirror b a) := by
  have hab : (a.isNull || b.isNull) = true := by simpa using h
  have hba : (b.isNull || a.isNull) = true := by simpa using h.symm
  simp only [compare, hab, hba, if_true, Bool.and_comm b.isNull]
  cases op <;> exact .inl ⟨_, rfl, rfl⟩

variable (ha : a.isNull = false) (hb : b.isNull = false)
include ha hb

theorem compare_of_order (h : op.isEquality = false ∨ a.isComposite = false) :
    compare op a b = (Value.bool ∘ op.accepts) <$> order a b := by
  unfold compare
  rw [ha, hb]
  cases op with
  | eq | notEq =>
    rw [equal_of_order (h.resolve_left (by decide))]
    cases order a b <;> rfl
  | lt | ltEq | gt | gtEq => cases order a b <;> rfl

theorem compare_mirror_order (hab : op.isEquality = false ∨ a.isComposite = false)
    (hba : op.mirror.isEquality = false ∨ b.isComposite = false) :
    Agree (compare op a b) (compare op.mirror b a) := by
  rw [compare_of_order ha hb hab, compare_of_order hb ha hba]
  obtain ⟨o, ho, hswap⟩ | ⟨e, e', he, he'⟩ := order_mirror a b
  · exact .inl ⟨op.accepts o, by rw [ho]; rfl, by rw [hswap, ← op.accepts_mirror]; rfl⟩
  · exact .inr ⟨e, e', by rw [he]; rfl, by rw [he']; rfl⟩

end

theorem compare_mirror_composite {op : CompareOp} {a b : Value} (hop : op.isEquality = true)
    (ha : a.isComposite = true) (hb : b.isComposite = true) : Agree (compare op a b) (compare op.mirror b a) := by
  have hcomm : (b == a) = (a == b) := Value.equal_comm b a
  unfold compare
  rw [isNull_of_composite ha, isNull_of_composite hb, equal_of_composite ha, equal_of_composite hb, hcomm]
  cases op with
  | eq | notEq => exact .inl ⟨_, rfl, rfl⟩
  | _ => cases hop

/-- Equality of a composite and a scalar: they differ, or they cannot be compared. -/
theorem compare_mixed {op : CompareOp} {a b : Value} (hop : op.isEquality = true) (ha : a.isComposite = true)
    (hb : b.isComposite = false) (hnull : b.isNull = false) :
    compare op a b = .ok (.bool (op == .notEq)) ∧
      compare op b a = .error (.typeMismatch "comparable values" s!"{b.typeName} and {a.typeName}") := by
  constructor
  · unfold compare
    rw [isNull_of_composite ha, hnull, equal_of_composite ha, beq_of_mixed ha hb]
    cases op with
    | eq | notEq => rfl
    | _ => cases hop
  · rw [compare_of_order hnull (isNull_of_composite ha) (.inr hb), order_of_composite ha]
    rfl

/-- **A comparison gives the same from the other side, but for equality of a composite and a scalar.** -/
theorem compare_mirror (op : CompareOp) (a b : Value) :
    (Agree (compare op a b) (compare op.mirror b a) ↔
      ¬(op.isEquality = true ∧ a.isNull = false ∧ b.isNull = false ∧ a.isComposite ≠ b.isComposite)) ∧
    (op.isEquality = true → a.isComposite = true → b.isComposite = false → b.isNull = false →
      compare op a b = .ok (.bool (op == .notEq)) ∧
        compare op b a = .error (.typeMismatch "comparable values" s!"{b.typeName} and {a.typeName}")) := by
  refine ⟨⟨?_, fun h => ?_⟩, compare_mixed⟩
  · rintro hagree ⟨hop, ha, hb, hne⟩
    rw [CompareOp.mirror_of_isEquality hop] at hagree
    cases hac : a.isComposite with
    | true =>
      have hbc : b.isComposite = false := by simpa [hac] using hne
      obtain ⟨hab, hba⟩ := compare_mixed hop hac hbc hb
      exact (not_agree hab hba).1 hagree
    | false =>
      have hbc : b.isComposite = true := by simpa [hac] using hne
      obtain ⟨hba, hab⟩ := compare_mixed hop hbc hac ha
      exact (not_agree hba hab).2 hagree
  · by_cases hnull : a.isNull = true ∨ b.isNull = true
    · exact compare_mirror_null hnull
    · simp only [not_or, Bool.not_eq_true] at hnull
      obtain ⟨ha, hb⟩ := hnull
      cases hop : op.isEquality with
      | false => exact compare_mirror_order ha hb (.inl hop) (.inl (op.isEquality_mirror.trans hop))
      | true =>
        have hsame : a.isComposite = b.isComposite := by_contra fun hne => h ⟨hop, ha, hb, hne⟩
        cases hac : a.isComposite with
        | true => exact compare_mirror_composite hop hac (hsame.symm.trans hac)
        | false => exact compare_mirror_order ha hb (.inr hac) (.inr (hsame.symm.trans hac))

/-- A record differs from `1`, and `1` cannot be compared with it. -/
theorem compare_mirror_recordOne :
    compare .eq (.record "A" []) (.int 1) = .ok (.bool false) ∧
      compare .eq (.int 1) (.record "A" []) = .error (.typeMismatch "comparable values" "int and record") :=
  (compare_mirror .eq (.record "A" []) (.int 1)).2 rfl rfl rfl rfl

theorem compare_not_mirrored :
    ¬∀ (op : CompareOp) (a b : Value), Agree (compare op a b) (compare op.mirror b a) :=
  fun h => (not_agree (v := .bool false) rfl rfl).1 (h .eq (.record "A" []) (.int 1))

end Scalar
end Splice
