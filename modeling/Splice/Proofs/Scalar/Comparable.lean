import Splice.Proofs.Number.Rounding
import Splice.Scalar.Order
/-!
# Comparable values, and the laws of their order

A value is compared as a number, a string or a truth value, and a float that is not a number as nothing.  **Two values
have an order exactly when they are compared as the same** (`order_eq_ok_iff`).

Integers are compared with each other exactly, and with floats after rounding.  So the order is the one of ranks but
for two integers that round to one float, and the laws fail exactly there (`order_laws`): a float with `m` and `n` on
both sides of it, equal to each, hides that they differ.  That takes an integer beyond `2 ^ 53`.
-/
namespace Splice

/-- What a value is compared as. -/
inductive Kind where
  | number | string | bool
deriving DecidableEq

namespace Value

def kind? : Value → Option Kind
  | .int _ => some .number
  | .float x => if x.isNaN then none else some .number
  | .string _ => some .string
  | .bool _ => some .bool
  | _ => none

/-- Where a number stands in the line of floats; an integer where its float does. -/
def rank : Value → Binary64.Rank
  | .int n => Binary64.rank (Binary64.ofInt64 n)
  | .float x => Binary64.rank x
  | _ => ⟨0, 0, 0⟩

/-- How two values of one kind stand to each other. -/
def standing : Value → Value → Ordering
  | .int m, .int n => compare m n
  | .string s, .string t => compare s t
  | .bool x, .bool y => compare x y
  | a, b => a.rank.order b.rank

/-! ## Values of a kind -/

theorem kind?_float_eq_some_iff {x : Float} {k : Kind} :
    kind? (.float x) = some k ↔ x.isNaN = false ∧ k = .number := by
  cases hx : x.isNaN <;> simp only [kind?, hx] <;> simp [eq_comm]

theorem exists_of_kind?_number {v : Value} (h : v.kind? = some .number) :
    (∃ n, v = .int n) ∨ ∃ x, v = .float x ∧ x.isNaN = false := by
  cases v with
  | int n => exact .inl ⟨n, rfl⟩
  | float x => exact .inr ⟨x, rfl, (kind?_float_eq_some_iff.1 h).1⟩
  | _ => cases h

theorem exists_of_kind?_string {v : Value} (h : v.kind? = some .string) : ∃ s, v = .string s := by
  cases v with
  | string s => exact ⟨s, rfl⟩
  | float x => cases (kind?_float_eq_some_iff.1 h).2
  | _ => cases h

theorem exists_of_kind?_bool {v : Value} (h : v.kind? = some .bool) : ∃ x, v = .bool x := by
  cases v with
  | bool x => exact ⟨x, rfl⟩
  | float x => cases (kind?_float_eq_some_iff.1 h).2
  | _ => cases h

end Value

namespace Scalar

/-- **Values of one kind are ordered as they stand to each other.** -/
theorem order_of_kind {a b : Value} {k : Kind} (ha : a.kind? = some k) (hb : b.kind? = some k) :
    order a b = .ok (a.standing b) := by
  have hnumber := fun n => (Binary64.rank_ofInt64 n).1
  cases k with
  | number =>
    obtain ⟨m, rfl⟩ | ⟨x, rfl, hx⟩ := Value.exists_of_kind?_number ha <;>
      obtain ⟨n, rfl⟩ | ⟨y, rfl, hy⟩ := Value.exists_of_kind?_number hb
    · rfl
    · simp only [order, Value.asFloat?, Binary64.order_eq_some (hnumber m) hy]
      rfl
    · simp only [order, Value.asFloat?, Binary64.order_eq_some hx (hnumber n)]
      rfl
    · simp only [order, Value.asFloat?, Binary64.order_eq_some hx hy]
      rfl
  | string =>
    obtain ⟨s, rfl⟩ := Value.exists_of_kind?_string ha
    obtain ⟨t, rfl⟩ := Value.exists_of_kind?_string hb
    rfl
  | bool =>
    obtain ⟨x, rfl⟩ := Value.exists_of_kind?_bool ha
    obtain ⟨y, rfl⟩ := Value.exists_of_kind?_bool hb
    rfl

/-- Values of two kinds do not compare. -/
theorem order_of_kind_ne {a b : Value} {k l : Kind} (ha : a.kind? = some k) (hb : b.kind? = some l) (hne : k ≠ l) :
    order a b = .error (.typeMismatch "comparable values" s!"{a.typeName} and {b.typeName}") := by
  cases a <;> cases b <;> simp_all [Value.kind?, order, Value.asFloat?]

theorem order_of_kind?_eq_none {a b : Value} (h : a.kind? = none ∨ b.kind? = none) : ∃ e, order a b = .error e := by
  cases a <;> cases b <;> simp_all [Value.kind?, order, Value.asFloat?, Binary64.order_eq_none]

/-- **Two values have an order exactly when they are compared as the same.** -/
theorem order_eq_ok_iff {a b : Value} {o : Ordering} :
    order a b = .ok o ↔ (∃ k, a.kind? = some k ∧ b.kind? = some k) ∧ a.standing b = o := by
  constructor
  · intro ho
    cases ha : a.kind? with
    | none =>
      obtain ⟨e, he⟩ := order_of_kind?_eq_none (b := b) (.inl ha)
      cases ho.symm.trans he
    | some k =>
      cases hb : b.kind? with
      | none =>
        obtain ⟨e, he⟩ := order_of_kind?_eq_none (a := a) (.inr hb)
        cases ho.symm.trans he
      | some l =>
        by_cases hkl : k = l
        · subst hkl
          exact ⟨⟨k, rfl, rfl⟩, Except.ok.inj ((order_of_kind ha hb).symm.trans ho)⟩
        · cases ho.symm.trans (order_of_kind_ne ha hb hkl)
  · rintro ⟨⟨k, ha, hb⟩, rfl⟩
    exact order_of_kind ha hb

end Scalar

/-! ## The laws -/

theorem ne_gt_trans {α : Type} {cmp : α → α → Ordering} [Std.TransCmp cmp] {a b c : α} (hab : cmp a b ≠ .gt)
    (hbc : cmp b c ≠ .gt) : cmp a c ≠ .gt :=
  Ordering.isLE_iff_ne_gt.1 (Std.TransCmp.isLE_trans (Ordering.isLE_iff_ne_gt.2 hab) (Ordering.isLE_iff_ne_gt.2 hbc))

namespace Value

theorem standing_swap (a b : Value) : b.standing a = (a.standing b).swap := by
  cases a <;> cases b <;> try exact Binary64.Rank.order_swap _ _
  case bool.bool x y => exact (Std.OrientedCmp.eq_swap : compare y x = _)
  case int.int m n => exact (Std.OrientedCmp.eq_swap : compare n m = _)
  case string.string s t => exact (Std.OrientedCmp.eq_swap : compare t s = _)

theorem standing_eq_eq_swap {a b : Value} (h : a.standing b = .eq) : b.standing a = .eq := by
  rw [standing_swap, h]
  rfl

theorem standing_antisymm {a b : Value} (hab : a.standing b ≠ .gt) (hba : b.standing a ≠ .gt) :
    a.standing b = .eq := by
  rw [standing_swap] at hba
  revert hab hba
  cases a.standing b <;> simp

theorem standing_eq_rank {a b : Value} (ha : a.kind? = some .number) (hb : b.kind? = some .number)
    (h : ∀ m n, ¬(a = .int m ∧ b = .int n)) : a.standing b = a.rank.order b.rank := by
  obtain ⟨m, rfl⟩ | ⟨x, rfl, -⟩ := exists_of_kind?_number ha
  · obtain ⟨n, rfl⟩ | ⟨y, rfl, -⟩ := exists_of_kind?_number hb
    · exact absurd ⟨rfl, rfl⟩ (h m n)
    · rfl
  · rfl

/-- Rounding may make numbers equal, but it puts none before a smaller one. -/
theorem rank_of_standing {a b : Value} (ha : a.kind? = some .number) (hb : b.kind? = some .number)
    (h : a.standing b ≠ .gt) : a.rank.order b.rank ≠ .gt := by
  by_cases hints : ∃ m n, a = .int m ∧ b = .int n
  · obtain ⟨m, n, rfl, rfl⟩ := hints
    exact Binary64.rank_ofInt64_le (Std.isLE_compare.1 (Ordering.isLE_iff_ne_gt.2 h))
  · simp only [not_exists] at hints
    rwa [← standing_eq_rank ha hb hints]

section

variable {a b c : Value} {k : Kind} (ha : a.kind? = some k) (hb : b.kind? = some k) (hc : c.kind? = some k)
include ha hb hc

/-- Two integers with a float between them that both round to. -/
theorem standing_eq_gt_iff (hab : a.standing b ≠ .gt) (hbc : b.standing c ≠ .gt) :
    a.standing c = .gt ↔ ∃ m x n, a = .int m ∧ b = .float x ∧ c = .int n ∧ n < m := by
  constructor
  · intro hgt
    cases k with
    | string =>
      obtain ⟨s, rfl⟩ := exists_of_kind?_string ha
      obtain ⟨t, rfl⟩ := exists_of_kind?_string hb
      obtain ⟨u, rfl⟩ := exists_of_kind?_string hc
      have hle : compare s u ≠ .gt := ne_gt_trans hab hbc
      exact absurd hgt hle
    | bool =>
      obtain ⟨x, rfl⟩ := exists_of_kind?_bool ha
      obtain ⟨y, rfl⟩ := exists_of_kind?_bool hb
      obtain ⟨z, rfl⟩ := exists_of_kind?_bool hc
      have hle : compare x z ≠ .gt := ne_gt_trans hab hbc
      exact absurd hgt hle
    | number =>
      have hrank := ne_gt_trans (rank_of_standing ha hb hab) (rank_of_standing hb hc hbc)
      by_cases hints : ∃ m n, a = .int m ∧ c = .int n
      · obtain ⟨m, n, rfl, rfl⟩ := hints
        obtain ⟨i, rfl⟩ | ⟨x, rfl, -⟩ := exists_of_kind?_number hb
        · have hle : compare m n ≠ .gt := ne_gt_trans hab hbc
          exact absurd hgt hle
        · exact ⟨m, x, n, rfl, rfl, rfl, Std.compare_eq_gt.1 hgt⟩
      · simp only [not_exists] at hints
        exact absurd ((standing_eq_rank ha hc hints).symm.trans hgt) hrank
  · rintro ⟨m, x, n, rfl, -, rfl, hlt⟩
    exact Std.compare_eq_gt.2 hlt

theorem standing_ne_eq_iff (hab : a.standing b = .eq) (hbc : b.standing c = .eq) :
    a.standing c ≠ .eq ↔ ∃ m x n, a = .int m ∧ b = .float x ∧ c = .int n ∧ m ≠ n := by
  constructor
  · intro hne
    by_cases hac : a.standing c = .gt
    · obtain ⟨m, x, n, hm, hx, hn, hnm⟩ := (standing_eq_gt_iff ha hb hc (by simp [hab]) (by simp [hbc])).1 hac
      exact ⟨m, x, n, hm, hx, hn, fun h => Int64.lt_irrefl (h ▸ hnm)⟩
    · have hca : c.standing a = .gt := by_contra fun hca => hne (standing_antisymm hac hca)
      obtain ⟨n, x, m, hn, hx, hm, hmn⟩ := (standing_eq_gt_iff hc hb ha (by simp [standing_eq_eq_swap hbc])
        (by simp [standing_eq_eq_swap hab])).1 hca
      exact ⟨m, x, n, hm, hx, hn, fun h => Int64.lt_irrefl (h ▸ hmn)⟩
  · rintro ⟨m, x, n, rfl, -, rfl, hmn⟩ heq
    exact hmn (Std.LawfulEqOrd.eq_of_compare heq)

/-- No such integers are small. -/
theorem standing_trans_of_small (hsmall : ∀ n, a = .int n ∨ c = .int n → n.toInt.natAbs ≤ 2 ^ 53)
    (hab : a.standing b ≠ .gt) (hbc : b.standing c ≠ .gt) : a.standing c ≠ .gt := by
  intro hgt
  obtain ⟨m, x, n, rfl, rfl, rfl, hnm⟩ := (standing_eq_gt_iff ha hb hc hab hbc).1 hgt
  obtain rfl : k = .number := Option.some.inj ha.symm
  have hle := ne_gt_trans (rank_of_standing ha hb hab) (rank_of_standing hb hc hbc)
  have hge : (rank (.int n)).order (rank (.int m)) ≠ .gt := Binary64.rank_ofInt64_le (Int64.le_of_lt hnm)
  have heq : (rank (.int m)).order (rank (.int n)) = .eq :=
    Std.OrientedCmp.isLE_antisymm (Ordering.isLE_iff_ne_gt.2 hle) (Ordering.isLE_iff_ne_gt.2 hge)
  obtain rfl : m = n :=
    Binary64.eq_of_rank_ofInt64 (hsmall m (.inl rfl)) (hsmall n (.inr rfl)) (Binary64.Rank.order_eq_eq_iff.1 heq)
  exact Int64.lt_irrefl hnm

end

end Value

namespace Scalar

/-- **Two comparable values are ordered the other way round from the other side, and order is transitive but for
integers on both sides of a float**: there it may put the larger one first, and two that equal the float may differ.
Up to `2 ^ 53` on both sides it is transitive. -/
theorem order_laws {a b c : Value} {k : Kind} (ha : a.kind? = some k) (hb : b.kind? = some k)
    (hc : c.kind? = some k) :
    ∃ ab bc ac, order a b = .ok ab ∧ order b a = .ok ab.swap ∧ order b c = .ok bc ∧ order a c = .ok ac ∧
      (ab ≠ .gt → bc ≠ .gt → (ac = .gt ↔ ∃ m x n, a = .int m ∧ b = .float x ∧ c = .int n ∧ n < m)) ∧
      (ab = .eq → bc = .eq → (ac ≠ .eq ↔ ∃ m x n, a = .int m ∧ b = .float x ∧ c = .int n ∧ m ≠ n)) ∧
      ((∀ n, a = .int n ∨ c = .int n → n.toInt.natAbs ≤ 2 ^ 53) →
        (ab ≠ .gt → bc ≠ .gt → ac ≠ .gt) ∧ (ab = .eq → bc = .eq → ac = .eq)) := by
  refine ⟨a.standing b, b.standing c, a.standing c, order_of_kind ha hb, ?_, order_of_kind hb hc, order_of_kind ha hc,
    Value.standing_eq_gt_iff ha hb hc, Value.standing_ne_eq_iff ha hb hc, fun hsmall => ?_⟩
  · rw [order_of_kind hb ha, Value.standing_swap]
  · have hac := Value.standing_trans_of_small ha hb hc hsmall
    have hca := Value.standing_trans_of_small hc hb ha fun n h => hsmall n h.symm
    refine ⟨hac, fun hab hbc => Value.standing_antisymm (hac ?_ ?_) (hca ?_ ?_)⟩
    · simp [hab]
    · simp [hbc]
    · simp [Value.standing_eq_eq_swap hbc]
    · simp [Value.standing_eq_eq_swap hab]

/-- `2 ^ 53 + 1` equals the float of `2 ^ 53`, that equals `2 ^ 53`, and `2 ^ 53 + 1` is greater than `2 ^ 53`. -/
theorem order_laws_pastFloats :
    Value.kind? (.int 9007199254740993) = some .number ∧ Value.kind? (.float 9007199254740992.0) = some .number ∧
      Value.kind? (.int 9007199254740992) = some .number ∧
      order (.int 9007199254740993) (.float 9007199254740992.0) = .ok .eq ∧
      order (.float 9007199254740992.0) (.int 9007199254740992) = .ok .eq ∧
      order (.int 9007199254740993) (.int 9007199254740992) = .ok .gt := by
  obtain ⟨ab, bc, ac, hab, -, hbc, hac, hgt, -⟩ :=
    order_laws (k := .number) (a := .int 9007199254740993) (b := .float 9007199254740992.0)
      (c := .int 9007199254740992) rfl rfl rfl
  obtain rfl : Ordering.eq = ab := Except.ok.inj (hab.symm.trans rfl).symm
  obtain rfl : Ordering.eq = bc := Except.ok.inj (hbc.symm.trans rfl).symm
  have hgt := (hgt (by decide) (by decide)).2 ⟨_, _, _, rfl, rfl, rfl, by decide⟩
  exact ⟨rfl, rfl, rfl, hab, hbc, hgt ▸ hac⟩

theorem order_not_transitive :
    ¬∀ a b c : Value, (∃ k, a.kind? = some k ∧ b.kind? = some k ∧ c.kind? = some k) →
      order a b = .ok .eq → order b c = .ok .eq → order a c = .ok .eq := by
  intro h
  have heq := h (.int 9007199254740993) (.float 9007199254740992.0) (.int 9007199254740992) ⟨.number, rfl, rfl, rfl⟩
    rfl rfl
  have hgt : order (.int 9007199254740993) (.int 9007199254740992) = .ok .gt := rfl
  rw [hgt] at heq
  cases heq

end Scalar

end Splice
