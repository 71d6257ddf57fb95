import Splice.Number.Binary64
import Mathlib
/-!
# The line of floats

A float is compared by its sign, then by its exponent, then by its mantissa.  Those three make up its rank, and ranks
stand in a line.  **Two floats that are numbers are ordered as their ranks are** (`order_eq_some`); the two zeros have
one rank.  A float that is not a number is in no order with anything (`order_eq_none`).
-/
namespace Splice.Binary64

open Float.Model (UnpackedFloat)
open Float.Model.UnpackedFloat (Sign)

/-- A place in the line: which part of the line it is in, then exponent and mantissa, all of them negated below zero. -/
structure Rank where
  zone : Int
  exponent : Int
  mantissa : Int

namespace Rank

def order : Rank → Rank → Ordering :=
  compareLex (compareOn zone) (compareLex (compareOn exponent) (compareOn mantissa))

instance : Std.TransCmp order :=
  inferInstanceAs (Std.TransCmp (compareLex (compareOn zone) (compareLex (compareOn exponent) (compareOn mantissa))))

theorem order_eq (a b : Rank) : a.order b =
    (compare a.zone b.zone).then ((compare a.exponent b.exponent).then (compare a.mantissa b.mantissa)) := rfl

theorem order_swap (a b : Rank) : b.order a = (a.order b).swap :=
  Std.OrientedCmp.eq_swap

theorem order_eq_eq_iff {a b : Rank} : a.order b = .eq ↔ a = b := by
  obtain ⟨z, e, m⟩ := a
  obtain ⟨z', e', m'⟩ := b
  rw [order_eq]
  simp [Ordering.then_eq_eq]

theorem order_ne_gt_iff {a b : Rank} : a.order b ≠ .gt ↔ a.zone < b.zone ∨ a.zone = b.zone ∧
    (a.exponent < b.exponent ∨ a.exponent = b.exponent ∧ a.mantissa ≤ b.mantissa) := by
  rw [order_eq]
  rcases Int.lt_trichotomy a.zone b.zone with hz | hz | hz
  · simp [Int.compare_eq_lt.2 hz, hz]
  · rcases Int.lt_trichotomy a.exponent b.exponent with he | he | he
    · simp [Int.compare_eq_lt.2 he, he, hz]
    · rw [hz, he, Int.compare_eq_eq.2 rfl, Int.compare_eq_eq.2 rfl]
      simp [Int.compare_ne_gt]
    · rw [hz, Int.compare_eq_eq.2 rfl, Int.compare_eq_gt.2 he]
      simp
      omega
  · rw [Int.compare_eq_gt.2 hz]
    simp
    omega

end Rank

/-- The rank of a float that is taken apart; what is not a number has none, and gets the rank of zero. -/
def rankOf : UnpackedFloat → Rank
  | .infinity s => ⟨s.apply 2, 0, 0⟩
  | .notANumber | .zero _ => ⟨0, 0, 0⟩
  | .finite s m e _ => ⟨s.apply 1, s.apply e, s.apply m⟩

def rank (x : Float) : Rank := rankOf x.toModel.unpack

/-! ## Comparing floats that are taken apart -/

theorem compare_neg (a b : Int) : compare (-a) (-b) = (compare a b).swap := by
  rw [Int.compare_swap]
  simp only [compare, compareOfLessAndEq, Int.neg_lt_neg_iff, Int.neg_inj, eq_comm]

theorem compare_natCast (m n : Nat) : compare (m : Int) (n : Int) = compare m n := by
  simp only [compare, compareOfLessAndEq, Int.ofNat_lt, Int.ofNat_inj]

theorem compare_finite (s : Sign) {m n : Nat} {e f : Int} (hm : 0 < m) (hn : 0 < n) :
    UnpackedFloat.compare (.finite s m e hm) (.finite s n f hn) =
      some ((rankOf (.finite s m e hm)).order (rankOf (.finite s n f hn))) := by
  cases s with
  | positive =>
    simp only [UnpackedFloat.compare, rankOf, Sign.apply, Rank.order_eq, compare_natCast]
    rfl
  | negative =>
    simp only [UnpackedFloat.compare, rankOf, Sign.apply, Rank.order_eq, compare_natCast, compare_neg,
      Ordering.swap_then]
    rfl

theorem compare_eq_some {x y : UnpackedFloat} (hx : x.isNaN = false) (hy : y.isNaN = false) :
    x.compare y = some ((rankOf x).order (rankOf y)) := by
  -- The zone decides, but for two finite floats of one sign.
  cases x with
  | notANumber => cases hx
  | infinity s =>
    cases y with
    | notANumber => cases hy
    | infinity s' => cases s <;> cases s' <;> rfl
    | zero => cases s <;> rfl
    | finite s' => cases s <;> cases s' <;> rfl
  | zero s =>
    cases y with
    | notANumber => cases hy
    | infinity s' => cases s' <;> rfl
    | zero => rfl
    | finite s' => cases s' <;> rfl
  | finite s m e hm =>
    cases y with
    | notANumber => cases hy
    | infinity s' => cases s <;> cases s' <;> rfl
    | zero => cases s <;> rfl
    | finite s' n f hn =>
      cases s <;> cases s'
      · exact compare_finite _ hm hn
      · rfl
      · rfl
      · exact compare_finite _ hm hn

theorem compare_eq_none {x y : UnpackedFloat} (h : x.isNaN = true ∨ y.isNaN = true) : x.compare y = none := by
  cases x with
  | notANumber => rfl
  | infinity | zero | finite =>
    cases y with
    | notANumber => rfl
    | infinity | zero | finite => cases h <;> contradiction

theorem compare_swap (x y : UnpackedFloat) : y.compare x = (x.compare y).map Ordering.swap := by
  by_cases h : x.isNaN = true ∨ y.isNaN = true
  · rw [compare_eq_none h, compare_eq_none h.symm]
    rfl
  · simp only [not_or, Bool.not_eq_true] at h
    rw [compare_eq_some h.1 h.2, compare_eq_some h.2 h.1, Rank.order_swap]
    rfl

/-! ## Comparing floats -/

theorem lt_iff {a b : Float} : a < b ↔ a.toModel.unpack.compare b.toModel.unpack = some .lt := by
  show (decide (a.toModel < b.toModel) : Bool) = true ↔ _
  rw [decide_eq_true_iff]
  show (UnpackedFloat.lt _ _) = true ↔ _
  simp [UnpackedFloat.lt]

theorem beq_iff {a b : Float} : (a == b) = true ↔ a.toModel.unpack.compare b.toModel.unpack = some .eq := by
  show (UnpackedFloat.beq _ _) = true ↔ _
  simp [UnpackedFloat.beq]

theorem order_eq_compare (a b : Float) : order a b = a.toModel.unpack.compare b.toModel.unpack := by
  have hswap := compare_swap a.toModel.unpack b.toModel.unpack
  unfold order
  simp only [lt_iff, beq_iff]
  rw [hswap]
  rcases a.toModel.unpack.compare b.toModel.unpack with _ | (_ | _ | _) <;> rfl

/-- **Floats that are numbers are ordered as their ranks are.** -/
theorem order_eq_some {a b : Float} (ha : a.isNaN = false) (hb : b.isNaN = false) :
    order a b = some ((rank a).order (rank b)) :=
  (order_eq_compare a b).trans (compare_eq_some ha hb)

theorem order_eq_none {a b : Float} (h : a.isNaN = true ∨ b.isNaN = true) : order a b = none :=
  (order_eq_compare a b).trans (compare_eq_none h)

end Splice.Binary64
