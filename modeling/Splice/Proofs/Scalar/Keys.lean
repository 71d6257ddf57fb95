import Splice.Proofs.Scalar.Comparable
/-!
# Keys

A key is null, a truth value, an integer or a string.  Null comes before all others, keys of one kind have their natural
order (`Value.Below`), and keys of different kinds cannot be compared.

There are total orders of all keys that agree with every comparison of keys that succeeds: one has the kinds upward,
another one has them downward (`keyCompare`).  **Two keys that are in order for both of these can be compared**
(`comparable_of_keyCompare`).
-/
namespace Splice

namespace Value

def isKey : Value → Bool
  | .null | .bool _ | .int _ | .string _ => true
  | _ => false

theorem isNull_iff {v : Value} : v.isNull = true ↔ v = .null := by cases v <;> simp [isNull]

/-- The natural order of keys: null before the others, and the order of each kind. -/
inductive Below : Value → Value → Prop
  | null {v : Value} (h : v.isNull = false) : Below .null v
  | bool : Below (.bool false) (.bool true)
  | int {m n : Int64} (h : m < n) : Below (.int m) (.int n)
  | string {s t : String} (h : s < t) : Below (.string s) (.string t)

/-- Null, or two keys of one kind: what can be compared. -/
def Comparable (a b : Value) : Prop := a.isNull = false → b.isNull = false → a.kind? = b.kind?

theorem Comparable.refl (a : Value) : a.Comparable a := fun _ _ => rfl

theorem Comparable.symm {a b : Value} (h : a.Comparable b) : b.Comparable a := fun hb ha => (h ha hb).symm

theorem Below.not_below {a b : Value} (h : a.Below b) : ¬b.Below a := by
  intro h'
  cases h with
  | null hb =>
    cases h' with
    | null => cases hb
  | bool => cases h'
  | int hlt =>
    cases h' with
    | int hgt => exact Int64.lt_asymm hlt hgt
  | string hlt =>
    cases h' with
    | string hgt => exact String.lt_asymm hlt hgt

theorem Below.irrefl (a : Value) : ¬a.Below a := fun h => h.not_below h

theorem Below.isNull_right {a b : Value} (h : a.Below b) : b.isNull = false := by
  cases h with
  | null hb => exact hb
  | _ => rfl

theorem Below.trans {a b c : Value} (hab : a.Below b) (hbc : b.Below c) : a.Below c := by
  cases hab with
  | null => exact .null hbc.isNull_right
  | bool => cases hbc
  | int hlt =>
    cases hbc with
    | int hlt' => exact .int (Int64.lt_trans hlt hlt')
  | string hlt =>
    cases hbc with
    | string hlt' => exact .string (String.lt_trans hlt hlt')

theorem exists_kind? {a : Value} (ha : a.isKey = true) (hna : a.isNull = false) : ∃ k, a.kind? = some k := by
  cases a with
  | null => cases hna
  | bool | int | string => exact ⟨_, rfl⟩
  | _ => cases ha

end Value

namespace Scalar

/-! ## Comparing keys -/

/-- What a comparison of two keys says. -/
inductive Compared : Value → Value → Ordering → Prop
  | nulls : Compared .null .null .eq
  | nullFirst {b : Value} (h : b.isNull = false) : Compared .null b .lt
  | nullLast {a : Value} (h : a.isNull = false) : Compared a .null .gt
  | bool (x y : Bool) : Compared (.bool x) (.bool y) (Ord.compare x y)
  | int (m n : Int64) : Compared (.int m) (.int n) (Ord.compare m n)
  | string (s t : String) : Compared (.string s) (.string t) (Ord.compare s t)

theorem Compared.below {a b : Value} {o : Ordering} (h : Compared a b o) (ho : o = .lt) : a.Below b := by
  cases h with
  | nulls | nullLast => cases ho
  | nullFirst h => exact .null h
  | bool x y => cases x <;> cases y <;> first | exact .bool | cases ho
  | int m n => exact .int (Std.compare_eq_lt.1 ho)
  | string s t => exact .string (compareOfLessAndEq_eq_lt.1 ho)

theorem Compared.eq {a b : Value} {o : Ordering} (h : Compared a b o) (ho : o = .eq) : a = b := by
  cases h with
  | nulls => rfl
  | nullFirst | nullLast => cases ho
  | bool x y => exact congrArg Value.bool (Std.LawfulEqOrd.eq_of_compare ho)
  | int m n => exact congrArg Value.int (Std.LawfulEqOrd.eq_of_compare ho)
  | string s t => exact congrArg Value.string (Std.LawfulEqOrd.eq_of_compare ho)

theorem Compared.swap {a b : Value} {o : Ordering} (h : Compared a b o) : Compared b a o.swap := by
  cases h with
  | nulls => exact .nulls
  | nullFirst h => exact .nullLast h
  | nullLast h => exact .nullFirst h
  | bool x y => exact Std.OrientedOrd.eq_swap (a := y) (b := x) ▸ .bool y x
  | int m n => exact Std.OrientedOrd.eq_swap (a := n) (b := m) ▸ .int n m
  | string s t => exact Std.OrientedOrd.eq_swap (a := t) (b := s) ▸ .string t s

/-- **A comparison gives less exactly where the first key stands below the second one.** -/
theorem Compared.lt_iff {a b : Value} {o : Ordering} (h : Compared a b o) : o = .lt ↔ a.Below b := by
  refine ⟨h.below, fun hbelow => ?_⟩
  cases o with
  | lt => rfl
  | eq => exact absurd (h.eq rfl ▸ hbelow) (Value.Below.irrefl _)
  | gt => exact absurd hbelow (h.swap.below rfl).not_below

theorem Compared.gt_iff {a b : Value} {o : Ordering} (h : Compared a b o) : o = .gt ↔ b.Below a := by
  rw [← h.swap.lt_iff]
  cases o <;> simp

theorem exists_keyOrder {a b : Value} (ha : a.isKey = true) (h : a.Comparable b) : ∃ o, keyOrder a b = .ok o := by
  unfold keyOrder
  split
  case h_4 hna hnb =>
    obtain ⟨k, hk⟩ := Value.exists_kind? ha hna
    exact ⟨_, order_of_kind hk ((h hna hnb).symm.trans hk)⟩
  all_goals exact ⟨_, rfl⟩

section

variable {a b : Value} (ha : a.isKey = true) (hb : b.isKey = true)
include ha hb

theorem compared_of_keyOrder {o : Ordering} (h : keyOrder a b = .ok o) : Compared a b o := by
  cases a with
  | null =>
    cases b with
    | null => cases h; exact .nulls
    | _ => cases h; exact .nullFirst rfl
  | bool x =>
    cases b with
    | null => cases h; exact .nullLast rfl
    | bool y => cases h; exact .bool x y
    | int | string => cases h
    | _ => cases hb
  | int m =>
    cases b with
    | null => cases h; exact .nullLast rfl
    | int n => cases h; exact .int m n
    | bool | string => cases h
    | _ => cases hb
  | string s =>
    cases b with
    | null => cases h; exact .nullLast rfl
    | string t => cases h; exact .string s t
    | bool | int => cases h
    | _ => cases hb
  | _ => cases ha

/-- Keys of two kinds cannot be compared. -/
theorem keyOrder_of_not_comparable (h : ¬a.Comparable b) :
    keyOrder a b = .error (.typeMismatch "comparable values" s!"{a.typeName} and {b.typeName}") := by
  simp only [Value.Comparable, not_forall] at h
  obtain ⟨hna, hnb, hne⟩ := h
  obtain ⟨k, hk⟩ := Value.exists_kind? ha hna
  obtain ⟨l, hl⟩ := Value.exists_kind? hb hnb
  have hkl : k ≠ l := fun hkl => hne (hk.trans ((congrArg some hkl).trans hl.symm))
  unfold keyOrder
  rw [hna, hnb]
  exact order_of_kind_ne hk hl hkl

end

/-! ## Two total orders of keys -/

/-- Where a kind of keys stands: null first, the others from there upward or, with the sign turned, downward. -/
def shelf (sign : Int) : Value → Int
  | .null => -4
  | .bool _ => sign
  | .int _ => 2 * sign
  | .string _ => 3 * sign
  | _ => 0

def measure : Value → Int64
  | .bool b => if b then 1 else 0
  | .int n => n
  | _ => 0

def text : Value → String
  | .string s => s
  | _ => ""

/-- A total preorder of keys that has one kind after the other. -/
def keyCompare (sign : Int) : Value → Value → Ordering :=
  compareLex (compareOn (shelf sign)) (compareLex (compareOn measure) (compareOn text))

theorem keyCompare_then (sign : Int) (a b : Value) : keyCompare sign a b =
    (Ord.compare (shelf sign a) (shelf sign b)).then
      ((Ord.compare (measure a) (measure b)).then (Ord.compare (text a) (text b))) := rfl

theorem shelf_null_lt {sign : Int} (hsign : sign = 1 ∨ sign = -1) {b : Value} (h : b.isNull = false) :
    shelf sign .null < shelf sign b := by
  cases b with
  | null => cases h
  | _ => simp only [shelf]; omega

/-- **Both total orders say what a comparison of keys says.** -/
theorem Compared.keyCompare_eq {sign : Int} (hsign : sign = 1 ∨ sign = -1) {a b : Value} {o : Ordering}
    (h : Compared a b o) : keyCompare sign a b = o := by
  have hsame : ∀ k : Int, Ord.compare k k = .eq := fun _ => Std.ReflCmp.compare_self
  rw [keyCompare_then]
  cases h with
  | nulls => rfl
  | nullFirst h =>
    rw [Std.compare_eq_lt.2 (shelf_null_lt hsign h)]
    rfl
  | nullLast h =>
    rw [Std.compare_eq_gt.2 (shelf_null_lt hsign h)]
    rfl
  | bool x y =>
    simp only [shelf, hsame, Ordering.eq_then]
    cases x <;> cases y <;> rfl
  | int m n =>
    have htext : Ord.compare (text (.int m)) (text (.int n)) = .eq := rfl
    simp only [shelf, hsame, htext, Ordering.eq_then, Ordering.then_eq]
    rfl
  | string s t =>
    simp only [shelf, hsame, Ordering.eq_then]
    rfl

theorem keyOrder_of_comparable {a b : Value} (ha : a.isKey = true) (hb : b.isKey = true) {sign : Int}
    (hsign : sign = 1 ∨ sign = -1) (h : a.Comparable b) : keyOrder a b = .ok (keyCompare sign a b) := by
  obtain ⟨o, ho⟩ := exists_keyOrder ha h
  rw [ho, (compared_of_keyOrder ha hb ho).keyCompare_eq hsign]

theorem shelf_neg {a : Value} (h : a.isNull = false) : shelf (-1) a = -shelf 1 a := by
  cases a <;> first | rfl | contradiction

theorem shelf_le {sign : Int} {a b : Value} (h : keyCompare sign a b ≠ .gt) : shelf sign a ≤ shelf sign b := by
  rw [keyCompare_then] at h
  by_contra hlt
  rw [Std.compare_eq_gt.2 (Int.not_le.1 hlt)] at h
  exact h rfl

theorem kind?_of_shelf {a b : Value} (ha : a.isKey = true) (hb : b.isKey = true) (hna : a.isNull = false)
    (hnb : b.isNull = false) (h : shelf 1 a = shelf 1 b) : a.kind? = b.kind? := by
  cases a <;> cases b <;> first | rfl | contradiction | simp [shelf] at h

/-- **Only keys of one kind are in order both ways.** -/
theorem comparable_of_keyCompare {a b : Value} (ha : a.isKey = true) (hb : b.isKey = true)
    (hup : keyCompare 1 a b ≠ .gt) (hdown : keyCompare (-1) a b ≠ .gt) : a.Comparable b := by
  intro hna hnb
  have hle := shelf_le hup
  have hge := shelf_le hdown
  rw [shelf_neg hna, shelf_neg hnb] at hge
  exact kind?_of_shelf ha hb hna hnb (by omega)

end Scalar

end Splice
