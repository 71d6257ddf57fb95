import Splice.Scalar.Arithmetic
/-!
# Exact arithmetic on integers

An operator on integers computes in the integers and keeps what fits into 64 bits.  **It gives the exact result or an
error, never a result that wrapped around** (`Scalar.integers_exact`).

Quotients go toward zero.  The one quotient of integers that does not fit is that of the least one by minus one, and
there the remainder is refused as well, although it would be zero.  Everywhere else quotient and remainder give the
dividend back, and no step on the way overflows: the remainder is on the side of the dividend and no larger, so the
product of quotient and divisor lies between zero and the dividend.
-/
namespace Splice

namespace Integer

/-- No 64-bit integer has this value. -/
def Overflows (n : Int) : Prop := n < Int64.minValue.toInt ∨ Int64.maxValue.toInt < n

/-- The pairs of which the first can be divided by the second. -/
def Divides (a b : Int64) : Prop := b ≠ 0 ∧ ¬(a = Int64.minValue ∧ b = -1)

variable {a b : Int64}

theorem toInt_minValue : Int64.minValue.toInt = -9223372036854775808 := rfl

theorem toInt_maxValue : Int64.maxValue.toInt = 9223372036854775807 := rfl

theorem ofInt?_eq_none_iff {n : Int} : ofInt? n = none ↔ Overflows n := by
  unfold ofInt? Overflows
  split
  case isTrue h => exact ⟨nofun, fun hover => absurd h (by omega)⟩
  case isFalse h => exact ⟨fun _ => by omega, fun _ => rfl⟩

theorem exists_ofInt? {n : Int} (h : ¬Overflows n) : ∃ c, ofInt? n = some c :=
  Option.ne_none_iff_exists'.1 (mt ofInt?_eq_none_iff.1 h)

theorem not_overflows_toInt (a : Int64) : ¬Overflows a.toInt := by
  intro h
  rw [← ofInt?_eq_none_iff, ofInt?_eq_some_iff.2 rfl] at h
  cases h

theorem toInt_ne_zero (h : b ≠ 0) : b.toInt ≠ 0 := fun h0 => h (Int64.toInt_inj.1 h0)

/-! ## Quotients and remainders -/

theorem natAbs_tmod_lt (m : Int) {n : Int} (hn : n ≠ 0) : (m.tmod n).natAbs < n.natAbs := by
  rw [Int.natAbs_tmod]
  exact Nat.mod_lt _ (Int.natAbs_pos.2 hn)

/-- A remainder lies between zero and the dividend. -/
theorem tmod_between (m n : Int) : 0 ≤ m.tmod n ∧ m.tmod n ≤ m ∨ m ≤ m.tmod n ∧ m.tmod n ≤ 0 := by
  have hle : (m.tmod n).natAbs ≤ m.natAbs := by
    rw [Int.natAbs_tmod]
    exact Nat.mod_le _ _
  obtain hm | hm := Int.le_total 0 m
  · have := Int.tmod_nonneg n hm
    exact .inl (by omega)
  · have hneg := Int.tmod_nonneg n (Int.neg_nonneg_of_nonpos hm)
    rw [Int.neg_tmod] at hneg
    exact .inr (by omega)

theorem sign_of_between {k m : Int} (h : 0 ≤ k ∧ k ≤ m ∨ m ≤ k ∧ k ≤ 0) : k = 0 ∨ k.sign = m.sign := by
  obtain hk | hk | hk := Int.lt_trichotomy k 0
  · rw [Int.sign_eq_neg_one_of_neg hk, Int.sign_eq_neg_one_of_neg (by omega)]
    exact .inr rfl
  · exact .inl hk
  · rw [Int.sign_eq_one_of_pos hk, Int.sign_eq_one_of_pos (by omega)]
    exact .inr rfl

/-- **Of all quotients only that of the least integer by minus one does not fit.** -/
theorem overflows_tdiv_iff (hb : b ≠ 0) : Overflows (a.toInt.tdiv b.toInt) ↔ a = Int64.minValue ∧ b = -1 := by
  constructor
  · intro hover
    have ha := not_overflows_toInt a
    have hquot := Int.natAbs_tdiv_le_natAbs a.toInt b.toInt
    have hrest := natAbs_tmod_lt a.toInt (toInt_ne_zero hb)
    have hback := Int.mul_tdiv_add_tmod a.toInt b.toInt
    -- A quotient is no larger than its dividend, so this one is the least integer with its sign turned.
    have hmin : a.toInt = Int64.minValue.toInt ∧ a.toInt.tdiv b.toInt = 9223372036854775808 := by
      have := toInt_minValue
      have := toInt_maxValue
      unfold Overflows at *
      omega
    have hminusOne : b.toInt = (-1 : Int64).toInt := by
      have := hmin.1.trans toInt_minValue
      rw [hmin.2] at hback
      show b.toInt = -1
      omega
    exact ⟨Int64.toInt_inj.1 hmin.1, Int64.toInt_inj.1 hminusOne⟩
  · rintro ⟨rfl, rfl⟩
    exact .inr (by decide)

theorem quot?_eq_some_iff {q : Int64} : quot? a b = some q ↔ b ≠ 0 ∧ q.toInt = a.toInt.tdiv b.toInt := by
  unfold quot?
  split
  case isTrue h => simp [h]
  case isFalse h => simp [h, ofInt?_eq_some_iff]

theorem exists_quot?_iff : (∃ q, quot? a b = some q) ↔ Divides a b := by
  constructor
  · rintro ⟨q, hq⟩
    obtain ⟨hb, hq⟩ := quot?_eq_some_iff.1 hq
    refine ⟨hb, fun h => ?_⟩
    exact not_overflows_toInt q (hq ▸ (overflows_tdiv_iff hb).2 h)
  · rintro ⟨hb, hne⟩
    obtain ⟨q, hq⟩ := exists_ofInt? (mt (overflows_tdiv_iff hb).1 hne)
    exact ⟨q, quot?_eq_some_iff.2 ⟨hb, ofInt?_eq_some_iff.1 hq⟩⟩

theorem rem?_eq_some_iff {m : Int64} : rem? a b = some m ↔ Divides a b ∧ m.toInt = a.toInt.tmod b.toInt := by
  unfold rem?
  rw [← exists_quot?_iff]
  cases quot? a b with
  | none => simp
  | some q => simp [ofInt?_eq_some_iff]

theorem exists_rem?_iff : (∃ m, rem? a b = some m) ↔ Divides a b := by
  constructor
  · rintro ⟨m, hm⟩
    exact (rem?_eq_some_iff.1 hm).1
  · intro h
    have hlt := natAbs_tmod_lt a.toInt (toInt_ne_zero h.1)
    have hfits : ¬Overflows (a.toInt.tmod b.toInt) := by
      have := not_overflows_toInt b
      have := toInt_minValue
      have := toInt_maxValue
      unfold Overflows at *
      omega
    obtain ⟨m, hm⟩ := exists_ofInt? hfits
    exact ⟨m, rem?_eq_some_iff.2 ⟨h, ofInt?_eq_some_iff.1 hm⟩⟩

end Integer

namespace Scalar

open Integer

/-- The outcome of an operation whose exact result is `n`: that integer, or an error if it does not fit. -/
inductive Exact (n : Int) : Except Error Value → Prop
  | fits {a : Int64} (h : a.toInt = n) : Exact n (.ok (.int a))
  | overflows (h : Overflows n) (why : String) : Exact n (.error (.invalidArgument why))

theorem Exact.eq_ok {a : Int64} {outcome : Except Error Value} (h : Exact a.toInt outcome) :
    outcome = .ok (.int a) := by
  cases h with
  | fits ha => rw [Int64.toInt_inj.1 ha]
  | overflows hover => exact absurd hover (not_overflows_toInt a)

/-- What an operator makes of its result, where it may have none. -/
def checked (e : Error) : Option Int64 → Except Error Value
  | some a => .ok (.int a)
  | none => .error e

theorem exact_checked (n : Int) (why : String) : Exact n (checked (.invalidArgument why) (ofInt? n)) := by
  cases h : ofInt? n with
  | some a => exact .fits (ofInt?_eq_some_iff.1 h)
  | none => exact .overflows (ofInt?_eq_none_iff.1 h) why

/-- A result that a zero divisor does not have. -/
theorem unlessZero_eq_ok_iff {b : Int64} {x : Option Int64} (hzero : b = 0 → x = none) {e : Error} {v : Value} :
    (if b = 0 then .error .divisionByZero else checked e x) = .ok v ↔ ∃ a, x = some a ∧ v = .int a := by
  split
  case isTrue h => simp [hzero h]
  case isFalse => cases x <;> simp [checked, eq_comm]

section

variable (l r : Int64)

theorem exact_add : Exact (l.toInt + r.toInt) (binary .add (.int l) (.int r)) := exact_checked _ _

theorem exact_subtract : Exact (l.toInt - r.toInt) (binary .subtract (.int l) (.int r)) := exact_checked _ _

theorem exact_multiply : Exact (l.toInt * r.toInt) (binary .multiply (.int l) (.int r)) := exact_checked _ _

theorem exact_negate : Exact (-l.toInt) (unary .negate (.int l)) := exact_checked _ _

end

variable {l r : Int64} {v : Value}

theorem divide_eq_ok_iff : binary .divide (.int l) (.int r) = .ok v ↔ ∃ q, quot? l r = some q ∧ v = .int q :=
  unlessZero_eq_ok_iff fun h => if_pos h

theorem modulo_eq_ok_iff : binary .modulo (.int l) (.int r) = .ok v ↔ ∃ m, rem? l r = some m ∧ v = .int m :=
  unlessZero_eq_ok_iff fun h => by simp only [rem?, quot?, if_pos h, Option.bind_none]

theorem exists_ok_iff {outcome : Except Error Value} {x : Option Int64}
    (h : ∀ v, outcome = .ok v ↔ ∃ a, x = some a ∧ v = .int a) : (∃ v, outcome = .ok v) ↔ ∃ a, x = some a := by
  simp only [h]
  exact ⟨fun ⟨_, a, ha, _⟩ => ⟨a, ha⟩, fun ⟨a, ha⟩ => ⟨.int a, a, ha, rfl⟩⟩

theorem exists_divide_iff : (∃ v, binary .divide (.int l) (.int r) = .ok v) ↔ Divides l r :=
  (exists_ok_iff fun _ => divide_eq_ok_iff).trans exists_quot?_iff

theorem exists_modulo_iff : (∃ v, binary .modulo (.int l) (.int r) = .ok v) ↔ Divides l r :=
  (exists_ok_iff fun _ => modulo_eq_ok_iff).trans exists_rem?_iff

/-- **Quotient and remainder give the dividend back**, and no step on the way overflows. -/
theorem divide_modulo (h : Divides l r) : ∃ q p m : Int64,
    binary .divide (.int l) (.int r) = .ok (.int q) ∧ q.toInt = l.toInt.tdiv r.toInt ∧
    binary .multiply (.int q) (.int r) = .ok (.int p) ∧
    binary .modulo (.int l) (.int r) = .ok (.int m) ∧ m.toInt = l.toInt.tmod r.toInt ∧
    binary .add (.int p) (.int m) = .ok (.int l) := by
  obtain ⟨q, hq⟩ := exists_quot?_iff.2 h
  obtain ⟨m, hm⟩ := exists_rem?_iff.2 h
  have hquot : q.toInt = l.toInt.tdiv r.toInt := (quot?_eq_some_iff.1 hq).2
  have hrest : m.toInt = l.toInt.tmod r.toInt := (rem?_eq_some_iff.1 hm).2
  have hback : q.toInt * r.toInt + m.toInt = l.toInt := by
    rw [hquot, hrest]
    exact Int.tdiv_mul_add_tmod l.toInt r.toInt
  -- The remainder lies between zero and the dividend, so the product does.
  have hproduct : ¬Overflows (q.toInt * r.toInt) := by
    have hbetween := tmod_between l.toInt r.toInt
    have := not_overflows_toInt l
    have := toInt_minValue
    have := toInt_maxValue
    rw [← hrest] at hbetween
    unfold Overflows at *
    omega
  obtain ⟨p, hp⟩ := exists_ofInt? hproduct
  have hp : p.toInt = q.toInt * r.toInt := ofInt?_eq_some_iff.1 hp
  have hmultiply : Exact p.toInt _ := hp ▸ exact_multiply q r
  have hadd : Exact l.toInt _ := (hp ▸ hback) ▸ exact_add p m
  exact ⟨q, p, m, divide_eq_ok_iff.2 ⟨q, hq, rfl⟩, hquot, hmultiply.eq_ok, modulo_eq_ok_iff.2 ⟨m, hm, rfl⟩, hrest,
    hadd.eq_ok⟩

/-- **Arithmetic on integers is exact or refused.**  Quotient and remainder exist for the same pairs; the quotient,
multiplied by the divisor and with the remainder added, is the dividend again. -/
theorem integers_exact (l r : Int64) :
    Exact (l.toInt + r.toInt) (binary .add (.int l) (.int r)) ∧
    Exact (l.toInt - r.toInt) (binary .subtract (.int l) (.int r)) ∧
    Exact (l.toInt * r.toInt) (binary .multiply (.int l) (.int r)) ∧
    Exact (-l.toInt) (unary .negate (.int l)) ∧
    ((∃ v, binary .divide (.int l) (.int r) = .ok v) ↔ Divides l r) ∧
    ((∃ v, binary .modulo (.int l) (.int r) = .ok v) ↔ Divides l r) ∧
    (Divides l r → ∃ q p m : Int64,
      binary .divide (.int l) (.int r) = .ok (.int q) ∧ q.toInt = l.toInt.tdiv r.toInt ∧
      binary .multiply (.int q) (.int r) = .ok (.int p) ∧
      binary .modulo (.int l) (.int r) = .ok (.int m) ∧ m.toInt = l.toInt.tmod r.toInt ∧
      binary .add (.int p) (.int m) = .ok (.int l) ∧
      m.toInt.natAbs < r.toInt.natAbs ∧ (m.toInt = 0 ∨ m.toInt.sign = l.toInt.sign)) := by
  refine ⟨exact_add l r, exact_subtract l r, exact_multiply l r, exact_negate l, exists_divide_iff, exists_modulo_iff,
    fun h => ?_⟩
  obtain ⟨q, p, m, hdivide, hquot, hmultiply, hmodulo, hrest, hadd⟩ := divide_modulo h
  refine ⟨q, p, m, hdivide, hquot, hmultiply, hmodulo, hrest, hadd, ?_, ?_⟩
  · exact hrest ▸ natAbs_tmod_lt l.toInt (toInt_ne_zero h.1)
  · exact hrest ▸ sign_of_between (tmod_between l.toInt r.toInt)

/-- Dividing the least integer by three. -/
theorem integers_exact_minValue :
    Divides Int64.minValue 3 ∧ ∃ q p m : Int64,
      binary .divide (.int Int64.minValue) (.int 3) = .ok (.int q) ∧
      binary .multiply (.int q) (.int 3) = .ok (.int p) ∧
      binary .modulo (.int Int64.minValue) (.int 3) = .ok (.int m) ∧
      binary .add (.int p) (.int m) = .ok (.int Int64.minValue) := by
  have h : Divides Int64.minValue 3 := ⟨by decide, by decide⟩
  obtain ⟨-, -, -, -, -, -, hback⟩ := integers_exact Int64.minValue 3
  obtain ⟨q, p, m, hdivide, -, hmultiply, hmodulo, -, hadd, -⟩ := hback h
  exact ⟨h, q, p, m, hdivide, hmultiply, hmodulo, hadd⟩

end Scalar

end Splice
