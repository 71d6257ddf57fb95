/-!
# Exact arithmetic on 64-bit integers

An operator computes in the integers and keeps the result only if it fits: **a result is exact or there is none**, so
nothing wraps.  Quotient and remainder go toward zero, and a remainder exists exactly where the quotient does.
-/
namespace Splice.Integer

/-- The 64-bit integer of this value, if there is one. -/
def ofInt? (n : Int) : Option Int64 :=
  if Int64.minValue.toInt ≤ n ∧ n ≤ Int64.maxValue.toInt then some (Int64.ofInt n) else none

def add? (a b : Int64) : Option Int64 := ofInt? (a.toInt + b.toInt)

def sub? (a b : Int64) : Option Int64 := ofInt? (a.toInt - b.toInt)

def mul? (a b : Int64) : Option Int64 := ofInt? (a.toInt * b.toInt)

def neg? (a : Int64) : Option Int64 := ofInt? (-a.toInt)

/-- The quotient toward zero; none for a zero divisor. -/
def quot? (a b : Int64) : Option Int64 :=
  if b = 0 then none else ofInt? (a.toInt.tdiv b.toInt)

/-- What the quotient leaves over; none where there is no quotient. -/
def rem? (a b : Int64) : Option Int64 :=
  (quot? a b).bind fun _ => ofInt? (a.toInt.tmod b.toInt)

/-- The decimal text, with a sign only if negative. -/
def text (a : Int64) : String := toString a.toInt

/-- **A result is the exact one.** -/
theorem ofInt?_eq_some_iff {n : Int} {a : Int64} : ofInt? n = some a ↔ a.toInt = n := by
  have hmin : Int64.minValue.toInt = -9223372036854775808 := rfl
  have hmax : Int64.maxValue.toInt = 9223372036854775807 := rfl
  unfold ofInt?
  constructor
  · intro h
    split at h
    case isTrue hn =>
      obtain rfl := Option.some.inj h
      exact Int64.toInt_ofInt_of_le (by omega) (by omega)
    case isFalse => cases h
  · intro h
    have hlo := Int64.le_toInt a
    have hhi := Int64.toInt_lt a
    rw [if_pos (by omega), ← h, Int64.ofInt_toInt]

end Splice.Integer
