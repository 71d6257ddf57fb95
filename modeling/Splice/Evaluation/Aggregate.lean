import Splice.Scalar.Order
import Splice.Scalar.Arithmetic
/-!
# Aggregates

What `sum`, `average`, `min` and `max` make of the values of their rows, nulls left out.  A sum is an integer as long as
all values are, and leaves the integers at the first float; the running total is checked after every addition.  An
average is a float.  A minimum or maximum is the first of the extreme values.  Without values the sum is the integer
zero and the others are `null`.
-/
namespace Splice.Aggregate

def number (v : Value) : Except Error Float :=
  match v.asFloat? with
  | some x => .ok x
  | none => .error (.typeMismatch "number" v.typeName)

/-- The running total after one more value. -/
def plus (total v : Value) : Except Error Value :=
  match total, v with
  | .int a, .int b =>
    match Integer.add? a b with
    | some n => .ok (.int n)
    | none => .error .sumOverflow
  | a, b => do
    let x ← number a
    let y ← number b
    return .float (x + y)

def sum (values : List Value) : Except Error Value := values.foldlM plus (.int 0)

def average (values : List Value) : Except Error Value :=
  if values.isEmpty then .ok .null
  else do
    let total ← values.foldlM (fun total v => (total + ·) <$> number v) 0.0
    return .float (total / Binary64.ofInt64 (Int64.ofNat values.length))

/-- The better of the best value so far and the next one: the next one only if it stands on the wanted side. -/
def better (wanted : Ordering) (best v : Value) : Except Error Value := do
  if (← Scalar.order v best) == wanted then pure v else pure best

/-- The first of the values that no other value beats: less than all for `.lt`, greater for `.gt`. -/
def extreme (wanted : Ordering) : List Value → Except Error Value
  | [] => .ok .null
  | v :: vs => vs.foldlM (better wanted) v

end Splice.Aggregate
