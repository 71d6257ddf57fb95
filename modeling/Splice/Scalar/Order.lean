import Splice.Tree.Equality
/-!
# The order of values, and comparison operators

Numbers are ordered with numbers (a pair of integers exactly, any other pair as floats), strings with strings by code
points, and truth values with truth values, false first.  Everything else, and a float that is not a number, stands in
no order: comparing it fails.

A comparison operator deals with null first: null equals null and nothing else, and orders with nothing.  Equality of
a record, a list or a lambda **on the left** is structural and never fails.
-/
namespace Splice.Scalar

/-- The order of two values. -/
def order (left right : Value) : Except Error Ordering :=
  match left, right with
  | .int a, .int b => .ok (compare a b)
  | .string a, .string b => .ok (compare a b)
  | .bool a, .bool b => .ok (compare a b)
  | left, right =>
    match left.asFloat?, right.asFloat? with
    | some a, some b =>
      match Binary64.order a b with
      | some o => .ok o
      | none => .error .unorderedNumber
    | _, _ => .error (.typeMismatch "comparable values" s!"{left.typeName} and {right.typeName}")

/-- The order of sort keys: null comes before everything else. -/
def keyOrder (left right : Value) : Except Error Ordering :=
  match left.isNull, right.isNull with
  | true, true => .ok .eq
  | true, false => .ok .lt
  | false, true => .ok .gt
  | false, false => order left right

/-- Equality of two values that are not null. -/
def equal (left right : Value) : Except Error Bool :=
  match left with
  | .record .. | .list _ | .lambda .. => .ok (left == right)
  | _ => (· == .eq) <$> order left right

def compare (op : CompareOp) (left right : Value) : Except Error Value :=
  if left.isNull || right.isNull then
    let both := left.isNull && right.isNull
    .ok <| .bool <| match op with
      | .eq => both
      | .notEq => !both
      | _ => false
  else
    Value.bool <$> match op with
      | .eq => equal left right
      | .notEq => (!·) <$> equal left right
      | .lt => (· == .lt) <$> order left right
      | .ltEq => (· != .gt) <$> order left right
      | .gt => (· == .gt) <$> order left right
      | .gtEq => (· != .lt) <$> order left right

end Splice.Scalar
