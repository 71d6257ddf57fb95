import Splice.Scalar.Order
/-!
# Sorting rows by keys that may be incomparable

Rows are sorted by insertion: each row in turn is compared with its neighbour on the left and moves past it while its
key is less, so rows of equal keys keep their order.  Two keys may have no order.  Then the comparison counts as equal,
the sort goes on, and **the first comparison that failed is the error of the whole sort**.
-/
namespace Splice.Sorting

structure Keyed where
  key : Value
  row : Value

/-- Rows that are sorted so far, the last of them first, and the first comparison that failed. -/
structure Progress where
  sorted : List Keyed := []
  failure : Option Error := none

/-- Put a row to the right of the first row that it is not less than; `sorted` is read from the right. -/
def insert (moving : Keyed) : List Keyed → List Keyed × Option Error
  | [] => ([moving], none)
  | neighbour :: rest =>
    match Scalar.keyOrder moving.key neighbour.key with
    | .ok .lt =>
      let (placed, failure) := insert moving rest
      (neighbour :: placed, failure)
    | .ok _ => (moving :: neighbour :: rest, none)
    | .error e => (moving :: neighbour :: rest, some e)

def Progress.add (p : Progress) (moving : Keyed) : Progress :=
  let (sorted, failure) := insert moving p.sorted
  ⟨sorted, p.failure.or failure⟩

/-- The rows in the order of their keys, or the first comparison that failed. -/
def sortRows (rows : List Keyed) : Except Error (List Value) :=
  let p := rows.foldl Progress.add {}
  match p.failure with
  | some e => .error e
  | none => .ok (p.sorted.reverse.map Keyed.row)

end Splice.Sorting
