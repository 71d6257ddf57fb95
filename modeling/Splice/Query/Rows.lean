import Splice.Tree.Basic
/-!
# Streams of rows

A stream hands out the rows of a list one at a time and counts them.  It always knows how many are left, and once it has
ended it stays ended.
-/
namespace Splice

/-- The rows that are left, and how many were handed out. -/
structure RowStream where
  remaining : List Value
  yielded : Nat := 0

namespace RowStream

def ofRows (rows : List Value) : RowStream := { remaining := rows }

def poll (s : RowStream) : Option Value × RowStream :=
  match s.remaining with
  | [] => (none, s)
  | row :: rest => (some row, ⟨rest, s.yielded + 1⟩)

/-- A lower and an upper bound on the number of rows that are left. -/
def sizeHint (s : RowStream) : Nat × Option Nat := (s.remaining.length, some s.remaining.length)

/-- The rows of `n` polls. -/
def take : Nat → RowStream → List Value
  | 0, _ => []
  | n + 1, s =>
    match s.poll with
    | (some row, s') => row :: s'.take n
    | (none, _) => []

def collect (s : RowStream) : List Value := s.take s.remaining.length

def debugText (s : RowStream) : String := "AsyncRows \x7b yielded: " ++ toString s.yielded ++ ", .. \x7d"

theorem take_eq (n : Nat) (s : RowStream) : s.take n = s.remaining.take n := by
  induction n generalizing s with
  | zero => rfl
  | succ n ih =>
    rcases s with ⟨_ | ⟨row, rest⟩, yielded⟩
    · rfl
    · simp [take, poll, ih]

/-- **Polling to the end gives all the rows.** -/
theorem collect_ofRows (rows : List Value) : (ofRows rows).collect = rows := by
  simp [collect, take_eq, ofRows]

end RowStream

end Splice
