import Splice.Query.Provider
import Splice.Query.Rows
/-!
# Composing and consuming queries

Extending a query hands the extended tree to the query's provider; consuming one asks the provider to execute it, or
enumerates its rows.  A wrapped query enumerates the query that it wraps if expansion keeps that query's tree;
otherwise it has the expanded tree bound behind it and enumerates that.
-/
namespace Splice.Query

variable {σ : Type}

/-! ## Making queries -/

/-- Route a query through expansion; a query that is wrapped already is left as it is. -/
def wrap (limit : Nat) : Query → QueryM σ Query
  | q@(.plain ..) => do
    let wrapper := ⟨← Session.fresh, limit, q.provider⟩
    return .wrapped (← Session.fresh) q wrapper
  | q => pure q

/-- A query of a new projecting provider in front of the backend. -/
def provide (host : Host σ) (limit : Nat) (e : Expr) : QueryM σ Query := do
  let id ← Session.fresh
  return (← (Provider.projecting id limit .backend).query host e).val

/-- The query with a query operator applied to its tree. -/
def extend (host : Host σ) (q : Query) (op : QueryOp) (f : Lambda) : QueryM σ Query := do
  return (← q.provider.query host (.operator op q.tree (some f))).val

/-! ## Single values -/

/-- Execute the query's tree with a query operator applied to it. -/
def aggregate (host : Host σ) (b : Backend σ) (q : Query) (op : QueryOp) (f : Option Lambda) : QueryM σ Value :=
  q.provider.execute host b (.operator op q.tree f)

def count (host : Host σ) (b : Backend σ) (q : Query) : QueryM σ Int64 := do
  match ← q.aggregate host b .count none with
  | .int n => pure n
  | v => Run.fail (.typeMismatch "int" v.typeName)

/-- Whether there is a row, or one of which the predicate holds. -/
def any (host : Host σ) (b : Backend σ) (q : Query) (f : Option Lambda) : QueryM σ Bool := do
  match ← q.aggregate host b .any f with
  | .bool found => pure found
  | v => Run.fail (.typeMismatch "bool" v.typeName)

def execute (host : Host σ) (b : Backend σ) (q : Query) : QueryM σ Value := q.provider.execute host b q.tree

def executeAsync (host : Host σ) (b : Backend σ) (q : Query) : QueryM σ Value := q.provider.executeAsync host b q.tree

/-! ## Rows -/

def rows (host : Host σ) (b : Backend σ) (q : Query) : QueryM σ (List Value) :=
  match q with
  | .plain _ tree => do
    Session.note (.enumerate tree)
    Provider.executeRows host b .backend tree
  | .wrapped _ inner wrapper => do
    match ← Session.onHost (inner.tree.expand host wrapper.limit) with
    | .keep => inner.rows host b
    | .put t => do
      let ⟨bound, _⟩ ← wrapper.inner.query host t
      bound.rows host b
termination_by q.nesting
decreasing_by
  · simp only [nesting]
    omega
  · simp only [nesting]
    omega

def stream (host : Host σ) (b : Backend σ) (q : Query) : QueryM σ RowStream := RowStream.ofRows <$> q.rows host b

/-- The rows of a tree on the query's provider as a stream. -/
def executeStream (host : Host σ) (b : Backend σ) (q : Query) (e : Expr) : QueryM σ RowStream :=
  RowStream.ofRows <$> q.provider.executeRows host b e

end Splice.Query
