import Splice.Expansion.Pass
/-!
# Queries and the providers that run them

A query is a tree bound to the provider that can run it.  There are two kinds of providers.  The backend binds a tree
as it is and executes it.  A projecting provider stands in front of another one: **whatever it is asked to bind or to
execute, it expands first**, so the provider behind it never sees a marker call.

A query of a projecting provider wraps a query of the provider behind it and shows that query's tree.  Wrapping a query
that is wrapped already gives the same query.

Queries and projecting providers have identities, which tell a wrapper that is shared from one that is new.  The
`Session` issues them, and keeps the requests that reached the backend.
-/
namespace Splice

/-- What the backend makes of a tree. -/
structure Backend (σ : Type) where
  execute : Expr → Run σ Value

/-- A request that reached the backend. -/
inductive Request where
  /-- Bind a tree as a query. -/
  | create (e : Expr)
  | execute (e : Expr)
  | executeRows (e : Expr)
  | executeAsync (e : Expr)
  /-- Enumerate a query of the backend. -/
  | enumerate (e : Expr)

/-- The requests so far, newest first, the number of identities issued and the state of the host program. -/
structure Session (σ : Type) where
  requests : List Request := []
  issued : Nat := 0
  hostState : σ

/-- A computation that talks to the backend. -/
abbrev QueryM (σ : Type) := Run (Session σ)

variable {σ : Type}

namespace Session

def note (r : Request) : QueryM σ Unit := modify fun s => { s with requests := r :: s.requests }

def fresh : QueryM σ Nat := modifyGet fun s => (s.issued, { s with issued := s.issued + 1 })

def onHost {α : Type} (x : Run σ α) : QueryM σ α := x.inside Session.hostState fun s h => { s with hostState := h }

end Session

/-- Who binds trees and executes them. -/
inductive Provider where
  | backend
  /-- Expands, with at most `limit` nested projections, and passes on to `inner`. -/
  | projecting (id limit : Nat) (inner : Provider)

/-- How many projecting providers stand in front of the backend. -/
def Provider.nesting : Provider → Nat
  | .backend => 0
  | .projecting _ _ inner => inner.nesting + 1

/-- A projecting provider by itself. -/
structure Wrapper where
  id : Nat
  limit : Nat
  inner : Provider

def Wrapper.provider (w : Wrapper) : Provider := .projecting w.id w.limit w.inner

/-- A tree bound to a provider. -/
inductive Query where
  /-- A query of the backend. -/
  | plain (id : Nat) (tree : Expr)
  /-- A query of a projecting provider, around a query of the provider behind it. -/
  | wrapped (id : Nat) (inner : Query) (wrapper : Wrapper)

namespace Query

def id : Query → Nat
  | .plain id _ | .wrapped id _ _ => id

def tree : Query → Expr
  | .plain _ tree => tree
  | .wrapped _ inner _ => inner.tree

def provider : Query → Provider
  | .plain .. => .backend
  | .wrapped _ _ wrapper => wrapper.provider

def isWrapped : Query → Bool
  | .plain .. => false
  | .wrapped .. => true

def wrapper? : Query → Option Wrapper
  | .plain .. => none
  | .wrapped _ _ wrapper => some wrapper

def inner? : Query → Option Query
  | .plain .. => none
  | .wrapped _ inner _ => some inner

/-- How deep wrappers nest, in the query itself and in the providers that it can ask. -/
def nesting : Query → Nat
  | .plain .. => 0
  | .wrapped _ inner wrapper => max inner.nesting wrapper.inner.nesting + 1

def debugText (q : Query) : String :=
  "Queryable \x7b expression: " ++ q.tree.text ++ ", projection_aware: " ++ boolText q.isWrapped ++ " \x7d"

end Query

/-! ## What providers do -/

namespace Provider

def expanded (host : Host σ) (limit : Nat) (e : Expr) : QueryM σ Expr := do
  return (← Session.onHost (e.expand host limit)).result e

/-- Bind a tree as a query.  The new query nests no deeper than its provider. -/
def query (host : Host σ) : (p : Provider) → Expr → QueryM σ { q : Query // q.nesting ≤ p.nesting }
  | .backend, e => do
    Session.note (.create e)
    return ⟨.plain (← Session.fresh) e, Nat.le_refl 0⟩
  | .projecting id limit inner, e => do
    let t ← expanded host limit e
    let ⟨q, h⟩ ← query host inner t
    return ⟨.wrapped (← Session.fresh) q ⟨id, limit, inner⟩, by
      simp only [Query.nesting, nesting, Nat.max_eq_right h, Nat.le_refl]⟩

def execute (host : Host σ) (b : Backend σ) : Provider → Expr → QueryM σ Value
  | .backend, e => do
    Session.note (.execute e)
    Session.onHost (b.execute e)
  | .projecting _ limit inner, e => do execute host b inner (← expanded host limit e)

def listRows : Value → QueryM σ (List Value)
  | .list rows => pure rows
  | v => Run.fail (.typeMismatch "row sequence" v.typeName)

def executeRows (host : Host σ) (b : Backend σ) : Provider → Expr → QueryM σ (List Value)
  | .backend, e => do
    Session.note (.executeRows e)
    listRows (← execute host b .backend e)
  | .projecting _ limit inner, e => do executeRows host b inner (← expanded host limit e)

/-- Execute a tree to a value that is there at once. -/
def executeAsync (host : Host σ) (b : Backend σ) : Provider → Expr → QueryM σ Value
  | .backend, e => do
    Session.note (.executeAsync e)
    execute host b .backend e
  | .projecting _ limit inner, e => do executeAsync host b inner (← expanded host limit e)

end Provider

end Splice
