import Splice.Query.Strict
import Splice.Evaluation.Rules
/-!
# Rows in memory, and the engine that queries them

A catalog holds the rows of named sources.  The engine evaluates a query over its catalog; a strict engine first
refuses what a translating backend would refuse.
-/
namespace Splice

/-- Named rows. -/
structure Catalog where
  sources : List (String × List Value) := []

namespace Catalog

/-- Put rows behind a name, in the place of earlier ones. -/
def register (c : Catalog) (name : String) (rows : List Value) : Catalog := ⟨Fields.set name rows c.sources⟩

def contains (c : Catalog) (name : String) : Bool := (Fields.get? name c.sources).isSome

/-- The names in ascending order. -/
def names (c : Catalog) : List String := (c.sources.map Prod.fst).mergeSort fun a b => !(b < a)

def rows (c : Catalog) (name : String) : Except Error Value :=
  match Fields.get? name c.sources with
  | some rows => .ok (.list rows)
  | none => .error (.notFound name)

end Catalog

/-- An engine over a catalog. -/
structure Engine (σ : Type) where
  host : Host σ
  catalog : Catalog := {}
  /-- Whether trees that a backend could not translate are refused. -/
  strict : Bool := true

namespace Engine

variable {σ : Type}

/-- Whether the engine takes a tree; if not, why. -/
def validate (g : Engine σ) (e : Expr) : Except Halt Unit := if g.strict then Strict.check e else .ok ()

def execute (g : Engine σ) (e : Expr) : Run σ Value := do
  Run.lift (g.validate e)
  Env.value { host := g.host, sources := some g.catalog.rows } e

def source (g : Engine σ) (name : String) : Except Error Expr :=
  if g.catalog.contains name then .ok (.source name) else .error (.notFound name)

end Engine

end Splice
