/-!
# Formal parameters and who issues them

A lambda refers to its own parameters by identity.  **Two parameters are the same exactly when they carry the same
`ParamId`**: the display name and the type play no part.  That is what lets a substitution replace one lambda's `p`
without touching another lambda's parameter that happens to be called `p` too.

An identity is the token of the arena that issued it and the slot inside it.  A `Registry` numbers its arenas in the
order of their creation, and takes the tokens from a counter of 64 bits, so no two of the first 2^64 arenas ever issue
the same identity.
-/
namespace Splice

/-- The identity of a parameter: the issuing arena, then the slot inside it. -/
structure ParamId where
  arena : Nat
  slot : Nat
deriving DecidableEq

/-- Identities stand in the order of arena creation, then of declaration. -/
def ParamId.order (a b : ParamId) : Ordering := (compare a.arena b.arena).then (compare a.slot b.slot)

/-- The type that a parameter is declared with.  It is carried for display only. -/
inductive DataType where
  | any | bool | int | float | string | lambda
  /-- A record of the named entity type. -/
  | record (name : String)
  | list (element : DataType)
deriving DecidableEq

def DataType.text : DataType → String
  | .any => "any"
  | .bool => "bool"
  | .int => "int"
  | .float => "float"
  | .string => "string"
  | .lambda => "lambda"
  | .record name => name
  | .list element => s!"[{element.text}]"

/-- A placeholder for an argument of a lambda. -/
structure Param where
  id : ParamId
  name : String
  type : DataType

/-- Parameters compare by identity alone. -/
instance : BEq Param := ⟨fun p q => p.id == q.id⟩

instance : ReflBEq Param := ⟨beq_self_eq_true (α := ParamId) _⟩

/-! ## Issuing identities -/

/-- An arena: its token and what was declared in it, slot by slot. -/
structure Arena where
  token : Nat
  slots : List (String × DataType) := []

namespace Arena

def declare (a : Arena) (name : String) (type : DataType) : Param × Arena :=
  (⟨⟨a.token, a.slots.length⟩, name, type⟩, { a with slots := a.slots ++ [(name, type)] })

def find? (a : Arena) (id : ParamId) : Option Param :=
  if id.arena = a.token then a.slots[id.slot]?.map fun (name, type) => ⟨id, name, type⟩ else none

end Arena

/-- All arenas created so far, oldest first; the number of an arena is its position. -/
structure Registry where
  arenas : List Arena := []

namespace Registry

/-- The token of the next arena: how many were created before, counted with 64 bits. -/
def nextToken (r : Registry) : Nat := r.arenas.length % UInt64.size

def create (r : Registry) : Arena × Registry :=
  (⟨r.nextToken, []⟩, { arenas := r.arenas ++ [⟨r.nextToken, []⟩] })

def arena? (r : Registry) (number : Nat) : Option Arena := r.arenas[number]?

def declare (r : Registry) (number : Nat) (name : String) (type : DataType) : Option (Param × Registry) :=
  (r.arena? number).map fun a =>
    let (p, a') := a.declare name type
    (p, { arenas := r.arenas.set number a' })

end Registry

end Splice
