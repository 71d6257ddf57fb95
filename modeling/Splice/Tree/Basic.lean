import Splice.Error
import Splice.Fields
import Splice.Param
import Splice.Number.Binary64
/-!
# Query trees and the values they produce

A query is an `Expr`: literals, captured host values, query sources and parameters at the leaves, and operators,
calls, lambdas and record constructions above them.  A `Value` is what evaluation makes of it.  The two types need each
other: a tree can capture a value, and a value can be a lambda, whose body is a tree.

**A leaf that holds data carries its site**, the place where it was written.  A tree that was built from others contains
their leaves, sites and all, so two leaves with one site are one leaf used twice.  That matters because data need not be
equal to itself; a leaf always is.

**The marker is structure, not a name.**  A call of `Callee.project` stands for "put the body of the lambda that
argument 0 denotes here, with its parameters bound to the other arguments".

A host function is known by where it is held and by its display name; what it does is not part of the tree but of the
`Host` that runs it.  So trees are plain data, and two calls call the same function exactly when both parts agree.
-/
namespace Splice

/-- Where a leaf of a tree was written.  Whoever writes trees gives every new leaf a number of its own. -/
structure Site where
  number : Nat
deriving DecidableEq

/-- A constant written directly into a tree. -/
inductive Literal where
  | null
  | bool (b : Bool)
  | int (n : Int64)
  | float (x : Float)
  | string (s : String)

/-- The query operators that every backend understands.  Argument 0 is the receiver. -/
inductive QueryOp where
  | filter | select | orderBy | average | sum | count | min | max | any | toText
deriving DecidableEq

inductive UnaryOp where
  | not | negate
deriving DecidableEq

inductive BinaryOp where
  | add | subtract | multiply | divide | modulo | and | or
deriving DecidableEq

inductive CompareOp where
  | eq | notEq | lt | ltEq | gt | gtEq
deriving DecidableEq

/-- A function of the host program that a backend cannot translate. -/
structure HostFunction where
  /-- Where the host holds the function. -/
  slot : Nat
  name : String
deriving DecidableEq

/-- What a call calls. -/
inductive Callee where
  /-- A query operator; its lambda argument is applied per row. -/
  | operator (op : QueryOp)
  | host (f : HostFunction)
  /-- The projection marker: a reference, then the actual arguments. -/
  | project
deriving DecidableEq

mutual
/-- What a tree evaluates to. -/
inductive Value where
  | null
  | bool (b : Bool)
  | int (n : Int64)
  | float (x : Float)
  | string (s : String)
  | record (typeName : String) (fields : List (String × Value))
  | list (items : List Value)
  | lambda (params : List Param) (body : Expr)

/-- A query tree. -/
inductive Expr where
  | literal (l : Literal) (site : Site)
  /-- A value that the author of the query closed over. -/
  | captured (name : String) (value : Value) (site : Site)
  /-- The root collection of a query, bound by the backend that runs it. -/
  | source (name : String)
  | param (p : Param)
  | member (base : Expr) (name : String)
  | call (callee : Callee) (args : List Expr)
  | lambda (params : List Param) (body : Expr)
  | unary (op : UnaryOp) (operand : Expr)
  | binary (op : BinaryOp) (left right : Expr)
  | compare (op : CompareOp) (left right : Expr)
  | cond (test yes no : Expr)
  /-- The construction of a record; names may repeat. -/
  | record (typeName : String) (fields : List (String × Expr))
end

instance : Inhabited Value := ⟨.null⟩

instance : Inhabited Expr := ⟨.literal .null ⟨0⟩⟩

/-- Formal parameters and a body. -/
structure Lambda where
  params : List Param
  body : Expr

def Lambda.arity (f : Lambda) : Nat := f.params.length

/-- A named entity with ordered fields. -/
structure Record where
  typeName : String
  fields : List (String × Value) := []

namespace Record

/-- Assign a field: in place if the name is present, at the end otherwise. -/
def set (r : Record) (name : String) (v : Value) : Record := { r with fields := Fields.set name v r.fields }

def get? (r : Record) (name : String) : Option Value := Fields.get? name r.fields

end Record

/-! ## Literals from host numbers

Every fixed-width integer is taken as a 64-bit integer and every float as a 64-bit float, without loss. -/

namespace Literal

def ofInt8 (n : Int8) : Literal := .int n.toInt64
def ofInt16 (n : Int16) : Literal := .int n.toInt64
def ofInt32 (n : Int32) : Literal := .int n.toInt64
def ofUInt8 (n : UInt8) : Literal := .int (Int64.ofNat n.toNat)
def ofUInt16 (n : UInt16) : Literal := .int (Int64.ofNat n.toNat)
def ofUInt32 (n : UInt32) : Literal := .int (Int64.ofNat n.toNat)
def ofFloat32 (x : Float32) : Literal := .float x.toFloat

end Literal

/-! ## Values -/

namespace Value

def ofLiteral : Literal → Value
  | .null => .null
  | .bool b => .bool b
  | .int n => .int n
  | .float x => .float x
  | .string s => .string s

def ofLambda (f : Lambda) : Value := .lambda f.params f.body

def ofRecord (r : Record) : Value := .record r.typeName r.fields

/-- The name of a value's type, as error texts use it. -/
def typeName : Value → String
  | .null => "null"
  | .bool _ => "bool"
  | .int _ => "int"
  | .float _ => "float"
  | .string _ => "string"
  | .record .. => "record"
  | .list _ => "list"
  | .lambda .. => "lambda"

def isNull : Value → Bool
  | .null => true
  | _ => false

def asFloat? : Value → Option Float
  | .int n => some (Binary64.ofInt64 n)
  | .float x => some x
  | _ => none

def asList? : Value → Option (List Value)
  | .list items => some items
  | _ => none

def asRecord? : Value → Option Record
  | .record typeName fields => some ⟨typeName, fields⟩
  | _ => none

def asLambda? : Value → Option Lambda
  | .lambda params body => some ⟨params, body⟩
  | _ => none

end Value

/-! ## Building trees -/

namespace Expr

def ofLambda (f : Lambda) : Expr := .lambda f.params f.body

def operator (op : QueryOp) (receiver : Expr) (f : Option Lambda) : Expr :=
  .call (.operator op) (receiver :: (f.map ofLambda).toList)

/-- The lambda that this node denotes by itself: a lambda node, or a captured lambda. -/
def asLambda? : Expr → Option Lambda
  | .lambda params body => some ⟨params, body⟩
  | .captured _ value _ => value.asLambda?
  | _ => none

end Expr

end Splice
