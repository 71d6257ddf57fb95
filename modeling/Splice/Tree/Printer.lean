import Splice.Tree.Basic
import Splice.Number.Integer
import Splice.Text.Layout
import Splice.Text.Quoted
/-!
# The text of trees and values

Trees are written in one line, operators as method calls on their receiver:
`projects.select(p => Row { total: p.parts.sum(q => (q.area + 1)) })`.  Binary operators and conditionals carry
their own parentheses, so no other text depends on what stands around it.

A literal shows its type: strings are quoted and floats keep a fraction or an exponent.  A value does not: a string
stands for itself, and a whole float looks like an integer.  A captured value is shown by its name only.
-/
namespace Splice

/-! ## Operators -/

def QueryOp.text : QueryOp → String
  | .filter => "where"
  | .select => "select"
  | .orderBy => "order_by"
  | .average => "average"
  | .sum => "sum"
  | .count => "count"
  | .min => "min"
  | .max => "max"
  | .any => "any"
  | .toText => "to_string"

def UnaryOp.text : UnaryOp → String
  | .not => "!"
  | .negate => "-"

def BinaryOp.text : BinaryOp → String
  | .add => "+"
  | .subtract => "-"
  | .multiply => "*"
  | .divide => "/"
  | .modulo => "%"
  | .and => "&&"
  | .or => "||"

def CompareOp.text : CompareOp → String
  | .eq => "=="
  | .notEq => "!="
  | .lt => "<"
  | .ltEq => "<="
  | .gt => ">"
  | .gtEq => ">="

/-! ## Pieces -/

def boolText (b : Bool) : String := if b then "true" else "false"

def commaSeparated (texts : List String) : String := ", ".intercalate texts

/-- A named group of fields. -/
def recordText (typeName : String) (fields : List String) : String :=
  typeName ++ " \x7b " ++ commaSeparated fields ++ " \x7d"

/-- The parameters of a lambda and its arrow; a single parameter needs no parentheses. -/
def lambdaText (params : List Param) (body : String) : String :=
  let names := match params with
    | [p] => p.name
    | params => "(" ++ commaSeparated (params.map Param.name) ++ ")"
  names ++ " => " ++ body

def Literal.text : Literal → String
  | .null => "null"
  | .bool b => boolText b
  | .int n => Integer.text n
  | .float x => Layout.literal.text x
  | .string s => Quoted.text s

/-- A call with its arguments; a query operator stands after its receiver. -/
def Callee.text : Callee → List String → String
  | .operator op, [] => op.text ++ "()"
  | .operator op, receiver :: rest => receiver ++ "." ++ op.text ++ "(" ++ commaSeparated rest ++ ")"
  | .host f, args => f.name ++ "(" ++ commaSeparated args ++ ")"
  | .project, args => "project(" ++ commaSeparated args ++ ")"

/-! ## Trees -/

mutual
def Expr.text : Expr → String
  | .literal l _ => l.text
  | .captured name .. => "$" ++ name
  | .source name => name
  | .param p => p.name
  | .member base name => base.text ++ "." ++ name
  | .call callee args => callee.text (Expr.texts args)
  | .lambda params body => lambdaText params body.text
  | .unary op operand => op.text ++ operand.text
  | .binary op left right => "(" ++ left.text ++ " " ++ op.text ++ " " ++ right.text ++ ")"
  | .compare op left right => "(" ++ left.text ++ " " ++ op.text ++ " " ++ right.text ++ ")"
  | .cond test yes no => "(" ++ test.text ++ " ? " ++ yes.text ++ " : " ++ no.text ++ ")"
  | .record typeName fields => recordText typeName (Expr.fieldTexts fields)
termination_by structural e => e
def Expr.texts : List Expr → List String
  | [] => []
  | e :: es => e.text :: Expr.texts es
termination_by structural es => es
def Expr.fieldTexts : List (String × Expr) → List String
  | [] => []
  | (name, e) :: es => (name ++ ": " ++ e.text) :: Expr.fieldTexts es
termination_by structural es => es
end

def Lambda.text (f : Lambda) : String := lambdaText f.params f.body.text

/-! ## Values -/

mutual
def Value.text : Value → String
  | .null => "null"
  | .bool b => boolText b
  | .int n => Integer.text n
  | .float x => Layout.value.text x
  | .string s => s
  | .record typeName fields => recordText typeName (Value.fieldTexts fields)
  | .list items => "[" ++ commaSeparated (Value.texts items) ++ "]"
  | .lambda params body => lambdaText params body.text
termination_by structural v => v
def Value.texts : List Value → List String
  | [] => []
  | v :: vs => v.text :: Value.texts vs
termination_by structural vs => vs
def Value.fieldTexts : List (String × Value) → List String
  | [] => []
  | (name, v) :: vs => (name ++ ": " ++ v.text) :: Value.fieldTexts vs
termination_by structural vs => vs
end

/-- How a host function is shown in diagnostics: by its name alone. -/
def HostFunction.debugText (f : HostFunction) : String :=
  "HostFunction \x7b name: " ++ Quoted.text f.name ++ ", .. \x7d"

end Splice
