import Splice.Tree.Printer
/-!
# Conditions, arithmetic and members

The operators on values that need no scope.  `null` is false as a condition, and an operator on `null` gives `null`;
only concatenation, which is what `+` means as soon as one side is a string, takes it for the empty text.

Two integers give an integer, exactly or not at all; any other two numbers are computed as floats, which never fails.
-/
namespace Splice.Scalar

def condition : Value → Except Error Bool
  | .bool b => .ok b
  | .null => .ok false
  | v => .error (.typeMismatch "bool" v.typeName)

def unary (op : UnaryOp) (v : Value) : Except Error Value :=
  match op, v with
  | _, .null => .ok .null
  | .not, .bool b => .ok (.bool !b)
  | .negate, .int n =>
    match Integer.neg? n with
    | some m => .ok (.int m)
    | none => .error (.negationOverflow (Integer.text n))
  | .negate, .float x => .ok (.float (-x))
  | .not, v => .error (.typeMismatch "bool" v.typeName)
  | .negate, v => .error (.typeMismatch "number" v.typeName)

/-- The text of an operand of a concatenation. -/
def concatText : Value → String
  | .null => ""
  | v => v.text

/-- An operator on two integers: exact, or an error. -/
def integers (op : BinaryOp) (a b : Int64) : Except Error Value :=
  let exact : Option Int64 → Except Error Value
    | some n => .ok (.int n)
    | none => .error (.integerOverflow (Integer.text a) op.text (Integer.text b))
  match op with
  | .add => exact (Integer.add? a b)
  | .subtract => exact (Integer.sub? a b)
  | .multiply => exact (Integer.mul? a b)
  | .divide => if b = 0 then .error .divisionByZero else exact (Integer.quot? a b)
  | .modulo => if b = 0 then .error .divisionByZero else exact (Integer.rem? a b)
  | .and | .or => .error (.typeMismatch "bool" "int")

/-- An operator on two floats; the logical ones have no value there. -/
def floats (op : BinaryOp) (a b : Float) : Float :=
  match op with
  | .add => a + b
  | .subtract => a - b
  | .multiply => a * b
  | .divide => a / b
  | .modulo => Binary64.rem a b
  | .and | .or => Binary64.nan

/-- An arithmetic operator on operands of which none is a string. -/
def arithmetic (op : BinaryOp) (left right : Value) : Except Error Value :=
  match left, right with
  | .null, _ | _, .null => .ok .null
  | .int a, .int b => integers op a b
  | left, right =>
    match left.asFloat?, right.asFloat? with
    | some a, some b => .ok (.float (floats op a b))
    | _, _ => .error (.typeMismatch "numbers" s!"{left.typeName} {op.text} {right.typeName}")

def isString : Value → Bool
  | .string _ => true
  | _ => false

def binary (op : BinaryOp) (left right : Value) : Except Error Value :=
  match op with
  | .add =>
    if isString left || isString right then .ok (.string (concatText left ++ concatText right))
    else arithmetic .add left right
  | .and => do if ← condition left then Value.bool <$> condition right else pure (.bool false)
  | .or => do if ← condition left then pure (.bool true) else Value.bool <$> condition right
  | op => arithmetic op left right

/-- The member `name` of a value.  A list has a `count` and a string a `length` in code points. -/
def member (v : Value) (name : String) : Except Error Value :=
  match v with
  | .null => .ok .null
  | .record typeName fields =>
    match Fields.get? name fields with
    | some field => .ok field
    | none => .error (.noMember typeName name)
  | .list items => if name = "count" then .ok (.int (Int64.ofNat items.length)) else .error (.noMember "list" name)
  | .string s => if name = "length" then .ok (.int (Int64.ofNat s.length)) else .error (.noMember "string" name)
  | v => .error (.noMember v.typeName name)

end Splice.Scalar
