import Splice.Tree.Basic
/-!
# Equality of trees and values

`==` on trees and values is equality of structure, node by node.  Its leaves decide what it is:

* parameters are equal when their identities are, whatever their names and types say;
* floats are equal as numbers, so a value that is not a number differs from itself and the two zeros are equal;
* a leaf of a tree is equal to itself, whatever it holds: two leaves with one site are equal.

Because of the first, equal trees need not print alike.  Because of the second, a value need not be equal to itself; but
**a tree is** (`Expr.equal_refl`), and so is a lambda, which is a tree with parameters.
-/
namespace Splice

deriving instance BEq for Literal

mutual
def Value.equal : Value → Value → Bool
  | .null, .null => true
  | .bool a, .bool b => a == b
  | .int a, .int b => a == b
  | .float a, .float b => a == b
  | .string a, .string b => a == b
  | .record t fields, .record u others => t == u && Value.equalFields fields others
  | .list items, .list others => Value.equalAll items others
  | .lambda params body, .lambda others other => params == others && body.equal other
  | _, _ => false
termination_by structural v => v
def Value.equalAll : List Value → List Value → Bool
  | [], [] => true
  | v :: vs, w :: ws => v.equal w && Value.equalAll vs ws
  | _, _ => false
termination_by structural vs => vs
def Value.equalFields : List (String × Value) → List (String × Value) → Bool
  | [], [] => true
  | (m, v) :: vs, (n, w) :: ws => m == n && v.equal w && Value.equalFields vs ws
  | _, _ => false
termination_by structural vs => vs
def Expr.equal : Expr → Expr → Bool
  | .literal a s, .literal b t => s == t || a == b
  | .captured m v s, .captured n w t => s == t || (m == n && v.equal w)
  | .source m, .source n => m == n
  | .param p, .param q => p == q
  | .member a m, .member b n => a.equal b && m == n
  | .call f args, .call g others => f == g && Expr.equalAll args others
  | .lambda params body, .lambda others other => params == others && body.equal other
  | .unary o a, .unary p b => o == p && a.equal b
  | .binary o a b, .binary p c d => o == p && a.equal c && b.equal d
  | .compare o a b, .compare p c d => o == p && a.equal c && b.equal d
  | .cond a b c, .cond d e f => a.equal d && b.equal e && c.equal f
  | .record t fields, .record u others => t == u && Expr.equalFields fields others
  | _, _ => false
termination_by structural e => e
def Expr.equalAll : List Expr → List Expr → Bool
  | [], [] => true
  | a :: as, b :: bs => a.equal b && Expr.equalAll as bs
  | _, _ => false
termination_by structural es => es
def Expr.equalFields : List (String × Expr) → List (String × Expr) → Bool
  | [], [] => true
  | (m, a) :: as, (n, b) :: bs => m == n && a.equal b && Expr.equalFields as bs
  | _, _ => false
termination_by structural es => es
end

instance : BEq Value := ⟨Value.equal⟩

instance : BEq Expr := ⟨Expr.equal⟩

instance : BEq Lambda := ⟨fun f g => f.params == g.params && f.body == g.body⟩

/-! ## Trees are equal to themselves -/

mutual
/-- **A tree is equal to itself.** -/
theorem Expr.equal_refl : ∀ e : Expr, e.equal e = true
  | .literal .. | .captured .. | .source _ | .param _ => by simp [Expr.equal]
  | .member base _ => by simp [Expr.equal, Expr.equal_refl base]
  | .call _ args => by simp [Expr.equal, Expr.equalAll_refl args]
  | .lambda _ body => by simp [Expr.equal, Expr.equal_refl body]
  | .unary _ operand => by simp [Expr.equal, Expr.equal_refl operand]
  | .binary _ left right => by simp [Expr.equal, Expr.equal_refl left, Expr.equal_refl right]
  | .compare _ left right => by simp [Expr.equal, Expr.equal_refl left, Expr.equal_refl right]
  | .cond test yes no => by simp [Expr.equal, Expr.equal_refl test, Expr.equal_refl yes, Expr.equal_refl no]
  | .record _ fields => by simp [Expr.equal, Expr.equalFields_refl fields]
theorem Expr.equalAll_refl : ∀ es : List Expr, Expr.equalAll es es = true
  | [] => rfl
  | e :: es => by simp [Expr.equalAll, Expr.equal_refl e, Expr.equalAll_refl es]
theorem Expr.equalFields_refl : ∀ es : List (String × Expr), Expr.equalFields es es = true
  | [] => rfl
  | (_, e) :: es => by simp [Expr.equalFields, Expr.equal_refl e, Expr.equalFields_refl es]
end

instance : ReflBEq Expr := ⟨Expr.equal_refl _⟩

end Splice
