import DimEquiv.FusedTree

/-!
# Expressions

The right-hand sides of assignments. Operands are variables, so an expression has no nesting apart
from fused trees. An expression of an unlisted kind is carried along by its word and has no printed
form.
-/

namespace DimEquiv

/-- What a global name refers to. -/
inductive GlobalKind where
  | moduleRef
  | ufunc
  | functionRef
  | other
  deriving DecidableEq

structure GlobalValue where
  kind : GlobalKind
  name : String
  deriving DecidableEq

/-- A constant of the program. -/
inductive Literal where
  | number (x : Number)
  | bool (b : Bool)
  | text (s : String)
  | null
  | list (xs : List Number)
  deriving DecidableEq

/-- The right-hand side of an assignment. -/
inductive Expr where
  | global (name : String) (value : GlobalValue)
  | arg (index : Int) (name : Var)
  | getattr (value : Var) (attr : String)
  | buildTuple (items : List Var)
  | const (value : Literal)
  | var (x : Var)
  | unary (fn : String) (value : Var)
  | binop (fn : String) (lhs rhs : Var)
  | inplaceBinop (fn immutableFn : String) (lhs rhs : Var)
  | fused (tree : FusedTree)
  | cast (value : Var)
  | call (func : Var) (args : List Var) (kws : List (String × Var) := [])
  | staticGetitem (value : Var) (index : Int) (indexVar : Option Var)
  | other (op : String)

namespace Expr

instance : Inhabited Expr := ⟨const .null⟩

/-- The word that names the kind of an expression. -/
def op : Expr → String
  | global .. => "global"
  | arg .. => "arg"
  | getattr .. => "getattr"
  | buildTuple .. => "build_tuple"
  | const .. => "const"
  | var .. => "var"
  | unary .. => "unary"
  | binop .. => "binop"
  | inplaceBinop .. => "inplace_binop"
  | fused .. => "arrayexpr"
  | cast .. => "cast"
  | call .. => "call"
  | staticGetitem .. => "static_getitem"
  | other op => op

end Expr

/-- Items one after the other, with a comma and a blank between two. -/
def commaSeparated (items : List String) : String := ", ".intercalate items

namespace Literal

/-- The printed form: texts are bare and a list stands in parentheses. -/
def printed : Literal → String
  | number x => x.text
  | bool b => if b then "true" else "false"
  | text s => s
  | null => "null"
  | list xs => "(" ++ commaSeparated (xs.map Number.text) ++ ")"

end Literal

namespace Expr

/-- The printed form. -/
def text? : Expr → Option String
  | global name value => some ("global(" ++ name ++ ": " ++ value.name ++ ")")
  | arg index name => some ("arg(" ++ toString index ++ ", name=" ++ name ++ ")")
  | getattr value attr => some ("getattr(value=" ++ value ++ ", attr=" ++ attr ++ ")")
  | buildTuple items => some ("build_tuple(items=[" ++ commaSeparated items ++ "])")
  | const value => some ("const(" ++ value.printed ++ ")")
  | var x => some x
  | unary fn value => some ("unary(fn=" ++ fn ++ ", value=" ++ value ++ ")")
  | binop fn lhs rhs => some (lhs ++ " " ++ fn ++ " " ++ rhs)
  | inplaceBinop fn _ lhs rhs => some (lhs ++ " " ++ fn ++ " " ++ rhs)
  | fused tree => some ("arrayexpr(" ++ tree.text ++ ")")
  | cast value => some ("cast(value=" ++ value ++ ")")
  | call func args kws =>
    let keywords := kws.map fun (key, value) => key ++ "=" ++ value
    some ("call " ++ func ++ "(" ++ commaSeparated (args ++ keywords) ++ ")")
  | staticGetitem value index _ =>
    some ("static_getitem(value=" ++ value ++ ", index=" ++ toString index ++ ")")
  | other _ => none

/-- Only an expression of an unlisted kind has no printed form. -/
theorem text?_eq_none_iff (e : Expr) : e.text? = none ↔ ∃ op, e = other op := by
  cases e <;> simp [text?]

end Expr

end DimEquiv
