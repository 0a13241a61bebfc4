import DimEquiv.StaticType
import DimEquiv.Text.Quoted

/-!
# Failures

Two kinds of failure. An expression that no rule covers is reported and makes the shape of its
target unknown. Every other failure means that the program and its types disagree, and ends the
analysis.
-/

namespace DimEquiv

/-- Why no shape rule covers an expression. -/
inductive Unsupported where
  | unaryOperator (fn : String)
  /-- A binary operator that is not elementwise, used in an expression of kind `op`. -/
  | binaryOperator (op fn : String)
  | getattr (attr : String) (receiver : Var)
  /-- An expression of kind `op` that never yields an array. -/
  | production (op : String) (target : Var)
  | callTarget (func : Var)
  | zeroDimensional (callName : String)
  | shapeElement (callName : String) (item : Var)
  | shapeArgument (callName : String) (arg : Var)
  | unknownCall (callName : String)
  deriving DecidableEq

/-- Why the analysis of an assignment fails. -/
inductive ShapeError where
  | unsupported (cause : Unsupported)
  | unknownVariable (x : Var)
  | missingType (x : Var)
  | noArrayOperand (operands : List Var)
  /-- A merge of class `c` with an unknown dimension. -/
  | invalidMerge (c : Int)
  | notArrayParameter (name : Var)
  | missingArgument (callName : String) (index : Nat)
  | argumentCount (callName : String) (given : Nat)
  | missingShapeArgument (callName : String)
  | sizesOfUnknown
  /-- An expression of an unlisted kind. -/
  | unhandledExpression (op : String)
  deriving DecidableEq

namespace Unsupported

/-- The kind of the expression. -/
def op : Unsupported → String
  | unaryOperator _ => "unary"
  | binaryOperator op _ => op
  | getattr .. => "getattr"
  | production op _ => op
  | _ => "call"

def message : Unsupported → String
  | unaryOperator fn => "unary operator " ++ fn ++ " is not elementwise"
  | binaryOperator _ fn => "binary operator " ++ fn ++ " is not elementwise"
  | getattr attr receiver => "attribute " ++ attr ++ " of " ++ receiver
  | production op target => op ++ " producing array " ++ target
  | callTarget func => "call target " ++ func ++ " is not a recognized array call"
  | zeroDimensional callName => callName ++ " of a zero-dimensional array"
  | shapeElement callName item => callName ++ " shape element " ++ item ++ " is not an integer"
  | shapeArgument callName arg =>
    callName ++ " shape argument " ++ arg ++ " is not an integer or integer tuple"
  | unknownCall callName => "unknown array call: " ++ callName

end Unsupported

namespace ShapeError

def message : ShapeError → String
  | unsupported cause => cause.message
  | unknownVariable x => "no shape recorded for variable " ++ x
  | missingType x => "no static type for variable " ++ x
  | noArrayOperand operands =>
    "broadcast requires at least one array operand, got [" ++ ", ".intercalate operands ++ "]"
  | invalidMerge c => "cannot merge unknown class with " ++ toString c
  | notArrayParameter name => "parameter " ++ name ++ " is not an array"
  | missingArgument callName index => callName ++ " is missing argument " ++ toString index
  | argumentCount callName given =>
    callName ++ " expects 2 or 3 arguments, got " ++ toString given
  | missingShapeArgument callName => callName ++ " called without a shape argument"
  | sizesOfUnknown => "unknown class cannot carry size values"
  | unhandledExpression op => "unhandled expression \x7b\"op\":" ++ Quoted.encode op ++ "\x7d"

/-- Whether the failure ends the analysis. -/
def isFatal : ShapeError → Bool
  | unsupported _ => false
  | _ => true

theorem isFatal_eq_false_iff (e : ShapeError) :
    e.isFatal = false ↔ ∃ cause, e = unsupported cause := by
  cases e <;> simp [isFatal]

end ShapeError

end DimEquiv
