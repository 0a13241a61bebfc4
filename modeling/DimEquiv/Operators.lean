/-!
# Recognized operations

Named calls with a shape rule of their own, and the operators and universal functions that act
elementwise, with broadcasting, on arrays.
-/

namespace DimEquiv

/-- The shape rule of a named call. -/
inductive CallRule where
  /-- The dimensions of the first argument, reversed. -/
  | transpose
  /-- The dimensions given by the first argument. -/
  | creation
  /-- The dimensions of the first argument. -/
  | like
  /-- The dimensions given by the arguments after the first. -/
  | reshape
  /-- The matrix product of the first two arguments. -/
  | dot
  deriving DecidableEq

def CallRule.ofName? : String → Option CallRule
  | "transpose" => some transpose
  | "empty" | "zeros" | "ones" => some creation
  | "empty_like" | "zeros_like" | "ones_like" => some like
  | "reshape" => some reshape
  | "dot" => some dot
  | _ => none

namespace Operators

/-- The module whose attributes are the array functions. -/
def arrayModule : String := "numpy"

/-- The attribute of an array that is its transpose. -/
def transposeAttr : String := "T"

/-- The attribute of an array that is the tuple of its dimension sizes. -/
def shapeAttr : String := "shape"

def unary : List String := ["+", "-", "~"]

def binary : List String :=
  ["+", "-", "*", "/", "/?", "//", "%", "**", "<<", ">>", "&", "|", "^", "==", "!=", "<", "<=", ">",
    ">="]

def ufuncs : List String :=
  ["add", "subtract", "multiply", "divide", "logaddexp", "logaddexp2", "true_divide",
    "floor_divide", "negative", "power", "remainder", "fmod", "absolute", "rint", "sign",
    "conjugate", "exp", "exp2", "log", "log2", "log10", "expm1", "log1p", "sqrt", "square",
    "reciprocal", "sin", "cos", "tan", "arcsin", "arccos", "arctan", "arctan2", "hypot", "sinh",
    "cosh", "tanh", "arcsinh", "arccosh", "arctanh", "deg2rad", "rad2deg", "degrees", "radians",
    "bitwise_and", "bitwise_or", "bitwise_xor", "invert", "bitwise_not", "left_shift",
    "right_shift", "greater", "greater_equal", "less", "less_equal", "not_equal", "equal",
    "logical_and", "logical_or", "logical_xor", "logical_not", "maximum", "minimum", "fmax", "fmin",
    "isfinite", "isinf", "isnan", "signbit", "copysign", "nextafter", "ldexp", "floor", "ceil",
    "trunc", "spacing"]

end Operators

end DimEquiv
