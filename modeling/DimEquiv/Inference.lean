import DimEquiv.Attempt
import DimEquiv.Broadcast
import DimEquiv.MatrixProduct
import DimEquiv.Options
import DimEquiv.Symbols

/-!
# Shape inference

The shape that an expression gives to the array it is assigned to. Inference may allocate and unite
classes and give new classes their size values; it records no shape. Whatever can fail is looked up
before any two classes are united.
-/

namespace DimEquiv

/-- What inference reads and never changes. -/
structure Scope where
  types : Types
  symbols : Symbols
  options : Options

/-- A step of inference. -/
abbrev Infer (α : Type) : Type := Attempt ShapeError Store α

namespace Scope

def isArray (scope : Scope) (x : Var) : Bool := scope.types.isArray x

def typeOf (scope : Scope) (x : Var) : Except ShapeError StaticType :=
  match scope.types.find? x with
  | some type => .ok type
  | none => .error (.missingType x)

/-- The declared number of dimensions, zero for a variable that is no array. -/
def rankOf (scope : Scope) (x : Var) : Except ShapeError Nat :=
  (scope.typeOf x).map StaticType.rank

/-- Elementwise combination of the operands. -/
def broadcast (scope : Scope) (operands : List Var) : Infer Shape :=
  .ofExcept (Store.broadcast scope.isArray operands)

end Scope

namespace Infer

def shapeOf (x : Var) : Infer Shape := .ofReader fun s => s.lookup x

def unsupported {α : Type} (cause : Unsupported) : Infer α := .fail (.unsupported cause)

/-- New classes for dimensions whose sizes are known, or are not. -/
def newClasses (sizes : List (Option SizeValue)) : Infer Shape := .ofState (Store.addClasses sizes)

/-- The `index`-th argument of a call. -/
def argument (args : List Var) (index : Nat) (callName : String) : Infer Var :=
  match args[index]? with
  | some x => pure x
  | none => .fail (.missingArgument callName index)

end Infer

open Infer

namespace Scope

/-- One new class for every dimension of an array parameter, or the shape it has already. -/
def inferArg (scope : Scope) (name : Var) : Infer Shape := do
  let type ← Attempt.ofReader fun _ => scope.typeOf name
  match type.rank? with
  | none => .fail (.notArrayParameter name)
  | some rank =>
    if ← Attempt.ofReader fun s => .ok (s.has name) then shapeOf name
    else newClasses (List.replicate rank none)

/-- A dimension given by a variable of its own, which must be an integer. -/
def classOfInteger (scope : Scope) (callName : String) (item : Var) : Infer Int := do
  let type ← Attempt.ofReader fun _ => scope.typeOf item
  if type.isInteger then .ofState fun s => s.addClass (some (.var item))
  else unsupported (.shapeElement callName item)

/-- The sizes of a tuple of so many items; an item of which nothing is known has none. -/
def tupleSizes (scope : Scope) (tuple : Var) (count : Nat) : List (Option SizeValue) :=
  let items := (scope.symbols.tuples.find? tuple).getD []
  (List.range count).map fun i => items[i]?

/-- The dimensions given by one variable: an integer, or a tuple of integers. -/
def shapeOfArgument (scope : Scope) (callName : String) (arg : Var) : Infer Shape := do
  let type ← Attempt.ofReader fun _ => scope.typeOf arg
  if type.isInteger then newClasses [some (.var arg)]
  else
    match type.integerTupleLength? with
    | some count => newClasses (scope.tupleSizes arg count)
    | none => unsupported (.shapeArgument callName arg)

/-- The dimensions given by the shape arguments of a call: one integer, one tuple, or several
integers. -/
def shapeOfArguments (scope : Scope) (callName : String) : List Var → Infer Shape
  | [] => .fail (.missingShapeArgument callName)
  | [arg] => scope.shapeOfArgument callName arg
  | args => args.mapM (scope.classOfInteger callName)

/-- The shape of a call by its name. The receiver of a method is its first argument. -/
def inferNamedCall (scope : Scope) (callName : String) (args : List Var) : Infer Shape :=
  match CallRule.ofName? callName with
  | some .transpose => do List.reverse <$> shapeOf (← argument args 0 callName)
  | some .creation => scope.shapeOfArguments callName (args.take 1)
  | some .like => do shapeOf (← argument args 0 callName)
  | some .reshape => scope.shapeOfArguments callName (args.drop 1)
  | some .dot =>
    match args with
    | [a, b] | [a, b, _] => .ofExcept (Store.matrixProduct callName a b)
    | _ => .fail (.argumentCount callName args.length)
  | none =>
    if callName ∈ scope.options.ufuncs then scope.broadcast args
    else unsupported (.unknownCall callName)

/-- The shape of a call of a variable: a universal function, then a function of the array module,
then a method of an array. A scalar in front of arrays is broadcast against them. -/
def inferCall (scope : Scope) (func : Var) (args : List Var) : Infer Shape :=
  if func ∈ scope.symbols.mapCalls then do
    let first ← argument args 0 func
    if scope.isArray first then shapeOf first else scope.broadcast args
  else
    match scope.symbols.moduleCalls.find? func with
    | some name => scope.inferNamedCall name args
    | none =>
      match scope.symbols.methodCalls.find? func with
      | some call => scope.inferNamedCall call.method (call.receiver :: args)
      | none => unsupported (.callTarget func)

/-- The shape that `e` gives to `target`. -/
def infer (scope : Scope) (target : Var) (e : Expr) : Infer Shape :=
  match e with
  | .arg _ name => scope.inferArg name
  | .var x => shapeOf x
  | .unary fn x =>
    if fn ∈ scope.options.unaryOps then shapeOf x else unsupported (.unaryOperator fn)
  | .binop fn lhs rhs =>
    if fn ∈ scope.options.binaryOps then scope.broadcast [lhs, rhs]
    else unsupported (.binaryOperator e.op fn)
  | .inplaceBinop _ fn lhs rhs =>
    if fn ∈ scope.options.binaryOps then scope.broadcast [lhs, rhs]
    else unsupported (.binaryOperator e.op fn)
  | .fused tree => scope.broadcast tree.vars
  | .cast x => shapeOf x
  | .getattr x attr =>
    if attr = Operators.transposeAttr ∧ scope.isArray x then List.reverse <$> shapeOf x
    else unsupported (.getattr attr x)
  | .call func args _ => scope.inferCall func args
  | .global .. | .const _ | .buildTuple _ | .staticGetitem .. =>
    unsupported (.production e.op target)
  | .other op => .fail (.unhandledExpression op)

end Scope

end DimEquiv
