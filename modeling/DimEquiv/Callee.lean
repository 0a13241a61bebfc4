import DimEquiv.Operators
import DimEquiv.Program

/-!
# Definitions

What the definition of a variable in a program says of calls of it.
-/

namespace DimEquiv

/-- What a called variable stands for. -/
inductive Callee where
  /-- A universal function. -/
  | map
  /-- A function of the array module, or a method with its receiver. -/
  | named (name : String) (receiver : Option Var)
  deriving DecidableEq

/-- What a variable with this value stands for in a call. -/
def Expr.callee? (isModule isArray : Var → Bool) : Expr → Option Callee
  | global _ ⟨.ufunc, _⟩ => some .map
  | getattr x attr =>
    if isModule x then some (.named attr none)
    else if isArray x then some (.named attr (some x))
    else none
  | _ => none

namespace Program

/-- The first value that the program assigns to a variable. -/
def definition? (p : Program) (x : Var) : Option Expr :=
  (p.assigns.find? fun a => a.target = x).map Assign.value

def isArrayModule (p : Program) (x : Var) : Bool :=
  match p.definition? x with
  | some (.global _ ⟨.moduleRef, name⟩) => name = Operators.arrayModule
  | _ => false

/-- What a called variable stands for, by its definition in the program. -/
def callee? (p : Program) (isArray : Var → Bool) (func : Var) : Option Callee :=
  match p.definition? func with
  | some (.global _ ⟨.ufunc, _⟩) => some .map
  | some (.getattr x attr) =>
    if p.isArrayModule x then some (.named attr none)
    else if isArray x then some (.named attr (some x))
    else none
  | _ => none

theorem callee?_eq (p : Program) (isArray : Var → Bool) (func : Var) :
    p.callee? isArray func =
      (p.definition? func).bind (Expr.callee? p.isArrayModule isArray) := by
  unfold callee?
  split
  · rename_i h
    rw [h]
    rfl
  · rename_i h
    rw [h]
    rfl
  · rename_i hufunc hgetattr
    cases h : p.definition? func with
    | none => rfl
    | some e =>
      rw [Option.bind_some]
      unfold Expr.callee?
      split
      · exact absurd h (hufunc _ _)
      · exact absurd h (hgetattr _ _)
      · rfl

end Program

end DimEquiv
