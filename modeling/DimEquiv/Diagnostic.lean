import DimEquiv.Error
import DimEquiv.Shape

/-!
# Diagnostics

What an analysis reports about an assignment whose target loses its shape.
-/

namespace DimEquiv

inductive Diagnostic where
  /-- No rule covers the expression, of kind `op`, assigned to the target. -/
  | unsupportedOperation (target : Var) (op message : String)
  | unsupportedCall (target : Var) (callName : String)
  /-- The target was assigned two different shapes. -/
  | conflict (target : Var) (previous incoming : Shape)
  deriving DecidableEq

namespace Diagnostic

def target : Diagnostic → Var
  | unsupportedOperation target _ _ => target
  | unsupportedCall target _ => target
  | conflict target _ _ => target

/-- The classes of a shape between brackets, without blanks. -/
def bracketed (shape : Shape) : String := "[" ++ ",".intercalate (shape.map toString) ++ "]"

def text : Diagnostic → String
  | unsupportedOperation target _ message =>
    "can't find shape classes for " ++ target ++ ": " ++ message
  | unsupportedCall target callName =>
    "unknown array call " ++ callName ++ " assigned to " ++ target
  | conflict target previous incoming =>
    "incompatible array shapes in control flow for " ++ target ++ ": " ++ bracketed previous ++
      " vs " ++ bracketed incoming

/-- The line that announces a diagnostic. -/
def line (d : Diagnostic) : String := "[array-analysis] " ++ d.text

end Diagnostic

/-- The report of an expression without a rule. -/
def Unsupported.diagnostic (target : Var) : Unsupported → Diagnostic
  | unknownCall callName => .unsupportedCall target callName
  | cause => .unsupportedOperation target cause.op cause.message

@[simp] theorem Unsupported.target_diagnostic (target : Var) (cause : Unsupported) :
    (cause.diagnostic target).target = target := by
  cases cause <;> rfl

end DimEquiv
