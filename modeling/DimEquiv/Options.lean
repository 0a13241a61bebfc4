import DimEquiv.NameSet
import DimEquiv.Operators

/-!
# Options of an analysis

Which names count as elementwise operations, and whether a run is traced. What a request leaves open
is filled in from the recognized operations and from the environment.
-/

namespace DimEquiv

structure Options where
  debug : Bool
  ufuncs : NameSet
  unaryOps : NameSet
  binaryOps : NameSet
  deriving DecidableEq

/-- Options as asked for: what is absent takes its default, and an empty list is an empty set. -/
structure OptionRequest where
  debug : Option Bool := none
  ufuncs : Option (List String) := none
  unaryOps : Option (List String) := none
  binaryOps : Option (List String) := none

namespace Options

/-- The value of the environment variable that turns tracing on. -/
def debugValue : String := "1"

/-- Fills a request in; `environment` is the value of the tracing variable, if it is set. -/
def resolve (environment : Option String) (request : OptionRequest) : Options where
  debug := request.debug.getD (environment = some debugValue)
  ufuncs := .ofList (request.ufuncs.getD Operators.ufuncs)
  unaryOps := .ofList (request.unaryOps.getD Operators.unary)
  binaryOps := .ofList (request.binaryOps.getD Operators.binary)

def standard : Options := resolve none {}

instance : Inhabited Options := ⟨standard⟩

end Options

end DimEquiv
