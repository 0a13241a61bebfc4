import DimEquiv.State

/-!
# Size values for the dimensions of an array

Every dimension of an assigned array gets a run-time value equal to its length. The representative
of its class serves, if there is one; else a read of the dimension that the program contains; else a
new read behind the assignment. A value that was found in either of the last two ways comes to
represent the class.
-/

namespace DimEquiv

/-- New reads, and the size value of each dimension. -/
structure SizeReads where
  instructions : List Assign
  sizes : List SizeValue

namespace SizeRead

/-- Three assignments that read the length of dimension `dim` off the shape tuple of an array of
`rank` dimensions, and the variable that holds it. -/
def generate (array : Var) (rank dim : Nat) (loc : Option Loc) :
    StateM State (List Assign × Var) := do
  let tuple ← State.declare (array ++ "_sh_attr" ++ toString dim) (.uniTuple .int64 rank)
  let index ← State.declare ("$const" ++ array ++ toString dim) .int64
  let size ← State.declare (array ++ "size" ++ toString dim) .int64
  let tupleSite ← State.newSite
  let indexSite ← State.newSite
  let sizeSite ← State.newSelfResolvedSite
  return ([⟨tuple, .getattr array Operators.shapeAttr, loc, tupleSite⟩,
    ⟨index, .const (.number (.int dim)), loc, indexSite⟩,
    ⟨size, .staticGetitem tuple dim (some index), loc, sizeSite⟩], size)

/-- The variable that holds the length of a dimension, and the reads that it needs. -/
def fetchOrGenerate (array : Var) (rank dim : Nat) (loc : Option Loc) :
    StateM State (List Assign × Var) := do
  match (← get).symbols.fetch? array dim with
  | some x => return ([], x)
  | none => generate array rank dim loc

/-- The size value of dimension `dim`, of class `c`. -/
def dimension (array : Var) (rank : Nat) (loc : Option Loc) (c : Int) (dim : Nat) :
    StateM State (List Assign × SizeValue) := do
  let s ← get
  match if c = Shape.noClass then none else s.store.representative? c with
  | some size => return ([], size)
  | none =>
    let (reads, x) ← fetchOrGenerate array rank dim loc
    modify fun s => { s with store := s.store.represent c (.var x) }
    return (reads, .var x)

/-- The size values of the dimensions from `dim` on, of the given classes. -/
def dimensions (array : Var) (rank : Nat) (loc : Option Loc) (dim : Nat) :
    Shape → StateM State SizeReads
  | [] => return ⟨[], []⟩
  | c :: cs => do
    let (reads, size) ← dimension array rank loc c dim
    let rest ← dimensions array rank loc (dim + 1) cs
    return ⟨reads ++ rest.instructions, size :: rest.sizes⟩

/-- The size values of an array of the given shape. -/
def ofShape (array : Var) (shape : Shape) (loc : Option Loc) : StateM State SizeReads :=
  dimensions array shape.length loc 0 shape

end SizeRead

end DimEquiv
