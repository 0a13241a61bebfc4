import DimEquiv.Table

/-!
# Static types of variables

A type environment gives variables their static types. The analysis asks of it which variables are
arrays, with how many dimensions, and which are integers or tuples of integers.
-/

namespace DimEquiv

/-- A variable is its name. -/
abbrev Var := String

/-- The element type of an array. -/
inductive ScalarType where
  | int8 | int16 | int32 | int64
  | uint8 | uint16 | uint32 | uint64
  | float32 | float64
  | bool
  deriving DecidableEq

/-- The memory order of an array's elements. -/
inductive Layout where
  | rowMajor
  | columnMajor
  | any
  deriving DecidableEq

/-- The static type of a variable. -/
inductive StaticType where
  | array (ndim : Nat) (dtype : ScalarType) (layout : Layout)
  | integer (bitwidth : Nat) (signed : Bool)
  | float (bitwidth : Nat)
  | boolean
  | uniTuple (item : StaticType) (count : Nat)
  | tuple (items : List StaticType)
  | moduleRef (name : String)
  | functionRef (name : String)
  | noneType
  | opaqueType (name : String)

namespace StaticType

instance : Inhabited StaticType := ⟨noneType⟩

def int64 : StaticType := integer 64 true

def float64 : StaticType := float 64

/-- A row-major array type. -/
def arrayOf (ndim : Nat) (dtype : ScalarType := .float64) : StaticType := array ndim dtype .rowMajor

def isArray : StaticType → Bool
  | array .. => true
  | _ => false

def isInteger : StaticType → Bool
  | integer .. => true
  | _ => false

/-- The number of dimensions of an array type. -/
def rank? : StaticType → Option Nat
  | array ndim _ _ => some ndim
  | _ => none

/-- The number of dimensions, zero for a type that is no array. -/
def rank (type : StaticType) : Nat := type.rank?.getD 0

/-- The length of a tuple type whose items are all integers. -/
def integerTupleLength? : StaticType → Option Nat
  | uniTuple item count => if item.isInteger then some count else none
  | tuple items => if items.all isInteger then some items.length else none
  | _ => none

@[simp] theorem rank_array (ndim : Nat) (dtype : ScalarType) (layout : Layout) :
    (array ndim dtype layout).rank = ndim := rfl

theorem isArray_iff (type : StaticType) : type.isArray = true ↔ type.rank? = some type.rank := by
  cases type <;> simp [isArray, rank?, rank]

@[simp] theorem integerTupleLength?_uniTuple_int64 (count : Nat) :
    (uniTuple int64 count).integerTupleLength? = some count := rfl

end StaticType

/-- What type inference knows of each variable. -/
abbrev Types := Table Var StaticType

namespace Types

def isArray (types : Types) (x : Var) : Bool := (types.find? x).any StaticType.isArray

theorem isArray_iff (types : Types) (x : Var) :
    types.isArray x = true ↔ ∃ type, types.find? x = some type ∧ type.isArray = true := by
  simp [isArray, Option.any_eq_true]

theorem isArray_of_find? {types : Types} {x : Var} {type : StaticType}
    (h : types.find? x = some type) : types.isArray x = type.isArray := by
  simp [isArray, h]

theorem contains_of_isArray {types : Types} {x : Var} (h : types.isArray x = true) :
    types.contains x = true := by
  obtain ⟨type, htype, -⟩ := (types.isArray_iff x).mp h
  rw [Table.contains, htype]
  rfl

end Types

end DimEquiv
