/-!
# Shapes as vectors of dimension classes

A class, named by an integer, stands for all dimensions proven equal in length. A shape lists the
class of each dimension, outermost first.
-/

namespace DimEquiv

/-- The classes of an array's dimensions. -/
abbrev Shape := List Int

namespace Shape

/-- The class of dimensions known to have length one, padding included. -/
abbrev sizeOne : Int := 0

/-- The mark of a dimension about which nothing is proven. It is no class: two dimensions that carry
it need not be equal. -/
abbrev noClass : Int := -1

/-- The shape of the given rank about which nothing is proven. -/
def unknown (rank : Nat) : Shape := List.replicate rank noClass

/-- Dimensions of length one in front, up to the given rank, so that the last dimensions line up. -/
def padLeading (rank : Nat) (shape : Shape) : Shape :=
  List.replicate (rank - shape.length) sizeOne ++ shape

/-- One class in place of several. -/
def rename (sources : List Int) (target : Int) (shape : Shape) : Shape :=
  shape.map fun c => if c ∈ sources then target else c

/-- The class of a dimension, if the shape has that dimension. -/
def dim? (shape : Shape) (i : Int) : Option Int :=
  if 0 ≤ i then shape[i.toNat]? else none

@[simp] theorem length_unknown (rank : Nat) : (unknown rank).length = rank :=
  List.length_replicate

theorem eq_noClass_of_mem {rank : Nat} {c : Int} (h : c ∈ unknown rank) : c = noClass :=
  List.eq_of_mem_replicate h

@[simp] theorem length_padLeading (rank : Nat) (shape : Shape) :
    (padLeading rank shape).length = max rank shape.length := by
  simp only [padLeading, List.length_append, List.length_replicate]
  omega

theorem padLeading_of_le {rank : Nat} {shape : Shape} (h : rank ≤ shape.length) :
    padLeading rank shape = shape := by
  simp [padLeading, Nat.sub_eq_zero_of_le h]

@[simp] theorem length_rename (sources : List Int) (target : Int) (shape : Shape) :
    (shape.rename sources target).length = shape.length :=
  List.length_map _

@[simp] theorem dim?_natCast (shape : Shape) (i : Nat) : shape.dim? i = shape[i]? := by
  simp [dim?]

end Shape

end DimEquiv
