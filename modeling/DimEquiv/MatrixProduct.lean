import DimEquiv.Store

/-!
# Matrix products

A matrix product contracts the last dimension of its first operand with the second to last dimension
of its second operand, or with the only one. The two are made equal unless one is unknown, and the
result has the dimensions that are left.
-/

namespace DimEquiv.Store

/-- The contracted dimension of the second operand. -/
def contractedIndex (shape : Shape) : Nat := shape.length - 2

/-- The dimensions of a product of arrays of the given shapes. -/
def productShape (shape₁ shape₂ : Shape) : Shape :=
  shape₁.dropLast ++ shape₂.eraseIdx (contractedIndex shape₂)

/-- The shape of the matrix product of `a` and `b`. Both operands are read again after their
contracted dimensions have become one class, which may stand in other dimensions too. -/
def matrixProduct (callName : String) (a b : Var) (s : Store) :
    Except ShapeError (Shape × Store) := do
  let shape₁ ← s.lookup a
  let shape₂ ← s.lookup b
  match shape₁.getLast?, shape₂[contractedIndex shape₂]? with
  | some c₁, some c₂ =>
    let s' := if c₁ = Shape.noClass ∨ c₂ = Shape.noClass then s else (s.equate c₁ c₂).2
    return (productShape (← s'.lookup a) (← s'.lookup b), s')
  | _, _ => .error (.unsupported (.zeroDimensional callName))

theorem length_productShape {shape₁ shape₂ : Shape} (h₁ : shape₁ ≠ []) (h₂ : shape₂ ≠ []) :
    (productShape shape₁ shape₂).length + 2 = shape₁.length + shape₂.length := by
  have := List.length_pos_iff.mpr h₁
  have := List.length_pos_iff.mpr h₂
  simp only [productShape, contractedIndex, List.length_append, List.length_dropLast,
    List.length_eraseIdx]
  split <;> omega

end DimEquiv.Store
