import DimEquiv.Store

/-!
# Broadcasting

Operands are aligned from their last dimension, and an operand that is no array has no dimensions.
In each dimension all classes other than the size-one class are made equal. An unknown dimension is
made equal to nothing: it leaves the result unknown there, and the classes beside it are united all
the same.
-/

namespace DimEquiv

/-- How far a broadcast has come. -/
structure Broadcast where
  store : Store
  /-- The finished dimensions of the result. -/
  done : Shape
  /-- The class of the dimension at hand, so far. -/
  candidate : Int
  sawUnknown : Bool

namespace Broadcast

/-- The class of an operand in dimension `i` of the result. -/
def operandClass (isArray : Var → Bool) (rank i : Nat) (s : Store) (x : Var) : Int :=
  let shape := if isArray x then (s.shapes.find? x).getD [] else []
  ((Shape.padLeading rank shape)[i]?).getD Shape.sizeOne

/-- Takes one class into the dimension at hand. -/
def take (b : Broadcast) (c : Int) : Broadcast :=
  if c = Shape.noClass then { b with sawUnknown := true }
  else if c = Shape.sizeOne ∨ c = b.candidate then b
  else if b.candidate = Shape.sizeOne then { b with candidate := c }
  else
    let (merged, store) := b.store.unite b.candidate c
    { b with store, done := b.done.rename [b.candidate, c] merged, candidate := merged }

/-- Takes every operand into dimension `i`. Each is read when its turn comes, so that it shows the
unions made before. -/
def dimension (isArray : Var → Bool) (operands : List Var) (rank : Nat) (b : Broadcast) (i : Nat) :
    Broadcast :=
  let start := { b with candidate := Shape.sizeOne, sawUnknown := false }
  let b' := operands.foldl (fun b x => b.take (operandClass isArray rank i b.store x)) start
  { b' with done := b'.done ++ [if b'.sawUnknown then Shape.noClass else b'.candidate] }

def start (s : Store) : Broadcast := ⟨s, [], Shape.sizeOne, false⟩

theorem length_done_take (b : Broadcast) (c : Int) : (b.take c).done.length = b.done.length := by
  unfold take
  split
  · rfl
  · split
    · rfl
    · split <;> simp

/-- Each dimension adds one class to the result. -/
theorem length_done_dimension (isArray : Var → Bool) (operands : List Var) (rank : Nat)
    (b : Broadcast) (i : Nat) :
    (b.dimension isArray operands rank i).done.length = b.done.length + 1 := by
  have h (b : Broadcast) :
      (operands.foldl (fun b x => b.take (operandClass isArray rank i b.store x)) b).done.length =
        b.done.length := by
    induction operands generalizing b with
    | nil => rfl
    | cons x xs ih => rw [List.foldl_cons, ih, length_done_take]
  simp [dimension, h]

end Broadcast

namespace Store

/-- The largest number of dimensions. -/
def maxRank (shapes : List Shape) : Nat := (shapes.map List.length).foldl max 0

/-- The shape of the elementwise combination of the operands, of which `isArray` tells the arrays.
It fails before any union is made, when no operand is an array or one has no recorded shape. -/
def broadcast (isArray : Var → Bool) (operands : List Var) (s : Store) :
    Except ShapeError (Shape × Store) :=
  match operands.filter isArray with
  | [] => .error (.noArrayOperand operands)
  | arrays => do
    let shapes ← arrays.mapM s.lookup
    let rank := maxRank shapes
    let b := (List.range rank).foldl (Broadcast.dimension isArray operands rank) (.start s)
    return (b.done, b.store)

end Store

end DimEquiv
