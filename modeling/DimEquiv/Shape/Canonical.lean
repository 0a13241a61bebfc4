import DimEquiv.Shape
import DimEquiv.Table
import DimEquiv.Text.UnitOrder

/-!
# Canonical numbering of classes

Two collections of shapes say the same about equal dimensions when one arises from the other by
renaming classes. Numbering the classes `1, 2, …` by first appearance, names taken in sorted order,
gives every such family one representative. The size-one class and unknown dimensions keep their
marks, as do all other ids that are not positive.
-/

namespace DimEquiv.Shape

/-- The shapes of a table in the order of their names. -/
def sorted (shapes : Table String Shape) : List (String × Shape) :=
  (UnitOrder.sort shapes.keys).map fun name => (name, (shapes.find? name).getD [])

/-- The positive classes in order of first appearance. -/
def appearance (entries : List (String × Shape)) : List Int :=
  ((entries.flatMap Prod.snd).filter fun c => 0 < c).eraseDups

/-- The position of a positive class in the order of appearance, counted from one. -/
def renumber (order : List Int) (c : Int) : Int :=
  if c ≤ sizeOne then c else order.idxOf c + 1

def canonical (shapes : Table String Shape) : List (String × Shape) :=
  let entries := sorted shapes
  let order := appearance entries
  entries.map fun (name, shape) => (name, shape.map (renumber order))

theorem renumber_of_nonpos (order : List Int) {c : Int} (h : c ≤ 0) :
    renumber order c = c :=
  if_pos h

/-- Positive classes stay positive. -/
theorem renumber_pos_iff (order : List Int) (c : Int) :
    0 < renumber order c ↔ 0 < c := by
  unfold renumber sizeOne
  split <;> omega

theorem map_fst_canonical (shapes : Table String Shape) :
    (canonical shapes).map Prod.fst = UnitOrder.sort shapes.keys := by
  simp [canonical, sorted, List.map_map, Function.comp_def]

end DimEquiv.Shape
