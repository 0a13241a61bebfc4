import DimEquiv.State
import DimEquiv.Shape.Canonical

/-!
# Findings

What a finished analysis knows of shapes, classes and sizes.
-/

namespace DimEquiv

/-- The tables and the diagnostics that a finished analysis leaves. -/
structure Findings where
  shapes : Table Var Shape
  classSizes : Table Int (List SizeValue)
  sizeVars : Table Var (List SizeValue)
  diagnostics : List Diagnostic

namespace Findings

def ofState (s : State) : Findings :=
  ⟨s.store.shapes, s.store.classSizes, s.store.sizeVars, s.diagnostics⟩

def shapeOf? (f : Findings) (x : Var) : Option Shape := f.shapes.find? x

def sizeVarsOf? (f : Findings) (x : Var) : Option (List SizeValue) := f.sizeVars.find? x

def sizesOf (f : Findings) (c : Int) : List SizeValue := (f.classSizes.find? c).getD []

/-- The class of a dimension, if the dimension exists and is known. -/
def classOf? (f : Findings) (x : Var) (i : Int) : Option Int :=
  ((f.shapeOf? x).bind fun shape => shape.dim? i).filter fun c => c ≠ Shape.noClass

/-- Whether two dimensions are proven equal. -/
def equivalentDims (f : Findings) (a : Var) (i : Int) (b : Var) (j : Int) : Bool :=
  match f.classOf? a i with
  | some c => f.classOf? b j = some c
  | none => false

/-- The shapes up to the choice of class ids. -/
def canonical (f : Findings) : List (Var × Shape) := Shape.canonical f.shapes

theorem equivalentDims_iff (f : Findings) (a : Var) (i : Int) (b : Var) (j : Int) :
    f.equivalentDims a i b j = true ↔
      ∃ c, f.classOf? a i = some c ∧ f.classOf? b j = some c := by
  unfold equivalentDims
  split <;> simp_all

theorem equivalentDims_comm (f : Findings) (a : Var) (i : Int) (b : Var) (j : Int) :
    f.equivalentDims a i b j = f.equivalentDims b j a i := by
  rw [Bool.eq_iff_iff, equivalentDims_iff, equivalentDims_iff]
  exact exists_congr fun _ => and_comm

end Findings

end DimEquiv
