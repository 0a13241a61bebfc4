import DimEquiv.NameSet
import DimEquiv.Operators
import DimEquiv.Program
import DimEquiv.Store

/-!
# What variables stand for

A call reaches the analysis as several assignments: one fetches the array module, one an attribute
of it, one builds the tuple that the call is given. The symbol tables keep what each of these tells
about its target. They also list the reads of dimension sizes that a program already contains.
-/

namespace DimEquiv

/-- A method of an array, fetched but not yet called. -/
structure MethodCall where
  method : String
  receiver : Var
  deriving DecidableEq

structure Symbols where
  /-- Variables that hold the array module. -/
  arrayModules : NameSet
  /-- Variables that hold a universal function. -/
  mapCalls : NameSet
  /-- Variables that hold a function of the array module, with its name. -/
  moduleCalls : Table Var String
  /-- Variables that hold a method of an array. -/
  methodCalls : Table Var MethodCall
  /-- Variables that hold a tuple, with its items. -/
  tuples : Table Var (List SizeValue)
  /-- For each array, the variables that hold the size of its dimensions. -/
  fetches : Table Var (Table Int Var)

namespace Symbols

def empty : Symbols := ⟨.empty, .empty, .empty, .empty, .empty, .empty⟩

instance : Inhabited Symbols := ⟨empty⟩

/-- Keeps what an assignment tells about its target. -/
def observe (isArray : Var → Bool) (t : Symbols) (a : Assign) : Symbols :=
  match a.value with
  | .global _ ⟨.ufunc, _⟩ => { t with mapCalls := t.mapCalls.insert a.target }
  | .global _ ⟨.moduleRef, name⟩ =>
    if name = Operators.arrayModule then { t with arrayModules := t.arrayModules.insert a.target }
    else t
  | .getattr x attr =>
    if x ∈ t.arrayModules then { t with moduleCalls := t.moduleCalls.insert a.target attr }
    else if isArray x then { t with methodCalls := t.methodCalls.insert a.target ⟨attr, x⟩ }
    else t
  | .buildTuple items => { t with tuples := t.tuples.insert a.target (items.map .var) }
  | .const (.list xs) => { t with tuples := t.tuples.insert a.target (xs.map .literal) }
  | _ => t

/-- The variables that hold the shape tuple of an array, with that array. A variable that is
assigned several shape tuples counts for the last. -/
def shapeTuples (assigns : List Assign) : Table Var Var :=
  assigns.foldl
    (fun t a =>
      match a.value with
      | .getattr x attr => if attr = Operators.shapeAttr then t.insert a.target x else t
      | _ => t)
    .empty

/-- The variable found to hold the size of a dimension, if one is known. -/
def fetch? (t : Symbols) (array : Var) (dim : Int) : Option Var :=
  (t.fetches.find? array).bind fun dims => dims.find? dim

/-- Adds a read of a dimension size; the first read of a dimension stays. -/
def addFetch (t : Symbols) (array : Var) (dim : Int) (x : Var) : Symbols :=
  let dims := (t.fetches.find? array).getD .empty
  let dims := if dims.contains dim then dims else dims.insert dim x
  { t with fetches := t.fetches.insert array dims }

/-- Lists the reads of dimension sizes in a program: items of shape tuples, wherever they stand. -/
def scan (t : Symbols) (p : Program) : Symbols :=
  let tuples := shapeTuples p.assigns
  p.assigns.foldl
    (fun t a =>
      match a.value with
      | .staticGetitem x index _ =>
        match tuples.find? x with
        | some array => t.addFetch array index a.target
        | none => t
      | _ => t)
    t

theorem fetch?_addFetch (t : Symbols) (array : Var) (dim : Int) (x : Var) (array' : Var)
    (dim' : Int) :
    (t.addFetch array dim x).fetch? array' dim' =
      if array = array' ∧ dim = dim' then some ((t.fetch? array dim).getD x)
      else t.fetch? array' dim' := by
  by_cases ha : array = array'
  · subst ha
    by_cases hd : dim = dim'
    · subst hd
      cases hf : t.fetches.find? array with
      | none => simp [addFetch, fetch?, hf, Table.contains]
      | some dims =>
        cases hx : dims.find? dim <;> simp [addFetch, fetch?, hf, hx, Table.contains]
    · cases hf : t.fetches.find? array with
      | none => simp [addFetch, fetch?, hf, hd, Table.contains]
      | some dims =>
        cases hx : dims.find? dim <;> simp [addFetch, fetch?, hf, hx, hd, Table.contains]
  · simp [addFetch, fetch?, ha]

end Symbols

end DimEquiv
