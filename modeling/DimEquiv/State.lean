import DimEquiv.CallTypes
import DimEquiv.Diagnostic
import DimEquiv.FreshName
import DimEquiv.Inference

/-!
# The state of an analysis

All that an analysis reads and changes besides the program: shapes and classes, symbol tables,
diagnostics, and the types and call signatures, which gain entries for new variables.
-/

namespace DimEquiv

structure State where
  store : Store
  symbols : Symbols
  /-- What was reported, oldest first. -/
  diagnostics : List Diagnostic
  types : Types
  callTypes : CallTypes
  /-- Where the search for the next fresh name starts. -/
  nextName : Nat

namespace State

/-- Nothing is known beyond the types. -/
def initial (types : Types) (callTypes : CallTypes) : State :=
  ⟨.empty, .empty, [], types, callTypes, 1⟩

instance : Inhabited State := ⟨initial .empty default⟩

def scope (s : State) (options : Options) : Scope := ⟨s.types, s.symbols, options⟩

def report (s : State) (d : Diagnostic) : State := { s with diagnostics := s.diagnostics ++ [d] }

/-- Observes an assignment, taking for arrays what the types say. -/
def observe (s : State) (a : Assign) : State :=
  { s with symbols := s.symbols.observe s.types.isArray a }

def setTuple (s : State) (x : Var) (items : List SizeValue) : State :=
  { s with symbols := { s.symbols with tuples := s.symbols.tuples.insert x items } }

/-- Lists the reads of dimension sizes that a program contains. -/
def scan (s : State) (p : Program) : State := { s with symbols := s.symbols.scan p }

/-- A name that has no type yet. -/
def fresh (stem : String) (s : State) : Var × State :=
  let n := FreshName.number s.types stem s.nextName
  (FreshName.numbered stem n, { s with nextName := n + 1 })

/-- A new variable of the given type. -/
def declare (stem : String) (type : StaticType) (s : State) : Var × State :=
  let (x, s') := s.fresh stem
  (x, { s' with types := s'.types.insert x type })

/-- A site for a new expression. -/
def newSite (s : State) : Nat × State :=
  (s.callTypes.next, { s with callTypes := s.callTypes.skip })

/-- A site for a new expression that later stages resolve on their own. -/
def newSelfResolvedSite (s : State) : Nat × State :=
  (s.callTypes.next, { s with callTypes := s.callTypes.insert s.callTypes.next none })

/-- Runs inference on the store. -/
def onStore {α : Type} (x : Infer α) : Attempt ShapeError State α := fun s =>
  let (answer, store) := x.run s.store
  (answer, { s with store := store })

@[simp] theorem run_onStore {α : Type} (x : Infer α) (s : State) :
    (onStore x).run s = ((x.run s.store).1, { s with store := (x.run s.store).2 }) := rfl

end State

end DimEquiv
