import DimEquiv.Analysis
import DimEquiv.ShapeRule

/-!
# The unions of a run

Which classes an analysis unites, in the order in which it does. The log follows the analysis step by
step and asks at each step for the classes that are united there.
-/

namespace DimEquiv

namespace Broadcast

/-- The union that taking the class `c` into the dimension at hand makes, if it makes one. -/
def unions (b : Broadcast) (c : Int) : List (Int × Int) :=
  if c = Shape.noClass ∨ c = Shape.sizeOne ∨ c = b.candidate ∨ b.candidate = Shape.sizeOne then []
  else [(b.candidate, c)]

variable (isArray : Var → Bool)

def operandUnions (rank i : Nat) : List Var → Broadcast → List (Int × Int)
  | [], _ => []
  | x :: xs, b =>
    let c := operandClass isArray rank i b.store x
    b.unions c ++ operandUnions rank i xs (b.take c)

def dimensionUnions (operands : List Var) (rank : Nat) : List Nat → Broadcast → List (Int × Int)
  | [], _ => []
  | i :: is, b =>
    operandUnions isArray rank i operands
        { b with candidate := Shape.sizeOne, sawUnknown := false } ++
      dimensionUnions operands rank is (b.dimension isArray operands rank i)

end Broadcast

namespace Store

def broadcastUnions (isArray : Var → Bool) (operands : List Var) (s : Store) : List (Int × Int) :=
  match operands.filter isArray with
  | [] => []
  | arrays =>
    match arrays.mapM s.lookup with
    | .error _ => []
    | .ok shapes =>
      Broadcast.dimensionUnions isArray operands (maxRank shapes) (List.range (maxRank shapes))
        (.start s)

def productUnions (a b : Var) (s : Store) : List (Int × Int) :=
  match s.shapes.find? a, s.shapes.find? b with
  | some shape₁, some shape₂ =>
    match shape₁.getLast?, shape₂[contractedIndex shape₂]? with
    | some c₁, some c₂ =>
      if c₁ = Shape.noClass ∨ c₂ = Shape.noClass ∨ c₁ = c₂ then [] else [(c₁, c₂)]
    | _, _ => []
  | _, _ => []

end Store

/-- The unions that a request for a shape leads to. -/
def ShapeRule.unions (isArray : Var → Bool) : ShapeRule → Store → List (Int × Int)
  | elementwise operands, s => s.broadcastUnions isArray operands
  | product _ a b, s => s.productUnions a b
  | _, _ => []

namespace Pass

variable (options : Options)

/-- An instruction leads to unions when it assigns to an array. -/
def instructionUnions (i : Instruction) (s : State) : List (Int × Int) :=
  match i with
  | .assign a =>
    if ((s.types.find? a.target).bind StaticType.rank?).isSome then
      let scope := (s.observe a).scope options
      (scope.reading.ruleOf a.target a.value).unions scope.isArray s.store
    else []
  | _ => []

/-- The unions that analyzing instructions in order leads to, up to the first failure. -/
def unions : List Instruction → State → List (Int × Int)
  | [], _ => []
  | i :: is, s =>
    instructionUnions options i s ++
      match (instruction options i).run s with
      | (.ok _, t) => unions is t
      | (.error _, _) => []

end Pass

end DimEquiv
