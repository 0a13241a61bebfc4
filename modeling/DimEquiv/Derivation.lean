import DimEquiv.Dimension
import DimEquiv.ShapeRule

/-!
# Where dimensions come from

A rule derives each dimension of its result from dimensions of the arrays that it reads. Which these
are depends on the numbers of dimensions alone, not on the classes at hand.
-/

namespace DimEquiv

/-- What a rule makes of the dimensions that it reads. -/
inductive Derivation where
  | failure
  /-- Nothing is known of the result. -/
  | unknown
  /-- A dimension of the result has the class of the dimensions listed for it, which become one, or a
  new class when none is listed. The dimensions in each of `joined` become one as well. -/
  | shape (dims joined : List (List Dimension))

namespace Derivation

/-- The dimensions that become one. -/
def sources : Derivation → List (List Dimension)
  | shape dims joined => dims ++ joined
  | _ => []

/-- The dimensions that become one, with those of the array that is given the result. -/
def groups (target : Var) : Derivation → List (List Dimension)
  | shape dims joined => dims.mapIdx (fun i listed => ⟨target, i⟩ :: listed) ++ joined
  | _ => []

/-- Dimension `i` of an array of the declared rank is unknown once the dimensions in `hidden` are. A
result of another rank hides all of them. -/
def Hides (hidden : Dimension → Prop) (rank i : Nat) : Derivation → Prop
  | failure => False
  | unknown => True
  | shape dims _ =>
    dims.length = rank → ∃ listed, dims[i]? = some listed ∧ ∃ d ∈ listed, hidden d

end Derivation

/-- The dimensions of an array. -/
def dimensionsOf (x : Var) (rank : Nat) : List Dimension := (List.range rank).map (Dimension.mk x)

/-- The dimensions that stand in dimension `i` of a result of `rank` dimensions when arrays are
aligned from their last ones. -/
def alignedDimensions (rank? : Var → Option Nat) (rank i : Nat) (arrays : List Var) :
    List Dimension :=
  arrays.flatMap fun x =>
    let n := (rank? x).getD 0
    if rank ≤ i + n then [⟨x, i + n - rank⟩] else []

/-- The largest number of dimensions of the arrays. -/
def largestRank (rank? : Var → Option Nat) (arrays : List Var) : Nat :=
  (arrays.map fun x => (rank? x).getD 0).foldl max 0

/-- The aligned dimensions, for each dimension of the result. -/
def alignment (rank? : Var → Option Nat) (arrays : List Var) : List (List Dimension) :=
  (List.range (largestRank rank? arrays)).map fun i =>
    alignedDimensions rank? (largestRank rank? arrays) i arrays

namespace ShapeRule

/-- What the rule derives from arrays with the given numbers of dimensions. -/
def derive (isArray : Var → Bool) (rank? : Var → Option Nat) : ShapeRule → Derivation
  | fail _ e => if e.isFatal then .failure else .unknown
  | parameter _ rank => .shape (List.replicate rank []) []
  | copy x =>
    match rank? x with
    | some n => .shape ((dimensionsOf x n).map fun d => [d]) []
    | none => .failure
  | reverse x =>
    match rank? x with
    | some n => .shape ((dimensionsOf x n).reverse.map fun d => [d]) []
    | none => .failure
  | create sizes => .shape (List.replicate sizes.length []) []
  | elementwise operands =>
    if (∃ x ∈ operands, isArray x = true) ∧
        ∀ x ∈ operands, isArray x = true → (rank? x).isSome then
      .shape (alignment rank? (operands.filter isArray)) []
    else .failure
  | product _ a b =>
    match rank? a, rank? b with
    | some m, some n =>
      if m = 0 ∨ n = 0 then .unknown
      else
        .shape
          (((dimensionsOf a m).dropLast ++ (dimensionsOf b n).eraseIdx (n - 2)).map fun d => [d])
          [[⟨a, m - 1⟩, ⟨b, n - 2⟩]]
    | _, _ => .failure

/-- The arrays that the rule reads. -/
def reads (isArray : Var → Bool) : ShapeRule → List Var
  | copy x | reverse x => [x]
  | elementwise operands => operands.filter isArray
  | product _ a b => [a, b]
  | _ => []

end ShapeRule

/-! ### Dimensions of one class -/

namespace Store

/-- The class of a dimension, if there is such a dimension and its class is known. -/
def known? (s : Store) (d : Dimension) : Option Int :=
  (s.classAt? d).filter fun c => c ≠ Shape.noClass

/-- Two dimensions have one class. -/
def Same (s : Store) (d e : Dimension) : Prop := ∃ c, s.known? d = some c ∧ s.known? e = some c

/-- Two known dimensions are listed together. -/
def Together (s : Store) (groups : List (List Dimension)) (d e : Dimension) : Prop :=
  (s.known? d).isSome ∧ (s.known? e).isSome ∧ ∃ group ∈ groups, d ∈ group ∧ e ∈ group

theorem known?_eq_some_iff {s : Store} {d : Dimension} {c : Int} :
    s.known? d = some c ↔ s.classAt? d = some c ∧ c ≠ Shape.noClass := by
  simp [known?, Option.filter_eq_some_iff]

theorem Same.symm {s : Store} {d e : Dimension} (h : s.Same d e) : s.Same e d := by
  obtain ⟨c, hd, he⟩ := h
  exact ⟨c, he, hd⟩

end Store

end DimEquiv
