import DimEquiv.Derivation
import DimEquiv.Occurrence
import Mathlib.Logic.Relation

/-!
# Equality of dimensions, by the definitions of a program

The assignments of a program tell from which dimensions the dimensions of each array are derived. They
form a plan, in which no order is left. A dimension is unknown as soon as one that it is derived from
is, and two known dimensions are equal when a chain of derivations connects them.
-/

namespace DimEquiv

/-- What the rules of assignments derive, and the numbers of dimensions of the arrays. -/
structure Plan where
  derivation : Assign → Derivation
  rank? : Var → Option Nat

namespace Plan

/-- The dimension is unknown after the assignments in `done`. -/
inductive Hidden (plan : Plan) (done : List Assign) : Dimension → Prop
  /-- Nothing is known of the array. -/
  | unknown {a : Assign} {rank i : Nat} (ha : a ∈ done) (hrank : plan.rank? a.target = some rank)
    (hi : i < rank) (h : plan.derivation a = .unknown) : Hidden plan done ⟨a.target, i⟩
  /-- The derived shape has not the declared number of dimensions. -/
  | mismatch {a : Assign} {rank i : Nat} {dims joined : List (List Dimension)} (ha : a ∈ done)
    (hrank : plan.rank? a.target = some rank) (hi : i < rank)
    (h : plan.derivation a = .shape dims joined) (hlen : dims.length ≠ rank) :
    Hidden plan done ⟨a.target, i⟩
  /-- The dimension is derived from an unknown one. -/
  | listed {a : Assign} {rank i : Nat} {dims joined : List (List Dimension)}
    {listed : List Dimension} {d : Dimension} (ha : a ∈ done)
    (hrank : plan.rank? a.target = some rank) (hi : i < rank)
    (h : plan.derivation a = .shape dims joined) (hget : dims[i]? = some listed) (hd : d ∈ listed)
    (hidden : Hidden plan done d) : Hidden plan done ⟨a.target, i⟩

variable (plan : Plan) (done : List Assign)

/-- The dimension exists after the assignments in `done` and is not unknown. -/
def Known (d : Dimension) : Prop :=
  d.array ∈ done.map Assign.target ∧ (∃ rank, plan.rank? d.array = some rank ∧ d.index < rank) ∧
    ¬ plan.Hidden done d

/-- An assignment makes one of two known dimensions. -/
def Linked (d e : Dimension) : Prop :=
  plan.Known done d ∧ plan.Known done e ∧
    ∃ a ∈ done, ∃ group ∈ (plan.derivation a).groups a.target, d ∈ group ∧ e ∈ group

/-- Two known dimensions are equal by the assignments in `done`. -/
def Equal (d e : Dimension) : Prop :=
  plan.Known done d ∧ plan.Known done e ∧ Relation.EqvGen (plan.Linked done) d e

variable {plan done}

theorem hidden_iff {d : Dimension} : plan.Hidden done d ↔
    ∃ a ∈ done, a.target = d.array ∧ ∃ rank, plan.rank? d.array = some rank ∧ d.index < rank ∧
      (plan.derivation a).Hides (plan.Hidden done) rank d.index := by
  constructor
  · intro h
    cases h with
    | @unknown a rank i ha hrank hi h => exact ⟨a, ha, rfl, rank, hrank, hi, h ▸ trivial⟩
    | @mismatch a rank i dims joined ha hrank hi h hlen =>
      refine ⟨a, ha, rfl, rank, hrank, hi, ?_⟩
      rw [h]
      exact fun heq => absurd heq hlen
    | @listed a rank i dims joined listed d ha hrank hi h hget hd hidden =>
      refine ⟨a, ha, rfl, rank, hrank, hi, ?_⟩
      rw [h]
      exact fun _ => ⟨listed, hget, d, hd, hidden⟩
  · obtain ⟨x, i⟩ := d
    rintro ⟨a, ha, rfl, rank, hrank, hi, hhides⟩
    cases h : plan.derivation a with
    | failure =>
      rw [h] at hhides
      exact hhides.elim
    | unknown => exact .unknown ha hrank hi h
    | shape dims joined =>
      rw [h] at hhides
      by_cases hlen : dims.length = rank
      · obtain ⟨listed, hget, d, hd, hidden⟩ := hhides hlen
        exact .listed ha hrank hi h hget hd hidden
      · exact .mismatch ha hrank hi h hlen

theorem Hidden.mono {done' : List Assign} (hsub : done ⊆ done') {d : Dimension}
    (h : plan.Hidden done d) : plan.Hidden done' d := by
  induction h with
  | unknown ha hrank hi h => exact .unknown (hsub ha) hrank hi h
  | mismatch ha hrank hi h hlen => exact .mismatch (hsub ha) hrank hi h hlen
  | listed ha hrank hi h hget hd _ ih => exact .listed (hsub ha) hrank hi h hget hd ih

/-- A plan asks for no order. -/
theorem equal_perm {done' : List Assign} (h : done.Perm done') :
    plan.Hidden done = plan.Hidden done' ∧ plan.Equal done = plan.Equal done' := by
  have hhidden : plan.Hidden done = plan.Hidden done' := by
    funext d
    exact propext ⟨.mono fun _ => h.mem_iff.mp, .mono fun _ => h.mem_iff.mpr⟩
  have hknown : plan.Known done = plan.Known done' := by
    funext d
    rw [Known, Known, hhidden, (h.map Assign.target).mem_iff]
  have hlinked : plan.Linked done = plan.Linked done' := by
    funext d e
    simp only [Linked, hknown, h.mem_iff]
  refine ⟨hhidden, ?_⟩
  funext d e
  rw [Equal, Equal, hknown, hlinked]

end Plan

/-- The items of the tuple that an expression makes. -/
def Expr.items : Expr → List SizeValue
  | buildTuple items => items.map .var
  | const (.list xs) => xs.map .literal
  | _ => []

namespace Program

variable (p : Program)

/-- The items of a tuple, by its definition in the program. -/
def items (x : Var) : List SizeValue := ((p.definition? x).map Expr.items).getD []

/-- What the rules of the program depend on, by its definitions. -/
def reading (options : Options) (types : Types) : Reading where
  type? := types.find?
  callee? := p.callee? types.isArray
  items := p.items
  options := options

/-- The declared numbers of dimensions of the arrays that the program assigns. -/
def rank? (types : Types) (x : Var) : Option Nat :=
  if x ∈ p.assigns.map Assign.target then (types.find? x).bind StaticType.rank? else none

/-- The plan of the program. Nothing is derived for a variable that is no array. -/
def plan (options : Options) (types : Types) : Plan where
  derivation a :=
    if types.isArray a.target then
      ((p.reading options types).ruleOf a.target a.value).derive types.isArray (p.rank? types)
    else .unknown
  rank? := p.rank? types

end Program

end DimEquiv
