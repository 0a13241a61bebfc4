import DimEquiv.ShapeRule

/-!
# What inference does to a store

Every rule ends in one of few ways: it fails, it copies a recorded shape, perhaps reversed, it
creates classes, it broadcasts, or it takes a matrix product. Facts that hold after every inference
are proved for these cases and not for every rule.
-/

namespace DimEquiv

open Store

/-- How an inference on the first store ended: its answer and the store that it left. -/
inductive Outcome : Store → Except ShapeError Shape → Store → Prop
  /-- Nothing but new classes is left behind. -/
  | failed (s : Store) (sizes : List (Option SizeValue)) (e : ShapeError) :
    Outcome s (.error e) (addClasses sizes s).2
  | copied {s : Store} {x : Var} {shape : Shape} (h : s.shapes.find? x = some shape) :
    Outcome s (.ok shape) s
  | reversed {s : Store} {x : Var} {shape : Shape} (h : s.shapes.find? x = some shape) :
    Outcome s (.ok shape.reverse) s
  | created (s : Store) (sizes : List (Option SizeValue)) :
    Outcome s (.ok (addClasses sizes s).1) (addClasses sizes s).2
  | broadcast {s t : Store} {isArray : Var → Bool} {operands : List Var} {out : Shape}
    (h : s.broadcast isArray operands = .ok (out, t)) : Outcome s (.ok out) t
  | product {s t : Store} {callName : String} {a b : Var} {out : Shape}
    (h : s.matrixProduct callName a b = .ok (out, t)) : Outcome s (.ok out) t

/-- A failure that changes nothing. -/
theorem Outcome.unchanged (s : Store) (e : ShapeError) : Outcome s (.error e) s :=
  .failed s [] e

/-- Applying a rule ends in one of the ways listed. -/
theorem ShapeRule.outcome_apply (isArray : Var → Bool) (rule : ShapeRule) (s : Store) :
    Outcome s ((rule.apply isArray).run s).1 ((rule.apply isArray).run s).2 := by
  have hcopied : ∀ x, Outcome s ((Infer.shapeOf x).run s).1 ((Infer.shapeOf x).run s).2 := by
    intro x
    simp only [Infer.shapeOf, Attempt.run_ofReader]
    cases h : s.lookup x with
    | error e => exact .unchanged s e
    | ok shape => exact .copied ((s.lookup_eq_ok_iff x shape).mp h)
  cases rule with
  | fail made e => exact .failed s made e
  | parameter name rank =>
    simp only [apply, Attempt.run_bind, Attempt.run_ofReader]
    split
    · exact hcopied name
    · exact .created s _
  | copy x => exact hcopied x
  | reverse x =>
    rw [run_apply_reverse]
    cases h : s.lookup x with
    | error e => exact .unchanged s e
    | ok shape => exact .reversed ((s.lookup_eq_ok_iff x shape).mp h)
  | create sizes => exact .created s sizes
  | elementwise operands =>
    rw [apply, Attempt.run_ofExcept]
    cases h : s.broadcast isArray operands with
    | error e => exact .unchanged s e
    | ok r => exact .broadcast h
  | product callName a b =>
    rw [apply, Attempt.run_ofExcept]
    cases h : s.matrixProduct callName a b with
    | error e => exact .unchanged s e
    | ok r => exact .product h

/-- Every inference ends in one of the ways listed. -/
theorem Scope.outcome_infer (scope : Scope) (target : Var) (e : Expr) (s : Store) :
    Outcome s ((scope.infer target e).run s).1 ((scope.infer target e).run s).2 := by
  rw [← scope.apply_ruleOf]
  exact ShapeRule.outcome_apply _ _ s

end DimEquiv
