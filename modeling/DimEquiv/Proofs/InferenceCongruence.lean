import DimEquiv.Proofs.BroadcastEffect
import DimEquiv.Proofs.RuleReading

/-!
# What inference depends on

Inference never looks at the size values chosen for arrays, and of types and symbol tables it sees
no more than the entries of the variables at hand.
-/

namespace DimEquiv

namespace Store

/-- The same shapes and classes with other size values for the arrays. -/
def withSizeVars (s : Store) (v : Table Var (List SizeValue)) : Store := { s with sizeVars := v }

variable (s : Store) (v : Table Var (List SizeValue))

theorem lookup_withSizeVars (x : Var) : (s.withSizeVars v).lookup x = s.lookup x := rfl

theorem addClass_withSizeVars (size : Option SizeValue) :
    (s.withSizeVars v).addClass size =
      ((s.addClass size).1, (s.addClass size).2.withSizeVars v) := by
  simp only [addClass, allocate, withSizeVars]
  split <;> rfl

theorem addClasses_withSizeVars (sizes : List (Option SizeValue)) :
    addClasses sizes (s.withSizeVars v) =
      ((addClasses sizes s).1, (addClasses sizes s).2.withSizeVars v) := by
  induction sizes generalizing s with
  | nil => rfl
  | cons size sizes ih => simp only [addClasses, addClass_withSizeVars, ih]

theorem equate_withSizeVars (c d : Int) :
    (s.withSizeVars v).equate c d = ((s.equate c d).1, (s.equate c d).2.withSizeVars v) := by
  unfold equate
  split <;> rfl

end Store

namespace Broadcast

/-- The same loop state over other size values for the arrays. -/
def withSizeVars (b : Broadcast) (v : Table Var (List SizeValue)) : Broadcast :=
  { b with store := b.store.withSizeVars v }

theorem candidate_withSizeVars (b : Broadcast) (v : Table Var (List SizeValue)) :
    (b.withSizeVars v).candidate = b.candidate := rfl

theorem take_withSizeVars (b : Broadcast) (v : Table Var (List SizeValue)) (c : Int) :
    (b.withSizeVars v).take c = (b.take c).withSizeVars v := by
  unfold take
  by_cases hunknown : c = Shape.noClass
  · rw [if_pos hunknown, if_pos hunknown]
    rfl
  rw [if_neg hunknown, if_neg hunknown, candidate_withSizeVars]
  by_cases hknown : c = Shape.sizeOne ∨ c = b.candidate
  · rw [if_pos hknown, if_pos hknown]
  rw [if_neg hknown, if_neg hknown]
  by_cases hfirst : b.candidate = Shape.sizeOne
  · rw [if_pos hfirst, if_pos hfirst]
    rfl
  · rw [if_neg hfirst, if_neg hfirst]
    rfl

theorem dimension_withSizeVars (isArray : Var → Bool) (operands : List Var) (rank : Nat)
    (b : Broadcast) (v : Table Var (List SizeValue)) (i : Nat) :
    (b.withSizeVars v).dimension isArray operands rank i =
      (b.dimension isArray operands rank i).withSizeVars v := by
  have hfold : ∀ b : Broadcast,
      operands.foldl (fun b x => b.take (operandClass isArray rank i b.store x))
          (b.withSizeVars v) =
        (operands.foldl (fun b x => b.take (operandClass isArray rank i b.store x))
          b).withSizeVars v :=
    fun b => List.foldl_hom (fun b : Broadcast => b.withSizeVars v)
      (fun b x => take_withSizeVars b v _)
  exact congrArg finish (hfold { b with candidate := Shape.sizeOne, sawUnknown := false })

theorem dimensions_withSizeVars (isArray : Var → Bool) (operands : List Var) (rank : Nat)
    (s : Store) (v : Table Var (List SizeValue)) (is : List Nat) :
    is.foldl (Broadcast.dimension isArray operands rank) (.start (s.withSizeVars v)) =
      (is.foldl (Broadcast.dimension isArray operands rank) (.start s)).withSizeVars v := by
  have h (b : Broadcast) : is.foldl (Broadcast.dimension isArray operands rank) (b.withSizeVars v) =
      (is.foldl (Broadcast.dimension isArray operands rank) b).withSizeVars v :=
    List.foldl_hom (fun b : Broadcast => b.withSizeVars v)
      (fun b i => dimension_withSizeVars isArray operands rank b v i)
  exact h (.start s)

/-- Only the operands are asked whether they are arrays. -/
theorem dimension_congr {isArray isArray' : Var → Bool} {operands : List Var}
    (h : ∀ x ∈ operands, isArray' x = isArray x) (rank : Nat) (b : Broadcast) (i : Nat) :
    b.dimension isArray' operands rank i = b.dimension isArray operands rank i := by
  have hfold : ∀ b : Broadcast,
      operands.foldl (fun b x => b.take (operandClass isArray' rank i b.store x)) b =
        operands.foldl (fun b x => b.take (operandClass isArray rank i b.store x)) b := by
    intro b
    induction operands generalizing b with
    | nil => rfl
    | cons x xs ih =>
      have hx : operandClass isArray' rank i b.store x = operandClass isArray rank i b.store x := by
        simp only [operandClass, h x List.mem_cons_self]
      rw [List.foldl_cons, List.foldl_cons, hx]
      exact ih (fun y hy => h y (List.mem_cons_of_mem x hy)) _
  simp only [dimension, hfold]

end Broadcast

namespace Store

theorem broadcast_withSizeVars (isArray : Var → Bool) (operands : List Var) (s : Store)
    (v : Table Var (List SizeValue)) :
    (s.withSizeVars v).broadcast isArray operands =
      (s.broadcast isArray operands).map fun r => (r.1, r.2.withSizeVars v) := by
  have hlookup : (s.withSizeVars v).lookup = s.lookup := rfl
  unfold broadcast
  split
  · rfl
  · rw [hlookup]
    cases List.mapM s.lookup _ with
    | error e => rfl
    | ok shapes =>
      simp only [bind, Except.bind, Broadcast.dimensions_withSizeVars]
      rfl

theorem broadcast_congr {isArray isArray' : Var → Bool} {operands : List Var}
    (h : ∀ x ∈ operands, isArray' x = isArray x) (s : Store) :
    s.broadcast isArray' operands = s.broadcast isArray operands := by
  have hfilter : operands.filter isArray' = operands.filter isArray := List.filter_congr h
  have hdimension : ∀ rank, Broadcast.dimension isArray' operands rank =
      Broadcast.dimension isArray operands rank := by
    intro rank
    funext b i
    exact Broadcast.dimension_congr h rank b i
  simp only [broadcast, hfilter, hdimension]

theorem matrixProduct_withSizeVars (callName : String) (a b : Var) (s : Store)
    (v : Table Var (List SizeValue)) :
    (s.withSizeVars v).matrixProduct callName a b =
      (s.matrixProduct callName a b).map fun r => (r.1, r.2.withSizeVars v) := by
  have hcontract : ∀ c d : Int,
      (if c = Shape.noClass ∨ d = Shape.noClass then s.withSizeVars v
        else ((s.withSizeVars v).equate c d).2) =
      (if c = Shape.noClass ∨ d = Shape.noClass then s else (s.equate c d).2).withSizeVars v := by
    intro c d
    rw [equate_withSizeVars]
    split <;> rfl
  simp only [matrixProduct, lookup_withSizeVars, hcontract]
  cases s.lookup a with
  | error e => rfl
  | ok shape₁ =>
    cases s.lookup b with
    | error e => rfl
    | ok shape₂ =>
      simp only [bind, Except.bind]
      split
      · rename_i c₁ c₂ _ _
        generalize (if c₁ = Shape.noClass ∨ c₂ = Shape.noClass then s else (s.equate c₁ c₂).2) = t
        cases t.lookup a with
        | error e => rfl
        | ok left =>
          cases t.lookup b with
          | error e => rfl
          | ok right => rfl
      · rfl

end Store

namespace Infer

variable {α β : Type}

/-- The computation takes no notice of the size values chosen for arrays. -/
def Oblivious (x : Infer α) : Prop :=
  ∀ s v, x.run (s.withSizeVars v) = ((x.run s).1, (x.run s).2.withSizeVars v)

theorem oblivious_pure (a : α) : Oblivious (pure a) := fun _ _ => rfl

theorem oblivious_fail (e : ShapeError) : Oblivious (.fail e : Infer α) := fun _ _ => rfl

theorem Oblivious.bind {x : Infer α} {f : α → Infer β} (hx : Oblivious x)
    (hf : ∀ a, Oblivious (f a)) : Oblivious (x >>= f) := by
  intro s v
  rw [Attempt.run_bind, Attempt.run_bind, hx]
  cases x.run s with
  | mk answer t =>
    cases answer with
    | error e => rfl
    | ok a => exact hf a t v

theorem oblivious_ofReader {f : Store → Except ShapeError α}
    (h : ∀ s v, f (s.withSizeVars v) = f s) : Oblivious (.ofReader f) := by
  intro s v
  rw [Attempt.run_ofReader, Attempt.run_ofReader, h]

theorem oblivious_ofState {f : Store → α × Store}
    (h : ∀ s v, f (s.withSizeVars v) = ((f s).1, (f s).2.withSizeVars v)) :
    Oblivious (.ofState f) := by
  intro s v
  rw [Attempt.run_ofState, Attempt.run_ofState, h]

theorem oblivious_ofExcept {f : Store → Except ShapeError (α × Store)}
    (h : ∀ s v, f (s.withSizeVars v) = (f s).map fun r => (r.1, r.2.withSizeVars v)) :
    Oblivious (.ofExcept f) := by
  intro s v
  rw [Attempt.run_ofExcept, Attempt.run_ofExcept, h]
  cases f s <;> rfl

theorem oblivious_shapeOf (x : Var) : Oblivious (shapeOf x) := oblivious_ofReader fun _ _ => rfl

theorem oblivious_reverse_shapeOf (x : Var) : Oblivious (List.reverse <$> shapeOf x) := by
  rw [map_eq_pure_bind]
  exact (oblivious_shapeOf x).bind fun _ => oblivious_pure _

theorem oblivious_newClasses (sizes : List (Option SizeValue)) : Oblivious (newClasses sizes) :=
  oblivious_ofState fun s v => s.addClasses_withSizeVars v sizes

end Infer

open Infer

namespace ShapeRule

/-- Applying a rule takes no notice of the size values chosen for arrays. -/
theorem oblivious_apply (isArray : Var → Bool) (rule : ShapeRule) :
    Oblivious (rule.apply isArray) := by
  cases rule with
  | fail made e => exact (oblivious_newClasses made).bind fun _ => oblivious_fail e
  | parameter name rank =>
    refine (oblivious_ofReader fun _ _ => rfl).bind fun known => ?_
    cases known with
    | true => exact oblivious_shapeOf name
    | false => exact oblivious_newClasses _
  | copy x => exact oblivious_shapeOf x
  | reverse x => exact oblivious_reverse_shapeOf x
  | create sizes => exact oblivious_newClasses sizes
  | elementwise operands =>
    exact oblivious_ofExcept fun s v => Store.broadcast_withSizeVars isArray operands s v
  | product callName a b =>
    exact oblivious_ofExcept fun s v => Store.matrixProduct_withSizeVars callName a b s v

/-- A rule asks of its operands only whether they are arrays. -/
theorem apply_congr {isArray isArray' : Var → Bool} {rule : ShapeRule}
    (h : ∀ x ∈ rule.reads (fun _ => true), isArray' x = isArray x) :
    rule.apply isArray' = rule.apply isArray := by
  cases rule with
  | elementwise operands =>
    have hoperands : ∀ x ∈ operands, isArray' x = isArray x := by
      intro x hx
      exact h x (List.mem_filter.mpr ⟨hx, rfl⟩)
    have hbroadcast : Store.broadcast isArray' operands = Store.broadcast isArray operands :=
      funext (Store.broadcast_congr hoperands)
    rw [apply, apply, hbroadcast]
  | _ => rfl

end ShapeRule

namespace Scope

/-- Inference takes no notice of the size values chosen for arrays. -/
theorem oblivious_infer (scope : Scope) (target : Var) (e : Expr) :
    Oblivious (scope.infer target e) := by
  rw [← scope.apply_ruleOf]
  exact ShapeRule.oblivious_apply _ _

/-- Scopes that agree on the variables of an expression infer the same shape for it. -/
theorem infer_eq_of_agrees {known : Var → Prop} {scope scope' : Scope}
    (h : Reading.Agrees known scope.reading scope'.reading) (target : Var) {e : Expr}
    (hx : ∀ x ∈ e.vars, known x) : scope'.infer target e = scope.infer target e := by
  rw [← scope.apply_ruleOf, ← scope'.apply_ruleOf, h.ruleOf_eq target hx]
  refine ShapeRule.apply_congr fun x hread => h.isArray_eq ?_
  exact Reading.settled_of_mem_reads h.receivers target
    (fun y hy => hx y (Expr.mem_mentions.mp hy).1) hread

end Scope

end DimEquiv
