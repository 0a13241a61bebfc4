import DimEquiv.Callee
import DimEquiv.Inference

/-!
# Rules

Names, types and operators settle what an expression asks of the store, whatever shapes are recorded
there. A rule is such a request. Inference finds the rule of an expression and applies it.
-/

namespace DimEquiv

/-- What an expression asks of the store. -/
inductive ShapeRule where
  /-- The request fails, at most with new classes made for the arguments in front of a faulty one. -/
  | fail (made : List (Option SizeValue)) (e : ShapeError)
  /-- The shape that a parameter has already, or a new class for each dimension. -/
  | parameter (name : Var) (rank : Nat)
  | copy (x : Var)
  | reverse (x : Var)
  | create (sizes : List (Option SizeValue))
  | elementwise (operands : List Var)
  | product (callName : String) (a b : Var)
  deriving DecidableEq

/-- What the rule of an expression depends on. -/
structure Reading where
  type? : Var → Option StaticType
  /-- What a called variable stands for. -/
  callee? : Var → Option Callee
  /-- The items of a tuple. -/
  items : Var → List SizeValue
  options : Options

namespace ShapeRule

open Infer

def unsupported (cause : Unsupported) : ShapeRule := fail [] (.unsupported cause)

/-- Does what is asked. -/
def apply (isArray : Var → Bool) : ShapeRule → Infer Shape
  | fail made e => do
    let _ ← newClasses made
    Attempt.fail e
  | parameter name rank => do
    if ← Attempt.ofReader fun s => .ok (s.has name) then shapeOf name
    else newClasses (List.replicate rank none)
  | copy x => shapeOf x
  | reverse x => List.reverse <$> shapeOf x
  | create sizes => newClasses sizes
  | elementwise operands => .ofExcept (Store.broadcast isArray operands)
  | product callName a b => .ofExcept (Store.matrixProduct callName a b)

theorem run_apply_reverse (isArray : Var → Bool) (x : Var) (s : Store) :
    ((reverse x).apply isArray).run s = ((s.lookup x).map List.reverse, s) := by
  rw [apply, map_eq_pure_bind, Attempt.run_bind, shapeOf, Attempt.run_ofReader]
  cases s.lookup x <;> rfl

theorem apply_if (isArray : Var → Bool) (c : Prop) [Decidable c] (rule rule' : ShapeRule) :
    (if c then rule else rule').apply isArray =
      if c then rule.apply isArray else rule'.apply isArray := by
  split <;> rfl

/-- The rule that depends on the first argument. -/
def ofFirst (callName : String) (args : List Var) (rule : Var → ShapeRule) : ShapeRule :=
  match args[0]? with
  | some x => rule x
  | none => fail [] (.missingArgument callName 0)

theorem apply_ofFirst (isArray : Var → Bool) (callName : String) (args : List Var)
    (rule : Var → ShapeRule) :
    (ofFirst callName args rule).apply isArray =
      argument args 0 callName >>= fun x => (rule x).apply isArray := by
  rw [ofFirst, argument]
  cases args[0]? <;> rfl

end ShapeRule

namespace Reading

open ShapeRule

variable (r : Reading)

def isArray (x : Var) : Bool := (r.type? x).any StaticType.isArray

/-- The rule that depends on a type. -/
def ofType (x : Var) (rule : StaticType → ShapeRule) : ShapeRule :=
  match r.type? x with
  | some type => rule type
  | none => fail [] (.missingType x)

def ruleOfParameter (name : Var) : ShapeRule :=
  r.ofType name fun type =>
    match type.rank? with
    | some rank => parameter name rank
    | none => fail [] (.notArrayParameter name)

/-- The sizes that integers give, up to the first argument that is none, and what is wrong with
that. -/
def integerSizes (callName : String) : List Var → List (Option SizeValue) × Option ShapeError
  | [] => ([], none)
  | item :: items =>
    match r.type? item with
    | none => ([], some (.missingType item))
    | some type =>
      if type.isInteger then
        (some (.var item) :: (integerSizes callName items).1, (integerSizes callName items).2)
      else ([], some (.unsupported (.shapeElement callName item)))

/-- Where nothing is wrong, all items are integers. -/
theorem integerSizes_eq_none {callName : String} {items : List Var}
    {sizes : List (Option SizeValue)} (h : r.integerSizes callName items = (sizes, none)) :
    sizes = items.map (fun x => some (.var x)) ∧
      ∀ x ∈ items, (r.type? x).any StaticType.isInteger = true := by
  induction items generalizing sizes with
  | nil =>
    cases h
    exact ⟨rfl, nofun⟩
  | cons item items ih =>
    rw [integerSizes] at h
    split at h
    · cases h
    · rename_i type htype
      split at h
      · rename_i hinteger
        obtain ⟨rfl, hnone⟩ := Prod.mk.inj h
        obtain ⟨hsizes, hrest⟩ := ih (Prod.ext rfl hnone)
        refine ⟨congrArg (some (SizeValue.var item) :: ·) hsizes,
          List.forall_mem_cons.mpr ⟨?_, hrest⟩⟩
        rw [htype]
        exact hinteger
      · cases h

def ruleOfIntegers (callName : String) (items : List Var) : ShapeRule :=
  match r.integerSizes callName items with
  | (sizes, none) => create sizes
  | (made, some e) => fail made e

def ruleOfShape (callName : String) : List Var → ShapeRule
  | [] => fail [] (.missingShapeArgument callName)
  | [arg] =>
    r.ofType arg fun type =>
      if type.isInteger then create [some (.var arg)]
      else
        match type.integerTupleLength? with
        | some count => create ((List.range count).map fun i => (r.items arg)[i]?)
        | none => unsupported (.shapeArgument callName arg)
  | args => r.ruleOfIntegers callName args

def ruleOfNamedCall (callName : String) (args : List Var) : ShapeRule :=
  match CallRule.ofName? callName with
  | some .transpose => ofFirst callName args reverse
  | some .creation => r.ruleOfShape callName (args.take 1)
  | some .like => ofFirst callName args copy
  | some .reshape => r.ruleOfShape callName (args.drop 1)
  | some .dot =>
    match args with
    | [a, b] | [a, b, _] => product callName a b
    | _ => fail [] (.argumentCount callName args.length)
  | none =>
    if callName ∈ r.options.ufuncs then elementwise args
    else unsupported (.unknownCall callName)

/-- The rule of a call. A scalar in front of arrays is broadcast against them. -/
def ruleOfCall (func : Var) (args : List Var) : ShapeRule :=
  match r.callee? func with
  | some .map =>
    ofFirst func args fun first => if r.isArray first then copy first else elementwise args
  | some (.named name receiver) => r.ruleOfNamedCall name (receiver.toList ++ args)
  | none => unsupported (.callTarget func)

/-- The rule of an expression that is assigned to `target`. -/
def ruleOf (target : Var) (e : Expr) : ShapeRule :=
  match e with
  | .arg _ name => r.ruleOfParameter name
  | .var x => copy x
  | .unary fn x =>
    if fn ∈ r.options.unaryOps then copy x else unsupported (.unaryOperator fn)
  | .binop fn lhs rhs =>
    if fn ∈ r.options.binaryOps then elementwise [lhs, rhs]
    else unsupported (.binaryOperator e.op fn)
  | .inplaceBinop _ fn lhs rhs =>
    if fn ∈ r.options.binaryOps then elementwise [lhs, rhs]
    else unsupported (.binaryOperator e.op fn)
  | .fused tree => elementwise tree.vars
  | .cast x => copy x
  | .getattr x attr =>
    if attr = Operators.transposeAttr ∧ r.isArray x then reverse x
    else unsupported (.getattr attr x)
  | .call func args _ => r.ruleOfCall func args
  | .global .. | .const _ | .buildTuple _ | .staticGetitem .. =>
    unsupported (.production e.op target)
  | .other op => fail [] (.unhandledExpression op)

end Reading

/-! ### Inference applies the rule -/

/-- What the symbol tables say of a called variable. -/
def Symbols.callee? (t : Symbols) (func : Var) : Option Callee :=
  if func ∈ t.mapCalls then some .map
  else
    match t.moduleCalls.find? func with
    | some name => some (.named name none)
    | none => (t.methodCalls.find? func).map fun call => .named call.method (some call.receiver)

/-- The receiver of a method is found where the method was fetched. -/
theorem Symbols.methodCall_of_callee? {t : Symbols} {func receiver : Var} {name : String}
    (h : t.callee? func = some (.named name (some receiver))) :
    ∃ call, t.methodCalls.find? func = some call ∧ call.receiver = receiver := by
  unfold callee? at h
  split at h
  · cases h
  · split at h
    · cases h
    · obtain ⟨call, hcall, hcallee⟩ := Option.map_eq_some_iff.mp h
      cases hcallee
      exact ⟨call, hcall, rfl⟩

namespace Scope

open ShapeRule

variable (scope : Scope)

def reading : Reading where
  type? := scope.types.find?
  callee? := scope.symbols.callee?
  items x := (scope.symbols.tuples.find? x).getD []
  options := scope.options

@[simp] theorem options_reading : scope.reading.options = scope.options := rfl

@[simp] theorem isArray_reading : scope.reading.isArray = scope.isArray := rfl

theorem apply_ofType (x : Var) (rule : StaticType → ShapeRule) :
    (scope.reading.ofType x rule).apply scope.isArray =
      (Attempt.ofReader fun _ => scope.typeOf x) >>= fun type =>
        (rule type).apply scope.isArray := by
  have htype : scope.reading.type? x = scope.types.find? x := rfl
  apply Attempt.ext
  intro s
  rw [Attempt.run_bind, Attempt.run_ofReader, Reading.ofType, typeOf, htype]
  cases scope.types.find? x <;> rfl

theorem apply_ruleOfParameter (name : Var) :
    (scope.reading.ruleOfParameter name).apply scope.isArray = scope.inferArg name := by
  rw [Reading.ruleOfParameter, apply_ofType, inferArg]
  congr 1
  funext type
  cases type.rank? <;> rfl

/-- Integers are taken one by one, so those in front of a faulty item have made their classes. -/
theorem run_mapM_integers (callName : String) (items : List Var) (s : Store) :
    (items.mapM (scope.classOfInteger callName)).run s =
      match scope.reading.integerSizes callName items with
      | (sizes, none) => (.ok (Store.addClasses sizes s).1, (Store.addClasses sizes s).2)
      | (made, some e) => (.error e, (Store.addClasses made s).2) := by
  induction items generalizing s with
  | nil => rfl
  | cons item items ih =>
    have htype : scope.reading.type? item = scope.types.find? item := rfl
    rw [List.mapM_cons, Attempt.run_bind, classOfInteger, Attempt.run_bind, Attempt.run_ofReader,
      Reading.integerSizes, typeOf, htype]
    cases scope.types.find? item with
    | none => rfl
    | some type =>
      by_cases h : type.isInteger = true
      · simp only [h, if_true, Attempt.run_ofState, Attempt.run_bind, ih]
        rcases scope.reading.integerSizes callName items with ⟨sizes, _ | e⟩ <;> rfl
      · simp only [h]
        rfl

theorem apply_ruleOfIntegers (callName : String) (items : List Var) :
    (scope.reading.ruleOfIntegers callName items).apply scope.isArray =
      items.mapM (scope.classOfInteger callName) := by
  apply Attempt.ext
  intro s
  rw [run_mapM_integers, Reading.ruleOfIntegers]
  rcases scope.reading.integerSizes callName items with ⟨sizes, _ | e⟩ <;> rfl

theorem apply_ruleOfShape (callName : String) (args : List Var) :
    (scope.reading.ruleOfShape callName args).apply scope.isArray =
      scope.shapeOfArguments callName args := by
  match args with
  | [] => rfl
  | [arg] =>
    rw [Reading.ruleOfShape, apply_ofType, shapeOfArguments, shapeOfArgument]
    congr 1
    funext type
    split
    · rfl
    · cases type.integerTupleLength? <;> rfl
  | a :: b :: args => exact scope.apply_ruleOfIntegers callName (a :: b :: args)

theorem apply_ruleOfNamedCall (callName : String) (args : List Var) :
    (scope.reading.ruleOfNamedCall callName args).apply scope.isArray =
      scope.inferNamedCall callName args := by
  unfold Reading.ruleOfNamedCall inferNamedCall
  cases CallRule.ofName? callName with
  | none => exact apply_if _ _ _ _
  | some rule =>
    cases rule with
    | transpose => exact apply_ofFirst _ _ _ _
    | creation => exact scope.apply_ruleOfShape _ _
    | like => exact apply_ofFirst _ _ _ _
    | reshape => exact scope.apply_ruleOfShape _ _
    | dot => rcases args with _ | ⟨a, _ | ⟨b, _ | ⟨c, _ | ⟨d, args⟩⟩⟩⟩ <;> rfl

theorem apply_ruleOfCall (func : Var) (args : List Var) :
    (scope.reading.ruleOfCall func args).apply scope.isArray = scope.inferCall func args := by
  have hcallee : scope.reading.callee? func = scope.symbols.callee? func := rfl
  rw [Reading.ruleOfCall, inferCall, hcallee, Symbols.callee?]
  by_cases hmap : func ∈ scope.symbols.mapCalls
  · rw [if_pos hmap, if_pos hmap]
    refine (apply_ofFirst _ _ _ _).trans ?_
    congr 1
    funext first
    exact apply_if _ _ _ _
  · rw [if_neg hmap, if_neg hmap]
    cases scope.symbols.moduleCalls.find? func with
    | some name => exact scope.apply_ruleOfNamedCall name args
    | none =>
      cases scope.symbols.methodCalls.find? func with
      | some call => exact scope.apply_ruleOfNamedCall _ _
      | none => rfl

/-- Inference is the application of a rule. -/
theorem apply_ruleOf (target : Var) (e : Expr) :
    (scope.reading.ruleOf target e).apply scope.isArray = scope.infer target e := by
  cases e with
  | arg index name => exact scope.apply_ruleOfParameter name
  | call func args kws => exact scope.apply_ruleOfCall func args
  | unary fn x => exact apply_if _ _ _ _
  | binop fn lhs rhs => exact apply_if _ _ _ _
  | inplaceBinop fn immutableFn lhs rhs => exact apply_if _ _ _ _
  | getattr x attr => exact apply_if _ _ _ _
  | _ => rfl

end Scope

end DimEquiv
