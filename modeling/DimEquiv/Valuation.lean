import DimEquiv.Callee
import DimEquiv.Options
import DimEquiv.Store
import Mathlib.Data.List.Forall2

/-!
# Lengths at run time

A valuation gives every array its lengths and every scalar and tuple its value. It obeys a program
when each assignment is respected by the rule of its operation, where an operand with fewer
dimensions is aligned from the last one and no dimension is stretched.
-/

namespace DimEquiv

structure Valuation where
  /-- The lengths of an array, outermost dimension first. -/
  lengths : Var → List Nat
  number : Var → Number
  items : Var → List Number

namespace Valuation

variable (v : Valuation)

/-- The value of a size. -/
def sizeOf : SizeValue → Number
  | .var x => v.number x
  | .literal value => value

/-- Every array operand is as long as the result, from the last dimension on. -/
def Elementwise (isArray : Var → Bool) (operands : List Var) (target : Var) : Prop :=
  ∀ x ∈ operands, isArray x = true → v.lengths x <:+ v.lengths target

/-- The lengths of a matrix product: the contracted ones are equal and the others are left. -/
inductive Product : List Nat → List Nat → List Nat → Prop
  | vector (rows : List Nat) (k : Nat) : Product (rows ++ [k]) [k] rows
  | matrix (rows front : List Nat) (k n : Nat) :
    Product (rows ++ [k]) (front ++ [k, n]) (rows ++ front ++ [n])

/-- The items of a tuple are the lengths, where a negative item of a constant tuple leaves its
length open. -/
def Itemwise (p : Program) (tuple target : Var) : Prop :=
  List.Forall₂
    (fun (item : Number) (length : Nat) => (item.isNegative = true ∧
      ∃ xs, p.definition? tuple = some (.const (.list xs))) ∨ item = .int length)
    (v.items tuple) (v.lengths target)

/-- The lengths that shape arguments ask for: one integer, one tuple of integers, or several
integers. -/
def Sized (p : Program) (types : Types) (target : Var) : List Var → Prop
  | [] => True
  | [x] =>
    match types.find? x with
    | none => True
    | some type =>
      if type.isInteger then (v.lengths target).map (fun l : Nat => Number.int l) = [v.number x]
      else type.integerTupleLength?.isSome = true → v.Itemwise p x target
  | xs =>
    (∀ x ∈ xs, (types.find? x).any StaticType.isInteger = true) →
      (v.lengths target).map (fun l : Nat => Number.int l) = xs.map v.number

/-- The rule of a named call. -/
def NamedCall (options : Options) (p : Program) (types : Types) (target : Var) (name : String)
    (args : List Var) : Prop :=
  match CallRule.ofName? name with
  | some .transpose => ∀ x, args.head? = some x → v.lengths target = (v.lengths x).reverse
  | some .creation => v.Sized p types target (args.take 1)
  | some .like => ∀ x, args.head? = some x → v.lengths target = v.lengths x
  | some .reshape => v.Sized p types target (args.drop 1)
  | some .dot =>
    match args with
    | [a, b] | [a, b, _] =>
      v.lengths a ≠ [] → v.lengths b ≠ [] →
        Product (v.lengths a) (v.lengths b) (v.lengths target)
    | _ => True
  | none => name ∈ options.ufuncs → v.Elementwise types.isArray args target

/-- The rule of an expression that gives `target` its lengths. Operators outside the recognized ones
have none. -/
def ArrayRule (options : Options) (p : Program) (types : Types) (target : Var) : Expr → Prop
  | .var x | .cast x => v.lengths target = v.lengths x
  | .unary fn x => fn ∈ options.unaryOps → v.lengths target = v.lengths x
  | .binop fn lhs rhs | .inplaceBinop _ fn lhs rhs =>
    fn ∈ options.binaryOps → v.Elementwise types.isArray [lhs, rhs] target
  | .fused tree => v.Elementwise types.isArray tree.leaves target
  | .getattr x attr =>
    attr = Operators.transposeAttr → types.isArray x = true →
      v.lengths target = (v.lengths x).reverse
  | .call func args _ =>
    match p.callee? types.isArray func with
    | some .map =>
      ∀ x, args.head? = some x →
        if types.isArray x then v.lengths target = v.lengths x
        else v.Elementwise types.isArray args target
    | some (.named name receiver) =>
      v.NamedCall options p types target name (receiver.toList ++ args)
    | none => True
  | _ => True

/-- The rule of an expression that gives `target` its value. -/
def ValueRule (types : Types) (target : Var) : Expr → Prop
  | .buildTuple items => v.items target = items.map v.number
  | .const (.list xs) => v.items target = xs
  | .getattr x attr =>
    attr = Operators.shapeAttr → types.isArray x = true →
      v.items target = (v.lengths x).map fun l : Nat => Number.int l
  | .staticGetitem x index _ =>
    ∀ (i : Nat) (item : Number), index = i → (v.items x)[i]? = some item → v.number target = item
  | _ => True

/-- The valuation respects an assignment of the program. -/
structure Obeys (options : Options) (p : Program) (types : Types) (a : Assign) : Prop where
  lengths : types.isArray a.target = true → v.ArrayRule options p types a.target a.value
  value : v.ValueRule types a.target a.value

/-- Every array has as many lengths as its type has dimensions. -/
def Ranked (types : Types) : Prop :=
  ∀ x rank, (types.find? x).bind StaticType.rank? = some rank → (v.lengths x).length = rank

/-- Every assignment of the program gives its target its value. -/
def Evaluates (types : Types) (p : Program) : Prop :=
  ∀ a ∈ p.assigns, v.ValueRule types a.target a.value

/-- The valuation respects the declared types and every assignment of the program. -/
structure Respects (options : Options) (types : Types) (p : Program) : Prop where
  ranked : v.Ranked types
  obeys : ∀ a ∈ p.assigns, v.Obeys options p types a

instance (types : Types) : Decidable (v.Ranked types) :=
  decidable_of_iff
    (∀ entry ∈ types.toList, ∀ rank ∈ entry.2.rank?, (v.lengths entry.1).length = rank) (by
      constructor
      · intro h x rank hx
        obtain ⟨type, htype, hrank⟩ := Option.bind_eq_some_iff.mp hx
        exact h (x, type) ((types.find?_eq_some_iff x type).mp htype) rank hrank
      · intro h entry hentry rank hrank
        refine h entry.1 rank ?_
        rw [(types.find?_eq_some_iff entry.1 entry.2).mpr hentry]
        exact hrank)

instance (types : Types) (target : Var) (e : Expr) : Decidable (v.ValueRule types target e) :=
  match e with
  | .buildTuple items => inferInstanceAs (Decidable (v.items target = items.map v.number))
  | .const (.list xs) => inferInstanceAs (Decidable (v.items target = xs))
  | .getattr x attr => inferInstanceAs (Decidable
      (attr = Operators.shapeAttr → types.isArray x = true →
        v.items target = (v.lengths x).map fun l : Nat => Number.int l))
  | .staticGetitem x index _ =>
    decidable_of_iff (0 ≤ index → ∀ item ∈ (v.items x)[index.toNat]?, v.number target = item) (by
      constructor
      · rintro h i item rfl hitem
        exact h (Int.natCast_nonneg i) item hitem
      · intro h hindex item hitem
        exact h index.toNat item (Int.toNat_of_nonneg hindex).symm hitem)
  | .global .. | .arg .. | .var _ | .unary .. | .binop .. | .inplaceBinop .. | .fused _ | .cast _
  | .call .. | .other _ | .const (.number _) | .const (.bool _) | .const (.text _)
  | .const .null => inferInstanceAs (Decidable True)

instance (types : Types) (p : Program) : Decidable (v.Evaluates types p) :=
  inferInstanceAs (Decidable (∀ a ∈ p.assigns, v.ValueRule types a.target a.value))

end Valuation

end DimEquiv
