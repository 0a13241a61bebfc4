import DimEquiv.Callee
import DimEquiv.Options

/-!
# Arrays of literal lengths

Programs that create all their arrays with constant lengths and combine them elementwise. A
combination aligns the lengths of its operands from the last dimension on. Aligned lengths are equal,
or one of them is one and is stretched.
-/

namespace DimEquiv

/-- The length that two aligned lengths make. -/
def stretch? (m n : Nat) : Option Nat :=
  if n = m ∨ n = 1 then some m else if m = 1 then some n else none

/-- The lengths of a combination, last dimension first. -/
def alignLengths? : List Nat → List Nat → Option (List Nat)
  | [], ns => some ns
  | m :: ms, [] => some (m :: ms)
  | m :: ms, n :: ns => do
    let l ← stretch? m n
    let ls ← alignLengths? ms ns
    return l :: ls

/-- The lengths of a combination of two arrays, if it is defined. -/
def broadcastLengths? (ms ns : List Nat) : Option (List Nat) :=
  (alignLengths? ms.reverse ns.reverse).map List.reverse

/-- The operator and the operands of an elementwise combination. -/
def Expr.combination? : Expr → Option (String × Var × Var)
  | binop fn lhs rhs | inplaceBinop _ fn lhs rhs => some (fn, lhs, rhs)
  | _ => none

namespace Program

/-- The expressions that give an array its lengths. -/
inductive Makes (p : Program) (types : Types) (lengths : Var → List Nat) (target : Var) :
    Expr → Prop
  /-- A function of the array module creates the array from a constant tuple. -/
  | create {func tuple : Var} {args : List Var} {kws : List (String × Var)} {name : String}
    (hname : CallRule.ofName? name = some .creation)
    (hfunc : p.callee? types.isArray func = some (.named name none))
    (htuple : p.definition? tuple =
      some (.const (.list ((lengths target).map fun l : Nat => Number.int l))))
    (hpos : ∀ l ∈ lengths target, 0 < l) : Makes p types lengths target (.call func (tuple :: args) kws)
  | combine {e : Expr} {fn : String} {lhs rhs : Var} (he : e.combination? = some (fn, lhs, rhs))
    (hlhs : types.isArray lhs = true) (hrhs : types.isArray rhs = true)
    (h : broadcastLengths? (lengths lhs) (lengths rhs) = some (lengths target)) :
    Makes p types lengths target e

/-- Every variable is assigned at most once, and every array gets its lengths from literals, as many
as its type has dimensions. -/
structure LiteralLengths (p : Program) (types : Types) (lengths : Var → List Nat) : Prop where
  once : (p.assigns.map Assign.target).Nodup
  made : ∀ a ∈ p.assigns, types.isArray a.target = true → p.Makes types lengths a.target a.value
  ranked : ∀ a ∈ p.assigns, ∀ rank, (types.find? a.target).bind StaticType.rank? = some rank →
    (lengths a.target).length = rank

/-- No recognized combination stretches a dimension. -/
def Unstretched (options : Options) (p : Program) (types : Types) (lengths : Var → List Nat) : Prop :=
  ∀ a ∈ p.assigns, types.isArray a.target = true → ∀ fn lhs rhs,
    a.value.combination? = some (fn, lhs, rhs) → fn ∈ options.binaryOps →
      lengths lhs <:+ lengths rhs ∨ lengths rhs <:+ lengths lhs

end Program

end DimEquiv
