import DimEquiv.Program

/-!
# The variables of a program

The names that occur in expressions, instructions and programs. A program is well typed in the sense
of the analysis as soon as each of them has a type. Most programs assign a variable more than once.
-/

namespace DimEquiv

namespace Expr

/-- The variables that an expression reads. -/
def vars : Expr → List Var
  | global .. => []
  | arg _ name => [name]
  | getattr value _ => [value]
  | buildTuple items => items
  | const _ => []
  | var x => [x]
  | unary _ value => [value]
  | binop _ lhs rhs => [lhs, rhs]
  | inplaceBinop _ _ lhs rhs => [lhs, rhs]
  | fused tree => tree.vars
  | cast value => [value]
  | call func args kws => func :: (args ++ kws.map Prod.snd)
  | staticGetitem value _ indexVar => value :: indexVar.toList
  | other _ => []

/-- The variables that an expression mentions. The name of a parameter is no mention of it. -/
def mentions : Expr → List Var
  | arg .. => []
  | e => e.vars

theorem mem_mentions {e : Expr} {x : Var} :
    x ∈ e.mentions ↔ x ∈ e.vars ∧ ∀ index name, e ≠ .arg index name := by
  cases e <;> simp [mentions, vars]

end Expr

namespace Instruction

def vars : Instruction → List Var
  | assign a => a.target :: a.value.vars
  | ret value _ => [value]
  | jump _ => []
  | branch cond _ _ => [cond]
  | del x => [x]

end Instruction

namespace Program

/-- The variables of a program, its arguments included. -/
def vars (p : Program) : List Var :=
  p.argNames ++ p.blocks.flatMap fun b => b.body.flatMap Instruction.vars

/-- Every variable of the program has a type. -/
def Typed (p : Program) (types : Types) : Prop := ∀ x ∈ p.vars, types.contains x = true

/-- Every variable is assigned at most once, a parameter by its own name and no array by a global. -/
structure SingleAssignment (p : Program) (types : Types) : Prop where
  once : (p.assigns.map Assign.target).Nodup
  parameters : ∀ a ∈ p.assigns, ∀ index name, a.value = .arg index name → a.target = name
  globals : ∀ a ∈ p.assigns, ∀ name value, a.value = .global name value →
    types.isArray a.target = false

/-- Every variable is assigned at most once, and what is mentioned was assigned before or never is. -/
structure DefinedBeforeUse (p : Program) : Prop where
  once : (p.assigns.map Assign.target).Nodup
  defined : ∀ k (hk : k < p.assigns.length), ∀ x ∈ p.assigns[k].value.mentions,
    x ∈ (p.assigns.take k).map Assign.target ∨ x ∉ p.assigns.map Assign.target

/-- Every variable is assigned at most once, a parameter by its own name, and what is mentioned was
assigned before or never is. -/
structure Ordered (p : Program) : Prop where
  once : (p.assigns.map Assign.target).Nodup
  parameters : ∀ a ∈ p.assigns, ∀ index name, a.value = .arg index name → a.target = name
  defined : ∀ k (hk : k < p.assigns.length), ∀ x ∈ p.assigns[k].value.mentions,
    x ∈ (p.assigns.take k).map Assign.target ∨ x ∉ p.assigns.map Assign.target

instance (p : Program) (types : Types) : Decidable (p.Typed types) :=
  inferInstanceAs (Decidable (∀ x ∈ p.vars, types.contains x = true))

theorem vars_subset_of_mem_assigns {p : Program} {a : Assign} (ha : a ∈ p.assigns) :
    a.target :: a.value.vars ⊆ p.vars := by
  obtain ⟨b, hb, hi⟩ := mem_assigns.mp ha
  intro x hx
  refine List.mem_append_right _ (List.mem_flatMap.mpr ⟨b, hb, ?_⟩)
  exact List.mem_flatMap.mpr ⟨_, hi, hx⟩

theorem Typed.assign {p : Program} {types : Types} (h : p.Typed types) {a : Assign}
    (ha : a ∈ p.assigns) :
    types.contains a.target = true ∧ ∀ x ∈ a.value.vars, types.contains x = true := by
  have hsubset := vars_subset_of_mem_assigns ha
  refine ⟨h _ (hsubset List.mem_cons_self), fun x hx => h x (hsubset ?_)⟩
  exact List.mem_cons_of_mem _ hx

theorem Ordered.definedBeforeUse {p : Program} (hp : p.Ordered) : p.DefinedBeforeUse :=
  ⟨hp.once, hp.defined⟩

end Program

end DimEquiv
