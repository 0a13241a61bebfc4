import DimEquiv.Expr

/-!
# Programs

A program is one function: named arguments and labelled blocks of instructions, in stored order.
Each assignment carries the site of its right-hand side, a number that tells apart two occurrences
of the same expression and is never printed.
-/

namespace DimEquiv

/-- A position in the source text. -/
structure Loc where
  line : Nat
  column : Option Nat
  deriving DecidableEq

/-- `target = value`, where `site` numbers this occurrence of the value. -/
structure Assign where
  target : Var
  value : Expr
  loc : Option Loc := none
  site : Nat := 0

inductive Instruction where
  | assign (a : Assign)
  | ret (value : Var) (loc : Option Loc)
  | jump (target : Int)
  | branch (cond : Var) (ifTrue ifFalse : Int)
  | del (x : Var)

structure Block where
  label : Int
  body : List Instruction

structure Program where
  name : String
  argNames : List Var
  blocks : List Block

instance : Inhabited Assign := ⟨⟨"", default, none, 0⟩⟩

instance : Inhabited Program := ⟨⟨"", [], []⟩⟩

namespace Instruction

def assign? : Instruction → Option Assign
  | assign a => some a
  | _ => none

/-- The printed form. A right-hand side without one is marked as undefined. -/
def text : Instruction → String
  | assign a => a.target ++ " = " ++ a.value.text?.getD "undefined"
  | ret value _ => "return " ++ value
  | jump target => "jump " ++ toString target
  | branch cond ifTrue ifFalse =>
    "branch " ++ cond ++ ", " ++ toString ifTrue ++ ", " ++ toString ifFalse
  | del x => "del " ++ x

theorem mem_filterMap_assign? {a : Assign} {is : List Instruction} :
    a ∈ is.filterMap assign? ↔ assign a ∈ is := by
  have h (i : Instruction) : i.assign? = some a ↔ i = assign a := by
    cases i <;> simp [assign?]
  simp [List.mem_filterMap, h]

end Instruction

namespace Block

def assigns (b : Block) : List Assign := b.body.filterMap Instruction.assign?

def lines (b : Block) : List String :=
  ("label " ++ toString b.label ++ ":") :: b.body.map fun i => "    " ++ i.text

end Block

namespace Program

/-- Every assignment, blocks in stored order. -/
def assigns (p : Program) : List Assign := p.blocks.flatMap Block.assigns

def header (p : Program) : String :=
  "function " ++ p.name ++ "(" ++ commaSeparated p.argNames ++ "):"

def text (p : Program) : String := "\n".intercalate (p.header :: p.blocks.flatMap Block.lines)

theorem mem_assigns {p : Program} {a : Assign} :
    a ∈ p.assigns ↔ ∃ b ∈ p.blocks, Instruction.assign a ∈ b.body := by
  simp only [assigns, Block.assigns, List.mem_flatMap, Instruction.mem_filterMap_assign?]

end Program

end DimEquiv
