import DimEquiv.NameSet
import DimEquiv.Number
import DimEquiv.StaticType

/-!
# Fused elementwise expressions

A fused tree applies elementwise operators to variables and constants. Its variables are listed from
left to right, each once.
-/

namespace DimEquiv

/-- An elementwise expression over variables and constants. -/
inductive FusedTree where
  | leaf (x : Var)
  | const (value : Number)
  | op (fn : String) (operands : List FusedTree)

namespace FusedTree

instance : Inhabited FusedTree := ⟨const 0⟩

mutual

/-- The variable of every leaf, from left to right, repetitions included. -/
def leaves : FusedTree → List Var
  | leaf x => [x]
  | const _ => []
  | op _ operands => leavesList operands

/-- The leaves of a list of trees, one tree after the other. -/
def leavesList : List FusedTree → List Var
  | [] => []
  | t :: ts => leaves t ++ leavesList ts

end

/-- Each variable of the tree once, in order of first appearance. -/
def vars (t : FusedTree) : List Var := t.leaves.eraseDups

@[simp] theorem leaves_leaf (x : Var) : (leaf x).leaves = [x] := by simp [leaves]

@[simp] theorem leaves_const (value : Number) : (const value).leaves = [] := by simp [leaves]

theorem leavesList_eq_flatMap (ts : List FusedTree) : leavesList ts = ts.flatMap leaves := by
  induction ts with
  | nil => simp [leavesList]
  | cons t ts ih => simp [leavesList, ih]

@[simp] theorem leaves_op (fn : String) (operands : List FusedTree) :
    (op fn operands).leaves = operands.flatMap leaves := by
  simp [leaves, leavesList_eq_flatMap]

theorem mem_vars (t : FusedTree) (x : Var) : x ∈ t.vars ↔ x ∈ t.leaves := List.mem_eraseDups

theorem vars_nodup (t : FusedTree) : t.vars.Nodup := nodup_eraseDups _

mutual

/-- The printed form: infix between exactly two operands, else the operator applied to a list. -/
def text : FusedTree → String
  | leaf x => x
  | const value => value.text
  | op fn [a, b] => "(" ++ text a ++ " " ++ fn ++ " " ++ text b ++ ")"
  | op fn operands => fn ++ "(" ++ ", ".intercalate (texts operands) ++ ")"

/-- The printed forms of a list of trees. -/
def texts : List FusedTree → List String
  | [] => []
  | t :: ts => text t :: texts ts

end

theorem texts_eq_map (ts : List FusedTree) : texts ts = ts.map text := by
  induction ts with
  | nil => simp [texts]
  | cons t ts ih => simp [texts, ih]

theorem text_binary (fn : String) (a b : FusedTree) :
    (op fn [a, b]).text = "(" ++ a.text ++ " " ++ fn ++ " " ++ b.text ++ ")" := by
  simp [text]

theorem text_of_length_ne_two (fn : String) (operands : List FusedTree)
    (h : operands.length ≠ 2) :
    (op fn operands).text = fn ++ "(" ++ ", ".intercalate (operands.map text) ++ ")" := by
  match operands with
  | [] => simp [text, texts]
  | [a] => simp [text, texts]
  | [a, b] => exact absurd rfl h
  | a :: b :: c :: rest => simp [text, texts, texts_eq_map]

end FusedTree

end DimEquiv
