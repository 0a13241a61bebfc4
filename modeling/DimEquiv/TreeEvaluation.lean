import DimEquiv.FusedTree
import DimEquiv.Inference

/-!
# Fused trees, one operation at a time

A fused tree stands for elementwise operations that could as well be carried out one by one. Then each
of them gives an array of its own, under a name that is not in use.
-/

namespace DimEquiv

/-- Names for new arrays: whatever is recorded, the next name is not. -/
structure NameSupply where
  next : Store → Var
  has_next : ∀ s : Store, s.has (next s) = false

namespace NameSupply

/-- All recorded names behind a mark. -/
def joined (s : Store) : Var := String.ofList ('%' :: s.shapes.keys.flatMap String.toList)

theorem has_joined (s : Store) : s.has (joined s) = false := by
  rw [Bool.eq_false_iff, Store.has, ne_eq, Table.contains_iff_mem_keys]
  intro hmem
  have hsub : (joined s).toList.Sublist (s.shapes.keys.flatMap String.toList) :=
    List.sublist_flatten_of_mem (List.mem_map_of_mem hmem)
  have hle := hsub.length_le
  rw [joined, String.toList_ofList, List.length_cons] at hle
  exact Nat.not_succ_le_self _ hle

instance : Inhabited NameSupply := ⟨⟨joined, has_joined⟩⟩

/-- Records a shape under the next name. -/
def record (supply : NameSupply) (shape : Shape) (s : Store) : Var × Store :=
  (supply.next s, (s.record (supply.next s) shape).2)

end NameSupply

namespace FusedTree

variable (supply : NameSupply) (isArray : Var → Bool)

mutual

/-- Evaluates a tree bottom-up. An operation broadcasts the arrays among its operands, since scalars take
no part in that, and records the result as a new array; without arrays it gives a scalar again. The
answer is the array that holds the result, if it is no scalar. -/
def evaluate : FusedTree → Infer (Option Var)
  | leaf x => pure (if isArray x then some x else none)
  | const _ => pure none
  | op _ operands => do
    match (← evaluateAll operands).filterMap id with
    | [] => return none
    | arrays =>
      let shape ← .ofExcept (Store.broadcast (fun _ => true) arrays)
      return some (← .ofState (supply.record shape))

/-- Evaluates the operands from left to right. -/
def evaluateAll : List FusedTree → Infer (List (Option Var))
  | [] => return []
  | t :: ts => do return (← evaluate t) :: (← evaluateAll ts)

end

end FusedTree

end DimEquiv
