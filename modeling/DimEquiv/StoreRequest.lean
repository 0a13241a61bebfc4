import DimEquiv.Attempt
import DimEquiv.Store

/-!
# Requests to a store

A store serves requests in order. A refused request leaves the tables as they are, and the next one
is served from there. No request has to make sense: a class need not have been handed out, and an
array need not be recorded.
-/

namespace DimEquiv

inductive StoreRequest where
  | allocate
  | merge (c₁ c₂ : Int)
  | record (x : Var) (shape : Shape)
  | setSizes (c : Int) (sizes : List SizeValue)
  | setSizeVars (x : Var) (sizes : List SizeValue)
  deriving DecidableEq

/-- What a store answers to a request that it does not refuse. -/
inductive StoreAnswer where
  | done
  | made (c : Int)
  | noted (outcome : RecordOutcome)
  deriving DecidableEq

namespace StoreRequest

def serve : StoreRequest → Attempt ShapeError Store StoreAnswer
  | allocate => .ofState fun s => (.made s.allocate.1, s.allocate.2)
  | merge c₁ c₂ => .ofExcept fun s => (s.merge c₁ c₂).map fun r => (.made r.1, r.2)
  | record x shape => .ofState fun s => (.noted (s.record x shape).1, (s.record x shape).2)
  | setSizes c sizes => .ofExcept fun s => (s.setSizes c sizes).map fun s' => (.done, s')
  | setSizeVars x sizes => .ofState fun s => (.done, s.setSizeVars x sizes)

/-- The store that serving requests in order leaves. -/
def serveAll : List StoreRequest → Store → Store
  | [], s => s
  | r :: rs, s => serveAll rs (r.serve.run s).2

theorem serveAll_append (rs rs' : List StoreRequest) (s : Store) :
    serveAll (rs ++ rs') s = serveAll rs' (serveAll rs s) := by
  induction rs generalizing s with
  | nil => rfl
  | cons r rs ih => exact ih _

/-- The array that a request downgrades: it records a shape for it that contradicts the one recorded
before. -/
def downgraded? : StoreRequest → Store → Option Var
  | record x shape, s =>
    match (s.record x shape).1 with
    | .conflict _ _ => some x
    | _ => none
  | _, _ => none

/-- The arrays that requests downgrade when their turn comes, in order. -/
def downgraded : List StoreRequest → Store → List Var
  | [], _ => []
  | r :: rs, s => (r.downgraded? s).toList ++ downgraded rs (r.serve.run s).2

end StoreRequest

end DimEquiv
