import DimEquiv.State

/-!
# Requests for fresh names

An analysis asks for fresh names one after the other, and types are entered in between: for the names
that it was given and for any others. No entry is ever taken away.
-/

namespace DimEquiv

inductive NameRequest where
  | enter (x : Var) (type : StaticType)
  | fresh (stem : String)

namespace NameRequest

def serve : NameRequest → State → State
  | enter x type, s => { s with types := s.types.insert x type }
  | fresh stem, s => (s.fresh stem).2

/-- The name that a request is given, if it asks for one. -/
def given? : NameRequest → State → Option Var
  | enter _ _, _ => none
  | fresh stem, s => some (s.fresh stem).1

/-- The state that serving requests in order leaves. -/
def serveAll : List NameRequest → State → State
  | [], s => s
  | r :: rs, s => serveAll rs (r.serve s)

/-- The names that requests are given when their turn comes, in order. -/
def given : List NameRequest → State → List Var
  | [], _ => []
  | r :: rs, s => (r.given? s).toList ++ given rs (r.serve s)

theorem given_append (rs rs' : List NameRequest) (s : State) :
    given (rs ++ rs') s = given rs s ++ given rs' (serveAll rs s) := by
  induction rs generalizing s with
  | nil => rfl
  | cons r rs ih =>
    rw [List.cons_append, given, ih, given, serveAll, List.append_assoc]

end NameRequest

end DimEquiv
