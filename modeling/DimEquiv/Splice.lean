import DimEquiv.Operators
import DimEquiv.Program

/-!
# Reads spliced into a program

A read of a dimension is three assignments: of the shape tuple of an array, of the index, and of the
item at that index. A program is spliced when reads of their targets stand behind some assignments
to arrays and nothing else is changed.
-/

namespace DimEquiv

/-- What is new in a read of a dimension: three variables, and the sites of what they are assigned. -/
structure DimensionRead where
  dim : Nat
  tuple : Var
  index : Var
  size : Var
  tupleSite : Nat
  indexSite : Nat
  sizeSite : Nat

namespace DimensionRead

variable (r : DimensionRead)

/-- The assignments of a read, all at one place of the source text. -/
def assigns (array : Var) (loc : Option Loc) : List Assign :=
  [⟨r.tuple, .getattr array Operators.shapeAttr, loc, r.tupleSite⟩,
    ⟨r.index, .const (.number (.int r.dim)), loc, r.indexSite⟩,
    ⟨r.size, .staticGetitem r.tuple r.dim (some r.index), loc, r.sizeSite⟩]

/-- The types of the new variables, for an array of `rank` dimensions. -/
def declared (rank : Nat) : List (Var × StaticType) :=
  [(r.tuple, .uniTuple .int64 rank), (r.index, .int64), (r.size, .int64)]

def sites : List Nat := [r.tupleSite, r.indexSite, r.sizeSite]

end DimensionRead

/-- An assignment to an array of `rank` dimensions with the reads behind it, each of another
dimension, in increasing order. -/
structure Splice (types : Types) where
  assign : Assign
  rank : Nat
  reads : List DimensionRead
  rank?_eq : (types.find? assign.target).bind StaticType.rank? = some rank
  increasing : (reads.map DimensionRead.dim).Pairwise (· < ·)
  dim_lt : ∀ r ∈ reads, r.dim < rank

namespace Splice

variable {types : Types} (s : Splice types)

/-- The assignments that the reads consist of. -/
def inserted : List Assign := s.reads.flatMap fun r => r.assigns s.assign.target s.assign.loc

def declared : List (Var × StaticType) := s.reads.flatMap fun r => r.declared s.rank

def sites : List Nat := s.reads.flatMap DimensionRead.sites

/-- The sites of the items that are taken. -/
def sizeSites : List Nat := s.reads.map DimensionRead.sizeSite

theorem map_target_inserted : s.inserted.map Assign.target = s.declared.map Prod.fst := by
  simp only [inserted, declared, List.map_flatMap]
  rfl

theorem map_site_inserted : s.inserted.map Assign.site = s.sites := by
  simp only [inserted, sites, List.map_flatMap]
  rfl

end Splice

/-- The second list of instructions is the first one with the given splices, in order. -/
inductive Spliced (types : Types) :
    List Instruction → List (Splice types) → List Instruction → Prop
  | nil : Spliced types [] [] []
  | kept (i : Instruction) {is out : List Instruction} {ss : List (Splice types)}
    (h : Spliced types is ss out) : Spliced types (i :: is) ss (i :: out)
  | behind (s : Splice types) {is out : List Instruction} {ss : List (Splice types)}
    (h : Spliced types is ss out) :
    Spliced types (.assign s.assign :: is) (s :: ss)
      (.assign s.assign :: (s.inserted.map .assign ++ out))

/-- The same blocks, with splices in their bodies. -/
inductive SplicedBlocks (types : Types) :
    List Block → List (Splice types) → List Block → Prop
  | nil : SplicedBlocks types [] [] []
  | cons {b : Block} {body : List Instruction} {bs bs' : List Block} {ss ss' : List (Splice types)}
    (h : Spliced types b.body ss body) (hrest : SplicedBlocks types bs ss' bs') :
    SplicedBlocks types (b :: bs) (ss ++ ss') ({ b with body } :: bs')

theorem Spliced.append {types : Types} {is is' out out' : List Instruction}
    {ss ss' : List (Splice types)} (h : Spliced types is ss out) (h' : Spliced types is' ss' out') :
    Spliced types (is ++ is') (ss ++ ss') (out ++ out') := by
  induction h with
  | nil => exact h'
  | kept i _ ih => exact .kept i ih
  | behind s _ ih =>
    rw [List.cons_append, List.cons_append, List.cons_append, List.append_assoc]
    exact .behind s ih

end DimEquiv
