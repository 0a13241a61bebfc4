import DimEquiv.Proofs.SplicedReads
import DimEquiv.Proofs.TableAgreement

/-!
# Which dimensions are read

The loop over the dimensions of an array changes the size table that it consults: a class that stands in
several dimensions is read for the first of them and known for the others. A class that has a size value
keeps it, so the classes that had none at the start tell which dimensions are read.
-/

namespace DimEquiv.SizeRead

variable {array : Var} {dim : Nat} {s t : State}

section Visit

variable {c : Int} {reads : List Assign} {size : SizeValue}

/-- A dimension gives size values to its own class only, and only if that class has none. -/
theorem Visited.find?_classSizes (h : Visited array dim c s reads size t) {d : Int}
    (hd : d = Shape.noClass ∨ d ≠ c ∨ s.store.representative? d ≠ none) :
    t.store.classSizes.find? d = s.store.classSizes.find? d := by
  rcases h.store_eq with ⟨-, hstore⟩ | ⟨hnone, hstore⟩
  · rw [hstore]
  · rw [hstore, Store.represent]
    by_cases hknown : c = Shape.noClass
    · rw [if_pos hknown]
    · rw [standing?, if_neg hknown] at hnone
      have hne : c ≠ d := by
        rintro rfl
        rcases hd with hd | hd | hd
        · exact hknown hd
        · exact hd rfl
        · exact hd hnone
      rw [if_neg hknown, Store.putSizes, Table.find?_insert, if_neg hne]

/-- The size value of a dimension stands for its class. -/
theorem Visited.representative?_eq (h : Visited array dim c s reads size t)
    (hknown : c ≠ Shape.noClass) : t.store.representative? c = some size := by
  rcases h.store_eq with ⟨hstanding, hstore⟩ | ⟨-, hstore⟩
  · rw [standing?, if_neg hknown] at hstanding
    rw [hstore, hstanding]
  · rw [hstore, Store.representative?, Store.sizesOf_represent, if_pos ⟨hknown, rfl⟩]
    rfl

end Visit

theorem representative?_congr {c : Int}
    (h : t.store.classSizes.find? c = s.store.classSizes.find? c) :
    t.store.representative? c = s.store.representative? c := by
  rw [Store.representative?, Store.sizesOf, h]
  rfl

namespace VisitedAll

variable {cs : Shape} {r : SizeReads}

theorem find?_classSizes (h : VisitedAll array dim cs s r t) {d : Int}
    (hd : d = Shape.noClass ∨ d ∉ cs ∨ s.store.representative? d ≠ none) :
    t.store.classSizes.find? d = s.store.classSizes.find? d := by
  induction h with
  | nil => rfl
  | cons h _ ih =>
    have hhere := h.find?_classSizes (hd.imp_right (.imp_left List.ne_of_not_mem_cons))
    refine (ih ?_).trans hhere
    rw [representative?_congr hhere]
    exact hd.imp_right (.imp_left List.not_mem_of_not_mem_cons)

/-- In the end every known class of the shape has a size value, which all its dimensions share. -/
theorem representative?_eq (h : VisitedAll array dim cs s r t) {i : Nat} {c : Int}
    (hc : cs[i]? = some c) (hknown : c ≠ Shape.noClass) :
    ∃ size, r.sizes[i]? = some size ∧ t.store.representative? c = some size := by
  induction h generalizing i with
  | nil => cases hc
  | @cons dim c' cs s t u reads size rest h hrest ih =>
    cases i with
    | zero =>
      cases hc
      have hsome := h.representative?_eq hknown
      have hstays := hrest.find?_classSizes (d := c) (.inr (.inr (by simp [hsome])))
      exact ⟨size, rfl, (representative?_congr hstays).trans hsome⟩
    | succ i => exact ih hc

end VisitedAll

/-- Every dimension of an array gets a size value, and a known class one that stands for it wherever it
occurs in the shape. Classes that had a size value, or are not in the shape, are left alone, and so are
unknown dimensions and recorded shapes. A dimension is read, by three assignments behind the array, exactly
if the program reads it nowhere and it is unknown, or of a class that had no size value and stands at no
earlier place; the reads come in the order of the dimensions. -/
theorem ofShape_exact (array : Var) (shape : Shape) (loc : Option Loc) (s : State) :
    let r := ((ofShape array shape loc).run s).1
    let t := ((ofShape array shape loc).run s).2
    r.sizes.length = shape.length ∧
      (∀ (i : Nat) (c : Int), shape[i]? = some c → c ≠ Shape.noClass →
        ∃ size, r.sizes[i]? = some size ∧ t.store.representative? c = some size) ∧
      (∀ c, s.store.representative? c ≠ none ∨ c ∉ shape →
        t.store.classSizes.find? c = s.store.classSizes.find? c) ∧
      t.store.classSizes.find? Shape.noClass = s.store.classSizes.find? Shape.noClass ∧
      t.store.shapes = s.store.shapes ∧ t.store.sizeVars = s.store.sizeVars ∧
      ∃ reads : List DimensionRead,
        (reads.map DimensionRead.dim = (List.range shape.length).filter fun (i : Nat) =>
          s.symbols.fetch? array i = none ∧ ∃ c ∈ shape[i]?,
            c = Shape.noClass ∨ (s.store.representative? c = none ∧ c ∉ shape.take i)) ∧
        r.instructions = reads.flatMap (·.assigns array loc) ∧
        s.Adds (reads.flatMap (·.declared shape.length)) (reads.flatMap DimensionRead.sites)
          (reads.map DimensionRead.sizeSite) t := by
  intro r t
  have hvisited : VisitedAll array 0 shape s r t :=
    visitedAll_dimensions array shape.length 0 loc s shape
  obtain ⟨reads, hdims, hassigns, hadds⟩ := adds_dimensions array shape.length 0 loc s shape
  simp only [NeedsRead, Nat.zero_add, List.map_id'] at hdims
  have hgains := hvisited.gains
  refine ⟨hvisited.backs.length_eq, fun i c hc hknown => hvisited.representative?_eq hc hknown,
    fun c hc => hvisited.find?_classSizes (.inr hc.symm), hvisited.find?_classSizes (.inl rfl),
    hgains.shapes, hgains.sizeVars, reads, hdims, hassigns, hadds⟩

/-- The first and the third dimension are read, the second is of the class of the first. -/
example : (((ofShape "a" [1, 1, -1] none).run default).1.sizes).map SizeValue.text =
    ["asize0.3", "asize0.3", "asize2.6"] := by decide +kernel

end DimEquiv.SizeRead
