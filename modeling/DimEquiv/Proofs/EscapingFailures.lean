import DimEquiv.Proofs.DerivedClasses
import DimEquiv.Proofs.FailedRuns
import DimEquiv.Proofs.RetiredClasses

/-!
# The failures that end a run

An expression without a rule never ends a run, and neither does a request to the tables: all merges
and all size values that a run asks for are granted, since they are about known classes. What does
end a run tells something about the types and about the assignments before the failing one. A shape
is missing only where no array was assigned yet.
-/

namespace DimEquiv

/-! ### Requests that are granted -/

namespace Store

/-- The store `t` arises from `s` by requests that all are granted, among them the merges in `us`,
oldest first. -/
inductive Granted (s : Store) : List (Int × Int) → Store → Prop
  | refl : Granted s [] s
  | allocate {us : List (Int × Int)} {t : Store} (h : Granted s us t) : Granted s us t.allocate.2
  | merge {us : List (Int × Int)} {t u : Store} {c d merged : Int} (h : Granted s us t)
    (hgranted : t.merge c d = .ok (merged, u)) : Granted s (us ++ [(c, d)]) u
  | setSizes {us : List (Int × Int)} {t u : Store} {c : Int} {sizes : List SizeValue}
    (h : Granted s us t) (hgranted : t.setSizes c sizes = .ok u) : Granted s us u
  | record {us : List (Int × Int)} {t : Store} (h : Granted s us t) (x : Var) (shape : Shape) :
    Granted s us (t.record x shape).2
  | setSizeVars {us : List (Int × Int)} {t : Store} (h : Granted s us t) (x : Var)
    (sizes : List SizeValue) : Granted s us (t.setSizeVars x sizes)

variable {s t : Store} {us : List (Int × Int)}

theorem setSizes_of_ne {c : Int} (h : c ≠ Shape.noClass) (sizes : List SizeValue) :
    s.setSizes c sizes = .ok (s.putSizes c sizes) := if_neg h

theorem Proper.ne_noClass {c : Int} (h : s.Proper c) : c ≠ Shape.noClass := by
  rintro rfl
  exact absurd h.1 (by decide)

theorem merge_of_proper {c d : Int} (hc : s.Proper c) (hd : s.Proper d) (hne : c ≠ d) :
    s.merge c d = .ok (s.unite c d) := by
  rw [merge, if_neg, equate_of_ne s hne]
  rintro ⟨-, h | h⟩
  · exact hc.ne_noClass h
  · exact hd.ne_noClass h

theorem Granted.addClass (h : s.Granted us t) (ht : t.Reserved) (size : Option SizeValue) :
    s.Granted us (t.addClass size).2 := by
  have hnew : t.nextClass ≠ Shape.noClass := by
    intro heq
    exact absurd (heq ▸ ht.next_pos) (by decide)
  simp only [Store.addClass]
  split
  · exact h.allocate.setSizes (setSizes_of_ne hnew _)
  · exact h.allocate

theorem Granted.represent (h : s.Granted us t) (c : Int) (size : SizeValue) :
    s.Granted us (t.represent c size) := by
  unfold Store.represent
  split
  · exact h
  · rename_i hknown
    exact h.setSizes (setSizes_of_ne hknown [size])

/-- Operations that respect the special classes are all granted. -/
theorem Evolution.granted (h : s.Evolution us t) (hs : s.Reserved) : s.Granted us t := by
  induction h with
  | refl => exact .refl
  | addClass h size ih => exact ih.addClass (h.reserved hs) size
  | unite _ hc hd hne ih => exact ih.merge (merge_of_proper hc hd hne)
  | record _ x _ ih => exact ih.record x _
  | @represent _ _ _ c _ size ih => exact ih.represent c size
  | setSizeVars _ x sizes ih => exact ih.setSizeVars x sizes

end Store

namespace Pass

variable {options : Options} {s t : State}

end Pass

/-! ### What a failure tells -/

namespace Reading

open ShapeRule

variable {r : Reading}

end Reading

namespace ShapeRule

open Store

variable {type? : Var → Option StaticType} {isArray : Var → Bool} {s : Store} {e : ShapeError}

end ShapeRule

namespace Pass

variable {options : Options} {a : Assign} {s t : State} {e : ShapeError}

end Pass

/-- The arrays that have a shape at a point of a run are those that were assigned before. -/
theorem Reaches.has_iff {options : Options} {p : Program} {types : Types} {callTypes : CallTypes}
    {before : List Instruction} {t : State} (h : Reaches options p types callTypes before t)
    (x : Var) :
    t.store.has x = true ↔ types.isArray x = true ∧ ∃ b, .assign b ∈ before ∧ b.target = x := by
  obtain ⟨out, hrun⟩ := h.run
  have hemits := Pass.emits_body hrun
  have hrank : t.rank? x = (types.find? x).bind StaticType.rank? := hemits.rank?_eq x
  have hrecorded := ((State.Consistent.start p types callTypes).emits hemits).recorded x
  rw [← Store.has_iff, hrank, ← types.isArray_iff_rank?, List.nil_append] at hrecorded
  simp only [hrecorded, Instruction.mem_filterMap_assign?]

end DimEquiv
