import DimEquiv.Proofs.SpecialClasses

/-!
# Classes that a union took away

A union retires both of its classes: their ids leave every recorded shape and the size table, and new
classes take other ids. Nothing that was read before a union is used behind it unless it was renamed
or read again, so a retired class never comes back.
-/

namespace DimEquiv

/-- A union in `us` took the class away. -/
def Retired (us : List (Int × Int)) (c : Int) : Prop := ∃ u ∈ us, c = u.1 ∨ c = u.2

/-- None of the classes is retired. -/
def Avoids (us : List (Int × Int)) (shape : Shape) : Prop := ∀ c ∈ shape, ¬ Retired us c

/-- The classes that a diagnostic quotes. -/
def Diagnostic.classes : Diagnostic → Shape
  | .conflict _ previous incoming => previous ++ incoming
  | _ => []

variable {us vs : List (Int × Int)}

theorem not_retired_nil (c : Int) : ¬ Retired [] c := by
  rintro ⟨u, hu, -⟩
  cases hu

theorem retired_append {c : Int} : Retired (us ++ vs) c ↔ Retired us c ∨ Retired vs c := by
  simp only [Retired, List.mem_append, or_and_right, exists_or]

theorem retired_singleton {c d e : Int} : Retired [(c, d)] e ↔ e = c ∨ e = d := by
  simp [Retired]

theorem Retired.extend {c : Int} (h : Retired us c) (hinitial : us <+: vs) : Retired vs c := by
  obtain ⟨u, hu, hc⟩ := h
  exact ⟨u, hinitial.subset hu, hc⟩

theorem Avoids.shorten {shape : Shape} (h : Avoids vs shape) (hinitial : us <+: vs) :
    Avoids us shape :=
  fun c hc hretired => h c hc (hretired.extend hinitial)

theorem Avoids.append {shape shape' : Shape} (h : Avoids us shape) (h' : Avoids us shape') :
    Avoids us (shape ++ shape') :=
  List.forall_mem_append.mpr ⟨h, h'⟩

namespace Store

/-- The classes that the unions in `us` took away were handed out before, and no recorded shape and
no size entry is left of them. -/
structure Cleared (s : Store) (us : List (Int × Int)) : Prop where
  proper : ∀ c, Retired us c → s.Proper c
  recorded : ∀ x shape, s.shapes.find? x = some shape → Avoids us shape
  sized : ∀ c ∈ s.classSizes.keys, ¬ Retired us c

namespace Cleared

variable {s t : Store}

theorem not_retired_of_nonpos (h : s.Cleared us) {c : Int} (hc : c ≤ 0) : ¬ Retired us c :=
  fun hretired => absurd (h.proper c hretired).1 (Int.not_lt.mpr hc)

theorem not_retired_of_le (h : s.Cleared us) {c : Int} (hc : s.nextClass ≤ c) : ¬ Retired us c :=
  fun hretired => absurd (h.proper c hretired).2 (Int.not_lt.mpr hc)

theorem avoids_unknown (h : s.Cleared us) (rank : Nat) : Avoids us (.unknown rank) := by
  intro c hc
  rw [Shape.eq_noClass_of_mem hc]
  exact h.not_retired_of_nonpos (by decide)

theorem shorten (h : s.Cleared vs) (hinitial : us <+: vs) : s.Cleared us where
  proper c hc := h.proper c (hc.extend hinitial)
  recorded x shape hx := (h.recorded x shape hx).shorten hinitial
  sized c hc hretired := h.sized c hc (hretired.extend hinitial)

theorem empty : Store.empty.Cleared [] where
  proper c hc := absurd hc (not_retired_nil c)
  recorded _ _ _ c _ := not_retired_nil c
  sized c _ := not_retired_nil c

/-- A new id was never handed out before. -/
theorem addClass (h : s.Cleared us) (size : Option SizeValue) : (s.addClass size).2.Cleared us where
  proper c hc := (h.proper c hc).mono (by rw [nextClass_addClass]; omega)
  recorded x shape hx := by
    rw [shapes_addClass] at hx
    exact h.recorded x shape hx
  sized c hc := by
    rcases keys_addClass size hc with hc | rfl
    · exact h.sized c hc
    · exact h.not_retired_of_le (Int.le_refl _)

theorem addClasses (h : s.Cleared us) (sizes : List (Option SizeValue)) :
    (Store.addClasses sizes s).2.Cleared us := by
  induction sizes generalizing s with
  | nil => exact h
  | cons size sizes ih => exact ih (h.addClass size)

/-- Renaming takes the two classes of a union out of a shape. -/
theorem avoids_rename (h : s.Cleared us) {c d : Int} (hc : s.Proper c) (hd : s.Proper d)
    {shape : Shape} (hshape : Avoids us shape) :
    Avoids (us ++ [(c, d)]) (shape.rename [c, d] s.nextClass) := by
  intro e he hretired
  obtain ⟨before, hbefore, rfl⟩ := List.mem_map.mp he
  rw [retired_append, retired_singleton] at hretired
  split at hretired
  · rcases hretired with hretired | hmerged | hmerged
    · exact h.not_retired_of_le (Int.le_refl _) hretired
    · exact absurd hc.2 (hmerged ▸ Int.lt_irrefl _)
    · exact absurd hd.2 (hmerged ▸ Int.lt_irrefl _)
  · rename_i hother
    rcases hretired with hretired | hsame
    · exact hshape before hbefore hretired
    · exact hother (by simpa using hsame)

theorem unite (h : s.Cleared us) {c d : Int} (hc : s.Proper c) (hd : s.Proper d) :
    (s.unite c d).2.Cleared (us ++ [(c, d)]) where
  proper e he := by
    have hle : s.nextClass ≤ (s.unite c d).2.nextClass := by
      rw [nextClass_unite]
      omega
    rw [retired_append, retired_singleton] at he
    rcases he with he | rfl | rfl
    · exact (h.proper e he).mono hle
    · exact hc.mono hle
    · exact hd.mono hle
  recorded x shape hx := by
    rw [find?_shapes_unite, Option.map_eq_some_iff] at hx
    obtain ⟨before, hbefore, rfl⟩ := hx
    exact h.avoids_rename hc hd (h.recorded x before hbefore)
  sized e he hretired := by
    rw [← Table.contains_iff_mem_keys, Table.contains, find?_classSizes_unite] at he
    rw [retired_append, retired_singleton] at hretired
    split at he
    · rename_i hmerged
      subst hmerged
      rcases hretired with hretired | hsame | hsame
      · exact h.not_retired_of_le (Int.le_refl _) hretired
      · exact absurd hc.2 (hsame ▸ Int.lt_irrefl _)
      · exact absurd hd.2 (hsame ▸ Int.lt_irrefl _)
    · split at he
      · cases he
      · rename_i hother
        rcases hretired with hretired | hsame
        · exact h.sized e ((Table.contains_iff_mem_keys ..).mp he) hretired
        · exact hother (hsame.symm.imp Eq.symm Eq.symm)

theorem record (h : s.Cleared us) (x : Var) {shape : Shape} (hshape : Avoids us shape) :
    (s.record x shape).2.Cleared us where
  proper c hc := (h.proper c hc).mono (Int.le_of_eq (nextClass_record s x shape).symm)
  recorded y other hy := by
    rw [find?_shapes_record] at hy
    split at hy
    · split at hy
      · cases hy
        exact hshape
      · cases hy
        split
        · exact hshape
        · exact h.avoids_unknown _
    · exact h.recorded y other hy
  sized c hc := by
    rw [classSizes_record] at hc
    exact h.sized c hc

theorem represent (h : s.Cleared us) {c : Int} (hc : ¬ Retired us c) (size : SizeValue) :
    (s.represent c size).Cleared us := by
  unfold Store.represent
  split
  · exact h
  · refine ⟨h.proper, h.recorded, fun d hd => ?_⟩
    rcases (Table.mem_keys_insert ..).mp hd with rfl | hd
    · exact hc
    · exact h.sized d hd

theorem setSizeVars (h : s.Cleared us) (x : Var) (sizes : List SizeValue) :
    (s.setSizeVars x sizes).Cleared us :=
  ⟨h.proper, h.recorded, h.sized⟩

end Cleared

end Store

/-! ### Broadcasts -/

namespace Broadcast

open Store

variable {isArray : Var → Bool} {operands : List Var} {rank : Nat} {b : Broadcast} {s : Store}

/-- Neither the tables nor what a broadcast holds in its hands shows a retired class. -/
structure Cleared (b : Broadcast) (us : List (Int × Int)) : Prop where
  store : b.store.Cleared us
  done : Avoids us b.done
  candidate : ¬ Retired us b.candidate

theorem not_retired_operandClass (isArray : Var → Bool) (rank : Nat) (hs : s.Cleared us) (i : Nat)
    (x : Var) : ¬ Retired us (operandClass isArray rank i s x) := by
  have hone : ¬ Retired us Shape.sizeOne := hs.not_retired_of_nonpos (Int.le_refl _)
  simp only [operandClass]
  cases hc : (Shape.padLeading rank (if isArray x then (s.shapes.find? x).getD [] else []))[i]? with
  | none => exact hone
  | some c =>
    rw [Option.getD_some]
    rcases List.mem_append.mp (List.mem_of_getElem? hc) with hc | hc
    · rw [List.eq_of_mem_replicate hc]
      exact hone
    · split at hc
      · cases hx : s.shapes.find? x with
        | none => simp [hx] at hc
        | some shape =>
          rw [hx, Option.getD_some] at hc
          exact hs.recorded x shape hx c hc
      · cases hc

/-- A union renames what the broadcast holds along with the tables. -/
theorem take_cleared (hguarded : b.Guarded) (hb : b.Cleared us) {c : Int}
    (hc : c = Shape.sizeOne ∨ b.store.Usable c) (hretired : ¬ Retired us c) :
    (b.take c).Cleared (us ++ b.unions c) := by
  rcases take_cases b c with
    ⟨hunions, hstore, hdone, hcandidate⟩ | ⟨hfirst, hunknown, hlong, -, hunions, htake⟩
  · rw [hunions, List.append_nil]
    refine ⟨hstore ▸ hb.store, hdone ▸ hb.done, ?_⟩
    rcases hcandidate with hcandidate | ⟨hcandidate, -⟩
    · rw [hcandidate]
      exact hb.candidate
    · rw [hcandidate]
      exact hretired
  · have hcandidate := hguarded.candidate.resolve_left hfirst
    have hproper : b.store.Proper c := (hc.resolve_left hlong).proper hunknown
    have hstore := hb.store.unite hcandidate hproper
    rw [hunions, htake]
    refine ⟨hstore, hb.store.avoids_rename hcandidate hproper hb.done, fun hmerged => ?_⟩
    rcases retired_append.mp hmerged with hmerged | hmerged
    · exact hb.store.not_retired_of_le (Int.le_refl _) hmerged
    · rcases retired_singleton.mp hmerged with hsame | hsame
      · exact absurd hcandidate.2 (hsame ▸ Int.lt_irrefl _)
      · exact absurd hproper.2 (hsame ▸ Int.lt_irrefl _)

theorem takeAll_cleared (isArray : Var → Bool) (rank : Nat) (hguarded : b.Guarded)
    (hb : b.Cleared us) (i : Nat) (xs : List Var) :
    (xs.foldl (fun b x => b.take (operandClass isArray rank i b.store x)) b).Cleared
      (us ++ operandUnions isArray rank i xs b) := by
  induction xs generalizing b us with
  | nil =>
    rw [operandUnions, List.append_nil]
    exact hb
  | cons x xs ih =>
    have husable := operandClass_usable isArray rank hguarded.store i x
    rw [operandUnions, ← List.append_assoc]
    exact ih (take_guarded hguarded husable).1
      (take_cleared hguarded hb husable (not_retired_operandClass isArray rank hb.store i x))

theorem dimension_cleared (isArray : Var → Bool) (operands : List Var) (rank : Nat)
    (hs : b.store.Reserved) (hstore : b.store.Cleared us) (hdone : Avoids us b.done) (i : Nat) :
    (b.dimension isArray operands rank i).store.Cleared
        (us ++ operandUnions isArray rank i operands
          { b with candidate := Shape.sizeOne, sawUnknown := false }) ∧
      Avoids (us ++ operandUnions isArray rank i operands
          { b with candidate := Shape.sizeOne, sawUnknown := false })
        (b.dimension isArray operands rank i).done := by
  have hguarded : { b with candidate := Shape.sizeOne, sawUnknown := false }.Guarded := ⟨hs, .inl rfl⟩
  have hstart : { b with candidate := Shape.sizeOne, sawUnknown := false }.Cleared us :=
    ⟨hstore, hdone, hstore.not_retired_of_nonpos (Int.le_refl _)⟩
  have hall := takeAll_cleared isArray rank hguarded hstart i operands
  refine ⟨hall.store, hall.done.append ?_⟩
  rw [Avoids, List.forall_mem_singleton]
  split
  · exact hall.store.not_retired_of_nonpos (by decide)
  · exact hall.candidate

theorem dimensions_cleared (isArray : Var → Bool) (operands : List Var) (rank : Nat)
    (hs : b.store.Reserved) (hstore : b.store.Cleared us) (hdone : Avoids us b.done)
    (is : List Nat) :
    (is.foldl (Broadcast.dimension isArray operands rank) b).store.Cleared
        (us ++ dimensionUnions isArray operands rank is b) ∧
      Avoids (us ++ dimensionUnions isArray operands rank is b)
        (is.foldl (Broadcast.dimension isArray operands rank) b).done := by
  induction is generalizing b us with
  | nil =>
    rw [dimensionUnions, List.append_nil]
    exact ⟨hstore, hdone⟩
  | cons i is ih =>
    obtain ⟨hstore', hdone'⟩ := dimension_cleared isArray operands rank hs hstore hdone i
    rw [dimensionUnions, ← List.append_assoc]
    exact ih (dimension_guarded isArray operands rank hs i).1 hstore' hdone'

end Broadcast

/-! ### Every rule -/

namespace ShapeRule

open Store

variable {isArray : Var → Bool} {s : Store}

/-- The tables behind a request, and the shape that it answers, show no retired class. -/
structure Clears (us : List (Int × Int)) (r : Except ShapeError Shape × Store) : Prop where
  store : r.2.Cleared us
  shape : ∀ shape, r.1 = .ok shape → Avoids us shape

theorem broadcast_clears (hs : s.Reserved) (hc : s.Cleared us) (operands : List Var) :
    Clears (us ++ s.broadcastUnions isArray operands)
      ((Attempt.ofExcept (Store.broadcast isArray operands)).run s) := by
  have hfailed : ∀ e, Clears (us ++ []) (.error e, s) := by
    intro e
    rw [List.append_nil]
    refine ⟨hc, fun shape hshape => ?_⟩
    cases hshape
  rw [Attempt.run_ofExcept, broadcastUnions, Store.broadcast]
  cases operands.filter isArray with
  | nil => exact hfailed _
  | cons x xs =>
    simp only
    cases (x :: xs).mapM s.lookup with
    | error e => exact hfailed e
    | ok shapes =>
      have hempty : Avoids us [] := fun c hmem => absurd hmem List.not_mem_nil
      obtain ⟨hstore, hdone⟩ := Broadcast.dimensions_cleared (b := .start s) isArray operands
        (maxRank shapes) hs hc hempty (List.range (maxRank shapes))
      refine ⟨hstore, ?_⟩
      rintro shape ⟨⟩
      exact hdone

/-- A product reads its operands again behind its union. -/
theorem product_clears (hs : s.Reserved) (hc : s.Cleared us) (callName : String) (a b : Var) :
    Clears (us ++ s.productUnions a b)
      ((Attempt.ofExcept (matrixProduct callName a b)).run s) := by
  have hstore : ((Attempt.ofExcept (matrixProduct callName a b)).run s).2.Cleared
      (us ++ s.productUnions a b) := by
    rcases run_matrixProduct_cases hs callName a b with
      ⟨hunions, hstore⟩ | ⟨c, d, hproper, hproper', -, hunions, hstore⟩
    · rw [hunions, hstore, List.append_nil]
      exact hc
    · rw [hunions, hstore]
      exact hc.unite hproper hproper'
  refine ⟨hstore, fun shape hshape c hcshape => ?_⟩
  have h := Attempt.eq_ok_of_run_ofExcept (Prod.ext hshape rfl)
  obtain ⟨shape₁, shape₂, -, -, rep, ha, hb, -, -, hcollapse, rfl, -⟩ :=
    matrixProduct_effect hs.bounded h
  have hfind : ∀ x known, s.shapes.find? x = some known → Avoids (us ++ s.productUnions a b)
      (known.map rep) := by
    intro x known hx
    refine hstore.recorded x _ ?_
    rw [hcollapse.find?_shapes, hx, Option.map_some]
  rcases List.mem_append.mp hcshape with hmem | hmem
  · exact hfind a shape₁ ha c (List.dropLast_subset _ hmem)
  · exact hfind b shape₂ hb c (List.mem_of_mem_eraseIdx hmem)

theorem apply_clears (isArray : Var → Bool) (hs : s.Reserved) (hc : s.Cleared us)
    (rule : ShapeRule) :
    Clears (us ++ rule.unions isArray s) ((rule.apply isArray).run s) := by
  have hplain : ∀ {r}, Clears us r → Clears (us ++ []) r := by
    intro r h
    rwa [List.append_nil]
  have hnew : ∀ sizes, Clears us ((Infer.newClasses sizes).run s) := by
    intro sizes
    refine ⟨hc.addClasses sizes, ?_⟩
    rintro shape ⟨⟩ c hcshape
    exact hc.not_retired_of_le (mem_addClasses hcshape).1
  have hcopy : ∀ x, Clears us ((Infer.shapeOf x).run s) := by
    intro x
    refine ⟨hc, fun shape hshape => ?_⟩
    exact hc.recorded x shape ((lookup_eq_ok_iff ..).mp hshape)
  cases rule with
  | fail made e => exact hplain ⟨hc.addClasses made, nofun⟩
  | parameter name rank =>
    apply hplain
    simp only [apply, Attempt.run_bind, Attempt.run_ofReader]
    split
    · exact hcopy name
    · exact hnew _
  | copy x => exact hplain (hcopy x)
  | reverse x =>
    apply hplain
    rw [run_apply_reverse]
    refine ⟨hc, fun shape hshape c hcshape => ?_⟩
    cases hlook : s.lookup x with
    | error e =>
      rw [hlook] at hshape
      cases hshape
    | ok before =>
      rw [hlook] at hshape
      cases hshape
      exact hc.recorded x before ((lookup_eq_ok_iff ..).mp hlook) c (List.mem_reverse.mp hcshape)
  | create sizes => exact hplain (hnew sizes)
  | elementwise operands => exact broadcast_clears hs hc operands
  | product callName a b => exact product_clears hs hc callName a b

end ShapeRule

/-! ### The analysis -/

namespace SizeRead

variable {array : Var} {dim : Nat} {s t : State}

theorem Visited.cleared {c : Int} {reads : List Assign} {size : SizeValue}
    (h : Visited array dim c s reads size t) (hs : s.store.Cleared us) (hc : ¬ Retired us c) :
    t.store.Cleared us := by
  rcases h.store_eq with ⟨-, hstore⟩ | ⟨-, hstore⟩
  · rw [hstore]
    exact hs
  · rw [hstore]
    exact hs.represent hc size

theorem VisitedAll.cleared {cs : Shape} {r : SizeReads} (h : VisitedAll array dim cs s r t)
    (hs : s.store.Cleared us) (hcs : Avoids us cs) : t.store.Cleared us := by
  induction h with
  | nil => exact hs
  | cons h _ ih =>
    obtain ⟨hfirst, hrest⟩ := List.forall_mem_cons.mp hcs
    exact ih (h.cleared hs hfirst) hrest

end SizeRead

@[simp] theorem Unsupported.classes_diagnostic (target : Var) (cause : Unsupported) :
    (cause.diagnostic target).classes = [] := by
  cases cause <;> rfl

namespace State

/-- What was reported on the way from `s` to `t` quotes no class that the unions in `us` took
away. -/
def Reports (us : List (Int × Int)) (s t : State) : Prop :=
  ∃ ds, t.diagnostics = s.diagnostics ++ ds ∧ ∀ d ∈ ds, Avoids us d.classes

variable {s t u : State}

theorem Reports.of_eq (h : t.diagnostics = s.diagnostics) : Reports us s t :=
  ⟨[], by rw [h, List.append_nil], nofun⟩

theorem Reports.trans (h : Reports us s t) (h' : Reports us t u) : Reports us s u := by
  obtain ⟨ds, hds, havoids⟩ := h
  obtain ⟨ds', hds', havoids'⟩ := h'
  exact ⟨ds ++ ds', by rw [hds', hds, List.append_assoc], List.forall_mem_append.mpr ⟨havoids, havoids'⟩⟩

theorem Reports.shorten (h : Reports vs s t) (hinitial : us <+: vs) : Reports us s t := by
  obtain ⟨ds, hds, havoids⟩ := h
  exact ⟨ds, hds, fun d hd => (havoids d hd).shorten hinitial⟩

end State

namespace Pass

open State

variable {options : Options} {s t : State}

/-- Nothing that a settled answer reports quotes a class. -/
theorem classes_of_settle {rank : Nat} {a : Assign} {answer : Except ShapeError Shape} {shape : Shape}
    {ds : List Diagnostic} (h : settle rank a answer = .ok (shape, ds)) :
    ∀ d ∈ ds, d.classes = [] := by
  unfold settle at h
  split at h
  · split at h
    · cases h
      exact nofun
    · cases h
      simp [Diagnostic.classes]
  · cases h
    simp
  · cases h

theorem Recorded.cleared {a : Assign} {shape : Shape} {reads : List Assign}
    (h : Recorded a shape s reads t) (hs : s.store.Cleared us) (hshape : Avoids us shape) :
    t.store.Cleared us ∧ Reports us s t := by
  have hrecord := hs.record a.target hshape
  cases h with
  | @conflict previous h hne =>
    refine ⟨hrecord, [.conflict a.target previous shape], rfl, ?_⟩
    rw [List.forall_mem_singleton]
    exact (hs.recorded a.target previous h).append hshape
  | sized h hvisited =>
    exact ⟨(hvisited.cleared hrecord hshape).setSizeVars _ _, .of_eq hvisited.diagnostics_eq⟩

/-- An assignment, whether it fails or not, leaves nothing of the classes retired before it and by
it. -/
theorem assign_cleared (options : Options) (hs : s.store.Reserved) (hc : s.store.Cleared us)
    (a : Assign) :
    ((assign options a).run s).2.store.Cleared (us ++ instructionUnions options (.assign a) s) ∧
      Reports (us ++ instructionUnions options (.assign a) s) s ((assign options a).run s).2 := by
  cases hrank : s.rank? a.target with
  | none =>
    rw [run_assign_of_scalar options a hrank, instructionUnions_of_scalar options a hrank,
      List.append_nil]
    exact ⟨hc, .of_eq rfl⟩
  | some rank =>
    have hinferred : ShapeRule.Clears (us ++ instructionUnions options (.assign a) s)
        (inferred options a s) := by
      rw [inferred_eq_apply, instructionUnions_of_array options a hrank]
      exact ShapeRule.apply_clears _ hs hc _
    rw [run_assign_of_array options a hrank]
    cases hsettle : settle rank a (inferred options a s).1 with
    | error e => exact ⟨hinferred.store, .of_eq rfl⟩
    | ok r =>
      obtain ⟨shape, ds⟩ := r
      have hshape : Avoids (us ++ instructionUnions options (.assign a) s) shape := by
        rcases eq_of_settle hsettle with hok | rfl
        · exact hinferred.shape shape hok
        · exact hinferred.store.avoids_unknown rank
      have hbehind : Reports (us ++ instructionUnions options (.assign a) s) s
          (behind options a ds s) := by
        refine ⟨ds, rfl, fun d hd => ?_⟩
        rw [classes_of_settle hsettle d hd]
        exact nofun
      obtain ⟨hstore, hreports⟩ :=
        (recorded_record a shape (behind options a ds s)).cleared hinferred.store hshape
      exact ⟨hstore, hbehind.trans hreports⟩

theorem instruction_cleared (options : Options) (hs : s.store.Reserved) (hc : s.store.Cleared us)
    (i : Instruction) :
    ((instruction options i).run s).2.store.Cleared (us ++ instructionUnions options i s) ∧
      Reports (us ++ instructionUnions options i s) s ((instruction options i).run s).2 := by
  have hplain : s.store.Cleared (us ++ []) ∧ Reports (us ++ []) s s := by
    rw [List.append_nil]
    exact ⟨hc, .of_eq rfl⟩
  cases i with
  | assign a =>
    have hstate : ((instruction options (.assign a)).run s).2 = ((assign options a).run s).2 := by
      rw [instruction, Attempt.run_bind]
      split <;> simp_all
    rw [hstate]
    exact assign_cleared options hs hc a
  | ret => exact hplain
  | jump => exact hplain
  | branch => exact hplain
  | del => exact hplain

/-- What the log of a run names is gone at its end, also where an instruction fails. -/
theorem body_cleared (options : Options) (hs : s.store.Reserved) (hc : s.store.Cleared us)
    (is : List Instruction) :
    ((body options is).run s).2.store.Cleared (us ++ unions options is s) ∧
      Reports us s ((body options is).run s).2 := by
  induction is generalizing s us with
  | nil =>
    rw [unions, List.append_nil]
    exact ⟨hc, .of_eq rfl⟩
  | cons i is ih =>
    obtain ⟨hstore, hreports⟩ := instruction_cleared options hs hc i
    have hbefore := hreports.shorten (List.prefix_append us _)
    rcases hi : (instruction options i).run s with ⟨e | first, t⟩
    · rw [hi] at hstore hbefore
      simp only [run_body_cons_of_error hi, unions, hi, List.append_nil]
      exact ⟨hstore, hbefore⟩
    · rw [hi] at hstore hbefore
      obtain ⟨hstore', hreports'⟩ := ih ((instruction_evolution hs hi).reserved hs) hstore
      simp only [run_body_cons_of_ok hi, unions, hi, ← List.append_assoc]
      exact ⟨hstore', hbefore.trans (hreports'.shorten (List.prefix_append us _))⟩

end Pass

/-- The end of a run is the end of a run over its instructions. -/
theorem state_analyze (options : Options) (p : Program) (types : Types) (callTypes : CallTypes) :
    (analyze options p types callTypes).state =
      ((Pass.body options p.instructions).run (.start p types callTypes)).2 :=
  (Pass.blocks_eq_body options p.blocks (.start p types callTypes)).2

/-- Classes that were taken away never come back. At every point of a run, neither the recorded shapes
nor the size table show a class that a union took away before. An inference from there answers none,
the classes that it takes away itself included. And none stands in the tables at the end of the run,
finished or failed, nor in a report made later. -/
theorem reaches_cleared {options : Options} {p : Program} {types : Types} {callTypes : CallTypes}
    {before : List Instruction} {t : State} (h : Reaches options p types callTypes before t) :
    let us := Pass.unions options before (.start p types callTypes)
    Store.empty.Evolution us t.store ∧ t.store.Cleared us ∧
      (∀ (scope : Scope) (target : Var) (e : Expr) (shape : Shape) (s : Store),
        (scope.infer target e).run t.store = (.ok shape, s) →
          let us' := us ++ (scope.reading.ruleOf target e).unions scope.isArray t.store
          s.Cleared us' ∧ Avoids us' shape) ∧
      (analyze options p types callTypes).state.store.Cleared us ∧
      t.Reports us (analyze options p types callTypes).state ∧
      ∀ f, (analyze options p types callTypes).findings = .ok f → ∀ c, Retired us c →
        (∀ x shape, f.shapeOf? x = some shape → c ∉ shape) ∧ c ∉ f.classSizes.keys := by
  intro us
  obtain ⟨out, hrun⟩ := h.run
  obtain ⟨rest, hsplit⟩ := h.initial
  have hstart : (State.start p types callTypes).store.Reserved := .empty
  have hstart' : (State.start p types callTypes).store.Cleared [] := .empty
  have hevolution := Pass.body_evolution hstart hrun
  have hreserved := hevolution.reserved hstart
  have hcleared : t.store.Cleared us := by
    have hbody := (Pass.body_cleared options hstart hstart' before).1
    rw [hrun] at hbody
    exact hbody
  have hend : (analyze options p types callTypes).state.store.Cleared us ∧
      t.Reports us (analyze options p types callTypes).state := by
    obtain ⟨hstore, hreports⟩ := Pass.body_cleared options hreserved hcleared rest
    rw [state_analyze, ← hsplit, Pass.run_body_append_of_ok hrun]
    exact ⟨hstore.shorten (List.prefix_append _ _), hreports⟩
  refine ⟨hevolution, hcleared, fun scope target e shape s hinfer => ?_, hend.1, hend.2, ?_⟩
  · rw [← Scope.apply_ruleOf] at hinfer
    have hclears := ShapeRule.apply_clears scope.isArray hreserved hcleared
      (scope.reading.ruleOf target e)
    rw [hinfer] at hclears
    exact ⟨hclears.store, hclears.shape shape rfl⟩
  · intro f hf c hc
    obtain ⟨rfl, -⟩ := emits_of_findings hf
    exact ⟨fun x shape hx hmem => hend.1.recorded x shape hx c hmem hc,
      fun hmem => hend.1.sized c hmem hc⟩

/-- An array is added to its product with its transpose. The sum unites both dimensions when the
first dimension of the result is finished already. -/
def gramProgram : Program where
  name := "gram"
  argNames := ["a"]
  blocks := [
    ⟨0, [
      .assign ⟨"a", .arg 0 "a", none, 0⟩,
      .assign ⟨"t", .getattr "a" "T", none, 1⟩,
      .assign ⟨"np", .global "np" ⟨.moduleRef, "numpy"⟩, none, 2⟩,
      .assign ⟨"dot", .getattr "np" "dot", none, 3⟩,
      .assign ⟨"g", .call "dot" ["a", "t"], none, 4⟩,
      .assign ⟨"s", .binop "+" "a" "g", none, 5⟩,
      .ret "s" none]⟩]

def gramTypes : Types :=
  .ofList [("a", .arrayOf 2), ("t", .arrayOf 2), ("g", .arrayOf 2), ("s", .arrayOf 2)]

theorem reaches_cleared_gram :
    ∃ t, Reaches .standard gramProgram gramTypes (.empty 6) gramProgram.instructions t ∧
      Pass.unions .standard gramProgram.instructions (.start gramProgram gramTypes (.empty 6)) =
        [(2, 1)] ∧
      t.store.shapes.find? "s" = some [3, 3] ∧ t.store.Cleared [(2, 1)] ∧
      (analyze .standard gramProgram gramTypes (.empty 6)).outcome.isOk = true := by
  have hreaches : Reaches .standard gramProgram gramTypes (.empty 6) gramProgram.instructions _ :=
    reaches_of_isOk (List.prefix_refl _) (by decide +kernel)
  have hunions : Pass.unions .standard gramProgram.instructions
      (.start gramProgram gramTypes (.empty 6)) = [(2, 1)] := by decide +kernel
  obtain ⟨-, hcleared, -⟩ := reaches_cleared hreaches
  rw [hunions] at hcleared
  exact ⟨_, hreaches, hunions, by decide +kernel, hcleared, by decide +kernel⟩

end DimEquiv
