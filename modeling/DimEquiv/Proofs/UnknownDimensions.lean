import DimEquiv.Proofs.PlannedClasses
import DimEquiv.Proofs.ReadLookup
import DimEquiv.Proofs.RuleReading
import Mathlib.Logic.Relation

/-!
# Why a dimension is unknown

Nothing is forgotten in silence. An unknown dimension was reported where it first came up, and from
there it has spread along mentions: a copy, a sum or a product has it from an array that its
expression reads, and a parameter that is read again has it from itself. In the other direction, an
array that was reported has no known dimension any more.
-/

namespace DimEquiv

namespace Program

/-- Some assignment to `x` mentions `y`. -/
def Mentions (p : Program) (x y : Var) : Prop :=
  ∃ a ∈ p.assigns, a.target = x ∧ y ∈ a.value.vars

/-- The variable `x` is `y`, or some assignment to it mentions a variable that depends on `y`. -/
def DependsOn (p : Program) : Var → Var → Prop := Relation.ReflTransGen p.Mentions

theorem dependsOn_of_mem_vars {p : Program} {a : Assign} (ha : a ∈ p.assigns) {y : Var}
    (hy : y ∈ a.value.vars) : p.DependsOn a.target y :=
  .single ⟨a, ha, rfl, hy⟩

end Program

/-- What a variable of a set depends on is in the set, if the mentions do not lead out of it. -/
theorem Program.mem_of_dependsOn {p : Program} {xs : List Var} {x y : Var}
    (hclosed : ∀ a ∈ p.assigns, a.target ∈ xs → a.value.vars ⊆ xs) (h : p.DependsOn x y)
    (hx : x ∈ xs) : y ∈ xs := by
  induction h with
  | refl => exact hx
  | tail _ hmentions ih =>
    obtain ⟨a, ha, htarget, hy⟩ := hmentions
    exact hclosed a ha (htarget ▸ ih) hy

namespace Store

/-- Some dimension of the array is unknown. -/
def Obscure (s : Store) (x : Var) : Prop :=
  ∃ shape, s.shapes.find? x = some shape ∧ Shape.noClass ∈ shape

/-- No dimension of the array is known. -/
def Blank (s : Store) (x : Var) : Prop := ∃ rank, s.shapes.find? x = some (.unknown rank)

variable {s t : Store}

theorem obscure_iff_classAt? {x : Var} :
    s.Obscure x ↔ ∃ i, s.classAt? ⟨x, i⟩ = some Shape.noClass := by
  constructor
  · rintro ⟨shape, hshape, hmem⟩
    obtain ⟨i, hi⟩ := List.getElem?_of_mem hmem
    exact ⟨i, by rw [classAt?_of_find? hshape, hi]⟩
  · rintro ⟨i, hi⟩
    obtain ⟨shape, hshape, hi⟩ := Option.bind_eq_some_iff.mp hi
    exact ⟨shape, hshape, List.mem_of_getElem? hi⟩

/-- Renaming classes keeps an array without known dimensions as it is. -/
theorem Carries.blank {rep : Int → Int} (h : Carries s t rep) {x : Var} (hx : s.Blank x) :
    t.Blank x := by
  obtain ⟨rank, hx⟩ := hx
  refine ⟨rank, ?_⟩
  rw [h.find?_shapes, hx, Option.map_some, Shape.unknown, List.map_replicate, h.unknown]

end Store

/-! ### Inference -/

namespace ShapeRule

open Store

variable {isArray : Var → Bool} {s : Store}

/-- The arrays whose dimensions a rule may hand on: those that it reads, and a parameter. -/
def Uses (isArray : Var → Bool) (rule : ShapeRule) (x : Var) : Prop :=
  x ∈ rule.reads isArray ∨ ∃ rank, rule = parameter x rank

/-- An unknown dimension of a derived shape is one of an array that the rule reads. -/
theorem exists_obscure_of_derived {rank? : Var → Option Nat} {rule : ShapeRule} {t : Store}
    {shape : Shape} {dims joined : List (List Dimension)}
    (hrule : rule.derive isArray rank? = .shape dims joined) (h : Derived s t shape dims joined)
    (hunknown : Shape.noClass ∈ shape) : ∃ x, rule.Uses isArray x ∧ s.Obscure x := by
  obtain ⟨i, hi⟩ := List.getElem?_of_mem hunknown
  have hlt : i < dims.length := h.length_eq ▸ (List.getElem?_eq_some_iff.mp hi).1
  have hlisted := List.getElem?_eq_getElem hlt
  obtain ⟨d, hd, hclass⟩ := (h.unknown_iff_of_listed i _ hlisted).mp hi
  have hsource : dims[i] ∈ (rule.derive isArray rank?).sources := by
    rw [hrule]
    exact List.mem_append_left _ (List.getElem_mem hlt)
  exact ⟨d.array, .inl (mem_reads_of_source hsource hd).1, obscure_iff_classAt?.mpr ⟨d.index, hclass⟩⟩

/-- Where applying a rule does not end the analysis, recorded arrays keep their known and their
unknown dimensions, and an unknown dimension of the result is one of an array that the rule uses. -/
theorem obscure_apply (hs : s.Reserved) (rule : ShapeRule)
    (hmild : ∀ e, ((rule.apply isArray).run s).1 = .error e → e.isFatal = false) :
    (∀ x, ((rule.apply isArray).run s).2.Obscure x ↔ s.Obscure x) ∧
      ∀ shape, ((rule.apply isArray).run s).1 = .ok shape → Shape.noClass ∈ shape →
        ∃ x, rule.Uses isArray x ∧ s.Obscure x := by
  by_cases hagain : ∃ name rank, rule = parameter name rank ∧ s.has name = true
  · obtain ⟨name, rank, rfl, hhas⟩ := hagain
    have hrun : ((parameter name rank).apply isArray).run s = (s.lookup name, s) := by
      simp only [apply, Attempt.run_bind, Attempt.run_ofReader, hhas]
      rfl
    rw [hrun]
    refine ⟨fun x => Iff.rfl, fun shape hlook hunknown => ?_⟩
    exact ⟨name, .inr ⟨rank, rfl⟩, shape, (lookup_eq_ok_iff ..).mp hlook, hunknown⟩
  · have hnew : ∀ name rank, rule = parameter name rank → s.shapes.find? name = none := by
      rintro name rank rfl
      have hhas : s.has name ≠ true := fun hhas => hagain ⟨name, rank, rfl, hhas⟩
      rwa [has, Table.contains, ne_eq, Option.not_isSome_iff_eq_none] at hhas
    have hfollowed : s.Followed (rule.derive isArray fun x => (s.shapes.find? x).map List.length)
        ((rule.apply isArray).run s).1 ((rule.apply isArray).run s).2 :=
      followed hs rule (fun _ _ => rfl) hnew
    generalize hrule : rule.derive isArray _ = derivation at hfollowed
    generalize (rule.apply isArray).run s = r at hmild hfollowed ⊢
    obtain ⟨answer, t⟩ := r
    have hjoined : ∀ {groups}, Joined s t groups → ∀ x, t.Obscure x ↔ s.Obscure x := by
      intro groups hjoined x
      simp only [obscure_iff_classAt?, hjoined.unknown_iff]
    cases hfollowed with
    | @failure e _ hfatal =>
      rw [hmild e rfl] at hfatal
      cases hfatal
    | unknown h =>
      refine ⟨hjoined h, fun shape hshape => ?_⟩
      cases hshape
    | shape h =>
      refine ⟨hjoined h.toJoined, fun shape hshape hunknown => ?_⟩
      cases hshape
      exact exists_obscure_of_derived hrule h hunknown

end ShapeRule

namespace Reading

variable {r : Reading} {isArray : Var → Bool} {p : Program} {a : Assign} {x : Var}

/-- What the rule of an assignment uses, its target depends on. -/
theorem dependsOn_of_uses (ha : a ∈ p.assigns)
    (hreceivers : ∀ func name y, r.callee? func = some (.named name (some y)) → p.DependsOn func y)
    (h : (r.ruleOf a.target a.value).Uses isArray x) : p.DependsOn a.target x := by
  rcases h with hreads | ⟨rank, hparameter⟩
  · refine settled_of_mem_reads (fun func name y hfunc hcallee => ?_) a.target (fun y hy => ?_) hreads
    · exact hfunc.trans (hreceivers func name y hcallee)
    · exact Program.dependsOn_of_mem_vars ha (Expr.mem_mentions.mp hy).1
  · obtain ⟨index, hvalue⟩ := exists_arg_of_ruleOf hparameter
    refine Program.dependsOn_of_mem_vars ha ?_
    rw [hvalue]
    exact List.mem_cons_self

end Reading

/-! ### Methods -/

/-- A variable that holds a method depends on its receiver. -/
def Symbols.MethodsDepend (t : Symbols) (p : Program) : Prop :=
  ∀ func call, t.methodCalls.find? func = some call → p.DependsOn func call.receiver

theorem Symbols.MethodsDepend.observe {t : Symbols} {p : Program} (h : t.MethodsDepend p)
    (isArray : Var → Bool) {a : Assign} (ha : a ∈ p.assigns) :
    (t.observe isArray a).MethodsDepend p := by
  rcases t.observe_cases isArray a with ⟨hsame, -⟩ | ⟨role, henter, hgives⟩
  · rw [hsame]
    exact h
  · rw [henter]
    intro func call hcall
    rcases Symbols.holds_of_enter (.methodCall call) hcall with ⟨rfl, rfl⟩ | hcall
    · exact Program.dependsOn_of_mem_vars ha (Expr.mem_mentions.mp hgives.receiver_mem).1
    · exact h func call hcall

/-! ### The analysis -/

/-- The unknown dimensions of the arrays in a state are explained by the reports: an array with one
depends on a reported array, and a reported array has no other. -/
structure State.Explained (p : Program) (s : State) : Prop where
  methods : s.symbols.MethodsDepend p
  obscure : ∀ x, s.store.Obscure x → ∃ d ∈ s.diagnostics, p.DependsOn x d.target
  reported : ∀ d ∈ s.diagnostics, s.store.Blank d.target

namespace Pass

variable {options : Options} {a : Assign} {s t : State} {rank : Nat} {shape : Shape}
  {ds : List Diagnostic} {answer : Except ShapeError Shape}

theorem isFatal_eq_false_of_settle (h : settle rank a answer = .ok (shape, ds)) {e : ShapeError}
    (he : answer = .error e) : e.isFatal = false := by
  refine Bool.eq_false_iff.mpr fun hfatal => ?_
  rw [settle_eq_error_iff.mpr ⟨he, hfatal⟩] at h
  cases h

/-- The target gets the shape, if it has no other, or a report and no known dimension. -/
theorem Recorded.target_cases {reads : List Assign} (h : Recorded a shape s reads t) :
    (t.store.shapes.find? a.target = some shape ∧ t.diagnostics = s.diagnostics ∧
        ∀ previous, s.store.shapes.find? a.target = some previous → previous = shape) ∨
      (t.store.Blank a.target ∧
        ∃ d, t.diagnostics = s.diagnostics ++ [d] ∧ d.target = a.target) := by
  have htarget := h.find?_shapes a.target
  rw [Store.find?_shapes_record, if_pos rfl] at htarget
  cases h with
  | @conflict previous hprevious hne =>
    rw [hprevious] at htarget
    dsimp only at htarget
    rw [if_neg hne] at htarget
    exact .inr ⟨⟨_, htarget⟩, _, rfl, rfl⟩
  | sized hcompatible hvisited =>
    refine .inl ⟨htarget.trans ?_, hvisited.diagnostics_eq, hcompatible⟩
    cases hfind : s.store.shapes.find? a.target with
    | none => rfl
    | some previous => simp [hcompatible previous hfind]

theorem Recorded.diagnostics_subset {reads : List Assign} (h : Recorded a shape s reads t) :
    s.diagnostics ⊆ t.diagnostics := by
  rcases h.target_cases with ⟨-, hdiagnostics, -⟩ | ⟨-, new, hdiagnostics, -⟩
  · exact hdiagnostics ▸ List.Subset.refl _
  · exact hdiagnostics ▸ List.subset_append_left _ _

/-- Only the target is reported anew. -/
theorem Recorded.mem_of_ne {reads : List Assign} (h : Recorded a shape s reads t) {d : Diagnostic}
    (hd : d ∈ t.diagnostics) (hne : a.target ≠ d.target) : d ∈ s.diagnostics := by
  rcases h.target_cases with ⟨-, hdiagnostics, -⟩ | ⟨-, new, hdiagnostics, hnew⟩
  · exact hdiagnostics ▸ hd
  · rw [hdiagnostics] at hd
    rcases List.mem_append.mp hd with hd | hd
    · exact hd
    · exact absurd (hnew ▸ List.mem_singleton.mp hd ▸ rfl) hne

/-- Recording a shape with explained unknown dimensions leaves those of all arrays explained. -/
theorem Recorded.exists_of_obscure {p : Program} {reads : List Assign}
    (h : Recorded a shape s reads t)
    (hobscure : ∀ x, s.store.Obscure x → ∃ d ∈ s.diagnostics, p.DependsOn x d.target)
    (hshape : Shape.noClass ∈ shape → ∃ d ∈ s.diagnostics, p.DependsOn a.target d.target) {x : Var}
    (hx : t.store.Obscure x) : ∃ d ∈ t.diagnostics, p.DependsOn x d.target := by
  by_cases htarget : a.target = x
  · subst htarget
    rcases h.target_cases with ⟨hfind, hdiagnostics, -⟩ | ⟨-, new, hdiagnostics, hnew⟩
    · obtain ⟨known, hknown, hmem⟩ := hx
      obtain rfl := Option.some.inj (hfind.symm.trans hknown)
      exact hdiagnostics ▸ hshape hmem
    · rw [hdiagnostics]
      exact ⟨new, List.mem_append_right _ List.mem_cons_self, hnew ▸ .refl⟩
  · obtain ⟨known, hknown, hmem⟩ := hx
    rw [h.find?_shapes_of_ne htarget] at hknown
    obtain ⟨d, hd, hdepends⟩ := hobscure x ⟨known, hknown, hmem⟩
    exact ⟨d, h.diagnostics_subset hd, hdepends⟩

/-- Where reported arrays have no known dimension, or get a shape without one, they have none after. -/
theorem Recorded.blank_of_mem {reads : List Assign} (h : Recorded a shape s reads t)
    (hreported : ∀ d ∈ s.diagnostics,
      s.store.Blank d.target ∨ (d.target = a.target ∧ ∃ rank, shape = .unknown rank))
    {d : Diagnostic} (hd : d ∈ t.diagnostics) : t.store.Blank d.target := by
  by_cases htarget : a.target = d.target
  · rcases h.target_cases with ⟨hfind, hdiagnostics, hcompatible⟩ | ⟨hblank, -⟩
    · have hcase := hreported d (hdiagnostics ▸ hd)
      rw [← htarget] at hcase ⊢
      rcases hcase with ⟨rank, hblank⟩ | ⟨-, rank, rfl⟩
      · exact ⟨rank, hfind.trans (congrArg some (hcompatible _ hblank).symm)⟩
      · exact ⟨rank, hfind⟩
    · exact htarget ▸ hblank
  · rcases hreported d (h.mem_of_ne hd htarget) with ⟨rank, hblank⟩ | ⟨hsame, -⟩
    · exact ⟨rank, (h.find?_shapes_of_ne htarget).trans hblank⟩
    · exact absurd hsame.symm htarget

/-- What an assignment leaves unknown is explained if all was explained before. -/
theorem Assigned.explained {p : Program} {reads : List Assign} (h : Assigned options a s reads t)
    (hs : s.Explained p) (hreserved : s.store.Reserved) (ha : a ∈ p.assigns) : t.Explained p := by
  have hmethods := hs.methods.observe s.types.isArray ha
  cases h with
  | scalar hscalar => exact ⟨hmethods, hs.obscure, hs.reported⟩
  | @array rank shape ds _ _ harray hsettle hrecorded =>
    obtain ⟨rep, hcarries⟩ := (outcome_inferred options a s).carries hreserved.bounded
    obtain ⟨hobscure, hresult⟩ := ShapeRule.obscure_apply hreserved
      (((s.observe a).scope options).reading.ruleOf a.target a.value) fun e he =>
        isFatal_eq_false_of_settle hsettle ((congrArg Prod.fst (inferred_eq_apply options a s)).trans he)
    rw [← inferred_eq_apply] at hobscure hresult
    refine ⟨by rwa [hrecorded.symbols_eq],
      fun _ => hrecorded.exists_of_obscure (fun x hx => ?_) fun hunknown => ?_,
      fun _ => hrecorded.blank_of_mem fun d hd => ?_⟩
    · obtain ⟨d, hd, hdepends⟩ := hs.obscure x ((hobscure x).mp hx)
      exact ⟨d, List.mem_append_left ds hd, hdepends⟩
    · rcases settle_cases hsettle with ⟨hanswer, -⟩ | ⟨-, d, rfl, htarget⟩
      · obtain ⟨x, huses, hx⟩ := hresult shape hanswer hunknown
        obtain ⟨d, hd, hdepends⟩ := hs.obscure x hx
        refine ⟨d, List.mem_append_left ds hd, .trans ?_ hdepends⟩
        refine Reading.dependsOn_of_uses ha (fun func name y hcallee => ?_) huses
        obtain ⟨call, hcall, rfl⟩ := Symbols.methodCall_of_callee? hcallee
        exact hmethods func call hcall
      · exact ⟨d, List.mem_append_right _ List.mem_cons_self, htarget ▸ .refl⟩
    · rcases List.mem_append.mp hd with hd | hd
      · exact .inl (hcarries.blank (hs.reported d hd))
      · rcases settle_cases hsettle with ⟨-, rfl⟩ | ⟨hshape, new, rfl, htarget⟩
        · cases hd
        · exact .inr ⟨List.mem_singleton.mp hd ▸ htarget, rank, hshape⟩

/-- A run keeps the unknown dimensions explained. -/
theorem Emits.explained {p : Program} {as out : List Assign} (h : Emits options s as out t)
    (hs : s.Explained p) (hreserved : s.store.Reserved) (has : as ⊆ p.assigns) : t.Explained p := by
  induction h with
  | nil => exact hs
  | cons ha _ ih =>
    have hassigned := assigned_of_run ha
    obtain ⟨hfirst, hrest⟩ := List.cons_subset.mp has
    exact ih (hassigned.explained hs hreserved hfirst)
      ((hassigned.evolution hreserved).reserved hreserved) hrest

end Pass

theorem State.explained_start (p : Program) (types : Types) (callTypes : CallTypes) :
    (State.start p types callTypes).Explained p where
  methods := by
    change (Symbols.empty.scan p).MethodsDepend p
    rw [Symbols.scan_eq]
    exact nofun
  obscure := by
    rintro x ⟨shape, hshape, -⟩
    cases hshape
  reported := nofun

/-- Unknown dimensions are explained by the reports of the analysis. An array that depends on no
reported array has no unknown dimension, so where nothing was reported there is none at all. A reported
array has only unknown dimensions. -/
theorem analyze_unknown_explained {options : Options} {p : Program} {types : Types}
    {callTypes : CallTypes} {f : Findings}
    (h : (analyze options p types callTypes).findings = .ok f) :
    (∀ x shape, f.shapeOf? x = some shape → (∀ d ∈ f.diagnostics, ¬ p.DependsOn x d.target) →
        Shape.noClass ∉ shape) ∧
      (f.diagnostics = [] → ∀ x shape, f.shapeOf? x = some shape → Shape.noClass ∉ shape) ∧
      ∀ d ∈ f.diagnostics, ∃ rank, f.shapeOf? d.target = some (.unknown rank) := by
  obtain ⟨rfl, hrun⟩ := emits_of_findings h
  have hexplained := hrun.explained (State.explained_start p types callTypes) .empty
    (List.Subset.refl _)
  have hclear : ∀ x shape,
      (Findings.ofState (analyze options p types callTypes).state).shapeOf? x = some shape →
      (∀ d ∈ (analyze options p types callTypes).state.diagnostics, ¬ p.DependsOn x d.target) →
      Shape.noClass ∉ shape := by
    intro x shape hx hnone hunknown
    obtain ⟨d, hd, hdepends⟩ := hexplained.obscure x ⟨shape, hx, hunknown⟩
    exact hnone d hd hdepends
  refine ⟨hclear, fun hnil x shape hx => hclear x shape hx fun d hd => ?_, hexplained.reported⟩
  have hmem : d ∈ ([] : List Diagnostic) := hnil ▸ hd
  cases hmem

/-- The imaginary part of an array has no rule. A sum takes its unknown dimensions up, and a method of
the sum hands them on. Another sum stays clear of them. -/
def tintedProgram : Program where
  name := "tinted"
  argNames := ["a", "b"]
  blocks := [
    ⟨0, [
      .assign ⟨"a", .arg 0 "a", none, 0⟩,
      .assign ⟨"b", .arg 1 "b", none, 1⟩,
      .assign ⟨"i", .getattr "a" "imag", none, 2⟩,
      .assign ⟨"s", .binop "+" "i" "b", none, 3⟩,
      .assign ⟨"m", .getattr "s" "transpose", none, 4⟩,
      .assign ⟨"t", .call "m" [], none, 5⟩,
      .assign ⟨"c", .binop "+" "a" "b", none, 6⟩,
      .ret "t" none]⟩]

def tintedTypes : Types :=
  .ofList [("a", .arrayOf 2), ("b", .arrayOf 1), ("i", .arrayOf 2), ("s", .arrayOf 2),
    ("t", .arrayOf 2), ("c", .arrayOf 2)]

theorem analyze_unknown_explained_tinted :
    ∃ f, (analyze .standard tintedProgram tintedTypes (.empty 7)).findings = .ok f ∧
      f.diagnostics.map Diagnostic.target = ["i"] ∧ f.shapeOf? "t" = some [-1, -1] ∧
      ¬ tintedProgram.DependsOn "c" "i" ∧
      ∃ shape, f.shapeOf? "c" = some shape ∧ shape.length = 2 ∧ Shape.noClass ∉ shape := by
  have hrun : (analyze .standard tintedProgram tintedTypes (.empty 7)).findings =
      .ok (.ofState (analyze .standard tintedProgram tintedTypes (.empty 7)).state) :=
    Run.findings_of_isOk (by decide +kernel)
  obtain ⟨f, hf, htargets, ht, hc⟩ : ∃ f,
      (analyze .standard tintedProgram tintedTypes (.empty 7)).findings = .ok f ∧
        f.diagnostics.map Diagnostic.target = ["i"] ∧ f.shapeOf? "t" = some [-1, -1] ∧
        f.shapeOf? "c" = some [1, 4] :=
    ⟨_, hrun, by decide +kernel, by decide +kernel, by decide +kernel⟩
  have hclosed : ∀ a ∈ tintedProgram.assigns, a.target ∈ ["a", "b", "c"] →
      a.value.vars ⊆ ["a", "b", "c"] := by decide +kernel
  have hclear : ¬ tintedProgram.DependsOn "c" "i" := fun h =>
    absurd (Program.mem_of_dependsOn hclosed h (by decide)) (by decide)
  obtain ⟨hknown, -⟩ := analyze_unknown_explained hf
  refine ⟨f, hf, htargets, ht, hclear, _, hc, rfl, hknown "c" _ hc fun d hd hdepends => ?_⟩
  have htarget : d.target ∈ ["i"] := htargets ▸ List.mem_map_of_mem hd
  exact hclear (List.mem_singleton.mp htarget ▸ hdepends)

end DimEquiv
