import DimEquiv.Proofs.RunSteps
import DimEquiv.Splice

/-!
# The rewrite adds reads and nothing else

Every read that an analysis adds declares three new variables and takes three new sites, one of them
with a call signature of its own. Since a table never has a key twice, what is appended to the types
is new there, and no two of the variables are the same.
-/

namespace DimEquiv

/-- The state `t` has more variables and call signatures than `s`: those declared, at the end of the
types, and an open signature for each of the `resolved` sites, all of them new. -/
structure State.Adds (s : State) (declared : List (Var × StaticType)) (sites resolved : List Nat)
    (t : State) : Prop where
  types : t.types.toList = s.types.toList ++ declared
  callTypes : t.callTypes.entries.toList =
    s.callTypes.entries.toList ++ resolved.map fun site => (site, none)
  next_le : s.callTypes.next ≤ t.callTypes.next
  sites_new : ∀ site ∈ sites, s.callTypes.next ≤ site ∧ site < t.callTypes.next
  sites_nodup : sites.Nodup

namespace State.Adds

variable {s t u : State} {declared declared' : List (Var × StaticType)}
  {sites sites' resolved resolved' : List Nat}

theorem of_eq (htypes : t.types = s.types) (hcallTypes : t.callTypes = s.callTypes) :
    Adds s [] [] [] t where
  types := by rw [htypes, List.append_nil]
  callTypes := by rw [hcallTypes, List.map_nil, List.append_nil]
  next_le := Nat.le_of_eq (congrArg CallTypes.next hcallTypes.symm)
  sites_new := by simp
  sites_nodup := .nil

theorem append (h : Adds s declared sites resolved t) (h' : Adds t declared' sites' resolved' u) :
    Adds s (declared ++ declared') (sites ++ sites') (resolved ++ resolved') u where
  types := by rw [h'.types, h.types, List.append_assoc]
  callTypes := by rw [h'.callTypes, h.callTypes, List.map_append, List.append_assoc]
  next_le := Nat.le_trans h.next_le h'.next_le
  sites_new := by
    intro site hsite
    rcases List.mem_append.mp hsite with hsite | hsite
    · have hbounds := h.sites_new site hsite
      exact ⟨hbounds.1, Nat.lt_of_lt_of_le hbounds.2 h'.next_le⟩
    · have hbounds := h'.sites_new site hsite
      exact ⟨Nat.le_trans h.next_le hbounds.1, hbounds.2⟩
  sites_nodup := by
    apply h.sites_nodup.append h'.sites_nodup
    intro site hsite hsite'
    have hlt := (h.sites_new site hsite).2
    have hle := (h'.sites_new site hsite').1
    omega

theorem congr (h : Adds s declared sites resolved t) (htypes : u.types = t.types)
    (hcallTypes : u.callTypes = t.callTypes) : Adds s declared sites resolved u := by
  have h' := h.append (.of_eq htypes hcallTypes)
  rwa [List.append_nil, List.append_nil, List.append_nil] at h'

/-- What is declared is new in the types, and declared once. -/
theorem fresh (h : Adds s declared sites resolved t) :
    (declared.map Prod.fst).Nodup ∧ ∀ x ∈ declared.map Prod.fst, s.types.contains x = false := by
  have hnodup := t.types.nodup
  rw [h.types, List.map_append, List.nodup_append] at hnodup
  refine ⟨hnodup.2.1, fun x hx => ?_⟩
  rw [Bool.eq_false_iff]
  intro hcontains
  exact hnodup.2.2 x ((s.types.contains_iff_mem_keys x).mp hcontains) x hx rfl

theorem declare (stem : String) (type : StaticType) (s : State) :
    Adds s [((s.declare stem type).1, type)] [] [] (s.declare stem type).2 where
  types := by
    have hnew : s.types.find? (s.declare stem type).1 = none := find?_declare_of_fresh stem type s
    apply Table.toList_insert_of_notMem
    intro hmem
    rw [← Table.contains_iff_mem_keys, Table.contains] at hmem
    exact Option.not_isSome_iff_eq_none.mpr hnew hmem
  callTypes := (List.append_nil _).symm
  next_le := Nat.le_refl _
  sites_new := by simp
  sites_nodup := .nil

theorem newSite (s : State) : Adds s [] [s.newSite.1] [] s.newSite.2 where
  types := (List.append_nil _).symm
  callTypes := (List.append_nil _).symm
  next_le := Nat.le_succ _
  sites_new := by
    rintro site hsite
    rw [List.mem_singleton.mp hsite]
    exact ⟨Nat.le_refl _, Nat.lt_succ_self _⟩
  sites_nodup := List.nodup_singleton _

theorem newSelfResolvedSite (s : State) :
    Adds s [] [s.newSelfResolvedSite.1] [s.newSelfResolvedSite.1] s.newSelfResolvedSite.2 where
  types := (List.append_nil _).symm
  callTypes := s.callTypes.toList_insert_next none
  next_le := Nat.le_max_left _ _
  sites_new := by
    rintro site hsite
    rw [List.mem_singleton.mp hsite]
    exact ⟨Nat.le_refl _, Nat.lt_of_lt_of_le (Nat.lt_succ_self _) (Nat.le_max_right _ _)⟩
  sites_nodup := List.nodup_singleton _

end State.Adds

namespace SizeRead

variable (array : Var) (rank dim : Nat) (loc : Option Loc) (s : State)

/-- A generated read declares its variables and takes its sites. -/
theorem adds_generate :
    ∃ r : DimensionRead, r.dim = dim ∧
      ((generate array rank dim loc).run s).1.1 = r.assigns array loc ∧
      s.Adds (r.declared rank) r.sites [r.sizeSite] ((generate array rank dim loc).run s).2 := by
  have htuple := State.Adds.declare (array ++ "_sh_attr" ++ toString dim) (.uniTuple .int64 rank) s
  have hindex := htuple.append (.declare ("$const" ++ array ++ toString dim) .int64 _)
  have hsize := hindex.append (.declare (array ++ "size" ++ toString dim) .int64 _)
  have hsites := ((hsize.append (.newSite _)).append (.newSite _)).append (.newSelfResolvedSite _)
  exact ⟨⟨dim, _, _, _, _, _, _⟩, rfl, rfl, hsites⟩

/-- A dimension is read if nothing stands for it and the program reads it nowhere. -/
theorem adds_dimension (c : Int) :
    ∃ reads : List DimensionRead,
      reads.map DimensionRead.dim =
        (if standing? c s = none ∧ s.symbols.fetch? array dim = none then [dim] else []) ∧
      ((dimension array rank loc c dim).run s).1.1 = reads.flatMap (·.assigns array loc) ∧
      s.Adds (reads.flatMap (·.declared rank)) (reads.flatMap DimensionRead.sites)
        (reads.map DimensionRead.sizeSite) ((dimension array rank loc c dim).run s).2 := by
  cases hstanding : standing? c s with
  | some size =>
    rw [run_dimension_of_standing array rank dim loc c s hstanding]
    exact ⟨[], rfl, rfl, .of_eq rfl rfl⟩
  | none =>
    cases hfetch : s.symbols.fetch? array dim with
    | some x =>
      rw [run_dimension_of_fetched array rank dim loc c s hstanding hfetch]
      exact ⟨[], rfl, rfl, .of_eq rfl rfl⟩
    | none =>
      obtain ⟨r, hdim, hassigns, hadds⟩ := adds_generate array rank dim loc s
      rw [run_dimension_of_generated array rank dim loc c s hstanding hfetch]
      refine ⟨[r], ?_, ?_, ?_⟩
      · rw [if_pos ⟨rfl, rfl⟩, List.map_singleton, hdim]
      · rw [List.flatMap_singleton]
        exact hassigns
      · rw [List.flatMap_singleton, List.flatMap_singleton]
        exact hadds.congr rfl rfl

/-- Of the dimensions from `first` on, of the given classes, dimension `first + i` needs a read of its own:
the program reads it nowhere, and it is unknown, or its class has no size value and stands at no earlier
place. -/
def NeedsRead (s : State) (array : Var) (first : Nat) (cs : Shape) (i : Nat) : Prop :=
  s.symbols.fetch? array ((first + i : Nat) : Int) = none ∧
    ∃ c ∈ cs[i]?, c = Shape.noClass ∨ (s.store.representative? c = none ∧ c ∉ cs.take i)

instance (s : State) (array : Var) (first : Nat) (cs : Shape) :
    DecidablePred (NeedsRead s array first cs) :=
  fun _ => inferInstanceAs (Decidable (_ ∧ _))

theorem needsRead_zero (c : Int) (cs : Shape) :
    NeedsRead s array dim (c :: cs) 0 ↔
      standing? c s = none ∧ s.symbols.fetch? array dim = none := by
  unfold NeedsRead standing?
  by_cases hc : c = Shape.noClass <;> simp [hc, and_comm]

/-- Once a dimension has its size value, its class needs no other. -/
theorem Visited.representative?_eq_none_iff {array : Var} {dim : Nat} {c d : Int} {s t : State}
    {reads : List Assign} {size : SizeValue} (h : Visited array dim c s reads size t)
    (hd : d ≠ Shape.noClass) :
    t.store.representative? d = none ↔ s.store.representative? d = none ∧ d ≠ c := by
  rcases h.store_eq with ⟨hsome, hstore⟩ | ⟨-, hstore⟩
  · rw [hstore]
    refine ⟨fun hnone => ⟨hnone, ?_⟩, And.left⟩
    rintro rfl
    rw [standing?, if_neg hd, hnone] at hsome
    cases hsome
  · rw [hstore, Store.representative?, Store.sizesOf_represent, Store.representative?]
    by_cases hdc : c = d
    · simp [hdc, hd]
    · simp [hdc, Ne.symm hdc]

theorem needsRead_succ {array : Var} {dim : Nat} {c : Int} {s t : State} {reads : List Assign}
    {size : SizeValue} (h : Visited array dim c s reads size t) (cs : Shape) (i : Nat) :
    NeedsRead s array dim (c :: cs) (i + 1) ↔ NeedsRead t array (dim + 1) cs i := by
  have hplace : dim + (i + 1) = dim + 1 + i := by omega
  unfold NeedsRead
  rw [h.symbols_eq, hplace, List.getElem?_cons_succ, List.take_succ_cons]
  refine and_congr_right fun _ => exists_congr fun d => and_congr_right fun _ => ?_
  by_cases hd : d = Shape.noClass
  · simp [hd]
  · rw [h.representative?_eq_none_iff hd, List.mem_cons, not_or, and_assoc]

/-- The first dimension aside, those need reads that need them once it has its size value. -/
theorem filter_needsRead_cons {array : Var} {dim : Nat} {c : Int} {s t : State} {reads : List Assign}
    {size : SizeValue} (h : Visited array dim c s reads size t) (cs : Shape) :
    ((List.range (cs.length + 1)).filter (NeedsRead s array dim (c :: cs) ·)).map (dim + ·) =
      (if standing? c s = none ∧ s.symbols.fetch? array dim = none then [dim] else []) ++
        ((List.range cs.length).filter (NeedsRead t array (dim + 1) cs ·)).map (dim + 1 + ·) := by
  have hrest : ((List.range cs.length).map Nat.succ).filter (NeedsRead s array dim (c :: cs) ·) =
      ((List.range cs.length).filter (NeedsRead t array (dim + 1) cs ·)).map Nat.succ := by
    rw [List.filter_map]
    congr 1
    apply List.filter_congr
    intro i _
    exact decide_eq_decide.mpr (needsRead_succ h cs i)
  have hshift : (dim + ·) ∘ Nat.succ = (dim + 1 + ·) := by
    funext i
    exact (Nat.succ_add_eq_add_succ dim i).symm
  rw [List.range_succ_eq_map, List.filter_cons, hrest]
  simp only [decide_eq_true_eq, needsRead_zero]
  split
  · rw [List.map_cons, List.map_map, hshift]
    rfl
  · rw [List.map_map, hshift]
    rfl

/-- Of the dimensions from `dim` on, those are read that need it, in order. -/
theorem adds_dimensions (cs : Shape) :
    ∃ reads : List DimensionRead,
      reads.map DimensionRead.dim =
        ((List.range cs.length).filter (NeedsRead s array dim cs ·)).map (dim + ·) ∧
      ((dimensions array rank loc dim cs).run s).1.instructions =
        reads.flatMap (·.assigns array loc) ∧
      s.Adds (reads.flatMap (·.declared rank)) (reads.flatMap DimensionRead.sites)
        (reads.map DimensionRead.sizeSite) ((dimensions array rank loc dim cs).run s).2 := by
  induction cs generalizing dim s with
  | nil => exact ⟨[], rfl, rfl, .of_eq rfl rfl⟩
  | cons c cs ih =>
    have hvisited := visited_dimension array rank dim loc c s
    obtain ⟨here, hhere, hassigns, hadds⟩ := adds_dimension array rank dim loc s c
    obtain ⟨later, hlater, hassigns', hadds'⟩ :=
      ih (dim + 1) ((dimension array rank loc c dim).run s).2
    rw [run_dimensions_cons]
    refine ⟨here ++ later, ?_, ?_, ?_⟩
    · rw [List.map_append, hhere, hlater, List.length_cons, filter_needsRead_cons hvisited]
    · rw [List.flatMap_append, ← hassigns, ← hassigns']
    · rw [List.flatMap_append, List.flatMap_append, List.map_append]
      exact hadds.append hadds'

end SizeRead

namespace Pass

variable {options : Options} {s t : State} {types : Types}

/-- Recording a shape adds reads of its dimensions only. -/
theorem adds_record (a : Assign) (shape : Shape) (s : State) :
    ∃ reads : List DimensionRead, (reads.map DimensionRead.dim).Pairwise (· < ·) ∧
      (∀ r ∈ reads, r.dim < shape.length) ∧
      (record a shape s).1 = reads.flatMap (·.assigns a.target a.loc) ∧
      s.Adds (reads.flatMap (·.declared shape.length)) (reads.flatMap DimensionRead.sites)
        (reads.map DimensionRead.sizeSite) (record a shape s).2 := by
  by_cases h : ∀ previous, s.store.shapes.find? a.target = some previous → previous = shape
  · rw [record_of_compatible a h]
    obtain ⟨reads, hdims, hassigns, hadds⟩ :=
      SizeRead.adds_dimensions a.target shape.length 0 a.loc
        { s with store := (s.store.record a.target shape).2 } shape
    simp only [Nat.zero_add, List.map_id'] at hdims
    refine ⟨reads, ?_, fun r hr => ?_, hassigns, ?_⟩
    · rw [hdims]
      exact List.pairwise_lt_range.filter _
    · have hmem : r.dim ∈ reads.map DimensionRead.dim := List.mem_map_of_mem hr
      rw [hdims] at hmem
      exact List.mem_range.mp (List.mem_of_mem_filter hmem)
    · have hbefore : s.Adds [] [] [] { s with store := (s.store.record a.target shape).2 } :=
        .of_eq rfl rfl
      exact (hbefore.append hadds).congr rfl rfl
  · push Not at h
    obtain ⟨previous, h, hne⟩ := h
    rw [record_of_conflict a h hne]
    exact ⟨[], .nil, by simp, rfl, .of_eq rfl rfl⟩

/-- Nothing stands behind an assignment to a scalar, and reads of its target behind any other. -/
theorem adds_assign {a : Assign} {reads : List Assign}
    (hrank : ∀ x, s.rank? x = (types.find? x).bind StaticType.rank?)
    (h : (assign options a).run s = (.ok reads, t)) :
    (reads = [] ∧ s.Adds [] [] [] t) ∨
      ∃ splice : Splice types, splice.assign = a ∧ splice.inserted = reads ∧
        s.Adds splice.declared splice.sites splice.sizeSites t := by
  cases htarget : s.rank? a.target with
  | none =>
    rw [run_assign_of_scalar options a htarget] at h
    cases h
    exact .inl ⟨rfl, .of_eq rfl rfl⟩
  | some rank =>
    rw [run_assign_of_array options a htarget] at h
    cases hsettle : settle rank a (inferred options a s).1 with
    | error e => simp [hsettle] at h
    | ok r =>
      obtain ⟨shape, ds⟩ := r
      simp only [hsettle, Prod.mk.injEq, Except.ok.injEq] at h
      obtain ⟨rfl, rfl⟩ := h
      obtain ⟨dims, hincreasing, hbounds, hassigns, hadds⟩ :=
        adds_record a shape (behind options a ds s)
      rw [length_of_settle hsettle] at hbounds hadds
      have hbefore : s.Adds [] [] [] (behind options a ds s) := .of_eq rfl rfl
      have hsplice : (types.find? a.target).bind StaticType.rank? = some rank := by
        rw [← hrank, htarget]
      exact .inr ⟨⟨a, rank, dims, hsplice, hincreasing, hbounds⟩, rfl, hassigns.symm,
        hbefore.append hadds⟩

/-- The types that a run reads and never changes give every variable its number of dimensions. -/
theorem rank?_of_run_assign {a : Assign} {reads : List Assign}
    (h : (assign options a).run s = (.ok reads, t)) (x : Var) : t.rank? x = s.rank? x :=
  (assigned_of_run h).declared.rank?_eq x

theorem spliced_instruction {i : Instruction} {is : List Instruction}
    (hrank : ∀ x, s.rank? x = (types.find? x).bind StaticType.rank?)
    (h : (instruction options i).run s = (.ok is, t)) :
    ∃ ss : List (Splice types), Spliced types [i] ss is ∧
      s.Adds (ss.flatMap Splice.declared) (ss.flatMap Splice.sites) (ss.flatMap Splice.sizeSites) t ∧
      ∀ x, t.rank? x = s.rank? x := by
  cases i with
  | assign a =>
    simp only [instruction, Attempt.run_bind] at h
    split at h
    · rename_i reads t' ha
      cases h
      have hrank' := rank?_of_run_assign ha
      rcases adds_assign hrank ha with ⟨rfl, hadds⟩ | ⟨splice, rfl, rfl, hadds⟩
      · exact ⟨[], .kept _ .nil, hadds, hrank'⟩
      · have hspliced := Spliced.behind splice .nil
        rw [List.append_nil] at hspliced
        refine ⟨[splice], hspliced, ?_, hrank'⟩
        rw [List.flatMap_singleton, List.flatMap_singleton, List.flatMap_singleton]
        exact hadds
    · cases h
  | _ =>
    cases h
    exact ⟨[], .kept _ .nil, .of_eq rfl rfl, fun _ => rfl⟩

theorem spliced_body {is out : List Instruction}
    (hrank : ∀ x, s.rank? x = (types.find? x).bind StaticType.rank?)
    (h : (body options is).run s = (.ok out, t)) :
    ∃ ss : List (Splice types), Spliced types is ss out ∧
      s.Adds (ss.flatMap Splice.declared) (ss.flatMap Splice.sites) (ss.flatMap Splice.sizeSites) t ∧
      ∀ x, t.rank? x = s.rank? x := by
  induction is generalizing out s with
  | nil =>
    cases h
    exact ⟨[], .nil, .of_eq rfl rfl, fun _ => rfl⟩
  | cons i is ih =>
    simp only [body, Attempt.run_bind] at h
    split at h
    · rename_i first s₁ hfirst
      split at h
      · rename_i rest s₂ hrest
        cases h
        obtain ⟨ss, hspliced, hadds, hranks⟩ := spliced_instruction hrank hfirst
        obtain ⟨ss', hspliced', hadds', hranks'⟩ :=
          ih (fun x => (hranks x).trans (hrank x)) hrest
        refine ⟨ss ++ ss', hspliced.append hspliced', ?_, fun x => (hranks' x).trans (hranks x)⟩
        rw [List.flatMap_append, List.flatMap_append, List.flatMap_append]
        exact hadds.append hadds'
      · cases h
    · cases h

theorem spliced_blocks {bs bs' : List Block}
    (hrank : ∀ x, s.rank? x = (types.find? x).bind StaticType.rank?)
    (h : blocks options bs s = (.ok (), t, bs')) :
    ∃ ss : List (Splice types), SplicedBlocks types bs ss bs' ∧
      s.Adds (ss.flatMap Splice.declared) (ss.flatMap Splice.sites)
        (ss.flatMap Splice.sizeSites) t := by
  induction bs generalizing bs' s with
  | nil =>
    cases h
    exact ⟨[], .nil, .of_eq rfl rfl⟩
  | cons b bs ih =>
    simp only [blocks] at h
    split at h
    · cases h
    · rename_i is s₁ hbody
      obtain ⟨rest, hrest⟩ : ∃ rest, blocks options bs s₁ = (.ok (), t, rest) := by
        generalize blocks options bs s₁ = r at h
        obtain ⟨outcome, s₂, rest⟩ := r
        cases h
        exact ⟨rest, rfl⟩
      rw [hrest] at h
      cases h
      obtain ⟨ss, hspliced, hadds, hranks⟩ := spliced_body hrank hbody
      obtain ⟨ss', hspliced', hadds'⟩ := ih (fun x => (hranks x).trans (hrank x)) hrest
      refine ⟨ss ++ ss', .cons hspliced hspliced', ?_⟩
      rw [List.flatMap_append, List.flatMap_append, List.flatMap_append]
      exact hadds.append hadds'

end Pass

/-- What a run changes outside the tables that it answers: reads are spliced into the program, and
types and call signatures gain the entries for them. -/
structure Run.OnlyAdds (p : Program) (types : Types) (callTypes : CallTypes)
    (splices : List (Splice types)) (r : Run) : Prop where
  name : r.program.name = p.name
  argNames : r.program.argNames = p.argNames
  blocks : SplicedBlocks types p.blocks splices r.program.blocks
  /-- The variables that the reads assign are new, each another one. -/
  targets_nodup : ((splices.flatMap Splice.inserted).map Assign.target).Nodup
  targets_new : ∀ a ∈ splices.flatMap Splice.inserted, types.contains a.target = false
  types_eq : r.types.toList = types.toList ++ splices.flatMap Splice.declared
  callTypes_eq : r.callTypes.entries.toList = callTypes.entries.toList ++
    (splices.flatMap Splice.sizeSites).map fun site => (site, none)
  /-- So are the sites of what they are assigned. -/
  sites_nodup : ((splices.flatMap Splice.inserted).map Assign.site).Nodup
  sites_new : ∀ a ∈ splices.flatMap Splice.inserted, callTypes.next ≤ a.site

theorem State.start_rank? (p : Program) (types : Types) (callTypes : CallTypes) (x : Var) :
    (State.start p types callTypes).rank? x = (types.find? x).bind StaticType.rank? := rfl

/-- A finished analysis changes the program by reads of dimension sizes only. -/
theorem analyze_only_adds_reads {options : Options} {p : Program} {types : Types}
    {callTypes : CallTypes} {f : Findings}
    (h : (analyze options p types callTypes).findings = .ok f) :
    ∃ splices : List (Splice types),
      (analyze options p types callTypes).OnlyAdds p types callTypes splices := by
  obtain ⟨hblocks, -⟩ := blocks_of_findings h
  obtain ⟨splices, hspliced, hadds⟩ :=
    Pass.spliced_blocks (State.start_rank? p types callTypes) hblocks
  have htargets : (splices.flatMap Splice.inserted).map Assign.target =
      (splices.flatMap Splice.declared).map Prod.fst := by
    simp only [List.map_flatMap, Splice.map_target_inserted]
  have hsites : (splices.flatMap Splice.inserted).map Assign.site = splices.flatMap Splice.sites := by
    simp only [List.map_flatMap, Splice.map_site_inserted]
  obtain ⟨hnodup, hnew⟩ := hadds.fresh
  refine ⟨splices, rfl, rfl, hspliced, ?_, fun a ha => ?_, hadds.types, hadds.callTypes, ?_,
    fun a ha => ?_⟩
  · rw [htargets]
    exact hnodup
  · apply hnew a.target
    rw [← htargets]
    exact List.mem_map_of_mem ha
  · rw [hsites]
    exact hadds.sites_nodup
  · refine (hadds.sites_new a.site ?_).1
    rw [← hsites]
    exact List.mem_map_of_mem ha

/-- A matrix that is read in one block and assigned again in the next, beside a variable with a name
such as reads get. -/
def lookalikeProgram : Program where
  name := "lookalike"
  argNames := ["a"]
  blocks := [
    ⟨0, [
      .assign ⟨"a", .arg 0 "a", some ⟨1, none⟩, 0⟩,
      .assign ⟨"asize0.3", .const (.number 7), none, 1⟩,
      .jump 1]⟩,
    ⟨1, [
      .assign ⟨"b", .getattr "a" "T", none, 2⟩,
      .assign ⟨"a", .getattr "b" "T", some ⟨2, none⟩, 3⟩,
      .ret "a" none]⟩]

def lookalikeTypes : Types :=
  .ofList [("a", .arrayOf 2), ("b", .arrayOf 2), ("asize0.3", .int64)]

theorem analyze_only_adds_reads_lookalike :
    ∃ f splices, (analyze .standard lookalikeProgram lookalikeTypes (.empty 4)).findings = .ok f ∧
      (analyze .standard lookalikeProgram lookalikeTypes (.empty 4)).OnlyAdds lookalikeProgram
        lookalikeTypes (.empty 4) splices ∧
      (analyze .standard lookalikeProgram lookalikeTypes (.empty 4)).types.keys =
        ["a", "b", "asize0.3", "a_sh_attr0.1", "$consta0.2", "asize0.4", "a_sh_attr1.5",
          "$consta1.6", "asize1.7"] := by
  have hrun : (analyze .standard lookalikeProgram lookalikeTypes (.empty 4)).findings =
      .ok (.ofState (analyze .standard lookalikeProgram lookalikeTypes (.empty 4)).state) :=
    Run.findings_of_isOk (by decide +kernel)
  obtain ⟨splices, hadds⟩ := analyze_only_adds_reads hrun
  exact ⟨_, splices, hrun, hadds, by decide +kernel⟩

end DimEquiv
