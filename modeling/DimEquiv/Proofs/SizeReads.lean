import DimEquiv.Proofs.ClassCollapse
import DimEquiv.Proofs.FreshNames
import DimEquiv.SizeRead

/-!
# The reads of an array

Each dimension of an array takes one of three ways to its size value: the value that stands for its
class, a read that the program contains, or a new read. New reads have fresh targets that are no
arrays, so whatever the types told before they still tell.
-/

namespace DimEquiv

/-- The targets of `as` are the variables that the types of `t` have beyond those of `s`, and none
of them is an array. -/
structure State.Declared (s : State) (as : List Assign) (t : State) : Prop where
  fresh : ∀ a ∈ as, s.types.find? a.target = none
  scalar : ∀ a ∈ as, ∃ type, t.types.find? a.target = some type ∧ type.rank? = none
  distinct : (as.map Assign.target).Nodup
  kept : ∀ x type, s.types.find? x = some type → t.types.find? x = some type
  rank?_eq : ∀ x, t.rank? x = s.rank? x

namespace State.Declared

variable {s t u : State} {as bs : List Assign}

theorem of_types_eq (h : t.types = s.types) : Declared s [] t where
  fresh := by simp
  scalar := by simp
  distinct := by simp
  kept := fun x type hx => by rw [h, hx]
  rank?_eq := fun x => by rw [rank?, rank?, h]

theorem single {a : Assign} {stem : String} {type : StaticType} (hrank : type.rank? = none)
    (htarget : a.target = (s.declare stem type).1) (htypes : t.types = (s.declare stem type).2.types) :
    Declared s [a] t where
  fresh := by
    simp only [List.mem_singleton, forall_eq]
    rw [htarget]
    exact find?_declare_of_fresh stem type s
  scalar := by
    simp only [List.mem_singleton, forall_eq]
    refine ⟨type, ?_, hrank⟩
    rw [htypes, htarget, find?_types_declare, if_pos rfl]
  distinct := by simp
  kept := fun x known hx => by
    rw [htypes]
    exact find?_types_declare_of_some stem type s hx
  rank?_eq := fun x => by
    rw [rank?, rank?, htypes, find?_types_declare]
    split
    · rename_i hx
      rw [← hx, find?_declare_of_fresh]
      exact hrank
    · rfl

/-- Only the types matter. -/
theorem congr (h : Declared s as t) (hu : u.types = t.types) : Declared s as u where
  fresh := h.fresh
  scalar := by
    rw [hu]
    exact h.scalar
  distinct := h.distinct
  kept := by
    rw [hu]
    exact h.kept
  rank?_eq := fun x => by
    rw [rank?, hu]
    exact h.rank?_eq x

theorem append (h : Declared s as t) (h' : Declared t bs u) : Declared s (as ++ bs) u where
  fresh := by
    intro a ha
    rcases List.mem_append.mp ha with ha | ha
    · exact h.fresh a ha
    · rw [Option.eq_none_iff_forall_ne_some]
      intro type hx
      have := h.kept _ _ hx
      rw [h'.fresh a ha] at this
      cases this
  scalar := by
    intro a ha
    rcases List.mem_append.mp ha with ha | ha
    · obtain ⟨type, hx, hrank⟩ := h.scalar a ha
      exact ⟨type, h'.kept _ _ hx, hrank⟩
    · exact h'.scalar a ha
  distinct := by
    rw [List.map_append]
    apply h.distinct.append h'.distinct
    intro x hx hx'
    obtain ⟨a, ha, rfl⟩ := List.mem_map.mp hx
    obtain ⟨b, hb, he⟩ := List.mem_map.mp hx'
    obtain ⟨type, htype, -⟩ := h.scalar a ha
    rw [← he, h'.fresh b hb] at htype
    cases htype
  kept := fun x type hx => h'.kept x type (h.kept x type hx)
  rank?_eq := fun x => (h'.rank?_eq x).trans (h.rank?_eq x)

theorem ne_of_typed (h : Declared s as t) {a : Assign} (ha : a ∈ as) {x : Var} {type : StaticType}
    (hx : s.types.find? x = some type) : a.target ≠ x := by
  rintro rfl
  rw [h.fresh a ha] at hx
  cases hx

/-- New variables are not among those that are known to have a type. -/
theorem not_known {known : Var → Prop} (h : Declared s as t)
    (hknown : ∀ x, known x → ∃ type, s.types.find? x = some type) {a : Assign} (ha : a ∈ as) :
    ¬ known a.target := by
  intro hx
  obtain ⟨type, htype⟩ := hknown _ hx
  exact h.ne_of_typed ha htype rfl

end State.Declared

namespace SizeRead

/-- Three assignments that read the length of dimension `dim` of an array into `size`. -/
inductive Group (array : Var) (dim : Nat) : List Assign → Var → Prop
  | mk (tuple index size : Var) (loc : Option Loc) (tupleSite indexSite sizeSite : Nat) :
    Group array dim
      [⟨tuple, .getattr array Operators.shapeAttr, loc, tupleSite⟩,
        ⟨index, .const (.number (.int dim)), loc, indexSite⟩,
        ⟨size, .staticGetitem tuple dim (some index), loc, sizeSite⟩] size

variable (array : Var) (rank dim : Nat) (loc : Option Loc) (c : Int) (s : State)

theorem group_generate :
    Group array dim ((generate array rank dim loc).run s).1.1
      ((generate array rank dim loc).run s).1.2 :=
  .mk ..

theorem declared_generate :
    s.Declared ((generate array rank dim loc).run s).1.1 ((generate array rank dim loc).run s).2 :=
  ((State.Declared.single rfl rfl rfl).append (.single rfl rfl rfl)).append
    (.single rfl rfl rfl)

/-- A new read changes nothing but types and call signatures. -/
theorem frame_generate :
    ((generate array rank dim loc).run s).2.store = s.store ∧
      ((generate array rank dim loc).run s).2.symbols = s.symbols ∧
      ((generate array rank dim loc).run s).2.diagnostics = s.diagnostics :=
  ⟨rfl, rfl, rfl⟩

/-- The values that are assigned when the dimensions of an array are read. -/
inductive ReadValue (array : Var) : Expr → Prop
  | tuple : ReadValue array (.getattr array Operators.shapeAttr)
  | index (n : Number) : ReadValue array (.const (.number n))
  | size (tuple : Var) (index : Int) (indexVar : Option Var) :
    ReadValue array (.staticGetitem tuple index indexVar)

/-- What stands for a dimension already. -/
def standing? (c : Int) (s : State) : Option SizeValue :=
  if c = Shape.noClass then none else s.store.representative? c

theorem standing?_eq_some {c : Int} {s : State} {size : SizeValue} (h : standing? c s = some size) :
    c ≠ Shape.noClass ∧ size ∈ s.store.sizesOf c := by
  unfold standing? at h
  split at h
  · cases h
  · rename_i hknown
    exact ⟨hknown, List.mem_of_mem_head? h⟩

theorem standing?_eq_none {c : Int} {s : State} (h : standing? c s = none) :
    c = Shape.noClass ∨ s.store.sizesOf c = [] := by
  unfold standing? at h
  split at h
  · rename_i hunknown
    exact .inl hunknown
  · exact .inr (List.head?_eq_none_iff.mp h)

/-- The ways of dimension `dim`, of class `c`, to its size value. -/
inductive Visited (array : Var) (dim : Nat) (c : Int) (s : State) :
    List Assign → SizeValue → State → Prop
  | standing {size : SizeValue} (h : standing? c s = some size) : Visited array dim c s [] size s
  | fetched {x : Var} (h : standing? c s = none) (hx : s.symbols.fetch? array dim = some x) :
    Visited array dim c s [] (.var x) { s with store := s.store.represent c (.var x) }
  | generated {reads : List Assign} {x : Var} {t : State} (h : standing? c s = none)
    (hx : s.symbols.fetch? array dim = none) (hgroup : Group array dim reads x)
    (hdeclared : s.Declared reads t) (hstore : t.store = s.store.represent c (.var x))
    (hsymbols : t.symbols = s.symbols) (hdiagnostics : t.diagnostics = s.diagnostics) :
    Visited array dim c s reads (.var x) t

theorem visited_dimension :
    Visited array dim c s ((dimension array rank loc c dim).run s).1.1
      ((dimension array rank loc c dim).run s).1.2 ((dimension array rank loc c dim).run s).2 := by
  simp only [dimension, StateT.run_bind, StateT.run_get, pure_bind]
  split
  · rename_i size h
    exact .standing h
  · rename_i h
    simp only [fetchOrGenerate, StateT.run_bind, StateT.run_get, pure_bind]
    split
    · rename_i x hx
      exact .fetched h hx
    · rename_i hx
      obtain ⟨hstore, hsymbols, hdiagnostics⟩ := frame_generate array rank dim loc s
      exact .generated h hx (group_generate array rank dim loc s)
        ((declared_generate array rank dim loc s).congr rfl) rfl hsymbols hdiagnostics

/-- The dimensions from `dim` on, one after the other. -/
inductive VisitedAll (array : Var) : Nat → Shape → State → SizeReads → State → Prop
  | nil (dim : Nat) (s : State) : VisitedAll array dim [] s ⟨[], []⟩ s
  | cons {dim : Nat} {c : Int} {cs : Shape} {s t u : State} {reads : List Assign} {size : SizeValue}
    {rest : SizeReads} (h : Visited array dim c s reads size t)
    (hrest : VisitedAll array (dim + 1) cs t rest u) :
    VisitedAll array dim (c :: cs) s ⟨reads ++ rest.instructions, size :: rest.sizes⟩ u

theorem visitedAll_dimensions (cs : Shape) :
    VisitedAll array dim cs s ((dimensions array rank loc dim cs).run s).1
      ((dimensions array rank loc dim cs).run s).2 := by
  induction cs generalizing dim s with
  | nil => exact .nil dim s
  | cons c cs ih => exact .cons (visited_dimension array rank dim loc c s) (ih _ _)

variable {array dim c s}

namespace Visited

variable {reads : List Assign} {size : SizeValue} {t : State}

theorem symbols_eq (h : Visited array dim c s reads size t) : t.symbols = s.symbols := by
  cases h with
  | standing => rfl
  | fetched => rfl
  | generated _ _ _ _ _ hsymbols => exact hsymbols

theorem diagnostics_eq (h : Visited array dim c s reads size t) :
    t.diagnostics = s.diagnostics := by
  cases h with
  | standing => rfl
  | fetched => rfl
  | generated _ _ _ _ _ _ hdiagnostics => exact hdiagnostics

theorem declared (h : Visited array dim c s reads size t) : s.Declared reads t := by
  cases h with
  | standing => exact .of_types_eq rfl
  | fetched => exact .of_types_eq rfl
  | generated _ _ _ hdeclared => exact hdeclared

/-- The store changes only where nothing stood for the class. -/
theorem store_eq (h : Visited array dim c s reads size t) :
    (standing? c s = some size ∧ t.store = s.store) ∨
      (standing? c s = none ∧ t.store = s.store.represent c size) := by
  cases h with
  | standing h => exact .inl ⟨h, rfl⟩
  | fetched h => exact .inr ⟨h, rfl⟩
  | generated h _ _ _ hstore => exact .inr ⟨h, hstore⟩

/-- New reads take a shape tuple, a constant and an item of that tuple. -/
theorem value_cases (h : Visited array dim c s reads size t) {b : Assign} (hb : b ∈ reads) :
    b.value = .getattr array Operators.shapeAttr ∨ (∃ n, b.value = .const (.number n)) ∨
      ∃ tuple indexVar, b.value = .staticGetitem tuple dim indexVar ∧ reads[2]? = some b ∧
        standing? c s = none ∧ s.symbols.fetch? array dim = none ∧
        ∃ b' ∈ reads, b'.target = tuple ∧ b'.value = .getattr array Operators.shapeAttr := by
  cases h with
  | standing h => cases hb
  | fetched h hx => cases hb
  | generated hnone hfetch hgroup =>
    cases hgroup with
    | mk tuple index =>
      simp only [List.mem_cons, List.not_mem_nil, or_false] at hb
      rcases hb with rfl | rfl | rfl
      · exact .inl rfl
      · exact .inr (.inl ⟨_, rfl⟩)
      · exact .inr (.inr ⟨tuple, some index, rfl, rfl, hnone, hfetch, _, List.mem_cons_self, rfl, rfl⟩)

/-- A class without a size value had none before. -/
theorem sizesOf_eq_nil (h : Visited array dim c s reads size t) {d : Int}
    (hd : t.store.sizesOf d = []) : s.store.sizesOf d = [] := by
  rcases h.store_eq with ⟨-, hstore⟩ | ⟨-, hstore⟩
  · rwa [hstore] at hd
  · rw [hstore, Store.sizesOf_represent] at hd
    split at hd
    · cases hd
    · exact hd

end Visited

namespace VisitedAll

variable {cs : Shape} {r : SizeReads} {t : State}

theorem symbols_eq (h : VisitedAll array dim cs s r t) : t.symbols = s.symbols := by
  induction h with
  | nil => rfl
  | cons h _ ih => exact ih.trans h.symbols_eq

theorem diagnostics_eq (h : VisitedAll array dim cs s r t) : t.diagnostics = s.diagnostics := by
  induction h with
  | nil => rfl
  | cons h _ ih => exact ih.trans h.diagnostics_eq

theorem declared (h : VisitedAll array dim cs s r t) : s.Declared r.instructions t := by
  induction h with
  | nil => exact .of_types_eq rfl
  | cons h _ ih => exact h.declared.append ih

/-- A new read of a dimension stands for one without a size value and without a read. -/
theorem of_staticGetitem (h : VisitedAll array dim cs s r t) {b : Assign}
    (hb : b ∈ r.instructions) {tuple : Var} {index : Int} {indexVar : Option Var}
    (hvalue : b.value = .staticGetitem tuple index indexVar) :
    ∃ (k : Nat) (c : Int), cs[k]? = some c ∧ index = ((dim + k : Nat) : Int) ∧
      s.symbols.fetch? array index = none ∧ (c = Shape.noClass ∨ s.store.sizesOf c = []) ∧
      ∃ b' ∈ r.instructions, b'.target = tuple ∧ b'.value = .getattr array Operators.shapeAttr := by
  induction h with
  | nil => cases hb
  | @cons dim c cs s t u reads size rest h hrest ih =>
    rcases List.mem_append.mp hb with hhere | hlater
    · rcases h.value_cases hhere with hget | ⟨n, hconst⟩ | ⟨tuple', indexVar', hitem, -, hnone, hrest⟩
      · rw [hvalue] at hget
        cases hget
      · rw [hvalue] at hconst
        cases hconst
      · rw [hvalue] at hitem
        cases hitem
        obtain ⟨hfetch, b', hb', htuple⟩ := hrest
        exact ⟨0, c, rfl, rfl, hfetch, standing?_eq_none hnone, b', List.mem_append_left _ hb', htuple⟩
    · obtain ⟨k, d, hd, hindex, hfetch, hsizes, b', hb', htuple⟩ := ih hlater
      rw [h.symbols_eq] at hfetch
      refine ⟨k + 1, d, hd, by omega, hfetch, hsizes.imp_right h.sizesOf_eq_nil, b', ?_, htuple⟩
      exact List.mem_append_right _ hb'

/-- No dimension is read twice. -/
theorem eq_of_staticGetitem (h : VisitedAll array dim cs s r t) {b b' : Assign}
    (hb : b ∈ r.instructions) (hb' : b' ∈ r.instructions) {tuple tuple' : Var} {index : Int}
    {indexVar indexVar' : Option Var} (hvalue : b.value = .staticGetitem tuple index indexVar)
    (hvalue' : b'.value = .staticGetitem tuple' index indexVar') : b = b' := by
  induction h with
  | nil => cases hb
  | @cons dim c cs s t u reads size rest h hrest ih =>
    have hlater : ∀ b ∈ rest.instructions, ∀ tuple indexVar,
        b.value = .staticGetitem tuple index indexVar → index ≠ dim := by
      intro b hb tuple indexVar hvalue
      obtain ⟨k, -, -, hindex, -⟩ := hrest.of_staticGetitem hb hvalue
      omega
    have hhere : ∀ b ∈ reads, ∀ tuple indexVar, b.value = .staticGetitem tuple index indexVar →
        index = dim ∧ reads[2]? = some b := by
      intro b hb tuple indexVar hvalue
      rcases h.value_cases hb with hget | ⟨n, hconst⟩ | ⟨tuple', indexVar', hitem, hthird, -⟩
      · rw [hvalue] at hget
        cases hget
      · rw [hvalue] at hconst
        cases hconst
      · rw [hvalue] at hitem
        cases hitem
        exact ⟨rfl, hthird⟩
    rcases List.mem_append.mp hb with hb₁ | hb₁
    · obtain ⟨hindex, hsome⟩ := hhere b hb₁ _ _ hvalue
      rcases List.mem_append.mp hb' with hb₂ | hb₂
      · exact Option.some.inj (hsome.symm.trans (hhere b' hb₂ _ _ hvalue').2)
      · exact absurd hindex (hlater b' hb₂ _ _ hvalue')
    · have hindex := hlater b hb₁ _ _ hvalue
      rcases List.mem_append.mp hb' with hb₂ | hb₂
      · exact absurd (hhere b' hb₂ _ _ hvalue').1 hindex
      · exact ih hb₁ hb₂

theorem readValue (h : VisitedAll array dim cs s r t) {b : Assign} (hb : b ∈ r.instructions) :
    ReadValue array b.value := by
  induction h with
  | nil => cases hb
  | cons h _ ih =>
    rcases List.mem_append.mp hb with hhere | hlater
    · rcases h.value_cases hhere with hget | ⟨n, hconst⟩ | ⟨tuple, indexVar, hitem, -⟩
      · rw [hget]
        exact .tuple
      · rw [hconst]
        exact .index n
      · rw [hitem]
        exact .size tuple _ indexVar
    · exact ih hlater

end VisitedAll

section Equations

variable (array : Var) (rank dim : Nat) (loc : Option Loc) (c : Int) (s : State)

theorem run_dimension_of_standing {size : SizeValue} (h : standing? c s = some size) :
    (dimension array rank loc c dim).run s = (([], size), s) := by
  unfold standing? at h
  simp only [dimension, StateT.run_bind, StateT.run_get, pure_bind]
  split
  · rename_i size' h'
    rw [h] at h'
    cases h'
    rfl
  · rename_i h'
    rw [h] at h'
    cases h'

theorem run_dimension_of_fetched {x : Var} (h : standing? c s = none)
    (hx : s.symbols.fetch? array dim = some x) :
    (dimension array rank loc c dim).run s =
      (([], .var x), { s with store := s.store.represent c (.var x) }) := by
  have hfetch : (fetchOrGenerate array rank dim loc).run s = (([], x), s) := by
    simp only [fetchOrGenerate, StateT.run_bind, StateT.run_get, pure_bind, hx]
    rfl
  unfold standing? at h
  simp only [dimension, StateT.run_bind, StateT.run_get, pure_bind]
  split
  · rename_i size' h'
    rw [h] at h'
    cases h'
  · rw [StateT.run_bind, hfetch]
    rfl

theorem run_dimension_of_generated (h : standing? c s = none)
    (hx : s.symbols.fetch? array dim = none) :
    (dimension array rank loc c dim).run s =
      let r := (generate array rank dim loc).run s
      ((r.1.1, .var r.1.2), { r.2 with store := r.2.store.represent c (.var r.1.2) }) := by
  have hgenerate : (fetchOrGenerate array rank dim loc).run s =
      (generate array rank dim loc).run s := by
    simp only [fetchOrGenerate, StateT.run_bind, StateT.run_get, pure_bind, hx]
  unfold standing? at h
  simp only [dimension, StateT.run_bind, StateT.run_get, pure_bind]
  split
  · rename_i size' h'
    rw [h] at h'
    cases h'
  · rw [StateT.run_bind, hgenerate]
    rfl

theorem run_dimensions_cons (cs : Shape) :
    (dimensions array rank loc dim (c :: cs)).run s =
      let r := (dimension array rank loc c dim).run s
      let rest := (dimensions array rank loc (dim + 1) cs).run r.2
      (⟨r.1.1 ++ rest.1.instructions, r.1.2 :: rest.1.sizes⟩, rest.2) := rfl

end Equations

end SizeRead

end DimEquiv
