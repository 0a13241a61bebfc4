import DimEquiv.Proofs.FailedInference
import DimEquiv.ShapeRule
import Mathlib.Data.List.Nodup

/-!
# Spellings of a shape argument

The lengths of a new shape are given by one integer, by several, or by a tuple of integers. What becomes
of the arguments is one rule in each case: a new class for every length, in order, with that length as its
only size value.
-/

namespace DimEquiv

/-- A tuple of so many integers, of one type or each of its own. -/
inductive StaticType.IsIntegerTuple : Nat → StaticType → Prop
  | uniform {item : StaticType} (count : Nat) (hitem : item.isInteger = true) :
    IsIntegerTuple count (.uniTuple item count)
  | mixed {items : List StaticType} (hitems : ∀ item ∈ items, item.isInteger = true) :
    IsIntegerTuple items.length (.tuple items)

theorem StaticType.integerTupleLength?_eq_some_iff {type : StaticType} {count : Nat} :
    type.integerTupleLength? = some count ↔ type.IsIntegerTuple count := by
  constructor
  · intro h
    cases type with
    | uniTuple item n =>
      rw [integerTupleLength?, Option.ite_none_right_eq_some, Option.some.injEq] at h
      obtain ⟨hitem, rfl⟩ := h
      exact .uniform n hitem
    | tuple items =>
      rw [integerTupleLength?, Option.ite_none_right_eq_some, Option.some.injEq] at h
      obtain ⟨hitems, rfl⟩ := h
      exact .mixed (List.all_eq_true.mp hitems)
    | _ => cases h
  · rintro (⟨-, hitem⟩ | ⟨hitems⟩)
    · exact if_pos hitem
    · exact if_pos (List.all_eq_true.mpr hitems)

theorem StaticType.IsIntegerTuple.not_isInteger {type : StaticType} {count : Nat}
    (h : type.IsIntegerTuple count) : type.isInteger = false := by
  cases h <;> rfl

/-! ### The rule of a shape argument -/

namespace Reading

open ShapeRule

variable {r : Reading} {ns : List Var}

theorem integerSizes_of_integers (callName : String)
    (hns : ∀ n ∈ ns, ∃ type, r.type? n = some type ∧ type.isInteger = true) :
    r.integerSizes callName ns = (ns.map fun n => some (.var n), none) := by
  induction ns with
  | nil => rfl
  | cons n ns ih =>
    obtain ⟨hn, hrest⟩ := List.forall_mem_cons.mp hns
    obtain ⟨type, htype, hinteger⟩ := hn
    simp only [integerSizes, htype, hinteger, if_true, ih hrest, List.map_cons]

/-- Integers give their lengths, one integer as well as several. -/
theorem ruleOfShape_of_integers (callName : String) (hne : ns ≠ [])
    (hns : ∀ n ∈ ns, ∃ type, r.type? n = some type ∧ type.isInteger = true) :
    r.ruleOfShape callName ns = create (ns.map fun n => some (.var n)) := by
  match ns with
  | [] => exact absurd rfl hne
  | [n] =>
    obtain ⟨type, htype, hinteger⟩ := hns n List.mem_cons_self
    simp only [ruleOfShape, ofType, htype, hinteger, if_true, List.map_cons, List.map_nil]
  | n :: m :: ns =>
    rw [ruleOfShape.eq_3 _ _ _ (by simp) (by simp), ruleOfIntegers, integerSizes_of_integers _ hns]

/-- A tuple gives the lengths that are known to be its items. -/
theorem ruleOfShape_of_tuple (callName : String) {t : Var} {type : StaticType}
    (htype : r.type? t = some type) (htuple : type.IsIntegerTuple ns.length)
    (hitems : r.items t = ns.map .var) :
    r.ruleOfShape callName [t] = create (ns.map fun n => some (.var n)) := by
  have hlength := StaticType.integerTupleLength?_eq_some_iff.mpr htuple
  have hsizes : (List.range ns.length).map (fun i => (ns.map SizeValue.var)[i]?) =
      ns.map fun n => some (.var n) := by
    refine List.ext_getElem (by simp) fun i hi _ => ?_
    have hlt : i < ns.length := by simpa using hi
    simp [hlt]
  simp only [ruleOfShape, ofType, htype, htuple.not_isInteger, hlength, hitems, hsizes,
    Bool.false_eq_true, if_false]

end Reading

/-! ### New classes of known lengths -/

namespace Store

/-- The store `t` is `s` with a new class for each of `sizes`, and `shape` lists the classes. -/
structure Creates (s : Store) (sizes : List SizeValue) (shape : Shape) (t : Store) : Prop where
  shape_eq : shape = (List.range sizes.length).map fun i : Nat => s.nextClass + i
  nodup : shape.Nodup
  /-- Where every recorded class is below the next id, none of them is listed. -/
  fresh : (∀ x recorded, s.shapes.find? x = some recorded → ∀ c ∈ recorded, c < s.nextClass) →
    ∀ x recorded, s.shapes.find? x = some recorded → ∀ c ∈ recorded, c ∉ shape
  sized : ∀ (i : Nat) (c : Int) (size : SizeValue), shape[i]? = some c → sizes[i]? = some size →
    t.classSizes.find? c = some [size]
  kept : ∀ c ∉ shape, t.classSizes.find? c = s.classSizes.find? c
  shapes : t.shapes = s.shapes
  sizeVars : t.sizeVars = s.sizeVars
  nextClass : t.nextClass = s.nextClass + sizes.length

/-- New classes are numbered from the next id on. -/
theorem addClasses_eq_map_range (sizes : List (Option SizeValue)) (s : Store) :
    (addClasses sizes s).1 = (List.range sizes.length).map fun i : Nat => s.nextClass + i := by
  refine List.ext_getElem? fun i => ?_
  rw [getElem?_addClasses, List.getElem?_map]
  split
  · rename_i hi
    rw [List.getElem?_range hi, Option.map_some]
  · rename_i hi
    rw [List.getElem?_eq_none (by simpa using hi), Option.map_none]

theorem creates_addClasses {sizes : List SizeValue}
    (hsizes : ∀ size ∈ sizes, size.isPlaceholder = false) (s : Store) :
    s.Creates sizes (addClasses (sizes.map some) s).1 (addClasses (sizes.map some) s).2 where
  shape_eq := by rw [addClasses_eq_map_range, List.length_map]
  nodup := by
    rw [addClasses_eq_map_range]
    exact List.nodup_range.map fun i j heq => Int.natCast_inj.mp (Int.add_left_cancel heq)
  fresh := by
    intro hlt x recorded hrecorded c hc hmem
    exact absurd (hlt x recorded hrecorded c hc) (Int.not_lt.mpr (mem_addClasses hmem).1)
  sized := by
    intro i c size hc hsize
    rw [getElem?_addClasses] at hc
    split at hc
    · cases hc
      have hi : (sizes.map some)[i]? = some (some size) := by rw [List.getElem?_map, hsize]; rfl
      have hlength := hsizes size (List.mem_of_getElem? hsize)
      rw [find?_classSizes_addClasses_new hi]
      simp [hlength]
    · cases hc
  kept := fun c hc => find?_classSizes_addClasses hc
  shapes := shapes_addClasses _ s
  sizeVars := sizeVars_addClasses _ s
  nextClass := by rw [nextClass_addClasses, List.length_map]

end Store

namespace State

open Store

/-- A call whose rule is to make new classes. -/
theorem run_inferNamedCall_of_create {options : Options} {s : State} {callName : String}
    {args : List Var} {sizes : List (Option SizeValue)}
    (h : (s.scope options).reading.ruleOfNamedCall callName args = .create sizes) :
    (onStore ((s.scope options).inferNamedCall callName args)).run s =
      (.ok (addClasses sizes s.store).1, { s with store := (addClasses sizes s.store).2 }) := by
  rw [← Scope.apply_ruleOfNamedCall, h]
  rfl

/-- Integers one by one and a tuple of them give an array the same new classes, whether it is reshaped or
created: consecutive ids that stand in no recorded shape, each with the integer as its only size value.
Nothing else in the state changes. -/
theorem reshape_spellings_agree (options : Options) (s : State) (a : Var) {ns : List Var}
    (hne : ns ≠ [])
    (hns : ∀ n ∈ ns, ∃ type, s.types.find? n = some type ∧ type.isInteger = true) :
    ∃ shape u, s.store.Creates (ns.map .var) shape u ∧
      (onStore ((s.scope options).inferNamedCall "reshape" (a :: ns))).run s =
        (.ok shape, { s with store := u }) ∧
      ∀ t type, s.types.find? t = some type → type.IsIntegerTuple ns.length →
        s.symbols.tuples.find? t = some (ns.map .var) →
        (onStore ((s.scope options).inferNamedCall "reshape" [a, t])).run s =
            (.ok shape, { s with store := u }) ∧
          ∀ callName ∈ ["empty", "zeros", "ones"],
            (onStore ((s.scope options).inferNamedCall callName [t])).run s =
              (.ok shape, { s with store := u }) := by
  have hsizes : ∀ size ∈ ns.map SizeValue.var, size.isPlaceholder = false := by
    rintro _ hmem
    obtain ⟨n, -, rfl⟩ := List.mem_map.mp hmem
    rfl
  have hmap : (ns.map SizeValue.var).map some = ns.map fun n => some (.var n) := List.map_map
  refine ⟨_, _, creates_addClasses hsizes s.store, ?_, fun t type htype htuple hitems => ?_⟩
  · rw [hmap]
    exact run_inferNamedCall_of_create (Reading.ruleOfShape_of_integers "reshape" hne hns)
  · rw [hmap]
    have hrule : ∀ callName, (s.scope options).reading.ruleOfShape callName [t] =
        .create (ns.map fun n => some (.var n)) := fun callName =>
      Reading.ruleOfShape_of_tuple callName htype htuple (congrArg (·.getD []) hitems)
    refine ⟨run_inferNamedCall_of_create (hrule "reshape"), fun callName hname => ?_⟩
    apply run_inferNamedCall_of_create
    simp only [List.mem_cons, List.not_mem_nil, or_false] at hname
    rcases hname with rfl | rfl | rfl
    · exact hrule "empty"
    · exact hrule "zeros"
    · exact hrule "ones"

/-- A recorded matrix, and the integers and tuples that it may get its new shape from. The length `n` is
asked for twice. -/
def lengthsState : State :=
  let s := initial (.ofList [("a", .arrayOf 2), ("n", .int64), ("m", .integer 32 false),
    ("u", .uniTuple .int64 3), ("v", .tuple [.int64, .integer 32 false, .int64])]) (.empty 0)
  { s with
    store := { s.store with
      shapes := .ofList [("a", [1, -1])]
      sizeVars := .ofList [("a", [.var "k", .var "j"])]
      classSizes := .ofList [(0, [.literal 1]), (1, [.var "k"])]
      nextClass := 2 }
    symbols := { s.symbols with
      tuples := .ofList [("u", [.var "n", .var "m", .var "n"]), ("v", [.var "n", .var "m", .var "n"])] } }

theorem reshape_spellings_agree_lengths :
    ∃ u, lengthsState.store.Creates [.var "n", .var "m", .var "n"] [2, 3, 4] u ∧
      (∀ args ∈ [["a", "n", "m", "n"], ["a", "u"], ["a", "v"]],
        (onStore ((lengthsState.scope .standard).inferNamedCall "reshape" args)).run lengthsState =
          (.ok [2, 3, 4], { lengthsState with store := u })) ∧
      ∀ callName ∈ ["empty", "zeros", "ones"], ∀ t ∈ ["u", "v"],
        (onStore ((lengthsState.scope .standard).inferNamedCall callName [t])).run lengthsState =
          (.ok [2, 3, 4], { lengthsState with store := u }) := by
  have hns : ∀ n ∈ ["n", "m", "n"], ∃ type, lengthsState.types.find? n = some type ∧
      type.isInteger = true := by
    simp only [List.forall_mem_cons]
    exact ⟨⟨.int64, rfl, rfl⟩, ⟨.integer 32 false, rfl, rfl⟩, ⟨.int64, rfl, rfl⟩, List.forall_mem_nil _⟩
  obtain ⟨shape, u, hcreates, hintegers, htuples⟩ :=
    reshape_spellings_agree .standard lengthsState "a" (by decide) hns
  obtain rfl : shape = [2, 3, 4] := hcreates.shape_eq
  obtain ⟨hu, hu'⟩ := htuples "u" (.uniTuple .int64 3) rfl (.uniform 3 rfl) rfl
  have hitems : ∀ item ∈ [.int64, .integer 32 false, .int64], StaticType.isInteger item = true := by
    decide
  obtain ⟨hv, hv'⟩ := htuples "v" (.tuple _) rfl (.mixed hitems) rfl
  refine ⟨u, hcreates, ?_, fun callName hname => ?_⟩
  · simp only [List.forall_mem_cons]
    exact ⟨hintegers, hu, hv, List.forall_mem_nil _⟩
  · simp only [List.forall_mem_cons]
    exact ⟨hu' callName hname, hv' callName hname, List.forall_mem_nil _⟩

end State

end DimEquiv
