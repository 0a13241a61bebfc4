import DimEquiv.Occurrence
import DimEquiv.Proofs.Denotation
import DimEquiv.Proofs.ReadLookup

/-!
# Inference under a valuation

A program that assigns every variable at most once fixes what its symbol tables can say. Under a
valuation that obeys such a program every inference unites only classes that stand for the same
length, and the shape that it answers fits the lengths of its target.
-/

namespace DimEquiv

namespace Program

variable {p : Program}

theorem exists_of_definition? {x : Var} {e : Expr} (h : p.definition? x = some e) :
    ∃ a ∈ p.assigns, a.target = x ∧ a.value = e := by
  rw [definition?, Option.map_eq_some_iff] at h
  obtain ⟨a, ha, hvalue⟩ := h
  exact ⟨a, List.mem_of_find?_eq_some ha, by simpa using List.find?_some ha, hvalue⟩

theorem exists_of_isArrayModule {x : Var} (h : p.isArrayModule x = true) :
    ∃ a ∈ p.assigns, a.target = x ∧ ∃ name value, a.value = .global name value := by
  unfold isArrayModule at h
  split at h
  · rename_i name _ hdefinition
    obtain ⟨a, ha, htarget, hvalue⟩ := exists_of_definition? hdefinition
    exact ⟨a, ha, htarget, name, _, hvalue⟩
  · cases h

/-- A variable that is assigned once has the value of that assignment. -/
theorem definition?_of_mem (h : (p.assigns.map Assign.target).Nodup) {a : Assign}
    (ha : a ∈ p.assigns) : p.definition? a.target = some a.value := by
  unfold definition?
  cases hfind : p.assigns.find? fun b => b.target = a.target with
  | none =>
    have hnone := List.find?_eq_none.mp hfind a ha
    simp at hnone
  | some b =>
    have hb := List.mem_of_find?_eq_some hfind
    have htarget : b.target = a.target := by simpa using List.find?_some hfind
    rw [List.inj_on_of_nodup_map h hb ha htarget]
    rfl

/-- The receiver of a method is an array. -/
theorem isArray_of_callee? {isArray : Var → Bool} {func receiver : Var} {name : String}
    (h : p.callee? isArray func = some (.named name (some receiver))) :
    isArray receiver = true := by
  unfold callee? at h
  split at h
  · cases h
  · split at h
    · cases h
    · split at h
      · rename_i harray
        cases h
        exact harray
      · cases h
  · cases h

end Program

theorem Valuation.Evaluates.of_definition? {v : Valuation} {types : Types} {p : Program}
    (h : v.Evaluates types p) {x : Var} {e : Expr} (hx : p.definition? x = some e) :
    v.ValueRule types x e := by
  obtain ⟨a, ha, rfl, rfl⟩ := Program.exists_of_definition? hx
  exact h a ha

namespace Symbols

/-- The symbol tables say nothing that the definitions of the program do not say. -/
structure Reflects (p : Program) (isArray : Var → Bool) (t : Symbols) : Prop where
  arrayModules : ∀ x, x ∈ t.arrayModules → p.isArrayModule x = true
  mapCalls : ∀ x, x ∈ t.mapCalls → p.callee? isArray x = some .map
  moduleCalls : ∀ x name, t.moduleCalls.find? x = some name →
    p.callee? isArray x = some (.named name none)
  methodCalls : ∀ x call, t.methodCalls.find? x = some call →
    p.callee? isArray x = some (.named call.method (some call.receiver))
  tuples : ∀ x items, t.tuples.find? x = some items →
    (∃ xs, p.definition? x = some (.buildTuple xs) ∧ items = xs.map .var) ∨
      ∃ xs, p.definition? x = some (.const (.list xs)) ∧ items = xs.map .literal

variable {p : Program} {isArray : Var → Bool} {t : Symbols}

theorem reflects_scan_empty (p q : Program) (isArray : Var → Bool) :
    (empty.scan q).Reflects p isArray := by
  rw [scan_eq]
  exact ⟨fun x hx => absurd hx (NameSet.notMem_empty x), fun x hx => absurd hx (NameSet.notMem_empty x),
    fun x name hx => (by cases hx), fun x call hx => (by cases hx), fun x items hx => (by cases hx)⟩

/-- What an assignment tells is what its definition says. -/
theorem Reflects.observe (h : t.Reflects p isArray) {a : Assign}
    (hdefinition : p.definition? a.target = some a.value)
    (hmodules : ∀ x, isArray x = true → p.isArrayModule x = false) :
    (t.observe isArray a).Reflects p isArray := by
  rcases t.observe_cases isArray a with ⟨hsame, -⟩ | ⟨role, henter, hgives⟩
  · rw [hsame]
    exact h
  rw [henter]
  generalize a.value = value at hdefinition hgives
  constructor
  · intro x hx
    rcases holds_of_enter .arrayModule hx with ⟨rfl, rfl⟩ | hx
    · cases hgives
      simp [Program.isArrayModule, hdefinition]
    · exact h.arrayModules x hx
  · intro x hx
    rcases holds_of_enter .map hx with ⟨rfl, rfl⟩ | hx
    · cases hgives
      simp only [Program.callee?, hdefinition]
    · exact h.mapCalls x hx
  · intro x name hx
    rcases holds_of_enter (.moduleCall name) hx with ⟨rfl, rfl⟩ | hx
    · cases hgives with
      | @moduleCall y _ hmodule =>
        have hmodule' : p.isArrayModule y = true := h.arrayModules y (of_decide_eq_true hmodule)
        simp only [Program.callee?, hdefinition, hmodule', if_true]
    · exact h.moduleCalls x name hx
  · intro x call hx
    rcases holds_of_enter (.methodCall call) hx with ⟨rfl, rfl⟩ | hx
    · cases hgives with
      | @methodCall y _ _ harray => simp [Program.callee?, hdefinition, hmodules y harray, harray]
    · exact h.methodCalls x call hx
  · intro x items hx
    rcases holds_of_enter (.tuple items) hx with ⟨rfl, rfl⟩ | hx
    · cases hgives with
      | tuple xs => exact .inl ⟨xs, hdefinition, rfl⟩
      | literals xs => exact .inr ⟨xs, hdefinition, rfl⟩
    · exact h.tuples x items hx

end Symbols

namespace Infer

/-- The computation keeps the classes standing for lengths, and a shape that it answers fits the
given lengths if it has as many dimensions. -/
def Sound (v : Valuation) (told : Prop) (lengths : List Nat) (x : Infer Shape) : Prop :=
  ∀ s den, s.Bounded → s.Denotes v told den → ∃ den', (x.run s).2.Denotes v told den' ∧
    ∀ shape, (x.run s).1 = .ok shape → shape.length = lengths.length → shape.Fits den' lengths

variable {v : Valuation} {told : Prop} {lengths : List Nat}

theorem sound_fail (e : ShapeError) : Sound v told lengths (.fail e) :=
  fun _ den _ h => ⟨den, h, fun _ hshape => (by cases hshape)⟩

theorem sound_unsupported (cause : Unsupported) : Sound v told lengths (unsupported cause) :=
  sound_fail _

theorem sound_shapeOf {x : Var} (h : lengths = v.lengths x) :
    Sound v told lengths (shapeOf x) := by
  intro s den _ hden
  refine ⟨den, hden, fun shape hshape _ => ?_⟩
  rw [h]
  exact hden.recorded x shape ((s.lookup_eq_ok_iff x shape).mp hshape)

theorem sound_reverse_shapeOf {x : Var} (h : lengths = (v.lengths x).reverse) :
    Sound v told lengths (List.reverse <$> shapeOf x) := by
  intro s den _ hden
  rw [map_eq_pure_bind, Attempt.run_bind]
  simp only [shapeOf, Attempt.run_ofReader]
  cases hx : s.lookup x with
  | error e => exact ⟨den, hden, fun _ hshape => (by cases hshape)⟩
  | ok shape =>
    refine ⟨den, hden, fun shape' hshape _ => ?_⟩
    cases hshape
    rw [h]
    exact (hden.recorded x shape ((s.lookup_eq_ok_iff x shape).mp hx)).reverse

/-- New classes fit when every size that backs one is the length. -/
theorem sound_newClasses (sizes : List (Option SizeValue))
    (h : sizes.length = lengths.length → ∀ (i : Nat) size, Store.backing? sizes i = some size →
      ∃ l, lengths[i]? = some l ∧ v.sizeOf size = .int l) :
    Sound v told lengths (newClasses sizes) := by
  intro s den hs hden
  obtain ⟨den', hden', -, hnew⟩ := hden.addClasses hs sizes fun i => .int (lengths[i]?.getD 0)
  refine ⟨den', hden', fun shape hshape hlen => ?_⟩
  cases hshape
  have hlen' : sizes.length = lengths.length := by
    rw [← hlen, Store.length_addClasses]
  refine .of_getElem? hlen fun i c hc _ => ?_
  rw [Store.getElem?_addClasses] at hc
  split at hc
  · rename_i hi
    cases hc
    have hi' : i < lengths.length := by omega
    have hget : lengths[i]? = some lengths[i] := List.getElem?_eq_getElem hi'
    refine ⟨_, hget, ?_⟩
    rw [hnew]
    cases hback : Store.backing? sizes i with
    | none => rw [hget]; rfl
    | some size =>
      obtain ⟨l, hl, hsize⟩ := h hlen' i size hback
      rw [hget] at hl
      cases hl
      exact hsize
  · cases hc

theorem sound_ofReader_bind {α : Type} {f : Store → Except ShapeError α} {g : α → Infer Shape}
    (h : ∀ s a, f s = .ok a → Sound v told lengths (g a)) :
    Sound v told lengths (.ofReader f >>= g) := by
  intro s den hs hden
  rw [Attempt.run_bind, Attempt.run_ofReader]
  cases hf : f s with
  | error e => exact ⟨den, hden, fun _ hshape => (by cases hshape)⟩
  | ok a => exact h s a hf s den hs hden

theorem sound_argument_bind {args : List Var} {index : Nat} {callName : String}
    {g : Var → Infer Shape} (h : ∀ x, args[index]? = some x → Sound v told lengths (g x)) :
    Sound v told lengths (argument args index callName >>= g) := by
  intro s den hs hden
  rw [Attempt.run_bind]
  unfold argument
  cases hx : args[index]? with
  | none => exact ⟨den, hden, fun _ hshape => (by cases hshape)⟩
  | some x => exact h x hx s den hs hden

theorem sound_ofExcept {f : Store → Except ShapeError (Shape × Store)}
    (h : ∀ s den out t, s.Bounded → s.Denotes v told den → f s = .ok (out, t) →
      ∃ den', t.Denotes v told den' ∧ (out.length = lengths.length → out.Fits den' lengths)) :
    Sound v told lengths (.ofExcept f) := by
  intro s den hs hden
  rw [Attempt.run_ofExcept]
  cases hf : f s with
  | error e => exact ⟨den, hden, fun _ hshape => (by cases hshape)⟩
  | ok r =>
    obtain ⟨den', hden', hfits⟩ := h s den r.1 r.2 hs hden hf
    refine ⟨den', hden', fun shape hshape hlen => ?_⟩
    cases hshape
    exact hfits hlen

end Infer

open Infer

namespace Scope

/-- The scope reads the program and its types, which may have gained new variables. -/
structure Reflects (options : Options) (p : Program) (types : Types) (scope : Scope) : Prop where
  options : scope.options = options
  symbols : scope.symbols.Reflects p types.isArray
  isArray : ∀ x, scope.isArray x = types.isArray x
  types : ∀ x, types.contains x = true → scope.types.find? x = types.find? x

variable {options : Options} {p : Program} {types : Types} {scope : Scope} {v : Valuation}
  {told : Prop} {target : Var}

/-- The size that an item of a tuple gives is known and is no placeholder. -/
theorem exists_of_tupleSizes {tuple : Var} {count i : Nat} {size : SizeValue}
    (h : Store.backing? (scope.tupleSizes tuple count) i = some size) :
    ∃ items, scope.symbols.tuples.find? tuple = some items ∧ items[i]? = some size ∧
      size.isPlaceholder = false := by
  obtain ⟨hsize, hplaceholder⟩ := Store.backing?_eq_some_iff.mp h
  simp only [tupleSizes, List.getElem?_map, Option.map_eq_some_iff] at hsize
  obtain ⟨j, hj, hitem⟩ := hsize
  obtain ⟨hi, rfl⟩ := List.getElem?_eq_some_iff.mp hj
  rw [List.getElem_range] at hitem
  cases hitems : scope.symbols.tuples.find? tuple with
  | none =>
    rw [hitems] at hitem
    cases hitem
  | some items =>
    rw [hitems] at hitem
    exact ⟨items, rfl, hitem, hplaceholder⟩

/-- Variables that hold the lengths back their classes. -/
theorem exists_length_of_variables {lengths : List Nat} {xs : List Var}
    (h : lengths.map (fun l : Nat => Number.int l) = xs.map v.number) {i : Nat} {size : SizeValue}
    (hsize : Store.backing? (xs.map fun x => some (.var x)) i = some size) :
    ∃ l, lengths[i]? = some l ∧ v.sizeOf size = .int l := by
  have hget := (Store.backing?_eq_some_iff.mp hsize).1
  rw [List.getElem?_map, Option.map_eq_some_iff] at hget
  obtain ⟨x, hx, hsome⟩ := hget
  cases hsome
  have hnumber : (lengths.map fun l : Nat => Number.int l)[i]? = some (v.number x) := by
    rw [h, List.getElem?_map, hx]
    rfl
  rw [List.getElem?_map, Option.map_eq_some_iff] at hnumber
  obtain ⟨l, hl, hnumber⟩ := hnumber
  exact ⟨l, hl, hnumber.symm⟩

namespace Reflects

theorem find?_of_typeOf (h : Reflects options p types scope) {x : Var} {type : StaticType}
    (hx : types.contains x = true) (htype : scope.typeOf x = .ok type) :
    types.find? x = some type := by
  rw [← h.types x hx]
  unfold typeOf at htype
  split at htype
  · rename_i known hknown
    cases htype
    exact hknown
  · cases htype

theorem sound_broadcast (h : Reflects options p types scope) {operands : List Var}
    (hrule : v.Elementwise types.isArray operands target) :
    Sound v told (v.lengths target) (scope.broadcast operands) := by
  refine sound_ofExcept fun s den out t hs hden hrun => ?_
  have helementwise : v.Elementwise scope.isArray operands target := by
    intro x hx harray
    rw [h.isArray] at harray
    exact hrule x hx harray
  exact hden.broadcast hs helementwise hrun

theorem sound_matrixProduct {callName : String} {a b : Var}
    (hrule : v.lengths a ≠ [] → v.lengths b ≠ [] →
      Valuation.Product (v.lengths a) (v.lengths b) (v.lengths target)) :
    Sound v told (v.lengths target) (.ofExcept (Store.matrixProduct callName a b)) := by
  refine sound_ofExcept fun s den out t hs hden hrun => ?_
  obtain ⟨den', hden', hfits⟩ := hden.matrixProduct hs hrun hrule
  exact ⟨den', hden', fun _ => hfits⟩

theorem sound_inferArg (name : Var) :
    Sound v told (v.lengths name) (scope.inferArg name) := by
  refine sound_ofReader_bind fun _ type _ => ?_
  cases type.rank? with
  | none => exact sound_fail _
  | some rank =>
    refine sound_ofReader_bind fun _ known _ => ?_
    cases known with
    | true => exact sound_shapeOf rfl
    | false =>
      refine sound_newClasses _ fun _ i size hsize => ?_
      have hnone := List.mem_of_getElem? (Store.backing?_eq_some_iff.mp hsize).1
      cases List.eq_of_mem_replicate hnone

/-- What is known of the items of a tuple is what its definition gives them. -/
theorem sizeOf_tupleSizes (h : Reflects options p types scope)
    (hvalues : v.Evaluates types p) {tuple : Var} {count i : Nat}
    {size : SizeValue} (hsize : Store.backing? (scope.tupleSizes tuple count) i = some size) :
    (v.items tuple)[i]? = some (v.sizeOf size) ∧ ¬ ((v.sizeOf size).isNegative = true ∧
      ∃ xs, p.definition? tuple = some (.const (.list xs))) := by
  obtain ⟨items, htuple, hitem, hplaceholder⟩ := scope.exists_of_tupleSizes hsize
  rcases h.symbols.tuples tuple items htuple with ⟨xs, hdefinition, rfl⟩ | ⟨xs, hdefinition, rfl⟩
  · have hrule : v.items tuple = xs.map v.number := hvalues.of_definition? hdefinition
    rw [List.getElem?_map, Option.map_eq_some_iff] at hitem
    obtain ⟨x, hx, rfl⟩ := hitem
    refine ⟨?_, ?_⟩
    · rw [hrule, List.getElem?_map, hx]
      rfl
    · rintro ⟨-, ys, hys⟩
      rw [hdefinition] at hys
      cases hys
  · have hrule : v.items tuple = xs := hvalues.of_definition? hdefinition
    rw [List.getElem?_map, Option.map_eq_some_iff] at hitem
    obtain ⟨n, hn, rfl⟩ := hitem
    refine ⟨?_, ?_⟩
    · rw [hrule, hn]
      rfl
    · rintro ⟨hnegative, -⟩
      exact Bool.false_ne_true (hplaceholder.symm.trans hnegative)

theorem sound_shapeOfArgument (h : Reflects options p types scope)
    (hvalues : v.Evaluates types p) (callName : String)
    {arg : Var} (harg : types.contains arg = true) (hrule : v.Sized p types target [arg]) :
    Sound v told (v.lengths target) (scope.shapeOfArgument callName arg) := by
  refine sound_ofReader_bind fun _ type htype => ?_
  simp only [Valuation.Sized, h.find?_of_typeOf harg htype] at hrule
  by_cases hinteger : type.isInteger = true
  · rw [if_pos hinteger] at hrule ⊢
    have hlengths : (v.lengths target).map (fun l : Nat => Number.int l) = [arg].map v.number :=
      hrule
    exact sound_newClasses _ fun _ i size hsize => exists_length_of_variables hlengths hsize
  · rw [if_neg hinteger] at hrule ⊢
    cases hcount : type.integerTupleLength? with
    | none => exact sound_unsupported _
    | some count =>
      rw [hcount] at hrule
      have hitems : v.Itemwise p arg target := hrule rfl
      refine sound_newClasses _ fun _ i size hsize => ?_
      obtain ⟨hitem, hopen⟩ := h.sizeOf_tupleSizes hvalues hsize
      obtain ⟨l, hl, hrel⟩ := exists_getElem?_of_forall₂ hitems hitem
      exact ⟨l, hl, hrel.resolve_left hopen⟩

theorem sound_classesOfIntegers (h : Reflects options p types scope) (callName : String)
    {items : List Var} (hitems : ∀ x ∈ items, types.contains x = true)
    (hrule : (∀ x ∈ items, (types.find? x).any StaticType.isInteger = true) →
      (v.lengths target).map (fun l : Nat => Number.int l) = items.map v.number) :
    Sound v told (v.lengths target) (items.mapM (scope.classOfInteger callName)) := by
  intro s den hs hden
  rw [scope.run_mapM_integers]
  rcases hsizes : scope.reading.integerSizes callName items with ⟨sizes, _ | e⟩
  · obtain ⟨rfl, hintegers⟩ := scope.reading.integerSizes_eq_none hsizes
    have hlengths := hrule fun x hx => by
      rw [← h.types x (hitems x hx)]
      exact hintegers x hx
    exact sound_newClasses (items.map fun x => some (.var x))
      (fun _ _ _ hsize => exists_length_of_variables hlengths hsize) s den hs hden
  · obtain ⟨den', hden', -⟩ := hden.addClasses hs sizes fun _ => .int 0
    exact ⟨den', hden', fun _ hshape => (by cases hshape)⟩

theorem sound_shapeOfArguments (h : Reflects options p types scope)
    (hvalues : v.Evaluates types p) (callName : String)
    {args : List Var} (hargs : ∀ x ∈ args, types.contains x = true)
    (hrule : v.Sized p types target args) :
    Sound v told (v.lengths target) (scope.shapeOfArguments callName args) := by
  match args with
  | [] => exact sound_fail _
  | [arg] => exact h.sound_shapeOfArgument hvalues callName (hargs arg List.mem_cons_self) hrule
  | a :: b :: args => exact h.sound_classesOfIntegers callName hargs hrule

theorem sound_inferNamedCall (h : Reflects options p types scope)
    (hvalues : v.Evaluates types p) {name : String}
    {args : List Var} (hargs : ∀ x ∈ args, types.contains x = true)
    (hrule : v.NamedCall options p types target name args) :
    Sound v told (v.lengths target) (scope.inferNamedCall name args) := by
  unfold inferNamedCall
  unfold Valuation.NamedCall at hrule
  cases hname : CallRule.ofName? name with
  | none =>
    simp only [hname] at hrule
    simp only [h.options]
    split
    · rename_i hufunc
      exact h.sound_broadcast (hrule hufunc)
    · exact sound_unsupported _
  | some rule =>
    simp only [hname] at hrule
    cases rule with
    | transpose =>
      refine sound_argument_bind fun x hx => sound_reverse_shapeOf (hrule x ?_)
      rw [List.head?_eq_getElem?, hx]
    | creation =>
      exact h.sound_shapeOfArguments hvalues name
        (fun x hx => hargs x (List.mem_of_mem_take hx)) hrule
    | like =>
      refine sound_argument_bind fun x hx => sound_shapeOf (hrule x ?_)
      rw [List.head?_eq_getElem?, hx]
    | reshape =>
      exact h.sound_shapeOfArguments hvalues name
        (fun x hx => hargs x (List.mem_of_mem_drop hx)) hrule
    | dot =>
      dsimp only
      split
      · exact sound_matrixProduct hrule
      · exact sound_matrixProduct hrule
      · exact sound_fail _

theorem sound_inferCall (h : Reflects options p types scope)
    (hvalues : v.Evaluates types p) {func : Var}
    {args : List Var} {kws : List (String × Var)} (hargs : ∀ x ∈ args, types.contains x = true)
    (hrule : v.ArrayRule options p types target (.call func args kws)) :
    Sound v told (v.lengths target) (scope.inferCall func args) := by
  unfold inferCall
  split
  · rename_i hmap
    simp only [Valuation.ArrayRule, h.symbols.mapCalls func hmap] at hrule
    refine sound_argument_bind fun first hfirst => ?_
    have hfirst' := hrule first (by rw [List.head?_eq_getElem?, hfirst])
    rw [h.isArray]
    split at hfirst'
    · rename_i harray
      rw [if_pos harray]
      exact sound_shapeOf hfirst'
    · rename_i harray
      rw [if_neg harray]
      exact h.sound_broadcast hfirst'
  · split
    · rename_i name hname
      simp only [Valuation.ArrayRule, h.symbols.moduleCalls func name hname] at hrule
      exact h.sound_inferNamedCall hvalues hargs hrule
    · split
      · rename_i call hcall
        have hcallee := h.symbols.methodCalls func call hcall
        simp only [Valuation.ArrayRule, hcallee] at hrule
        refine h.sound_inferNamedCall hvalues (fun x hx => ?_) hrule
        rcases List.mem_cons.mp hx with rfl | hx
        · exact Types.contains_of_isArray (Program.isArray_of_callee? hcallee)
        · exact hargs x hx
      · exact sound_unsupported _

/-- Inference respects a valuation that respects the assignment. -/
theorem sound_infer (h : Reflects options p types scope)
    (hvalues : v.Evaluates types p) {e : Expr}
    (hvars : ∀ x ∈ e.vars, types.contains x = true)
    (harg : ∀ index name, e = .arg index name → target = name)
    (hrule : v.ArrayRule options p types target e) :
    Sound v told (v.lengths target) (scope.infer target e) := by
  cases e with
  | arg index name =>
    rw [harg index name rfl]
    exact sound_inferArg name
  | var x => exact sound_shapeOf hrule
  | cast x => exact sound_shapeOf hrule
  | fused tree =>
    exact h.sound_broadcast fun x hx => hrule x ((tree.mem_vars x).mp hx)
  | call func args kws =>
    refine h.sound_inferCall hvalues (fun x hx => hvars x ?_) hrule
    exact List.mem_cons_of_mem _ (List.mem_append_left _ hx)
  | other op => exact sound_fail _
  | global name value => exact sound_unsupported _
  | const value => exact sound_unsupported _
  | buildTuple items => exact sound_unsupported _
  | staticGetitem value index indexVar => exact sound_unsupported _
  | unary fn x =>
    simp only [infer, h.options]
    split
    · rename_i hfn
      exact sound_shapeOf (hrule hfn)
    · exact sound_unsupported _
  | binop fn lhs rhs =>
    simp only [infer, h.options]
    split
    · rename_i hfn
      exact h.sound_broadcast (hrule hfn)
    · exact sound_unsupported _
  | inplaceBinop fn immutableFn lhs rhs =>
    simp only [infer, h.options]
    split
    · rename_i hfn
      exact h.sound_broadcast (hrule hfn)
    · exact sound_unsupported _
  | getattr x attr =>
    simp only [infer, h.isArray]
    split
    · rename_i hattr
      exact sound_reverse_shapeOf (hrule hattr.1 hattr.2)
    · exact sound_unsupported _

end Reflects

end Scope

end DimEquiv
