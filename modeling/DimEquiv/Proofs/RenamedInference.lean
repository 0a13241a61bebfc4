import DimEquiv.Occurrence
import DimEquiv.Proofs.FirstAppearances
import DimEquiv.Renaming
import DimEquiv.ShapeRule
import Mathlib.Data.Option.Basic

/-!
# Inference under other names

Inference uses the name of a variable to look it up and for nothing else. Under an injective renaming
every look-up meets the renamed entry, so the same classes are made, united and answered. Failures are
renamed along, as far as they do not end the analysis.
-/

namespace DimEquiv

/-! ### Tables under renamed keys -/

namespace Table

variable {κ κ' ν μ : Type} {σ : κ → κ'}

/-- The same values in the same order, under renamed keys. -/
def KeysRenamed (σ : κ → κ') (s : Table κ ν) (t : Table κ' ν) : Prop :=
  t.toList = s.toList.map fun entry => (σ entry.1, entry.2)

theorem KeysRenamed.mapValues {s : Table κ ν} {t : Table κ' ν} (h : s.KeysRenamed σ t)
    (f : ν → μ) : (s.mapValues f).KeysRenamed σ (t.mapValues f) := by
  rw [KeysRenamed, toList_mapValues, h]
  simp [List.map_map, Function.comp_def]

variable [DecidableEq κ] [DecidableEq κ']

theorem lookup_map_key (hσ : Function.Injective σ) (entries : List (κ × ν)) (x : κ) :
    (entries.map fun entry => (σ entry.1, entry.2)).lookup (σ x) = entries.lookup x := by
  induction entries with
  | nil => rfl
  | cons entry entries ih =>
    obtain ⟨k, v⟩ := entry
    by_cases h : x = k
    · simp [h]
    · have h' : σ x ≠ σ k := fun he => h (hσ he)
      simp [List.lookup_cons, beq_false_of_ne h, beq_false_of_ne h', ih]

theorem put_map_key (hσ : Function.Injective σ) (k : κ) (v : ν) (entries : List (κ × ν)) :
    put (σ k) v (entries.map fun entry => (σ entry.1, entry.2)) =
      (put k v entries).map fun entry => (σ entry.1, entry.2) := by
  induction entries with
  | nil => rfl
  | cons entry entries ih =>
    by_cases h : entry.1 = k
    · simp [put, h]
    · have h' : σ entry.1 ≠ σ k := fun he => h (hσ he)
      simp [put, h, h', ih]

namespace KeysRenamed

variable {s : Table κ ν} {t : Table κ' ν}

theorem find?_eq (hσ : Function.Injective σ) (h : s.KeysRenamed σ t) (x : κ) :
    t.find? (σ x) = s.find? x := by
  rw [find?, h, lookup_map_key hσ]
  rfl

theorem insert (hσ : Function.Injective σ) (h : s.KeysRenamed σ t) (k : κ) (v : ν) :
    (s.insert k v).KeysRenamed σ (t.insert (σ k) v) := by
  have hentries : t.toList = s.toList.map fun entry => (σ entry.1, entry.2) := h
  change put (σ k) v t.toList = (put k v s.toList).map fun entry => (σ entry.1, entry.2)
  rw [hentries, put_map_key hσ]

end KeysRenamed

end Table

variable {σ : Var → Var}

/-! ### The variables of an expression -/

namespace FusedTree

mutual

theorem leaves_rename (σ : Var → Var) : ∀ t : FusedTree, (t.rename σ).leaves = t.leaves.map σ
  | leaf x => by simp [rename]
  | const value => by simp [rename]
  | op fn operands => by rw [rename, leaves, leaves, leavesList_renameAll σ operands]

theorem leavesList_renameAll (σ : Var → Var) :
    ∀ ts : List FusedTree, leavesList (renameAll σ ts) = (leavesList ts).map σ
  | [] => rfl
  | t :: ts => by
    simp [renameAll, leavesList, leaves_rename σ t, leavesList_renameAll σ ts]

end

theorem vars_rename (hσ : Function.Injective σ) (t : FusedTree) :
    (t.rename σ).vars = t.vars.map σ := by
  rw [vars, vars, leaves_rename, eraseDups_map_of_injOn hσ.injOn]

end FusedTree

theorem Expr.op_rename (σ : Var → Var) (e : Expr) : (e.rename σ).op = e.op := by
  cases e <;> rfl

/-! ### Failures -/

def Unsupported.rename (σ : Var → Var) : Unsupported → Unsupported
  | getattr attr receiver => getattr attr (σ receiver)
  | production op target => production op (σ target)
  | callTarget func => callTarget (σ func)
  | shapeElement callName item => shapeElement callName (σ item)
  | shapeArgument callName arg => shapeArgument callName (σ arg)
  | cause => cause

/-- The report of a renamed cause is the renamed report. -/
theorem Unsupported.diagnostic_rename (σ : Var → Var) (target : Var) (cause : Unsupported) :
    Diagnostic.Renamed σ (cause.diagnostic target) ((cause.rename σ).diagnostic (σ target)) := by
  cases cause with
  | unknownCall callName => exact .unsupportedCall target callName
  | _ => exact .unsupportedOperation target _ _ _

/-- Both failures end the analysis, or the cause of the second is that of the first, renamed. -/
inductive ShapeError.Renamed (σ : Var → Var) : ShapeError → ShapeError → Prop
  | unsupported (cause : Unsupported) : Renamed σ (.unsupported cause) (.unsupported (cause.rename σ))
  | fatal {e e' : ShapeError} (h : e.isFatal = true) (h' : e'.isFatal = true) : Renamed σ e e'

/-- Both computations answer, and the answers are related, or both fail alike. -/
inductive Answered (σ : Var → Var) {α β : Type} (related : α → β → Prop) :
    Except ShapeError α → Except ShapeError β → Prop
  | ok {a : α} {b : β} (h : related a b) : Answered σ related (.ok a) (.ok b)
  | error {e e' : ShapeError} (h : e.Renamed σ e') : Answered σ related (.error e) (.error e')

theorem Answered.bind {α β α' β' : Type} {related : α → β → Prop} {related' : α' → β' → Prop}
    {x : Except ShapeError α} {y : Except ShapeError β} {f : α → Except ShapeError α'}
    {g : β → Except ShapeError β'} (h : Answered σ related x y)
    (hfg : ∀ a b, related a b → Answered σ related' (f a) (g b)) :
    Answered σ related' (x >>= f) (y >>= g) := by
  cases h with
  | ok h => exact hfg _ _ h
  | error h => exact .error h

/-! ### Stores -/

def SizeValue.rename (σ : Var → Var) : SizeValue → SizeValue
  | var x => var (σ x)
  | literal value => literal value

@[simp] theorem SizeValue.isPlaceholder_rename (σ : Var → Var) (size : SizeValue) :
    (size.rename σ).isPlaceholder = size.isPlaceholder := by
  cases size <;> rfl

namespace Store

/-- The same shapes under renamed variables. A class has a size value in both stores or in neither. -/
structure VarsRenamed (σ : Var → Var) (s t : Store) : Prop where
  shapes : s.shapes.KeysRenamed σ t.shapes
  nextClass : t.nextClass = s.nextClass
  sized : ∀ c, t.sizesOf c = [] ↔ s.sizesOf c = []

namespace VarsRenamed

variable {s t : Store}

theorem find?_eq (hσ : Function.Injective σ) (h : s.VarsRenamed σ t) (x : Var) :
    t.shapes.find? (σ x) = s.shapes.find? x :=
  h.shapes.find?_eq hσ x

theorem has_eq (hσ : Function.Injective σ) (h : s.VarsRenamed σ t) (x : Var) :
    t.has (σ x) = s.has x := by
  rw [has, has, Table.contains, Table.contains, h.find?_eq hσ]

theorem lookup (hσ : Function.Injective σ) (h : s.VarsRenamed σ t) (x : Var) :
    Answered σ Eq (s.lookup x) (t.lookup (σ x)) := by
  rw [Store.lookup, Store.lookup, h.find?_eq hσ]
  cases s.shapes.find? x with
  | none => exact .error (.fatal rfl rfl)
  | some shape => exact .ok rfl

theorem putSizes (h : s.VarsRenamed σ t) (c : Int) {sizes sizes' : List SizeValue}
    (hsizes : sizes' = [] ↔ sizes = []) : (s.putSizes c sizes).VarsRenamed σ (t.putSizes c sizes') where
  shapes := h.shapes
  nextClass := h.nextClass
  sized d := by
    have hsized := h.sized d
    simp only [sizesOf] at hsized
    simp only [Store.putSizes, sizesOf, Table.find?_insert]
    by_cases hc : c = d
    · simpa [hc] using hsizes
    · simpa [hc] using hsized

theorem allocate (h : s.VarsRenamed σ t) : s.allocate.2.VarsRenamed σ t.allocate.2 where
  shapes := h.shapes
  nextClass := congrArg (· + 1) h.nextClass
  sized := h.sized

theorem addClass (h : s.VarsRenamed σ t) (size : Option SizeValue) :
    (s.addClass size).2.VarsRenamed σ (t.addClass (size.map (SizeValue.rename σ))).2 := by
  have hnext : t.allocate.1 = s.allocate.1 := h.nextClass
  cases size with
  | none => exact h.allocate
  | some size =>
    by_cases hplaceholder : size.isPlaceholder = true
    · simp only [Store.addClass, Option.map_some, Option.filter_some, hplaceholder,
        SizeValue.isPlaceholder_rename]
      exact h.allocate
    · simp only [Store.addClass, Option.map_some, Option.filter_some, hplaceholder,
        SizeValue.isPlaceholder_rename, hnext]
      exact h.allocate.putSizes _ (by simp)

theorem addClasses (h : s.VarsRenamed σ t) (sizes : List (Option SizeValue)) :
    (Store.addClasses (sizes.map (Option.map (SizeValue.rename σ))) t).1 =
        (Store.addClasses sizes s).1 ∧
      (Store.addClasses sizes s).2.VarsRenamed σ
        (Store.addClasses (sizes.map (Option.map (SizeValue.rename σ))) t).2 := by
  induction sizes generalizing s t with
  | nil => exact ⟨rfl, h⟩
  | cons size sizes ih =>
    obtain ⟨hshape, hstore⟩ := ih (h.addClass size)
    refine ⟨?_, hstore⟩
    simp only [List.map_cons, Store.addClasses, fst_addClass, h.nextClass, hshape]

theorem unite (h : s.VarsRenamed σ t) (c d : Int) : (s.unite c d).2.VarsRenamed σ (t.unite c d).2 where
  shapes := by
    simp only [Store.unite, Store.allocate, renameClasses, h.nextClass]
    exact h.shapes.mapValues _
  nextClass := congrArg (· + 1) h.nextClass
  sized e := by
    rw [sizesOf_unite, sizesOf_unite, h.nextClass]
    by_cases hnew : s.nextClass = e
    · simp [hnew, h.sized]
    · by_cases hold : d = e ∨ c = e
      · simp [hnew, hold]
      · simp [hnew, hold, h.sized]

theorem equate (h : s.VarsRenamed σ t) (c d : Int) : (s.equate c d).2.VarsRenamed σ (t.equate c d).2 := by
  unfold Store.equate
  split
  · exact h
  · exact h.unite c d

theorem represent (h : s.VarsRenamed σ t) (c : Int) (size size' : SizeValue) :
    (s.represent c size).VarsRenamed σ (t.represent c size') := by
  unfold Store.represent
  split
  · exact h
  · exact h.putSizes c (by simp)

/-- Recording the same shape for corresponding variables has the same outcome. -/
theorem record (hσ : Function.Injective σ) (h : s.VarsRenamed σ t) (x : Var) (shape : Shape) :
    (t.record (σ x) shape).1 = (s.record x shape).1 ∧
      (s.record x shape).2.VarsRenamed σ (t.record (σ x) shape).2 := by
  unfold Store.record
  rw [h.find?_eq hσ]
  split
  · exact ⟨rfl, h.shapes.insert hσ x shape, h.nextClass, h.sized⟩
  · split
    · exact ⟨rfl, h⟩
    · exact ⟨rfl, h.shapes.insert hσ x _, h.nextClass, h.sized⟩

end VarsRenamed

end Store

/-! ### Broadcasts -/

namespace Broadcast

variable {isArray isArray' : Var → Bool} {b b' : Broadcast}

/-- The broadcasts have come equally far. -/
structure Renamed (σ : Var → Var) (b b' : Broadcast) : Prop where
  store : b.store.VarsRenamed σ b'.store
  done : b'.done = b.done
  candidate : b'.candidate = b.candidate
  sawUnknown : b'.sawUnknown = b.sawUnknown

theorem Renamed.take (h : b.Renamed σ b') (c : Int) : (b.take c).Renamed σ (b'.take c) := by
  unfold Broadcast.take
  rw [h.candidate]
  split
  · exact ⟨h.store, h.done, rfl, rfl⟩
  · split
    · exact h
    · split
      · exact ⟨h.store, h.done, rfl, h.sawUnknown⟩
      · refine ⟨h.store.unite _ _, ?_, h.store.nextClass, h.sawUnknown⟩
        simp only [Store.fst_unite, h.done, h.store.nextClass]

theorem Renamed.takeAll (hσ : Function.Injective σ) (hisArray : ∀ x, isArray' (σ x) = isArray x)
    (h : b.Renamed σ b') (rank i : Nat) (xs : List Var) :
    (xs.foldl (fun b x => b.take (operandClass isArray rank i b.store x)) b).Renamed σ
      ((xs.map σ).foldl (fun b x => b.take (operandClass isArray' rank i b.store x)) b') := by
  induction xs generalizing b b' with
  | nil => exact h
  | cons x xs ih =>
    have hclass : operandClass isArray' rank i b'.store (σ x) =
        operandClass isArray rank i b.store x := by
      simp only [operandClass, hisArray, h.store.find?_eq hσ]
    rw [List.foldl_cons, List.map_cons, List.foldl_cons, hclass]
    exact ih (h.take _)

theorem Renamed.dimension (hσ : Function.Injective σ) (hisArray : ∀ x, isArray' (σ x) = isArray x)
    (h : b.Renamed σ b') (operands : List Var) (rank i : Nat) :
    (b.dimension isArray operands rank i).Renamed σ
      (b'.dimension isArray' (operands.map σ) rank i) := by
  have hstart : Renamed σ { b with candidate := Shape.sizeOne, sawUnknown := false }
      { b' with candidate := Shape.sizeOne, sawUnknown := false } := ⟨h.store, h.done, rfl, rfl⟩
  have hall := hstart.takeAll hσ hisArray rank i operands
  refine ⟨hall.store, ?_, hall.candidate, hall.sawUnknown⟩
  simp only [Broadcast.dimension, hall.done, hall.candidate, hall.sawUnknown]

theorem Renamed.dimensions (hσ : Function.Injective σ) (hisArray : ∀ x, isArray' (σ x) = isArray x)
    (h : b.Renamed σ b') (operands : List Var) (rank : Nat) (is : List Nat) :
    (is.foldl (Broadcast.dimension isArray operands rank) b).Renamed σ
      (is.foldl (Broadcast.dimension isArray' (operands.map σ) rank) b') := by
  induction is generalizing b b' with
  | nil => exact h
  | cons i is ih => exact ih (h.dimension hσ hisArray operands rank i)

end Broadcast

namespace Store.VarsRenamed

variable {isArray isArray' : Var → Bool} {s t : Store}

theorem mapM_lookup (hσ : Function.Injective σ) (h : s.VarsRenamed σ t) (xs : List Var) :
    Answered σ Eq (xs.mapM s.lookup) ((xs.map σ).mapM t.lookup) := by
  induction xs with
  | nil => exact .ok rfl
  | cons x xs ih =>
    rw [List.map_cons, List.mapM_cons, List.mapM_cons]
    refine (h.lookup hσ x).bind fun shape _ hshape => ?_
    subst hshape
    refine ih.bind fun shapes _ hshapes => ?_
    subst hshapes
    exact .ok rfl

theorem broadcast (hσ : Function.Injective σ) (hisArray : ∀ x, isArray' (σ x) = isArray x)
    (h : s.VarsRenamed σ t) (operands : List Var) :
    Answered σ (fun r r' => r'.1 = r.1 ∧ r.2.VarsRenamed σ r'.2) (s.broadcast isArray operands)
      (t.broadcast isArray' (operands.map σ)) := by
  have hfilter : (operands.map σ).filter isArray' = (operands.filter isArray).map σ := by
    rw [List.filter_map]
    congr 2
    exact funext hisArray
  unfold Store.broadcast
  rw [hfilter]
  cases operands.filter isArray with
  | nil => exact .error (.fatal rfl rfl)
  | cons x xs =>
    refine (h.mapM_lookup hσ (x :: xs)).bind fun shapes _ hshapes => ?_
    subst hshapes
    have hstart : (Broadcast.start s).Renamed σ (.start t) := ⟨h, rfl, rfl, rfl⟩
    have hall := hstart.dimensions hσ hisArray operands (maxRank shapes)
      (List.range (maxRank shapes))
    exact .ok ⟨hall.done, hall.store⟩

theorem matrixProduct (hσ : Function.Injective σ) (h : s.VarsRenamed σ t) (callName : String)
    (a b : Var) :
    Answered σ (fun r r' => r'.1 = r.1 ∧ r.2.VarsRenamed σ r'.2) (s.matrixProduct callName a b)
      (t.matrixProduct callName (σ a) (σ b)) := by
  unfold Store.matrixProduct
  refine (h.lookup hσ a).bind fun shape₁ _ heq => ?_
  subst heq
  refine (h.lookup hσ b).bind fun shape₂ _ heq => ?_
  subst heq
  cases shape₁.getLast? with
  | none => exact .error (.unsupported (.zeroDimensional callName))
  | some c₁ =>
    cases shape₂[contractedIndex shape₂]? with
    | none => exact .error (.unsupported (.zeroDimensional callName))
    | some c₂ =>
      have hcontract : (if c₁ = Shape.noClass ∨ c₂ = Shape.noClass then s
          else (s.equate c₁ c₂).2).VarsRenamed σ
            (if c₁ = Shape.noClass ∨ c₂ = Shape.noClass then t else (t.equate c₁ c₂).2) := by
        split
        · exact h
        · exact h.equate c₁ c₂
      refine (hcontract.lookup hσ a).bind fun left _ heq => ?_
      subst heq
      refine (hcontract.lookup hσ b).bind fun right _ heq => ?_
      subst heq
      exact .ok ⟨rfl, hcontract⟩

end Store.VarsRenamed

/-! ### Rules -/

namespace ShapeRule

/-- The same request of renamed variables. -/
inductive Renamed (σ : Var → Var) : ShapeRule → ShapeRule → Prop
  | fail (made : List (Option SizeValue)) {e e' : ShapeError} (h : e.Renamed σ e') :
    Renamed σ (fail made e) (fail (made.map (Option.map (SizeValue.rename σ))) e')
  | parameter (name : Var) (rank : Nat) : Renamed σ (parameter name rank) (parameter (σ name) rank)
  | copy (x : Var) : Renamed σ (copy x) (copy (σ x))
  | reverse (x : Var) : Renamed σ (reverse x) (reverse (σ x))
  | create (sizes : List (Option SizeValue)) :
    Renamed σ (create sizes) (create (sizes.map (Option.map (SizeValue.rename σ))))
  | elementwise (operands : List Var) :
    Renamed σ (elementwise operands) (elementwise (operands.map σ))
  | product (callName : String) (a b : Var) :
    Renamed σ (product callName a b) (product callName (σ a) (σ b))

variable {isArray isArray' : Var → Bool} {rule rule' : ShapeRule} {s t : Store}

theorem Renamed.unsupported (cause : Unsupported) :
    Renamed σ (.unsupported cause) (.unsupported (cause.rename σ)) :=
  .fail [] (.unsupported cause)

/-- A failure that changes nothing and ends the analysis. -/
theorem Renamed.fatal {e e' : ShapeError} (h : e.isFatal = true) (h' : e'.isFatal = true) :
    Renamed σ (.fail [] e) (.fail [] e') :=
  .fail [] (.fatal h h')

theorem Renamed.ite {c : Prop} [Decidable c] {first first' : ShapeRule}
    (h : first.Renamed σ first') (h' : rule.Renamed σ rule') :
    Renamed σ (if c then first else rule) (if c then first' else rule') := by
  split
  · exact h
  · exact h'

theorem Renamed.ofFirst (callName callName' : String) (args : List Var) {rule rule' : Var → ShapeRule}
    (h : ∀ x, (rule x).Renamed σ (rule' (σ x))) :
    (ShapeRule.ofFirst callName args rule).Renamed σ
      (ShapeRule.ofFirst callName' (args.map σ) rule') := by
  cases args with
  | nil => exact .fatal rfl rfl
  | cons x xs => exact h x

/-- A renamed request has the same answer. -/
theorem Renamed.apply (hσ : Function.Injective σ) (hisArray : ∀ x, isArray' (σ x) = isArray x)
    (hrule : rule.Renamed σ rule') (h : s.VarsRenamed σ t) :
    Answered σ Eq ((rule.apply isArray).run s).1 ((rule'.apply isArray').run t).1 ∧
      ((rule.apply isArray).run s).2.VarsRenamed σ ((rule'.apply isArray').run t).2 := by
  have hclasses : ∀ sizes : List (Option SizeValue),
      Answered σ Eq ((Infer.newClasses sizes).run s).1
          ((Infer.newClasses (sizes.map (Option.map (SizeValue.rename σ)))).run t).1 ∧
        ((Infer.newClasses sizes).run s).2.VarsRenamed σ
          ((Infer.newClasses (sizes.map (Option.map (SizeValue.rename σ)))).run t).2 := by
    intro sizes
    obtain ⟨hshape, hstore⟩ := h.addClasses sizes
    exact ⟨.ok hshape.symm, hstore⟩
  cases hrule with
  | fail made herror => exact ⟨.error herror, (h.addClasses made).2⟩
  | parameter name rank =>
    simp only [ShapeRule.apply, Attempt.run_bind, Attempt.run_ofReader, h.has_eq hσ]
    cases s.has name with
    | true => exact ⟨h.lookup hσ name, h⟩
    | false => simpa using hclasses (List.replicate rank none)
  | copy x => exact ⟨h.lookup hσ x, h⟩
  | reverse x =>
    rw [run_apply_reverse, run_apply_reverse]
    refine ⟨?_, h⟩
    have hlookup := h.lookup hσ x
    generalize s.lookup x = answer at hlookup ⊢
    generalize t.lookup (σ x) = answer' at hlookup ⊢
    cases hlookup with
    | ok heq => exact .ok (congrArg List.reverse heq)
    | error herror => exact .error herror
  | create sizes => exact hclasses sizes
  | elementwise operands =>
    rw [ShapeRule.apply, ShapeRule.apply, Attempt.run_ofExcept, Attempt.run_ofExcept]
    have hbroadcast := h.broadcast hσ hisArray operands
    generalize s.broadcast isArray operands = answer at hbroadcast ⊢
    generalize t.broadcast isArray' (operands.map σ) = answer' at hbroadcast ⊢
    cases hbroadcast with
    | ok hanswer => exact ⟨.ok hanswer.1.symm, hanswer.2⟩
    | error herror => exact ⟨.error herror, h⟩
  | product callName a b =>
    rw [ShapeRule.apply, ShapeRule.apply, Attempt.run_ofExcept, Attempt.run_ofExcept]
    have hproduct := h.matrixProduct hσ callName a b
    generalize s.matrixProduct callName a b = answer at hproduct ⊢
    generalize t.matrixProduct callName (σ a) (σ b) = answer' at hproduct ⊢
    cases hproduct with
    | ok hanswer => exact ⟨.ok hanswer.1.symm, hanswer.2⟩
    | error herror => exact ⟨.error herror, h⟩

end ShapeRule

def Callee.rename (σ : Var → Var) : Callee → Callee
  | map => map
  | named name receiver => named name (receiver.map σ)

namespace Reading

/-- The second reading tells of renamed variables what the first tells of the variables. -/
structure Renamed (known : Var → Prop) (σ : Var → Var) (r r' : Reading) : Prop where
  options : r'.options = r.options
  types : ∀ x, known x → r'.type? (σ x) = r.type? x
  arrays : ∀ x, r'.isArray (σ x) = r.isArray x
  callees : ∀ x, r'.callee? (σ x) = (r.callee? x).map (Callee.rename σ)
  receivers : ∀ func name x, r.callee? func = some (.named name (some x)) → known x
  items : ∀ x, r'.items (σ x) = (r.items x).map (SizeValue.rename σ)

namespace Renamed

variable {known : Var → Prop} {r r' : Reading}

theorem ofType (h : Renamed known σ r r') {x : Var} (hx : known x)
    {rule rule' : StaticType → ShapeRule} (hrule : ∀ type, (rule type).Renamed σ (rule' type)) :
    (r.ofType x rule).Renamed σ (r'.ofType (σ x) rule') := by
  rw [Reading.ofType, Reading.ofType, h.types x hx]
  cases r.type? x with
  | none => exact .fatal rfl rfl
  | some type => exact hrule type

theorem ruleOfParameter (h : Renamed known σ r r') {name : Var} (hname : known name) :
    (r.ruleOfParameter name).Renamed σ (r'.ruleOfParameter (σ name)) := by
  refine h.ofType hname fun type => ?_
  cases type.rank? with
  | none => exact .fatal rfl rfl
  | some rank => exact .parameter name rank

theorem integerSizes (h : Renamed known σ r r') (callName : String) {items : List Var}
    (hitems : ∀ x ∈ items, known x) :
    (r'.integerSizes callName (items.map σ)).1 =
        (r.integerSizes callName items).1.map (Option.map (SizeValue.rename σ)) ∧
      Option.Rel (ShapeError.Renamed σ) (r.integerSizes callName items).2
        (r'.integerSizes callName (items.map σ)).2 := by
  induction items with
  | nil => exact ⟨rfl, .none⟩
  | cons item items ih =>
    obtain ⟨hitem, hrest⟩ := List.forall_mem_cons.mp hitems
    obtain ⟨hsizes, herror⟩ := ih hrest
    rw [List.map_cons, Reading.integerSizes, Reading.integerSizes, h.types item hitem]
    cases r.type? item with
    | none => exact ⟨rfl, .some (.fatal rfl rfl)⟩
    | some type =>
      dsimp only
      split
      · exact ⟨congrArg (some (SizeValue.var (σ item)) :: ·) hsizes, herror⟩
      · exact ⟨rfl, .some (.unsupported (.shapeElement callName item))⟩

theorem ruleOfIntegers (h : Renamed known σ r r') (callName : String) {items : List Var}
    (hitems : ∀ x ∈ items, known x) :
    (r.ruleOfIntegers callName items).Renamed σ (r'.ruleOfIntegers callName (items.map σ)) := by
  obtain ⟨hsizes, herror⟩ := h.integerSizes callName hitems
  rw [Reading.ruleOfIntegers, Reading.ruleOfIntegers]
  generalize r.integerSizes callName items = found at hsizes herror ⊢
  generalize r'.integerSizes callName (items.map σ) = found' at hsizes herror ⊢
  obtain ⟨sizes, e⟩ := found
  obtain ⟨sizes', e'⟩ := found'
  obtain rfl : sizes' = _ := hsizes
  cases herror with
  | none => exact .create sizes
  | some herror => exact .fail sizes herror

theorem ruleOfShape (h : Renamed known σ r r') (callName : String) {args : List Var}
    (hargs : ∀ x ∈ args, known x) :
    (r.ruleOfShape callName args).Renamed σ (r'.ruleOfShape callName (args.map σ)) := by
  match args with
  | [] => exact .fatal rfl rfl
  | [arg] =>
    refine h.ofType (hargs arg List.mem_cons_self) fun type => .ite (.create [some (.var arg)]) ?_
    cases type.integerTupleLength? with
    | none => exact .unsupported (.shapeArgument callName arg)
    | some count =>
      have hitems : ((List.range count).map fun i => (r'.items (σ arg))[i]?) =
          ((List.range count).map fun i => (r.items arg)[i]?).map
            (Option.map (SizeValue.rename σ)) := by
        simp [h.items, Function.comp_def]
      dsimp only
      rw [hitems]
      exact .create _
  | a :: b :: args => exact h.ruleOfIntegers callName hargs

theorem ruleOfNamedCall (h : Renamed known σ r r') (callName : String) {args : List Var}
    (hargs : ∀ x ∈ args, known x) :
    (r.ruleOfNamedCall callName args).Renamed σ (r'.ruleOfNamedCall callName (args.map σ)) := by
  unfold Reading.ruleOfNamedCall
  cases CallRule.ofName? callName with
  | none =>
    rw [h.options]
    exact .ite (.elementwise args) (.unsupported (.unknownCall callName))
  | some rule =>
    cases rule with
    | transpose => exact .ofFirst _ _ _ .reverse
    | creation =>
      dsimp only
      rw [← List.map_take]
      exact h.ruleOfShape callName fun x hx => hargs x (List.mem_of_mem_take hx)
    | like => exact .ofFirst _ _ _ .copy
    | reshape =>
      dsimp only
      rw [← List.map_drop]
      exact h.ruleOfShape callName fun x hx => hargs x (List.mem_of_mem_drop hx)
    | dot =>
      rcases args with _ | ⟨a, _ | ⟨b, _ | ⟨c, _ | ⟨d, args⟩⟩⟩⟩
      · exact .fatal rfl rfl
      · exact .fatal rfl rfl
      · exact .product callName a b
      · exact .product callName a b
      · exact .fatal rfl rfl

theorem ruleOfCall (h : Renamed known σ r r') (func : Var) {args : List Var}
    (hargs : ∀ x ∈ args, known x) :
    (r.ruleOfCall func args).Renamed σ (r'.ruleOfCall (σ func) (args.map σ)) := by
  unfold Reading.ruleOfCall
  rw [h.callees]
  cases hcallee : r.callee? func with
  | none => exact .unsupported (.callTarget func)
  | some callee =>
    cases callee with
    | map =>
      refine .ofFirst _ _ _ fun first => ?_
      rw [h.arrays]
      exact .ite (.copy first) (.elementwise args)
    | named name receiver =>
      have happend : (receiver.map σ).toList ++ args.map σ = (receiver.toList ++ args).map σ := by
        cases receiver <;> rfl
      simp only [Option.map_some, Callee.rename, happend]
      refine h.ruleOfNamedCall name fun x hx => ?_
      rcases List.mem_append.mp hx with hreceiver | hx
      · rw [Option.mem_toList] at hreceiver
        exact h.receivers func name x (hreceiver ▸ hcallee)
      · exact hargs x hx

/-- A renamed expression has the renamed rule. -/
theorem ruleOf (hσ : Function.Injective σ) (h : Renamed known σ r r') (target : Var) {e : Expr}
    (hvars : ∀ x ∈ e.vars, known x) :
    (r.ruleOf target e).Renamed σ (r'.ruleOf (σ target) (e.rename σ)) := by
  cases e with
  | arg index name => exact h.ruleOfParameter (hvars name List.mem_cons_self)
  | var x => exact .copy x
  | unary fn x =>
    simp only [Expr.rename, Reading.ruleOf, h.options]
    exact .ite (.copy x) (.unsupported (.unaryOperator fn))
  | binop fn lhs rhs =>
    simp only [Expr.rename, Reading.ruleOf, h.options]
    exact .ite (.elementwise [lhs, rhs]) (.unsupported (.binaryOperator _ fn))
  | inplaceBinop fn immutableFn lhs rhs =>
    simp only [Expr.rename, Reading.ruleOf, h.options]
    exact .ite (.elementwise [lhs, rhs]) (.unsupported (.binaryOperator _ immutableFn))
  | fused tree =>
    simp only [Expr.rename, Reading.ruleOf, FusedTree.vars_rename hσ]
    exact .elementwise tree.vars
  | cast x => exact .copy x
  | getattr x attr =>
    simp only [Expr.rename, Reading.ruleOf, h.arrays]
    exact .ite (.reverse x) (.unsupported (.getattr attr x))
  | call func args kws =>
    refine h.ruleOfCall func fun x hx => ?_
    exact hvars x (List.mem_cons_of_mem func (List.mem_append_left _ hx))
  | other op => exact .fatal rfl rfl
  | _ => exact .unsupported (.production _ target)

end Renamed

end Reading

end DimEquiv
