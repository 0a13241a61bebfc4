import DimEquiv.Proofs.DerivedClasses
import DimEquiv.State

/-!
# The exact effect of a matrix product

A product makes at most one union, of the two contracted classes, and that union may rename dimensions
that the result keeps: those of a square operand, or of an array multiplied with itself. The result is
therefore stated by the tables as they are afterwards.
-/

namespace DimEquiv

namespace Store

/-- The store `t` is `s` with two classes made one, under an id that was free. -/
structure Fuses (s : Store) (c₁ c₂ : Int) (t : Store) : Prop where
  unrecorded : ∀ x shape, s.shapes.find? x = some shape → s.nextClass ∉ shape
  unsized : s.nextClass ∉ s.classSizes.keys
  nextClass : t.nextClass = s.nextClass + 1
  shapes : t.shapes.toList = s.shapes.toList.map fun entry =>
    (entry.1, entry.2.map fun c => if c = c₁ ∨ c = c₂ then s.nextClass else c)
  sizeVars : t.sizeVars = s.sizeVars
  /-- Both classes lose their entries, and their size values go to the new one, which comes last. -/
  classSizes : t.classSizes.toList =
    (s.classSizes.toList.filter fun entry => entry.1 ≠ c₁ ∧ entry.1 ≠ c₂) ++
      [(s.nextClass, s.sizesOf c₁ ++ s.sizesOf c₂)]

theorem fuses_unite {s : Store} (hs : s.Bounded) (c₁ c₂ : Int) :
    s.Fuses c₁ c₂ (s.unite c₁ c₂).2 := by
  have hunsized : s.nextClass ∉ s.classSizes.keys :=
    fun hmem => Int.lt_irrefl _ (hs.lt_of_sized _ hmem)
  refine ⟨fun x shape hx hmem => Int.lt_irrefl _ (hs.lt_of_recorded x shape hx _ hmem), hunsized, rfl,
    ?_, rfl, ?_⟩
  · simp only [unite, allocate, renameClasses, Table.toList_mapValues, Shape.rename, List.mem_cons,
      List.not_mem_nil, or_false]
  · have hremaining : ((s.classSizes.erase c₁).erase c₂).toList =
        s.classSizes.toList.filter fun entry => entry.1 ≠ c₁ ∧ entry.1 ≠ c₂ := by
      simp only [Table.erase, List.filter_filter, Bool.decide_and, Bool.and_comm]
    have hfree : s.nextClass ∉ ((s.classSizes.erase c₁).erase c₂).keys := by
      rw [Table.keys, hremaining]
      exact fun hmem => hunsized ((List.filter_sublist.map Prod.fst).subset hmem)
    rw [← hremaining]
    exact Table.toList_insert_of_notMem _ _ _ hfree

/-- The contracted dimension of the second operand is its only one or its second to last. -/
theorem contractedIndex_eq (shape : Shape) :
    contractedIndex shape = if shape.length = 1 then 0 else shape.length - 2 := by
  unfold contractedIndex
  split <;> omega

/-- Contracted classes become one, unless they are one or one of them is unknown. -/
theorem contract_cases {s : Store} (hs : s.Bounded) (c₁ c₂ : Int) :
    let t := if c₁ = Shape.noClass ∨ c₂ = Shape.noClass then s else (s.equate c₁ c₂).2
    (c₁ = c₂ ∨ c₁ = Shape.noClass ∨ c₂ = Shape.noClass → t = s) ∧
      (¬ (c₁ = c₂ ∨ c₁ = Shape.noClass ∨ c₂ = Shape.noClass) → s.Fuses c₁ c₂ t) := by
  intro t
  by_cases hunknown : c₁ = Shape.noClass ∨ c₂ = Shape.noClass
  · have ht : t = s := if_pos hunknown
    exact ⟨fun _ => ht, fun h => absurd (.inr hunknown) h⟩
  · have ht : t = (s.equate c₁ c₂).2 := if_neg hunknown
    rw [ht]
    by_cases hsame : c₁ = c₂
    · refine ⟨fun _ => ?_, fun h => absurd (.inl hsame) h⟩
      rw [hsame, equate_self]
    · refine ⟨fun h => absurd h (not_or.mpr ⟨hsame, hunknown⟩), fun _ => ?_⟩
      rw [equate_of_ne s hsame]
      exact fuses_unite hs c₁ c₂

end Store

theorem Scope.inferNamedCall_dot (scope : Scope) (a b : Var) (third : Option Var) :
    scope.inferNamedCall "dot" (a :: b :: third.toList) =
      .ofExcept (Store.matrixProduct "dot" a b) := by
  cases third <;> rfl

open Store

/-- A matrix product of two recorded arrays, each of one dimension at least, succeeds whatever third
argument it is given. It makes one new class of the last class of the first operand and the contracted
class of the second, with the size values of both, unless they are one class or one of them is unknown, and
changes nothing else. The result has the dimensions that are left of the operands, each with the class that
the tables then show for it. -/
theorem dot_exact_effect (options : Options) {s : State} (hs : s.store.Bounded) {a b : Var}
    {shape₁ shape₂ : Shape} (ha : s.store.shapes.find? a = some shape₁)
    (hb : s.store.shapes.find? b = some shape₂) (h₁ : shape₁ ≠ []) (h₂ : shape₂ ≠ [])
    (third : Option Var) :
    ∃ c₁ c₂ out t left right,
      shape₁.getLast? = some c₁ ∧
      shape₂[if shape₂.length = 1 then 0 else shape₂.length - 2]? = some c₂ ∧
      (State.onStore ((s.scope options).inferNamedCall "dot" (a :: b :: third.toList))).run s =
        (.ok out, { s with store := t }) ∧
      (c₁ = c₂ ∨ c₁ = Shape.noClass ∨ c₂ = Shape.noClass → t = s.store) ∧
      (¬ (c₁ = c₂ ∨ c₁ = Shape.noClass ∨ c₂ = Shape.noClass) → s.store.Fuses c₁ c₂ t) ∧
      t.shapes.find? a = some left ∧ t.shapes.find? b = some right ∧
      out = left.dropLast ++
        (if shape₂.length = 1 then [] else right.eraseIdx (shape₂.length - 2)) ∧
      out.length = shape₁.length + shape₂.length - 2 ∧
      List.Forall₂ (fun d c => t.classAt? d = some c)
        ((dimensionsOf a shape₁.length).dropLast ++
          (dimensionsOf b shape₂.length).eraseIdx (shape₂.length - 2)) out := by
  have hlong := List.length_pos_iff.mpr h₂
  obtain ⟨c₁, hc₁⟩ : ∃ c, shape₁.getLast? = some c := ⟨_, List.getLast?_eq_some_getLast h₁⟩
  obtain ⟨c₂, hc₂⟩ : ∃ c, shape₂[contractedIndex shape₂]? = some c :=
    ⟨_, List.getElem?_eq_getElem (Nat.sub_lt hlong Nat.two_pos)⟩
  obtain ⟨out, hrun⟩ := matrixProduct_of_find? "dot" ha hb hc₁ hc₂
  obtain ⟨hsame, hfuses⟩ := contract_cases hs c₁ c₂
  generalize (if c₁ = Shape.noClass ∨ c₂ = Shape.noClass then s.store
    else (s.store.equate c₁ c₂).2) = t at hrun hsame hfuses
  obtain ⟨_, _, -, -, rep, ha', hb', -, -, hcollapse, rfl, -⟩ := matrixProduct_effect hs hrun
  obtain rfl := Option.some.inj (ha.symm.trans ha')
  obtain rfl := Option.some.inj (hb.symm.trans hb')
  have hleft : t.shapes.find? a = some (shape₁.map rep) := by
    rw [hcollapse.find?_shapes, ha, Option.map_some]
  have hright : t.shapes.find? b = some (shape₂.map rep) := by
    rw [hcollapse.find?_shapes, hb, Option.map_some]
  have hout : productShape (shape₁.map rep) (shape₂.map rep) = (shape₁.map rep).dropLast ++
      (shape₂.map rep).eraseIdx (shape₂.length - 2) := by
    rw [productShape, contractedIndex_map, contractedIndex]
  have hlength : (productShape (shape₁.map rep) (shape₂.map rep)).length =
      shape₁.length + shape₂.length - 2 := by
    have := length_productShape (by simpa using h₁ : shape₁.map rep ≠ [])
      (by simpa using h₂ : shape₂.map rep ≠ [])
    rw [List.length_map, List.length_map] at this
    omega
  refine ⟨_, _, _, t, _, _, hc₁, ?_, ?_, hsame, hfuses, hleft, hright, ?_, hlength,
    hcollapse.forall₂_productShape ha hb⟩
  · rw [← contractedIndex_eq]
    exact hc₂
  · rw [Scope.inferNamedCall_dot, State.run_onStore, Attempt.run_ofExcept, hrun]
  · rw [hout]
    split
    · rename_i hone
      obtain ⟨c, rfl⟩ := List.length_eq_one_iff.mp hone
      rfl
    · rfl

/-- One recorded matrix, both of whose lengths are known. -/
def knownMatrix : State :=
  let s := State.initial (.ofList [("a", .arrayOf 2)]) (.empty 0)
  { s with
    store := { s.store with
      shapes := .ofList [("a", [1, 2])]
      classSizes := .ofList [(0, [.literal 1]), (1, [.var "n"]), (2, [.var "m"])]
      nextClass := 3 } }

/-- The product of the matrix with itself makes it square, and so is the result. -/
theorem dot_exact_effect_square :
    knownMatrix.store.Bounded ∧ knownMatrix.store.shapes.find? "a" = some [1, 2] ∧
      ∃ t, (State.onStore ((knownMatrix.scope .standard).inferNamedCall "dot" ["a", "a", "o"])).run
          knownMatrix = (.ok [3, 3], { knownMatrix with store := t }) ∧
        knownMatrix.store.Fuses 2 1 t ∧ t.sizesOf 3 = [.var "m", .var "n"] := by
  have hs : knownMatrix.store.Bounded := by decide
  have ha : knownMatrix.store.shapes.find? "a" = some [1, 2] := rfl
  obtain ⟨c₁, c₂, out, t, left, right, hc₁, hc₂, hrun, -, hfuses, -⟩ :=
    dot_exact_effect .standard hs ha ha (by decide) (by decide) (some "o")
  obtain rfl : 2 = c₁ := Option.some.inj hc₁
  obtain rfl : 1 = c₂ := Option.some.inj hc₂
  obtain ⟨rfl, rfl⟩ : [3, 3] = out ∧ _ = t := by
    have := Prod.mk.inj hrun
    exact ⟨Except.ok.inj this.1, congrArg State.store this.2⟩
  exact ⟨hs, ha, _, hrun, hfuses (by decide), rfl⟩

end DimEquiv
