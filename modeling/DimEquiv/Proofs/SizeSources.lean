import DimEquiv.Occurrence
import DimEquiv.Proofs.Denotation
import DimEquiv.Proofs.ReadLookup
import DimEquiv.Proofs.SpecialClasses

/-!
# Where size values come from

The variables that hold the size of a class come from few places: the arguments and tuples that shapes
are given by, the reads that the program contains, and new reads. A union moves them from class to class
and brings no other.
-/

namespace DimEquiv

/-- An assignment in `as` mentions the variable. -/
def Mentioned (as : List Assign) (x : Var) : Prop := ∃ a ∈ as, x ∈ a.value.mentions

theorem Mentioned.mono {as bs : List Assign} {x : Var} (h : Mentioned as x) (hsub : as ⊆ bs) :
    Mentioned bs x :=
  h.imp fun _ ha => ⟨hsub ha.1, ha.2⟩

/-! ### Sizes that rules give -/

theorem Store.exists_of_mem_sizesOf_addClasses {s : Store} {sizes : List (Option SizeValue)}
    {size : SizeValue} {c : Int} (hs : s.Bounded)
    (h : size ∈ (addClasses sizes s).2.sizesOf c) :
    (∃ d, size ∈ s.sizesOf d) ∨ some size ∈ sizes := by
  rcases mem_sizesOf_addClasses hs h with ⟨-, hmem⟩ | ⟨i, -, hback⟩
  · exact .inl ⟨c, hmem⟩
  · exact .inr (List.mem_of_getElem? (backing?_eq_some_iff.mp hback).1)

namespace ShapeRule

/-- The sizes that a rule gives to new classes. -/
def sizes : ShapeRule → List (Option SizeValue)
  | fail made _ => made
  | create sizes => sizes
  | _ => []

theorem sizes_if {c : Prop} [Decidable c] {rule rule' : ShapeRule} (h : rule.sizes = [])
    (h' : rule'.sizes = []) : (if c then rule else rule').sizes = [] := by
  split
  · exact h
  · exact h'

theorem sizes_ofFirst {callName : String} {args : List Var} {rule : Var → ShapeRule}
    (h : ∀ x, (rule x).sizes = []) : (ofFirst callName args rule).sizes = [] := by
  unfold ofFirst
  split
  · exact h _
  · rfl

variable {s : Store} {size : SizeValue} {c : Int}

/-- A size value stood for a class before, or the rule gives it to a new one. -/
theorem exists_of_mem_sizesOf_apply (isArray : Var → Bool) (rule : ShapeRule) (hs : s.Bounded)
    (h : size ∈ ((rule.apply isArray).run s).2.sizesOf c) :
    (∃ d, size ∈ s.sizesOf d) ∨ some size ∈ rule.sizes := by
  cases rule with
  | fail made e => exact Store.exists_of_mem_sizesOf_addClasses hs h
  | create sizes => exact Store.exists_of_mem_sizesOf_addClasses hs h
  | parameter name rank =>
    simp only [apply, Attempt.run_bind, Attempt.run_ofReader] at h
    split at h
    · exact .inl ⟨c, h⟩
    · refine (Store.exists_of_mem_sizesOf_addClasses hs h).imp_right fun hmem => ?_
      cases List.eq_of_mem_replicate hmem
  | copy x => exact .inl ⟨c, h⟩
  | reverse x =>
    rw [run_apply_reverse] at h
    exact .inl ⟨c, h⟩
  | elementwise operands =>
    rw [apply, Attempt.run_ofExcept] at h
    cases hrun : s.broadcast isArray operands with
    | error e =>
      rw [hrun] at h
      exact .inl ⟨c, h⟩
    | ok r =>
      obtain ⟨-, -, hr⟩ := Store.broadcast_eq_ok_iff.mp hrun
      obtain ⟨rep, base, -, hprogress⟩ := Store.exists_progress_broadcastAll isArray operands hs
      rw [hrun, hr] at h
      obtain ⟨d, -, -, hmem⟩ := hprogress.collapse.exists_of_mem_sizesOf h
      exact .inl ⟨d, hmem⟩
  | product callName a b =>
    rw [apply, Attempt.run_ofExcept] at h
    cases hrun : s.matrixProduct callName a b with
    | error e =>
      rw [hrun] at h
      exact .inl ⟨c, h⟩
    | ok r =>
      obtain ⟨-, -, -, -, rep, -, -, -, -, hcollapse, -⟩ := Store.matrixProduct_effect hs hrun
      rw [hrun] at h
      obtain ⟨d, -, -, hmem⟩ := hcollapse.exists_of_mem_sizesOf h
      exact .inl ⟨d, hmem⟩

end ShapeRule

namespace Reading

open ShapeRule

variable {r : Reading} {known : Var → Prop} {x : Var}

theorem mem_of_mem_integerSizes {callName : String} {items : List Var}
    (h : some (.var x) ∈ (r.integerSizes callName items).1) : x ∈ items := by
  induction items with
  | nil => cases h
  | cons item items ih =>
    rw [integerSizes] at h
    split at h
    · cases h
    · split at h
      · rcases List.mem_cons.mp h with hx | hx
        · cases hx
          exact List.mem_cons_self
        · exact List.mem_cons_of_mem item (ih hx)
      · cases h

section

variable (hitems : ∀ tuple y, .var y ∈ r.items tuple → known y)

include hitems

theorem known_of_mem_sizes_shape {callName : String} {args : List Var} (hargs : ∀ y ∈ args, known y)
    (h : some (.var x) ∈ (r.ruleOfShape callName args).sizes) : known x := by
  match args with
  | [] => cases h
  | [arg] =>
    rw [ruleOfShape, ofType] at h
    split at h
    · split at h
      · cases List.mem_singleton.mp h
        exact hargs x List.mem_cons_self
      · split at h
        · obtain ⟨i, -, hi⟩ := List.mem_map.mp h
          exact hitems arg x (List.mem_of_getElem? hi)
        · cases h
    · cases h
  | a :: b :: args =>
    rw [ruleOfShape.eq_3 _ _ _ (by simp) (by simp), ruleOfIntegers] at h
    have hmem : some (.var x) ∈ (r.integerSizes callName (a :: b :: args)).1 := by
      generalize r.integerSizes callName (a :: b :: args) = sizes at h ⊢
      obtain ⟨sizes, _ | e⟩ := sizes <;> exact h
    exact hargs x (mem_of_mem_integerSizes hmem)

theorem known_of_mem_sizes_namedCall {callName : String} {args : List Var}
    (hargs : ∀ y ∈ args, known y) (h : some (.var x) ∈ (r.ruleOfNamedCall callName args).sizes) :
    known x := by
  unfold ruleOfNamedCall at h
  cases hrule : CallRule.ofName? callName with
  | none =>
    rw [hrule] at h
    dsimp only at h
    rw [sizes_if rfl rfl] at h
    cases h
  | some rule =>
    rw [hrule] at h
    cases rule with
    | creation => exact known_of_mem_sizes_shape hitems (fun y hy => hargs y (List.mem_of_mem_take hy)) h
    | reshape => exact known_of_mem_sizes_shape hitems (fun y hy => hargs y (List.mem_of_mem_drop hy)) h
    | transpose =>
      dsimp only at h
      rw [sizes_ofFirst fun _ => rfl] at h
      cases h
    | like =>
      dsimp only at h
      rw [sizes_ofFirst fun _ => rfl] at h
      cases h
    | dot =>
      dsimp only at h
      split at h <;> cases h

/-- The variables that a rule gives to new classes are mentioned by its expression, the receiver of a
method or items of a tuple. -/
theorem known_of_mem_sizes (hreceivers : ∀ func name y, r.callee? func = some (.named name (some y)) →
    known y) (target : Var) {e : Expr} (hmentions : ∀ y ∈ e.mentions, known y)
    (h : some (.var x) ∈ (r.ruleOf target e).sizes) : known x := by
  cases e with
  | call func args kws =>
    rw [ruleOf, ruleOfCall] at h
    have hargs : ∀ y ∈ args, known y := fun y hy =>
      hmentions y (List.mem_cons_of_mem func (List.mem_append_left _ hy))
    split at h
    · rw [sizes_ofFirst fun _ => sizes_if rfl rfl] at h
      cases h
    · rename_i name receiver hcallee
      refine known_of_mem_sizes_namedCall hitems (fun y hy => ?_) h
      rcases List.mem_append.mp hy with hreceiver | hy
      · rw [Option.mem_toList] at hreceiver
        exact hreceivers func name y (hreceiver ▸ hcallee)
      · exact hargs y hy
    · cases h
  | arg index name =>
    rw [ruleOf, ruleOfParameter, ofType] at h
    split at h
    · split at h <;> cases h
    · cases h
  | unary fn y =>
    rw [ruleOf, sizes_if rfl rfl] at h
    cases h
  | binop fn lhs rhs =>
    rw [ruleOf, sizes_if rfl rfl] at h
    cases h
  | inplaceBinop fn immutableFn lhs rhs =>
    rw [ruleOf, sizes_if rfl rfl] at h
    cases h
  | getattr y attr =>
    rw [ruleOf, sizes_if rfl rfl] at h
    cases h
  | _ => cases h

end

end Reading

/-! ### Symbol tables -/

namespace Symbols

/-- What the tables say of tuples and methods was mentioned by the assignments in `done`. -/
structure Mentions (t : Symbols) (done : List Assign) : Prop where
  items : ∀ tuple items x, t.tuples.find? tuple = some items → .var x ∈ items → Mentioned done x
  receivers : ∀ func call, t.methodCalls.find? func = some call → Mentioned done call.receiver

theorem mentions_scan_empty (p : Program) : (empty.scan p).Mentions [] := by
  rw [scan_eq]
  exact ⟨nofun, nofun⟩

variable {t : Symbols} {done : List Assign}

theorem Mentions.observe (h : t.Mentions done) (isArray : Var → Bool) (a : Assign) :
    (t.observe isArray a).Mentions (done ++ [a]) := by
  have hkept : t.Mentions (done ++ [a]) :=
    ⟨fun tuple items x ht hx => (h.items tuple items x ht hx).mono (List.subset_append_left _ _),
      fun func call hcall => (h.receivers func call hcall).mono (List.subset_append_left _ _)⟩
  rcases t.observe_cases isArray a with ⟨hsame, -⟩ | ⟨role, henter, hgives⟩
  · rw [hsame]
    exact hkept
  have hhere : ∀ x ∈ a.value.mentions, Mentioned (done ++ [a]) x := fun x hx => ⟨a, by simp, hx⟩
  rw [henter]
  refine ⟨fun tuple items x ht hx => ?_, fun func call hcall => ?_⟩
  · rcases holds_of_enter (.tuple items) ht with ⟨-, rfl⟩ | ht
    · exact hhere x (hgives.item_mem hx)
    · exact hkept.items tuple items x ht hx
  · rcases holds_of_enter (.methodCall call) hcall with ⟨-, rfl⟩ | hcall
    · exact hhere _ hgives.receiver_mem
    · exact hkept.receivers func call hcall

end Symbols

/-! ### Inference -/

/-- A variable that holds the size of a class after an inference did so before, or the program has
mentioned it. -/
theorem Pass.mentioned_of_mem_sizesOf_inferred {options : Options} {a : Assign} {s : State}
    {done : List Assign} {x : Var} {c : Int} (hs : s.store.Bounded)
    (hsymbols : (s.observe a).symbols.Mentions (done ++ [a]))
    (h : .var x ∈ (inferred options a s).2.sizesOf c) :
    (∃ d, .var x ∈ s.store.sizesOf d) ∨ Mentioned (done ++ [a]) x := by
  rw [inferred_eq_apply] at h
  refine (ShapeRule.exists_of_mem_sizesOf_apply _ _ hs h).imp_right fun hgiven => ?_
  refine Reading.known_of_mem_sizes (fun tuple y hy => ?_) (fun func name y hcallee => ?_) a.target
    (fun y hy => ⟨a, by simp, hy⟩) hgiven
  · change .var y ∈ ((s.observe a).symbols.tuples.find? tuple).getD [] at hy
    cases hitems : (s.observe a).symbols.tuples.find? tuple with
    | none =>
      rw [hitems] at hy
      cases hy
    | some items =>
      rw [hitems] at hy
      exact hsymbols.items tuple items y hitems hy
  · obtain ⟨call, hcall, rfl⟩ := Symbols.methodCall_of_callee? hcallee
    exact hsymbols.receivers func call hcall

/-! ### Reads -/

namespace SizeRead

variable {array : Var} {dim : Nat} {s t : State} {known : Var → Prop} {x : Var}

/-- The size value of a dimension stands for its class, or is read off the array. -/
theorem Visited.of_var {c : Int} {reads : List Assign}
    (h : Visited array dim c s reads (.var x) t) :
    (c ≠ Shape.noClass ∧ .var x ∈ s.store.sizesOf c) ∨ s.symbols.fetch? array dim = some x ∨
      ∃ b ∈ reads, b.target = x := by
  cases h with
  | standing h => exact .inl (standing?_eq_some h)
  | fetched _ hx => exact .inr (.inl hx)
  | generated _ _ hgroup =>
    cases hgroup
    exact .inr (.inr ⟨_, List.mem_cons_of_mem _ (List.mem_cons_of_mem _ List.mem_cons_self), rfl⟩)

theorem VisitedAll.known_of_var {cs : Shape} {r : SizeReads} (h : VisitedAll array dim cs s r t)
    (hs : ∀ c x, .var x ∈ s.store.sizesOf c → known x)
    (hfetch : ∀ i x, s.symbols.fetch? array i = some x → known x)
    (hnew : ∀ b ∈ r.instructions, known b.target) :
    (∀ c x, .var x ∈ t.store.sizesOf c → known x) ∧ ∀ x, .var x ∈ r.sizes → known x := by
  induction h with
  | nil => exact ⟨hs, nofun⟩
  | @cons dim c cs s t u reads size rest h hrest ih =>
    have hsize : ∀ x, size = .var x → known x := by
      rintro x rfl
      rcases h.of_var with ⟨-, hx⟩ | hx | ⟨b, hb, rfl⟩
      · exact hs c x hx
      · exact hfetch _ x hx
      · exact hnew b (List.mem_append_left _ hb)
    have ht : ∀ d x, .var x ∈ t.store.sizesOf d → known x := by
      intro d x hx
      rcases h.store_eq with ⟨-, hstore⟩ | ⟨-, hstore⟩
      · exact hs d x (hstore ▸ hx)
      · rw [hstore, Store.sizesOf_represent] at hx
        split at hx
        · exact hsize x (List.mem_singleton.mp hx).symm
        · exact hs d x hx
    rw [← h.symbols_eq] at hfetch
    obtain ⟨hstore, hsizes⟩ := ih ht hfetch fun b hb => hnew b (List.mem_append_right _ hb)
    refine ⟨hstore, fun x hx => ?_⟩
    rcases List.mem_cons.mp hx with hx | hx
    · exact hsize x hx.symm
    · exact hsizes x hx

/-- Where no dimension is known, each of them is read off the array. -/
theorem VisitedAll.of_unknown {cs : Shape} {r : SizeReads} (h : VisitedAll array dim cs s r t)
    (hcs : ∀ c ∈ cs, c = Shape.noClass) (hx : .var x ∈ r.sizes) :
    (∃ i, s.symbols.fetch? array i = some x) ∨ ∃ b ∈ r.instructions, b.target = x := by
  induction h with
  | nil => cases hx
  | @cons dim c cs s t u reads size rest h hrest ih =>
    rcases List.mem_cons.mp hx with rfl | hx
    · rcases h.of_var with ⟨hknown, -⟩ | hx | ⟨b, hb, htarget⟩
      · exact absurd (hcs c List.mem_cons_self) hknown
      · exact .inl ⟨_, hx⟩
      · exact .inr ⟨b, List.mem_append_left _ hb, htarget⟩
    · rcases ih (fun d hd => hcs d (List.mem_cons_of_mem c hd)) hx with ⟨i, hi⟩ | ⟨b, hb, htarget⟩
      · exact .inl ⟨i, h.symbols_eq ▸ hi⟩
      · exact .inr ⟨b, List.mem_append_right _ hb, htarget⟩

end SizeRead

end DimEquiv
