import DimEquiv.Derivation
import DimEquiv.Occurrence

/-!
# What a rule depends on

The rule of an expression depends on what is known of the variables of the expression, and of the
receiver where a method is called. It reads no other array.
-/

namespace DimEquiv

namespace Reading

/-- What two readings have in common when they differ outside `settled` only. -/
structure Agrees (settled : Var → Prop) (r r' : Reading) : Prop where
  options : r'.options = r.options
  types : ∀ x, settled x → r'.type? x = r.type? x
  callees : ∀ x, settled x → r'.callee? x = r.callee? x
  receivers : ∀ func name x, settled func → r.callee? func = some (.named name (some x)) → settled x
  items : ∀ x, settled x → r'.items x = r.items x

namespace Agrees

variable {settled : Var → Prop} {r r' : Reading}

theorem ofType_eq (h : Agrees settled r r') {x : Var} (hx : settled x)
    (rule : StaticType → ShapeRule) : r'.ofType x rule = r.ofType x rule := by
  rw [ofType, ofType, h.types x hx]

theorem isArray_eq (h : Agrees settled r r') {x : Var} (hx : settled x) :
    r'.isArray x = r.isArray x := by
  rw [isArray, isArray, h.types x hx]

theorem integerSizes_eq (h : Agrees settled r r') (callName : String) {items : List Var}
    (hx : ∀ x ∈ items, settled x) : r'.integerSizes callName items = r.integerSizes callName items := by
  induction items with
  | nil => rfl
  | cons item items ih =>
    rw [integerSizes, integerSizes, h.types item (hx item List.mem_cons_self),
      ih fun x hmem => hx x (List.mem_cons_of_mem item hmem)]

theorem ruleOfIntegers_eq (h : Agrees settled r r') (callName : String) {items : List Var}
    (hx : ∀ x ∈ items, settled x) :
    r'.ruleOfIntegers callName items = r.ruleOfIntegers callName items := by
  rw [ruleOfIntegers, ruleOfIntegers, h.integerSizes_eq callName hx]

theorem ruleOfShape_eq (h : Agrees settled r r') (callName : String) {args : List Var}
    (hx : ∀ x ∈ args, settled x) : r'.ruleOfShape callName args = r.ruleOfShape callName args := by
  match args with
  | [] => rfl
  | [arg] =>
    have harg := hx arg List.mem_cons_self
    rw [ruleOfShape, ruleOfShape, h.ofType_eq harg, h.items arg harg]
  | a :: b :: args => exact h.ruleOfIntegers_eq callName hx

theorem ruleOfNamedCall_eq (h : Agrees settled r r') (callName : String) {args : List Var}
    (hx : ∀ x ∈ args, settled x) :
    r'.ruleOfNamedCall callName args = r.ruleOfNamedCall callName args := by
  unfold ruleOfNamedCall
  rw [h.ruleOfShape_eq callName fun x hmem => hx x (List.mem_of_mem_take hmem),
    h.ruleOfShape_eq callName fun x hmem => hx x (List.mem_of_mem_drop hmem), h.options]

theorem ruleOfCall_eq (h : Agrees settled r r') {func : Var} {args : List Var}
    (hfunc : settled func) (hx : ∀ x ∈ args, settled x) :
    r'.ruleOfCall func args = r.ruleOfCall func args := by
  unfold ruleOfCall
  rw [h.callees func hfunc]
  cases hcallee : r.callee? func with
  | none => rfl
  | some callee =>
    cases callee with
    | map =>
      cases args with
      | nil => rfl
      | cons first args =>
        simp only [ShapeRule.ofFirst, List.getElem?_cons_zero,
          h.isArray_eq (hx first List.mem_cons_self)]
    | named name receiver =>
      refine h.ruleOfNamedCall_eq name fun x hmem => ?_
      rcases List.mem_append.mp hmem with hreceiver | hmem
      · rw [Option.mem_toList] at hreceiver
        exact h.receivers func name x hfunc (hreceiver ▸ hcallee)
      · exact hx x hmem

/-- Readings that agree on the variables of an expression give it the same rule. -/
theorem ruleOf_eq (h : Agrees settled r r') (target : Var) {e : Expr}
    (hx : ∀ x ∈ e.vars, settled x) : r'.ruleOf target e = r.ruleOf target e := by
  cases e with
  | arg index name => exact h.ofType_eq (hx name List.mem_cons_self) _
  | call func args kws =>
    exact h.ruleOfCall_eq (hx func List.mem_cons_self) fun x hmem =>
      hx x (List.mem_cons_of_mem func (List.mem_append_left _ hmem))
  | unary fn x => simp only [ruleOf, h.options]
  | binop fn lhs rhs => simp only [ruleOf, h.options]
  | inplaceBinop fn immutableFn lhs rhs => simp only [ruleOf, h.options]
  | getattr x attr => simp only [ruleOf, h.isArray_eq (hx x List.mem_cons_self)]
  | _ => rfl

end Agrees

/-! ### What a rule reads -/

open ShapeRule

variable {isArray : Var → Bool} {r : Reading}

theorem reads_ofType {x : Var} {rule : StaticType → ShapeRule}
    (h : ∀ type, (rule type).reads isArray = []) : (r.ofType x rule).reads isArray = [] := by
  unfold ofType
  split
  · exact h _
  · rfl

theorem reads_ruleOfShape (callName : String) (args : List Var) :
    (r.ruleOfShape callName args).reads isArray = [] := by
  match args with
  | [] => rfl
  | [arg] =>
    refine reads_ofType fun type => ?_
    split
    · rfl
    · cases type.integerTupleLength? <;> rfl
  | a :: b :: args =>
    rw [ruleOfShape.eq_3 _ _ _ (by simp) (by simp), ruleOfIntegers]
    split <;> rfl

theorem reads_ofFirst_subset {callName : String} {args : List Var} {rule : Var → ShapeRule}
    {known : List Var} (h : ∀ x ∈ args, (rule x).reads isArray ⊆ known) :
    (ofFirst callName args rule).reads isArray ⊆ known := by
  unfold ofFirst
  split
  · rename_i x hx
    exact h x (List.mem_of_getElem? hx)
  · exact List.nil_subset known

theorem reads_ruleOfNamedCall_subset (callName : String) (args : List Var) :
    (r.ruleOfNamedCall callName args).reads isArray ⊆ args := by
  have hfirst : ∀ x ∈ args, [x] ⊆ args := fun x hx => List.cons_subset.mpr ⟨hx, List.nil_subset _⟩
  unfold ruleOfNamedCall
  cases CallRule.ofName? callName with
  | none =>
    dsimp only
    split
    · exact List.filter_sublist.subset
    · exact List.nil_subset args
  | some rule =>
    cases rule with
    | transpose => exact reads_ofFirst_subset hfirst
    | like => exact reads_ofFirst_subset hfirst
    | creation => exact (reads_ruleOfShape callName (args.take 1)).symm ▸ List.nil_subset args
    | reshape => exact (reads_ruleOfShape callName (args.drop 1)).symm ▸ List.nil_subset args
    | dot =>
      dsimp only
      split
      · simp [reads]
      · simp [reads]
      · exact List.nil_subset args

theorem reads_if_subset {c : Prop} [Decidable c] {rule : ShapeRule} {cause : Unsupported}
    {known : List Var} (h : rule.reads isArray ⊆ known) :
    (if c then rule else unsupported cause).reads isArray ⊆ known := by
  split
  · exact h
  · exact List.nil_subset known

section

variable {settled : Var → Prop} (hreceivers : ∀ func name x, settled func →
  r.callee? func = some (.named name (some x)) → settled x)

include hreceivers

theorem settled_of_mem_reads_call {func : Var} {args : List Var} (hfunc : settled func)
    (hargs : ∀ x ∈ args, settled x) {x : Var} (hx : x ∈ (r.ruleOfCall func args).reads isArray) :
    settled x := by
  unfold ruleOfCall at hx
  split at hx
  · refine hargs x (reads_ofFirst_subset (fun y hy => ?_) hx)
    split
    · exact List.cons_subset.mpr ⟨hy, List.nil_subset args⟩
    · exact List.filter_sublist.subset
  · rename_i name receiver hcallee
    rcases List.mem_append.mp (reads_ruleOfNamedCall_subset name _ hx) with hreceiver | hmem
    · rw [Option.mem_toList] at hreceiver
      exact hreceivers func name x hfunc (hreceiver ▸ hcallee)
    · exact hargs x hmem
  · cases hx

/-- A rule reads what its expression mentions, and the receiver of a method. -/
theorem settled_of_mem_reads (target : Var) {e : Expr} (hmentions : ∀ x ∈ e.mentions, settled x)
    {x : Var} (hx : x ∈ (r.ruleOf target e).reads isArray) : settled x := by
  have hsubset : (r.ruleOf target e).reads isArray ⊆ e.mentions → settled x :=
    fun hsub => hmentions x (hsub hx)
  cases e with
  | arg index name =>
    have hnil : ((r.ruleOf target (.arg index name)).reads isArray) = [] := by
      refine reads_ofType fun type => ?_
      cases type.rank? <;> rfl
    rw [hnil] at hx
    cases hx
  | call func args kws =>
    exact settled_of_mem_reads_call hreceivers (hmentions func List.mem_cons_self)
      (fun y hy => hmentions y (List.mem_cons_of_mem func (List.mem_append_left _ hy))) hx
  | unary fn y => exact hsubset (reads_if_subset (List.Subset.refl _))
  | binop fn lhs rhs => exact hsubset (reads_if_subset List.filter_sublist.subset)
  | inplaceBinop fn immutableFn lhs rhs =>
    exact hsubset (reads_if_subset List.filter_sublist.subset)
  | getattr y attr => exact hsubset (reads_if_subset (List.Subset.refl _))
  | fused tree => exact hsubset List.filter_sublist.subset
  | var y => exact hsubset (List.Subset.refl _)
  | cast y => exact hsubset (List.Subset.refl _)
  | _ => cases hx

end

section

variable {name : Var} {rank : Nat}

theorem ofType_ne_parameter {x : Var} {rule : StaticType → ShapeRule}
    (h : ∀ type, rule type ≠ parameter name rank) : r.ofType x rule ≠ parameter name rank := by
  unfold ofType
  split
  · exact h _
  · nofun

theorem ofFirst_ne_parameter {callName : String} {args : List Var} {rule : Var → ShapeRule}
    (h : ∀ x, rule x ≠ parameter name rank) :
    ofFirst callName args rule ≠ parameter name rank := by
  unfold ofFirst
  split
  · exact h _
  · nofun

theorem ruleOfShape_ne_parameter (callName : String) (args : List Var) :
    r.ruleOfShape callName args ≠ parameter name rank := by
  match args with
  | [] =>
    intro h
    cases h
  | [arg] =>
    refine ofType_ne_parameter fun type => ?_
    split
    · intro h
      cases h
    · cases type.integerTupleLength? <;> intro h <;> cases h
  | a :: b :: args =>
    rw [ruleOfShape.eq_3 _ _ _ (by simp) (by simp), ruleOfIntegers]
    split <;> intro h <;> cases h

theorem ruleOfCall_ne_parameter (func : Var) (args : List Var) :
    r.ruleOfCall func args ≠ parameter name rank := by
  unfold ruleOfCall
  split
  · refine ofFirst_ne_parameter fun x => ?_
    split <;> nofun
  · unfold ruleOfNamedCall
    split
    · exact ofFirst_ne_parameter nofun
    · exact ruleOfShape_ne_parameter _ _
    · exact ofFirst_ne_parameter nofun
    · exact ruleOfShape_ne_parameter _ _
    · split <;> nofun
    · split <;> nofun
  · nofun

/-- Only the expression of a parameter has the rule of one. -/
theorem exists_arg_of_ruleOf {target : Var} {e : Expr}
    (h : r.ruleOf target e = parameter name rank) : ∃ index, e = .arg index name := by
  cases e with
  | arg index name' =>
    have hparameter : r.ruleOfParameter name' = parameter name rank := h
    unfold ruleOfParameter ofType at hparameter
    split at hparameter
    · dsimp only at hparameter
      split at hparameter
      · cases hparameter
        exact ⟨index, rfl⟩
      · cases hparameter
    · cases hparameter
  | call func args kws => exact absurd h (ruleOfCall_ne_parameter func args)
  | unary fn x => simp only [ruleOf] at h; split at h <;> cases h
  | binop fn lhs rhs => simp only [ruleOf] at h; split at h <;> cases h
  | inplaceBinop fn immutableFn lhs rhs => simp only [ruleOf] at h; split at h <;> cases h
  | getattr x attr => simp only [ruleOf] at h; split at h <;> cases h
  | _ => cases h

end

end Reading

end DimEquiv
