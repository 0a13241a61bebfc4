import DimEquiv.LiteralLengths
import DimEquiv.Proofs.Soundness

/-!
# Literal sizes and lengths

Where all arrays get their lengths from literals and no recognized combination stretches a dimension,
every class stands for one length and each literal in its size list is that length. A dimension of
length one has a class like any other, so a combination that stretches it unites two lengths.
-/

namespace DimEquiv

/-! ### Aligned lengths -/

theorem alignLengths?_of_initial {ms ns : List Nat} (h : ms <+: ns) :
    alignLengths? ms ns = some ns ∧ alignLengths? ns ms = some ns := by
  induction ms generalizing ns with
  | nil => cases ns <;> exact ⟨rfl, rfl⟩
  | cons m ms ih =>
    obtain ⟨rest, rfl⟩ := h
    obtain ⟨hleft, hright⟩ := ih (List.prefix_append ms rest)
    simp [alignLengths?, stretch?, hleft, hright]

/-- Where the shorter operand has the last lengths of the longer one, nothing is stretched. -/
theorem suffix_of_broadcastLengths? {ms ns ls : List Nat} (h : broadcastLengths? ms ns = some ls)
    (hsuffix : ms <:+ ns ∨ ns <:+ ms) : ms <:+ ls ∧ ns <:+ ls := by
  rw [broadcastLengths?, Option.map_eq_some_iff] at h
  obtain ⟨reversed, hreversed, rfl⟩ := h
  rcases hsuffix with hsuffix | hsuffix
  · rw [(alignLengths?_of_initial (List.reverse_prefix.mpr hsuffix)).1, Option.some.injEq] at hreversed
    rw [← hreversed, List.reverse_reverse]
    exact ⟨hsuffix, List.suffix_refl _⟩
  · rw [(alignLengths?_of_initial (List.reverse_prefix.mpr hsuffix)).2, Option.some.injEq] at hreversed
    rw [← hreversed, List.reverse_reverse]
    exact ⟨List.suffix_refl _, hsuffix⟩

/-- Arrays have lengths, and of the values of other variables nothing is used. -/
def Valuation.ofLengths (lengths : Var → List Nat) : Valuation := ⟨lengths, fun _ => 0, fun _ => []⟩

namespace Store

/-- Recorded shapes fit the lengths of their arrays, and the literals of a class are the length that
it stands for. -/
structure Lengthwise (lengths : Var → List Nat) (den : Int → Number) (s : Store) : Prop where
  denotes : s.Denotes (.ofLengths lengths) False den
  literals : ∀ c n, SizeValue.literal n ∈ s.sizesOf c → n = den c

namespace Lengthwise

variable {lengths : Var → List Nat} {den den' : Int → Number} {s t : Store}

theorem empty (lengths : Var → List Nat) : Store.empty.Lengthwise lengths fun _ => 1 where
  denotes := ⟨fun x shape hx => (by cases hx), False.elim⟩
  literals c n hn := by
    simp only [Store.empty, sizesOf, Table.find?_insert] at hn
    split at hn
    · rw [Option.getD_some, List.mem_singleton] at hn
      exact SizeValue.literal.inj hn
    · cases hn

/-- New classes stand for the given lengths when every literal that backs one is its length. -/
theorem addClasses (h : s.Lengthwise lengths den) (hs : s.Bounded)
    {sizes : List (Option SizeValue)} {ls : List Nat}
    (hsizes : ∀ i n, backing? sizes i = some (.literal n) → ∃ l : Nat, ls[i]? = some l ∧ n = .int l) :
    ∃ den', (Store.addClasses sizes s).2.Lengthwise lengths den' ∧
      ((Store.addClasses sizes s).1.length = ls.length →
        Shape.Fits den' (Store.addClasses sizes s).1 ls) := by
  have hnew : ∀ i : Nat, ¬ s.nextClass + (i : Int) < s.nextClass ∧
      (s.nextClass + (i : Int) - s.nextClass).toNat = i := by
    intro i
    omega
  refine ⟨fun c => if c < s.nextClass then den c else .int (ls[(c - s.nextClass).toNat]?.getD 0),
    ⟨⟨fun x shape hx => ?_, False.elim⟩, fun c n hn => ?_⟩, fun hlen => ?_⟩
  · rw [shapes_addClasses] at hx
    exact (h.denotes.recorded x shape hx).congr
      fun c hc => if_pos (hs.lt_of_recorded x shape hx c hc)
  · rcases mem_sizesOf_addClasses hs hn with ⟨hc, hmem⟩ | ⟨i, rfl, hback⟩
    · simp only [if_pos hc]
      exact h.literals c n hmem
    · obtain ⟨l, hl, rfl⟩ := hsizes i n hback
      simp only [if_neg (hnew i).1, (hnew i).2, hl]
      rfl
  · refine .of_getElem? hlen fun i c hc _ => ?_
    have hi : i < ls.length := by
      rw [← hlen]
      exact (List.getElem?_eq_some_iff.mp hc).1
    have hget : ls[i]? = some ls[i] := List.getElem?_eq_getElem hi
    rw [getElem?_addClasses] at hc
    split at hc
    · cases hc
      refine ⟨ls[i], hget, ?_⟩
      simp only [if_neg (hnew i).1, (hnew i).2, hget]
      rfl
    · cases hc

/-- Uniting classes that stand for the same length keeps each literal a length. -/
theorem collapse {rep : Int → Int} (h : s.Lengthwise lengths den) (hcollapse : Collapse s t rep)
    (hden : ∀ c < s.nextClass, den' (rep c) = den c)
    (hdenotes : t.Denotes (.ofLengths lengths) False den') : t.Lengthwise lengths den' where
  denotes := hdenotes
  literals c n hn := by
    obtain ⟨d, hd, rfl, hmem⟩ := hcollapse.exists_of_mem_sizesOf hn
    rw [hden d hd]
    exact h.literals d n hmem

theorem represent (h : s.Lengthwise lengths den) (c : Int) (x : Var) :
    (s.represent c (.var x)).Lengthwise lengths den where
  denotes := h.denotes.represent False.elim
  literals d n hn := by
    rw [sizesOf_represent] at hn
    split at hn
    · cases List.mem_singleton.mp hn
    · exact h.literals d n hn

theorem record (h : s.Lengthwise lengths den) {x : Var} {shape : Shape}
    (hfits : shape.Fits den (lengths x)) : (s.record x shape).2.Lengthwise lengths den where
  denotes := h.denotes.record hfits
  literals c n hn := by
    simp only [sizesOf, classSizes_record] at hn
    exact h.literals c n hn

theorem setSizeVars (h : s.Lengthwise lengths den) (x : Var) (sizes : List SizeValue) :
    (s.setSizeVars x sizes).Lengthwise lengths den :=
  ⟨⟨h.denotes.recorded, False.elim⟩, h.literals⟩

end Lengthwise

end Store

/-! ### Inference -/

namespace Infer

open Store

/-- The computation keeps literals lengths, and a shape that it answers fits the lengths `ls` if it
has as many dimensions. -/
def Lengthwise (lengths : Var → List Nat) (ls : List Nat) (x : Infer Shape) : Prop :=
  ∀ s den, s.Bounded → s.Lengthwise lengths den →
    ∃ den', (x.run s).2.Lengthwise lengths den' ∧
      ∀ shape, (x.run s).1 = .ok shape → shape.length = ls.length → shape.Fits den' ls

variable {lengths : Var → List Nat} {ls : List Nat}

theorem lengthwise_fail (e : ShapeError) : Lengthwise lengths ls (.fail e) :=
  fun _ den _ h => ⟨den, h, fun _ hshape => (by cases hshape)⟩

theorem lengthwise_ofReader_bind {α : Type} {f : Store → Except ShapeError α} {g : α → Infer Shape}
    (h : ∀ a, Lengthwise lengths ls (g a)) : Lengthwise lengths ls (.ofReader f >>= g) := by
  intro s den hs hden
  rw [Attempt.run_bind, Attempt.run_ofReader]
  cases f s with
  | error e => exact ⟨den, hden, fun _ hshape => (by cases hshape)⟩
  | ok a => exact h a s den hs hden

theorem lengthwise_newClasses {sizes : List (Option SizeValue)}
    (h : ∀ i n, backing? sizes i = some (.literal n) → ∃ l : Nat, ls[i]? = some l ∧ n = .int l) :
    Lengthwise lengths ls (newClasses sizes) := by
  intro s den hs hden
  obtain ⟨den', hden', hfits⟩ := hden.addClasses hs h
  refine ⟨den', hden', ?_⟩
  rintro shape ⟨⟩ hlen
  exact hfits hlen

theorem lengthwise_broadcast {isArray : Var → Bool} {operands : List Var} {target : Var}
    (h : (Valuation.ofLengths lengths).Elementwise isArray operands target) :
    Lengthwise lengths (lengths target) (.ofExcept (Store.broadcast isArray operands)) := by
  intro s den hs hden
  rw [Attempt.run_ofExcept]
  cases hrun : s.broadcast isArray operands with
  | error e => exact ⟨den, hden, fun _ hshape => (by cases hshape)⟩
  | ok r =>
    obtain ⟨rep, den', hcollapse, hden', hdenotes, hfits⟩ :=
      hden.denotes.exists_collapse_broadcast hs h hrun
    refine ⟨den', hden.collapse hcollapse hden' hdenotes, ?_⟩
    rintro shape ⟨⟩ hlen
    exact hfits hlen

end Infer

namespace Scope

open Infer

variable {p : Program} {types : Types} {lengths : Var → List Nat} {scope : Scope} {target : Var}

/-- A tuple of which something is known has the literals of its definition as its items. -/
theorem lengthwise_shapeOfArgument (h : scope.symbols.Reflects p types.isArray) {tuple : Var}
    (htuple : p.definition? tuple =
      some (.const (.list ((lengths target).map fun l : Nat => Number.int l)))) (callName : String) :
    Lengthwise lengths (lengths target) (scope.shapeOfArgument callName tuple) := by
  refine lengthwise_ofReader_bind fun type => ?_
  split
  · refine lengthwise_newClasses fun i n hback => ?_
    obtain ⟨hget, -⟩ := Store.backing?_eq_some_iff.mp hback
    cases List.mem_singleton.mp (List.mem_of_getElem? hget)
  · split
    · refine lengthwise_newClasses fun i n hback => ?_
      obtain ⟨items, hitems, hitem, -⟩ := scope.exists_of_tupleSizes hback
      rcases h.tuples tuple items hitems with ⟨xs, hxs, -⟩ | ⟨xs, hxs, rfl⟩
      · rw [htuple] at hxs
        cases hxs
      · rw [htuple, Option.some.injEq, Expr.const.injEq, Literal.list.injEq] at hxs
        rw [← hxs, List.map_map, List.getElem?_map, Option.map_eq_some_iff] at hitem
        obtain ⟨l, hl, hn⟩ := hitem
        exact ⟨l, hl, (SizeValue.literal.inj hn).symm⟩
    · exact lengthwise_fail _

theorem lengthwise_inferCall (h : scope.symbols.Reflects p types.isArray) {func tuple : Var}
    {args : List Var} {name : String} (hname : CallRule.ofName? name = some .creation)
    (hfunc : p.callee? types.isArray func = some (.named name none))
    (htuple : p.definition? tuple =
      some (.const (.list ((lengths target).map fun l : Nat => Number.int l)))) :
    Lengthwise lengths (lengths target) (scope.inferCall func (tuple :: args)) := by
  unfold inferCall
  split
  · rename_i hmap
    have hcallee := h.mapCalls func hmap
    rw [hfunc] at hcallee
    cases hcallee
  · split
    · rename_i name' hname'
      have hcallee := h.moduleCalls func name' hname'
      rw [hfunc] at hcallee
      cases hcallee
      simp only [inferNamedCall, hname]
      exact lengthwise_shapeOfArgument h htuple name
    · split
      · rename_i call hcall
        have hcallee := h.methodCalls func call hcall
        rw [hfunc] at hcallee
        cases hcallee
      · exact lengthwise_fail _

theorem lengthwise_combination {options : Options} (hoptions : scope.options = options)
    {e : Expr} {fn : String} {lhs rhs : Var} (he : e.combination? = some (fn, lhs, rhs))
    (hrule : fn ∈ options.binaryOps →
      (Valuation.ofLengths lengths).Elementwise scope.isArray [lhs, rhs] target) :
    Lengthwise lengths (lengths target) (scope.infer target e) := by
  have hcombined : Lengthwise lengths (lengths target)
      (if fn ∈ scope.options.binaryOps then scope.broadcast [lhs, rhs]
        else unsupported (.binaryOperator e.op fn)) := by
    rw [hoptions]
    split
    · rename_i hfn
      exact lengthwise_broadcast (hrule hfn)
    · exact lengthwise_fail _
  cases e with
  | binop fn lhs rhs =>
    cases he
    exact hcombined
  | inplaceBinop fn immutableFn lhs rhs =>
    cases he
    exact hcombined
  | _ => cases he

/-- Inference for an array that gets its lengths from literals, without stretching any. -/
theorem lengthwise_infer (h : scope.symbols.Reflects p types.isArray) {options : Options}
    (hoptions : scope.options = options) {e : Expr} (hmakes : p.Makes types lengths target e)
    (hstretch : ∀ fn lhs rhs, e.combination? = some (fn, lhs, rhs) → fn ∈ options.binaryOps →
      lengths lhs <:+ lengths rhs ∨ lengths rhs <:+ lengths lhs) :
    Lengthwise lengths (lengths target) (scope.infer target e) := by
  cases hmakes with
  | create hname hfunc htuple _ => exact lengthwise_inferCall h hname hfunc htuple
  | @combine _ fn lhs rhs he hlhs hrhs hlengths =>
    refine lengthwise_combination hoptions he fun hfn x hx _ => ?_
    obtain ⟨hleft, hright⟩ := suffix_of_broadcastLengths? hlengths (hstretch fn lhs rhs he hfn)
    rcases List.mem_cons.mp hx with rfl | hx
    · exact hleft
    · cases List.mem_singleton.mp hx
      exact hright

end Scope

/-! ### The analysis -/

namespace SizeRead

variable {array : Var} {dim : Nat} {s t : State} {lengths : Var → List Nat} {den : Int → Number}

theorem Visited.lengthwise {c : Int} {reads : List Assign} {size : SizeValue}
    (h : Visited array dim c s reads size t) (hs : s.store.Lengthwise lengths den) :
    t.store.Lengthwise lengths den := by
  cases h with
  | standing => exact hs
  | fetched => exact hs.represent c _
  | generated _ _ _ _ hstore =>
    rw [hstore]
    exact hs.represent c _

theorem VisitedAll.lengthwise {cs : Shape} {r : SizeReads} (h : VisitedAll array dim cs s r t)
    (hs : s.store.Lengthwise lengths den) : t.store.Lengthwise lengths den := by
  induction h with
  | nil => exact hs
  | cons h _ ih => exact ih (h.lengthwise hs)

end SizeRead

theorem Pass.Recorded.lengthwise {a : Assign} {shape : Shape} {s t : State} {reads : List Assign}
    {lengths : Var → List Nat} {den : Int → Number} (h : Recorded a shape s reads t)
    (hs : s.store.Lengthwise lengths den) (hfits : shape.Fits den (lengths a.target)) :
    t.store.Lengthwise lengths den := by
  cases h with
  | conflict h hne => exact hs.record hfits
  | sized h hvisited => exact (hvisited.lengthwise (hs.record hfits)).setSizeVars _ _

/-- What a run over the program has found out agrees with the lengths. -/
structure State.Lengthwise (p : Program) (types : Types) (lengths : Var → List Nat) (s : State) :
    Prop where
  symbols : s.symbols.Reflects p types.isArray
  rank?_eq : ∀ x, s.rank? x = (types.find? x).bind StaticType.rank?
  store : ∃ den, s.store.Lengthwise lengths den

namespace State.Lengthwise

variable {p : Program} {types : Types} {lengths : Var → List Nat} {options : Options} {s t : State}
  {a : Assign} {reads done : List Assign}

theorem start (p : Program) (types : Types) (callTypes : CallTypes) (lengths : Var → List Nat) :
    Lengthwise p types lengths (.start p types callTypes) where
  symbols := Symbols.reflects_scan_empty p p types.isArray
  rank?_eq := fun _ => rfl
  store := ⟨_, .empty lengths⟩

/-- No array is a module. -/
theorem symbols_observe (h : s.Lengthwise p types lengths) (hp : p.LiteralLengths types lengths)
    (ha : a ∈ p.assigns) : (s.observe a).symbols.Reflects p types.isArray := by
  have hmodules : ∀ x, types.isArray x = true → p.isArrayModule x = false := by
    intro x hx
    cases hmodule : p.isArrayModule x with
    | false => rfl
    | true =>
      obtain ⟨b, hb, rfl, name, value, hvalue⟩ := Program.exists_of_isArrayModule hmodule
      have hmakes := hp.made b hb hx
      rw [hvalue] at hmakes
      cases hmakes with
      | combine he => cases he
  change (s.symbols.observe s.types.isArray a).Reflects p types.isArray
  rw [isArray_eq_of_rank?_eq h.rank?_eq]
  exact h.symbols.observe (Program.definition?_of_mem hp.once ha) hmodules

/-- Nothing that is analyzed tells two lengths of one class. -/
theorem assigned (h : s.Lengthwise p types lengths) (hs : s.store.Bounded)
    (hp : p.LiteralLengths types lengths) (hstretch : p.Unstretched options types lengths)
    (ha : a ∈ p.assigns) (hassigned : Pass.Assigned options a s reads t) :
    t.Lengthwise p types lengths := by
  have hsymbols := h.symbols_observe hp ha
  have hrank? : ∀ x, t.rank? x = (types.find? x).bind StaticType.rank? :=
    fun x => (hassigned.declared.rank?_eq x).trans (h.rank?_eq x)
  cases hassigned with
  | scalar hscalar => exact ⟨hsymbols, hrank?, h.store⟩
  | @array rank shape ds _ _ hrank hsettle hrecorded =>
    refine ⟨by rw [hrecorded.symbols_eq]; exact hsymbols, hrank?, ?_⟩
    rw [h.rank?_eq] at hrank
    have harray : types.isArray a.target = true :=
      (types.isArray_iff_rank? a.target).mpr ⟨rank, hrank⟩
    have hlength := hp.ranked a ha rank hrank
    obtain ⟨den, hden⟩ := h.store
    have hscope : ((s.observe a).scope options).symbols.Reflects p types.isArray := hsymbols
    have hoptions : ((s.observe a).scope options).options = options := rfl
    obtain ⟨den', hden', hfits⟩ := Scope.lengthwise_infer hscope hoptions (hp.made a ha harray)
      (hstretch a ha harray) s.store den hs hden
    -- A shape that was not inferred is unknown in every dimension and fits whatever the lengths are.
    have hshape : shape.Fits den' (lengths a.target) := by
      rcases Pass.eq_of_settle hsettle with hok | rfl
      · exact hfits shape hok ((Pass.length_of_settle hsettle).trans hlength.symm)
      · rw [← hlength]
        exact .unknown den' _
    have hbehind : (Pass.behind options a ds s).store.Lengthwise lengths den' := hden'
    exact ⟨den', hrecorded.lengthwise hbehind hshape⟩

theorem emits {as out : List Assign} (h : s.Lengthwise p types lengths) (hs : s.Consistent done)
    (hp : p.LiteralLengths types lengths) (hstretch : p.Unstretched options types lengths)
    (has : ∀ a ∈ as, a ∈ p.assigns) (hrun : Pass.Emits options s as out t) :
    t.Lengthwise p types lengths := by
  induction hrun generalizing done with
  | nil => exact h
  | @cons s t u a reads as out ha hrest ih =>
    have hassigned := Pass.assigned_of_run ha
    have hstep := h.assigned hs.agreeing.toBounded hp hstretch (has a List.mem_cons_self) hassigned
    exact ih hstep (hs.assigned hassigned) fun b hb => has b (List.mem_cons_of_mem a hb)

end State.Lengthwise

/-- The dimensions that an analysis finds equal have the same literal length, and no class has two
literals, unless a recognized combination stretches a dimension. -/
theorem analyze_literal_lengths {options : Options} {p : Program} {types : Types}
    {callTypes : CallTypes} {lengths : Var → List Nat} {f : Findings}
    (hp : p.LiteralLengths types lengths) (hstretch : p.Unstretched options types lengths)
    (h : (analyze options p types callTypes).findings = .ok f) :
    (∀ x i y j, f.equivalentDims x i y j = true →
      ∃ l, (lengths x)[i.toNat]? = some l ∧ (lengths y)[j.toNat]? = some l) ∧
    ∀ c m n, .literal m ∈ f.sizesOf c → .literal n ∈ f.sizesOf c → m = n := by
  obtain ⟨rfl, hrun⟩ := emits_of_findings h
  have hend := (State.Lengthwise.start p types callTypes lengths).emits
    (.start p types callTypes) hp hstretch (fun _ ha => ha) hrun
  obtain ⟨den, hden⟩ := hend.store
  refine ⟨fun x i y j hequal => ?_, fun c m n hm hn => ?_⟩
  · obtain ⟨c, hx, hy⟩ := (Findings.equivalentDims_iff ..).mp hequal
    obtain ⟨l, hl, hlden⟩ := hden.denotes.exists_length_of_classOf? hx
    obtain ⟨l', hl', hlden'⟩ := hden.denotes.exists_length_of_classOf? hy
    rw [hlden] at hlden'
    cases hlden'
    exact ⟨l, hl, hl'⟩
  · exact (hden.literals c m hm).trans (hden.literals c n hn).symm

/-- Two arrays of the given lengths, and their sum. -/
def pairProgram (ms ns : List Nat) : Program where
  name := "pair"
  argNames := []
  blocks := [⟨0, [
    .assign ⟨"np", .global "np" ⟨.moduleRef, "numpy"⟩, none, 0⟩,
    .assign ⟨"zeros", .getattr "np" "zeros", none, 1⟩,
    .assign ⟨"ms", .const (.list (ms.map fun l : Nat => .int l)), none, 2⟩,
    .assign ⟨"u", .call "zeros" ["ms"], none, 3⟩,
    .assign ⟨"ns", .const (.list (ns.map fun l : Nat => .int l)), none, 4⟩,
    .assign ⟨"v", .call "zeros" ["ns"], none, 5⟩,
    .assign ⟨"w", .binop "+" "u" "v", none, 6⟩,
    .ret "w" none]⟩]

def pairTypes (ms ns ls : List Nat) : Types :=
  .ofList [("np", .moduleRef "numpy"), ("zeros", .functionRef "zeros"),
    ("ms", .uniTuple .int64 ms.length), ("ns", .uniTuple .int64 ns.length),
    ("u", .arrayOf ms.length), ("v", .arrayOf ns.length), ("w", .arrayOf ls.length)]

def pairLengths (ms ns ls : List Nat) (x : Var) : List Nat :=
  if x = "u" then ms else if x = "v" then ns else ls

theorem assigns_pair (ms ns : List Nat) : (pairProgram ms ns).assigns = [
    ⟨"np", .global "np" ⟨.moduleRef, "numpy"⟩, none, 0⟩, ⟨"zeros", .getattr "np" "zeros", none, 1⟩,
    ⟨"ms", .const (.list (ms.map fun l : Nat => .int l)), none, 2⟩,
    ⟨"u", .call "zeros" ["ms"], none, 3⟩,
    ⟨"ns", .const (.list (ns.map fun l : Nat => .int l)), none, 4⟩,
    ⟨"v", .call "zeros" ["ns"], none, 5⟩, ⟨"w", .binop "+" "u" "v", none, 6⟩] := rfl

theorem literalLengths_pair {ms ns ls : List Nat} (hms : ∀ l ∈ ms, 0 < l) (hns : ∀ l ∈ ns, 0 < l)
    (h : broadcastLengths? ms ns = some ls) :
    (pairProgram ms ns).LiteralLengths (pairTypes ms ns ls) (pairLengths ms ns ls) where
  once := by
    change ["np", "zeros", "ms", "u", "ns", "v", "w"].Nodup
    decide
  made := by
    have hcreates : ∀ target tuple : Var, ∀ ks : List Nat, pairLengths ms ns ls target = ks →
        (∀ l ∈ ks, 0 < l) →
        (pairProgram ms ns).definition? tuple = some (.const (.list (ks.map fun l : Nat => .int l))) →
        (pairProgram ms ns).Makes (pairTypes ms ns ls) (pairLengths ms ns ls) target
          (.call "zeros" [tuple]) := by
      rintro target tuple ks rfl hpos htuple
      exact .create rfl rfl htuple hpos
    simp only [assigns_pair, List.forall_mem_cons]
    exact ⟨nofun, nofun, nofun, fun _ => hcreates "u" "ms" ms rfl hms rfl, nofun,
      fun _ => hcreates "v" "ns" ns rfl hns rfl, fun _ => .combine rfl rfl rfl h, nofun⟩
  ranked := by
    have htargets : ∀ a ∈ (pairProgram ms ns).assigns,
        a.target ∈ ["np", "zeros", "ms", "u", "ns", "v", "w"] :=
      fun a ha => List.mem_map_of_mem ha
    intro a ha rank hrank
    have hmem := htargets a ha
    generalize a.target = x at hrank hmem ⊢
    simp only [List.mem_cons, List.not_mem_nil, or_false] at hmem
    rcases hmem with rfl | rfl | rfl | rfl | rfl | rfl | rfl <;> cases hrank <;> rfl

theorem unstretched_pair_iff (ms ns ls : List Nat) :
    (pairProgram ms ns).Unstretched .standard (pairTypes ms ns ls) (pairLengths ms ns ls) ↔
      ms <:+ ns ∨ ns <:+ ms := by
  simp only [Program.Unstretched, assigns_pair, List.forall_mem_cons]
  refine ⟨fun h => h.2.2.2.2.2.2.1 rfl "+" "u" "v" rfl (by decide), fun h => ⟨nofun, nofun, nofun,
    nofun, nofun, nofun, ?_, nofun⟩⟩
  rintro - fn lhs rhs ⟨⟩ -
  exact h

theorem analyze_literal_lengths_row :
    (pairProgram [2, 3] [3]).LiteralLengths (pairTypes [2, 3] [3] [2, 3])
        (pairLengths [2, 3] [3] [2, 3]) ∧
      (pairProgram [2, 3] [3]).Unstretched .standard (pairTypes [2, 3] [3] [2, 3])
        (pairLengths [2, 3] [3] [2, 3]) ∧
      ∃ f, (analyze .standard (pairProgram [2, 3] [3]) (pairTypes [2, 3] [3] [2, 3])
          (.empty 7)).findings = .ok f ∧
        f.equivalentDims "u" 1 "v" 0 = true ∧
        ∀ c m n, .literal m ∈ f.sizesOf c → .literal n ∈ f.sizesOf c → m = n := by
  have hliteral : (pairProgram [2, 3] [3]).LiteralLengths (pairTypes [2, 3] [3] [2, 3])
      (pairLengths [2, 3] [3] [2, 3]) := literalLengths_pair (by decide) (by decide) rfl
  have hstretch := (unstretched_pair_iff [2, 3] [3] [2, 3]).mpr (.inr (by decide))
  have hrun : (analyze .standard (pairProgram [2, 3] [3]) (pairTypes [2, 3] [3] [2, 3])
      (.empty 7)).findings = .ok (.ofState (analyze .standard (pairProgram [2, 3] [3])
        (pairTypes [2, 3] [3] [2, 3]) (.empty 7)).state) :=
    Run.findings_of_isOk (by decide +kernel)
  obtain ⟨-, hliterals⟩ := analyze_literal_lengths hliteral hstretch hrun
  exact ⟨hliteral, hstretch, _, hrun, by decide +kernel, hliterals⟩

/-- Where a dimension of length one is stretched, it is found equal to the longer one. -/
theorem equivalent_of_stretched :
    (pairProgram [1] [5]).LiteralLengths (pairTypes [1] [5] [5]) (pairLengths [1] [5] [5]) ∧
      (pairProgram [1] [5]).Ordered ∧ (pairProgram [1] [5]).Typed (pairTypes [1] [5] [5]) ∧
      ¬ (pairProgram [1] [5]).Unstretched .standard (pairTypes [1] [5] [5])
        (pairLengths [1] [5] [5]) ∧
      ∃ f, (analyze .standard (pairProgram [1] [5]) (pairTypes [1] [5] [5])
          (.empty 7)).findings = .ok f ∧
        f.equivalentDims "u" 0 "v" 0 = true ∧
        (pairLengths [1] [5] [5] "u")[0]? = some 1 ∧ (pairLengths [1] [5] [5] "v")[0]? = some 5 ∧
        f.sizesOf 3 = [.literal 1, .literal 5] := by
  have hrun : (analyze .standard (pairProgram [1] [5]) (pairTypes [1] [5] [5])
      (.empty 7)).findings = .ok (.ofState (analyze .standard (pairProgram [1] [5])
        (pairTypes [1] [5] [5]) (.empty 7)).state) :=
    Run.findings_of_isOk (by decide +kernel)
  have hordered : (pairProgram [1] [5]).Ordered :=
    ⟨by decide, by simp [assigns_pair], by decide +kernel⟩
  have hstretch : ¬ (pairProgram [1] [5]).Unstretched .standard (pairTypes [1] [5] [5])
      (pairLengths [1] [5] [5]) := by
    rw [unstretched_pair_iff]
    decide
  exact ⟨literalLengths_pair (by decide) (by decide) rfl, hordered, by decide, hstretch, _, hrun,
    by decide +kernel, rfl, rfl, by decide +kernel⟩

end DimEquiv
