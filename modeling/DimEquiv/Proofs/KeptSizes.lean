import DimEquiv.Proofs.Reanalysis
import Mathlib.Data.List.Duplicate
import Mathlib.Data.Option.Basic

/-!
# Size values of a second run

A second run takes the size values that the first one took, as long as it finds the same reads. It finds
one read for each dimension of an array in the whole program. Where the array is assigned twice without
anything known of the dimension, the first run has read the dimension behind both assignments, and the
second one takes the read behind the first of them, although the array is another one by then.
-/

namespace DimEquiv

namespace SizeRead

variable {again again' : Prop} {listed listed' : Int → Option Var} {dim : Nat} {cs : Shape}
  {sizes sizes' : List SizeValue}

/-- A renaming of classes that leaves unknown dimensions unknown makes no difference. -/
theorem RetakenAll.rename (h : RetakenAll again listed listed' dim cs sizes sizes')
    (himp : again → again') {rep : Int → Int} (hrep : rep Shape.noClass = Shape.noClass) :
    RetakenAll again' listed listed' dim (cs.map rep) sizes sizes' := by
  induction h with
  | nil dim => exact .nil dim
  | cons h _ ih =>
    refine .cons ?_ ih
    cases h with
    | same => exact .same
    | found hunknown hagain hnone hx =>
      exact .found (hunknown ▸ hrep) (himp hagain) hnone hx

theorem RetakenAll.length_eq (h : RetakenAll again listed listed' dim cs sizes sizes') :
    sizes'.length = sizes.length := by
  induction h with
  | nil => rfl
  | cons _ _ ih => rw [List.length_cons, List.length_cons, ih]

/-- Dimension by dimension, the second run takes the same size value or the read that it finds listed. -/
theorem RetakenAll.getElem? (h : RetakenAll again listed listed' dim cs sizes sizes') (i : Nat) :
    sizes'[i]? = sizes[i]? ∨ (cs[i]? = some Shape.noClass ∧ again ∧
      listed (dim + i : Nat) = none ∧ sizes'[i]? = (listed' (dim + i : Nat)).map .var) := by
  induction h generalizing i with
  | nil => exact .inl rfl
  | @cons dim c cs size size' sizes sizes' h _ ih =>
    cases i with
    | zero =>
      cases h with
      | same => exact .inl rfl
      | found hunknown hagain hnone hx =>
        exact .inr ⟨congrArg some hunknown, hagain, hnone, by simp [hx]⟩
    | succ i =>
      have hrest := ih i
      rw [Nat.add_right_comm] at hrest
      exact hrest

end SizeRead

/-- The size values of two runs that have the assignments in `done` behind them, the first of the program
`p` and the second of `q`. Those of an array differ at most in unknown dimensions which `p` does not read
and only if the array was assigned twice. -/
structure State.SizesFollow (p q : Program) (done : List Assign) (s t : State) : Prop where
  listed : ∀ x i, s.symbols.fetch? x i = (Symbols.empty.scan p).fetch? x i
  listed' : ∀ x i, t.symbols.fetch? x i = (Symbols.empty.scan q).fetch? x i
  related : ∀ x, Option.Rel
    (fun sizes sizes' => ∃ shape, s.store.shapes.find? x = some shape ∧
      SizeRead.RetakenAll (List.Duplicate x (done.map Assign.target))
        ((Symbols.empty.scan p).fetch? x) ((Symbols.empty.scan q).fetch? x) 0 shape sizes sizes')
    (s.store.sizeVars.find? x) (t.store.sizeVars.find? x)

namespace State.SizesFollow

variable {options : Options} {p q : Program} {done : List Assign} {s t u t' : State} {a : Assign}
  {reads : List Assign}

theorem start (types types' : Types) (callTypes callTypes' : CallTypes) :
    SizesFollow p q [] (.start p types callTypes) (.start q types' callTypes') where
  listed _ _ := rfl
  listed' _ _ := rfl
  related _ := .none

theorem duplicate_of_recorded (hs : s.Consistent done)
    (hagain : ∃ previous, s.store.shapes.find? a.target = some previous) :
    List.Duplicate a.target ((done ++ [a]).map Assign.target) := by
  obtain ⟨previous, hprevious⟩ := hagain
  rw [List.map_append, List.duplicate_iff_two_le_count, List.count_append]
  have hbefore := List.one_le_count_iff.mpr (hs.mem_targets hprevious)
  have hlast : List.count a.target ([a].map Assign.target) = 1 := by simp
  omega

/-- The size values of the target follow when both runs come to the same assignment. -/
theorem related_target (h : SizesFollow p q done s t) (hs : s.Consistent done)
    (hresized : ResizedAt a.target (∃ previous, s.store.shapes.find? a.target = some previous) s t u t') :
    Option.Rel
      (fun sizes sizes' => ∃ shape, u.store.shapes.find? a.target = some shape ∧
        SizeRead.RetakenAll (List.Duplicate a.target ((done ++ [a]).map Assign.target))
          ((Symbols.empty.scan p).fetch? a.target) ((Symbols.empty.scan q).fetch? a.target) 0 shape
          sizes sizes')
      (u.store.sizeVars.find? a.target) (t'.store.sizeVars.find? a.target) := by
  have hbefore := h.related a.target
  rw [ResizedAt, funext (h.listed a.target), funext (h.listed' a.target)] at hresized
  generalize u.store.sizeVars = v at hresized ⊢
  generalize t'.store.sizeVars = w at hresized ⊢
  cases hresized with
  | kept hnone =>
    rw [hnone] at hbefore ⊢
    generalize t.store.sizeVars.find? a.target = sizes' at hbefore ⊢
    cases hbefore
    exact .none
  | dropped =>
    rw [Table.find?_erase, Table.find?_erase, if_pos rfl, if_pos rfl]
    exact .none
  | chosen hretaken =>
    obtain ⟨shape, hshape, hretaken⟩ := hretaken
    rw [Table.find?_insert, Table.find?_insert, if_pos rfl, if_pos rfl]
    have hid : id Shape.noClass = Shape.noClass := rfl
    have hkept := hretaken.rename (duplicate_of_recorded hs) hid
    rw [List.map_id] at hkept
    exact .some ⟨shape, hshape, hkept⟩

/-- Those of the other arrays stay as they are. -/
theorem related_of_ne (h : SizesFollow p q done s t) (hs : s.Consistent done)
    (hassigned : Pass.Assigned options a s reads u)
    (hresized : ResizedAt a.target (∃ previous, s.store.shapes.find? a.target = some previous) s t u t')
    {x : Var} (hx : a.target ≠ x) :
    Option.Rel
      (fun sizes sizes' => ∃ shape, u.store.shapes.find? x = some shape ∧
        SizeRead.RetakenAll (List.Duplicate x ((done ++ [a]).map Assign.target))
          ((Symbols.empty.scan p).fetch? x) ((Symbols.empty.scan q).fetch? x) 0 shape sizes sizes')
      (u.store.sizeVars.find? x) (t'.store.sizeVars.find? x) := by
  have hfind : u.store.sizeVars.find? x = s.store.sizeVars.find? x ∧
      t'.store.sizeVars.find? x = t.store.sizeVars.find? x := by
    rw [ResizedAt] at hresized
    generalize u.store.sizeVars = v at hresized ⊢
    generalize t'.store.sizeVars = w at hresized ⊢
    cases hresized <;> simp [hx]
  obtain ⟨rep, hrep, hshapes⟩ := hassigned.exists_rename hs.agreeing.toBounded
  rw [hfind.1, hfind.2]
  have hbefore := h.related x
  generalize s.store.sizeVars.find? x = sizes at hbefore ⊢
  generalize t.store.sizeVars.find? x = sizes' at hbefore ⊢
  cases hbefore with
  | none => exact .none
  | some hbefore =>
    obtain ⟨shape, hshape, hretaken⟩ := hbefore
    refine .some ⟨shape.map rep, by rw [hshapes x hx, hshape, Option.map_some], ?_⟩
    refine hretaken.rename (fun hdup => ?_) hrep
    rw [List.map_append]
    exact hdup.mono_sublist (List.sublist_append_left _ _)

theorem step (h : SizesFollow p q done s t) (hs : s.Consistent done)
    (hassigned : Pass.Assigned options a s reads u) (hkept : Kept t t')
    (hresized : ResizedAt a.target (∃ previous, s.store.shapes.find? a.target = some previous) s t u t') :
    SizesFollow p q (done ++ [a]) u t' where
  listed x i := (hassigned.fetch?_eq x i).trans (h.listed x i)
  listed' x i := (hkept.fetch?_eq x i).trans (h.listed' x i)
  related x := by
    by_cases hx : a.target = x
    · subst hx
      exact h.related_target hs hresized
    · exact h.related_of_ne hs hassigned hresized hx

end State.SizesFollow

/-- The length of the dimension is read behind more than one assignment: the dimension is unknown, its
array is assigned more than once, and the program itself does not read it. -/
structure Findings.Reread (f : Findings) (p : Program) (x : Var) (i : Nat) : Prop where
  unknown : ∃ shape, f.shapeOf? x = some shape ∧ shape[i]? = some Shape.noClass
  repeated : List.Duplicate x (p.assigns.map Assign.target)
  unread : (Symbols.empty.scan p).fetch? x i = none

/-- A second run on the program that a first one leaves gives every array the size values that the first
one gave it, if no dimension of the array was read behind more than one assignment. Otherwise it gives size
values to the same arrays and for as many dimensions, and only a dimension that was read so gets another
one, namely the first read of it in the program. -/
theorem analyze_keeps_sizes {options : Options} {p : Program} {types : Types}
    {callTypes : CallTypes} {f : Findings} (htyped : p.Typed types)
    (h : (analyze options p types callTypes).findings = .ok f) :
    let r := analyze options p types callTypes
    ∃ f', (analyze options r.program r.types r.callTypes).findings = .ok f' ∧ ∀ x,
      ((∀ i, ¬ f.Reread p x i) → f'.sizeVarsOf? x = f.sizeVarsOf? x) ∧
      (f'.sizeVarsOf? x = f.sizeVarsOf? x ∨ ∃ sizes sizes', f.sizeVarsOf? x = some sizes ∧
        f'.sizeVarsOf? x = some sizes' ∧ sizes'.length = sizes.length ∧
        ∀ i : Nat, sizes'[i]? = sizes[i]? ∨ (f.Reread p x i ∧
          sizes'[i]? = ((Symbols.empty.scan r.program).fetch? x i).map .var)) := by
  obtain ⟨rfl, hrun⟩ := emits_of_findings h
  obtain ⟨tuples, hreading, hreads, htuples⟩ := rereading_start htyped hrun
  have htotal : (analyze options p types callTypes).program.assigns =
      [] ++ ((analyze options p types callTypes).program.assigns ++ []) := by simp
  obtain ⟨t, hsilent, -, -, hfollow⟩ := Pass.Rereading.run_along
    (fun hs hassigned hkept hresized hfollow =>
      State.SizesFollow.step hfollow hs hassigned hkept hresized)
    hrun hreading (.start p types callTypes) (.start types _ callTypes _) htotal
    (fun x type hx => hx) (fun a ha => htyped.assign ha) hreads htuples
  refine ⟨.ofState t, (analyze_of_silent hsilent).1, fun x => ?_⟩
  have hrelated := hfollow.related x
  simp only [Findings.sizeVarsOf?, Findings.ofState]
  generalize (analyze options p types callTypes).state.store.sizeVars.find? x = found at hrelated ⊢
  generalize t.store.sizeVars.find? x = found' at hrelated ⊢
  cases hrelated with
  | none => exact ⟨fun _ => rfl, .inl rfl⟩
  | @some sizes sizes' hretaken =>
    obtain ⟨shape, hshape, hretaken⟩ := hretaken
    have hdims : ∀ i : Nat, sizes'[i]? = sizes[i]? ∨
        ((Findings.ofState (analyze options p types callTypes).state).Reread p x i ∧ sizes'[i]? =
          ((Symbols.empty.scan (analyze options p types callTypes).program).fetch? x i).map .var) := by
      intro i
      rcases hretaken.getElem? i with hsame | ⟨hunknown, hrepeated, hunread, hfound⟩
      · exact .inl hsame
      · rw [Nat.zero_add] at hunread hfound
        exact .inr ⟨⟨⟨shape, hshape, hunknown⟩, hrepeated, hunread⟩, hfound⟩
    refine ⟨fun hnone => ?_, .inr ⟨sizes, sizes', rfl, rfl, hretaken.length_eq, hdims⟩⟩
    have hsame : sizes' = sizes := List.ext_getElem?_iff.mpr fun i =>
      (hdims i).resolve_right fun hreread => hnone i hreread.1
    rw [hsame]

/-- The parameter `a` is assigned again with a known dimension. -/
theorem analyze_keeps_sizes_sum :
    sumProgram.Typed sumTypes ∧
      let r := analyze .standard sumProgram sumTypes (.empty 4)
      ∃ f f', r.findings = .ok f ∧
        (analyze .standard r.program r.types r.callTypes).findings = .ok f' ∧
        f'.sizeVarsOf? "a" = f.sizeVarsOf? "a" ∧ f.sizeVarsOf? "a" = some [.var "asize0.3"] := by
  have htyped : sumProgram.Typed sumTypes := by decide
  have hrun : (analyze .standard sumProgram sumTypes (.empty 4)).findings =
      .ok (.ofState (analyze .standard sumProgram sumTypes (.empty 4)).state) :=
    Run.findings_of_isOk (by decide +kernel)
  obtain ⟨f', hagain, hsizes⟩ := analyze_keeps_sizes htyped hrun
  refine ⟨htyped, _, f', hrun, hagain, (hsizes "a").1 fun i hreread => ?_, by decide +kernel⟩
  obtain ⟨shape, hshape, hunknown⟩ := hreread.unknown
  have hknown : (Findings.ofState (analyze .standard sumProgram sumTypes (.empty 4)).state).shapeOf? "a" =
      some [3] := by decide +kernel
  obtain rfl := Option.some.inj (hknown.symm.trans hshape)
  have hmem := List.mem_of_getElem? hunknown
  exact absurd hmem (by decide)

/-- The imaginary parts of two arrays, one after the other under the same name. No rule covers them. -/
def imagProgram : Program where
  name := "imaginary"
  argNames := ["a", "b"]
  blocks := [⟨0, [
    .assign ⟨"a", .arg 0 "a", none, 0⟩,
    .assign ⟨"b", .arg 1 "b", none, 1⟩,
    .assign ⟨"x", .getattr "a" "imag", none, 2⟩,
    .assign ⟨"x", .getattr "b" "imag", none, 3⟩,
    .ret "x" none]⟩]

def imagTypes : Types := .ofList [("a", .arrayOf 1), ("b", .arrayOf 1), ("x", .arrayOf 1)]

/-- The second run takes the length of the first part for the second one. -/
theorem stale_size_imaginary :
    imagProgram.Typed imagTypes ∧
      let r := analyze .standard imagProgram imagTypes (.empty 4)
      let again := analyze .standard r.program r.types r.callTypes
      r.findings.toOption.bind (Findings.sizeVarsOf? · "x") = some [.var "xsize0.12"] ∧
        again.findings.toOption.bind (Findings.sizeVarsOf? · "x") = some [.var "xsize0.9"] := by
  decide +kernel

end DimEquiv
