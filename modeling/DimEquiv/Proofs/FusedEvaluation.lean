import DimEquiv.Proofs.EagerUnion
import DimEquiv.Proofs.TrailingDimensions
import DimEquiv.TreeEvaluation
import Mathlib.Logic.Equiv.Nat

/-!
# Fused trees and their operations one by one

Broadcasting the variables of a fused tree at once or carrying out its operations one by one comes to
the same, up to the choice of class ids. An intermediate array presents the leaves below it, so nothing
is united but classes that face each other in the leaves. Only an unknown dimension can make the two
ways differ: it stands in an intermediate array for what the leaves show beside it, and the classes
there are not united with others further up.
-/

namespace DimEquiv

open Relation Shape Store

/-! ### Two ways to one result -/

/-- Where one function of bounded classes separates what another separates, and no more, the one
follows from the other by an injective renaming. -/
theorem exists_injective_of_iff {n m : Int} {rep rep' : Int → Int} (hlt : ∀ c < n, rep' c < m)
    (hiff : ∀ c < n, ∀ d < n, rep c = rep d ↔ rep' c = rep' d) :
    ∃ f : Int → Int, f.Injective ∧ ∀ c < n, f (rep c) = rep' c := by
  -- classes that `rep` does not give are renamed to new ones
  have hchoice : ∀ k, ∃ l, (∃ c < n, rep c = k ∧ rep' c = l) ∨
      ((∀ c < n, rep c ≠ k) ∧ m + Equiv.intEquivNat k = l) := by
    intro k
    by_cases hk : ∃ c < n, rep c = k
    · obtain ⟨c, hc, hck⟩ := hk
      exact ⟨rep' c, .inl ⟨c, hc, hck, rfl⟩⟩
    · exact ⟨_, .inr ⟨fun c hc hck => hk ⟨c, hc, hck⟩, rfl⟩⟩
  choose f hf using hchoice
  refine ⟨f, fun k l hkl => ?_, fun c hc => ?_⟩
  · rcases hf k with ⟨c, hc, rfl, hk⟩ | ⟨-, hk⟩ <;> rcases hf l with ⟨d, hd, rfl, hl⟩ | ⟨-, hl⟩
    · exact (hiff c hc d hd).mpr (hk.trans (hkl.trans hl.symm))
    · have := hlt c hc
      omega
    · have := hlt d hd
      omega
    · exact Equiv.intEquivNat.injective (by omega)
  · rcases hf (rep c) with ⟨d, hd, hdc, hf⟩ | ⟨hnone, -⟩
    · rw [← hf, ← hiff d hd c hc, hdc]
    · exact absurd rfl (hnone c hc)

/-- Of two results with the stores that they were found with, the first has the same unknown dimensions
and unites all dimensions of arrays in `s` that the second unites. -/
structure Coarser (s : Store) (out : Shape) (u : Store) (out' : Shape) (v : Store) : Prop where
  length_eq : out.length = out'.length
  unknown_iff : ∀ i : Nat, out[i]? = some noClass ↔ out'[i]? = some noClass
  united : ∀ (d e : Dimension) (k : Int), s.has d.array = true → s.has e.array = true →
    v.classAt? d = some k → v.classAt? e = some k →
      ∃ l, u.classAt? d = some l ∧ u.classAt? e = some l

/-- The two results, and the shapes of arrays in `s`, are the same but for the names of classes. -/
structure Renamed (f : Int → Int) (s : Store) (out : Shape) (u : Store) (out' : Shape) (v : Store) :
    Prop where
  injective : f.Injective
  sizeOne : f sizeOne = sizeOne
  result_eq : out' = out.map f
  find?_eq : ∀ x, s.has x = true → v.shapes.find? x = (u.shapes.find? x).map (List.map f)

namespace Store.Advance

variable {s u v : Store} {rep rep' : Int → Int} {A B : List Shape} {out out' : Shape}
  {xs : List Var}

theorem mono (h : Advance s u rep A) (hsub : A ⊆ B) : Advance s u rep B where
  bounded := h.bounded
  recorded := h.recorded
  rep_lt := h.rep_lt
  rep_sizeOne := h.rep_sizeOne
  rep_noClass := h.rep_noClass
  justified := fun c hc d hd heq => (h.justified c hc d hd heq).mono fun _ _ hface => hface.mono hsub

theorem classAt?_eq (h : Advance s u rep A) {d : Dimension} (hd : s.has d.array = true) :
    u.classAt? d = (s.classAt? d).map rep := by
  obtain ⟨shape, hshape⟩ := (has_iff s d.array).mp hd
  rw [classAt?, classAt?, h.recorded _ shape hshape, hshape, Option.bind_some, Option.bind_some,
    List.getElem?_map]

theorem coarser (h : Advance s u rep A) (h' : Advance s v rep' A) (hs : s.Bounded)
    (hpresents : Presents rep A [out]) (hpresents' : Presents rep' A [out'])
    (hunited : ∀ c d, Facing A c d → rep c = rep d) : Coarser s out u out' v where
  length_eq := hpresents.length_eq.trans hpresents'.length_eq.symm
  unknown_iff := by
    intro i
    have hlen : out.length = out'.length := hpresents.length_eq.trans hpresents'.length_eq.symm
    by_cases hi : i < out.length
    · rw [getElem?_eq_trailing hi, getElem?_eq_trailing (hlen ▸ hi), ← hlen, Option.some.injEq,
        Option.some.injEq, hpresents.trailing_eq_noClass_iff, hpresents'.trailing_eq_noClass_iff]
    · rw [List.getElem?_eq_none (Nat.le_of_not_lt hi),
        List.getElem?_eq_none (hlen ▸ Nat.le_of_not_lt hi)]
  united := by
    intro d e k hd he hdk hek
    rw [h'.classAt?_eq hd, Option.map_eq_some_iff] at hdk
    rw [h'.classAt?_eq he, Option.map_eq_some_iff] at hek
    obtain ⟨c, hdc, rfl⟩ := hdk
    obtain ⟨c', hec, heq⟩ := hek
    have hconnected := h'.justified c (hs.classAt?_lt hdc) c' (hs.classAt?_lt hec) heq.symm
    refine ⟨rep c, ?_, ?_⟩
    · rw [h.classAt?_eq hd, hdc, Option.map_some]
    · rw [h.classAt?_eq he, hec, Option.map_some, map_eq_of_eqvGen hunited hconnected]

/-- Where nothing is unknown, classes that face each other are found in one place of the result. -/
theorem united_of_presents (hpresents : Presents rep A [out]) (hknown : ∀ j, ¬ HiddenAt A j)
    {c d : Int} (hface : Facing A c d) : rep c = rep d := by
  obtain ⟨j, hc, hd⟩ := hface
  rw [← hpresents.trailing_of_standsAt (hknown j) hc, hpresents.trailing_of_standsAt (hknown j) hd]

theorem renamed (h : Advance s u rep (s.shapesOf xs)) (h' : Advance s v rep' (s.shapesOf xs))
    (hs : s.Bounded) (hpresents : Presents rep (s.shapesOf xs) [out])
    (hpresents' : Presents rep' (s.shapesOf xs) [out'])
    (hknown : ∀ j, ¬ HiddenAt (s.shapesOf xs) j) : ∃ f, Renamed f s out u out' v := by
  have hiff : ∀ c < s.nextClass, ∀ d < s.nextClass, rep c = rep d ↔ rep' c = rep' d := by
    intro c hc d hd
    constructor
    · intro heq
      exact map_eq_of_eqvGen (fun _ _ hface => united_of_presents hpresents' hknown hface)
        (h.justified c hc d hd heq)
    · intro heq
      exact map_eq_of_eqvGen (fun _ _ hface => united_of_presents hpresents hknown hface)
        (h'.justified c hc d hd heq)
  obtain ⟨f, hinjective, hf⟩ := exists_injective_of_iff h'.rep_lt hiff
  have hone : f sizeOne = sizeOne := by
    rw [← h.rep_sizeOne, hf sizeOne hs.sizeOne_lt, h.rep_sizeOne, h'.rep_sizeOne]
  refine ⟨f, hinjective, hone, ?_, fun x hx => ?_⟩
  · refine ext_trailing ?_ fun j => ?_
    · rw [List.length_map, hpresents.length_eq, hpresents'.length_eq]
    · rw [trailing_map hone]
      by_cases hstands : ∃ c, StandsAt (s.shapesOf xs) j c
      · obtain ⟨c, hc⟩ := hstands
        rw [hpresents.trailing_of_standsAt (hknown j) hc,
          hpresents'.trailing_of_standsAt (hknown j) hc, hf c (hs.standsAt_lt hc)]
      · have hnone : ∀ c, ¬ StandsAt (s.shapesOf xs) j c := fun c hc => hstands ⟨c, hc⟩
        rw [hpresents.trailing_of_none (hknown j) hnone,
          hpresents'.trailing_of_none (hknown j) hnone, hone]
  · obtain ⟨shape, hshape⟩ := (has_iff s x).mp hx
    rw [h.recorded x shape hshape, h'.recorded x shape hshape, Option.map_some, List.map_map]
    congr 1
    exact List.map_congr_left fun c hc => (hf c (hs.lt_of_recorded x shape hshape c hc)).symm

end Store.Advance

/-! ### Evaluating step by step -/

/-- Evaluating a tree with the given array leaves in the store `s` has led to `t`, where `results` are
the arrays that present the leaves. -/
structure Evaluated (s : Store) (arrays : List Var) (t : Store) (rep : Int → Int)
    (results : List Var) : Prop extends Advance s t rep (s.shapesOf arrays) where
  has : ∀ y ∈ results, t.has y = true
  nil_iff : results = [] ↔ arrays = []
  presents : Presents rep (s.shapesOf arrays) (t.shapesOf results)

namespace Evaluated

variable {s t u : Store} {rep rep' : Int → Int} {arrays arrays' results results' : List Var}

theorem nil (hs : s.Bounded) : Evaluated s [] s id [] where
  toAdvance := .refl hs _
  has := nofun
  nil_iff := Iff.rfl
  presents := .nil

/-- A leaf is its own result. -/
theorem leaf (hs : s.Bounded) {x : Var} (hx : s.has x = true) : Evaluated s [x] s id [x] where
  toAdvance := .refl hs _
  has := by simpa using hx
  nil_iff := by simp
  presents := (Advance.refl hs (s.shapesOf [x])).presents hs (by simpa using hx)

/-- What is evaluated further on comes beside the results at hand. -/
theorem append (h : Evaluated s arrays t rep results) (h' : Evaluated t arrays' u rep' results')
    (hs : s.Bounded) (hrec : ∀ x ∈ arrays', s.has x = true) :
    Evaluated s (arrays ++ arrays') u (rep' ∘ rep) (results ++ results') where
  toAdvance := by
    rw [shapesOf_append]
    exact h.toAdvance.trans h'.toAdvance hs (h.toAdvance.presents hs hrec)
      (List.subset_append_left _ _) (List.subset_append_right _ _)
  has := by
    intro y hy
    rcases List.mem_append.mp hy with hy | hy
    · exact h'.toAdvance.has (h.has y hy)
    · exact h'.has y hy
  nil_iff := by rw [List.append_eq_nil_iff, List.append_eq_nil_iff, h.nil_iff, h'.nil_iff]
  presents := by
    rw [shapesOf_append, shapesOf_append]
    exact (h.presents.trans (h'.toAdvance.presents h.bounded h.has)).append
      ((h.toAdvance.presents hs hrec).trans h'.presents)

/-- The results are broadcast to one, which is recorded as a new array. -/
theorem broadcast (h : Evaluated s arrays t rep results) (hs : s.Bounded) (hne : results ≠ [])
    (supply : NameSupply) :
    ∃ out u rep', t.broadcast (fun _ => true) results = .ok (out, u) ∧
      Evaluated s arrays (supply.record out u).2 rep' [(supply.record out u).1] := by
  obtain ⟨out, u, rep', hrun, hadvance, hpresents, -, hlt⟩ :=
    broadcast_presents h.bounded hne h.has
  refine ⟨out, u, rep' ∘ rep, hrun, ?_⟩
  have hnew : u.has (supply.next u) = false := supply.has_next u
  have hfind : (u.record (supply.next u) out).2.shapes.find? (supply.next u) = some out := by
    rw [find?_shapes_record, if_pos rfl, Option.not_isSome_iff_eq_none.mp (Bool.eq_false_iff.mp hnew)]
  refine ⟨?_, ?_, ?_, ?_⟩
  · exact (h.toAdvance.trans hadvance hs h.presents (List.Subset.refl _)
      (List.Subset.refl _)).record hnew hlt
  · simpa [NameSupply.record, has_iff] using ⟨out, hfind⟩
  · simp [← h.nil_iff, hne]
  · rw [NameSupply.record, shapesOf_singleton hfind]
    exact h.presents.trans hpresents

end Evaluated

namespace FusedTree

variable (supply : NameSupply) {isArray : Var → Bool}

mutual

/-- Evaluating a tree whose arrays are recorded succeeds. -/
theorem exists_evaluated (t : FusedTree) {s : Store} (hs : s.Bounded)
    (hrec : ∀ x ∈ t.leaves.filter isArray, s.has x = true) :
    ∃ r u rep, (t.evaluate supply isArray).run s = (.ok r, u) ∧
      Evaluated s (t.leaves.filter isArray) u rep r.toList := by
  cases t with
  | leaf x =>
    cases hx : isArray x with
    | false =>
      refine ⟨none, s, id, by simp [evaluate, hx], ?_⟩
      simpa [hx] using Evaluated.nil hs
    | true =>
      refine ⟨some x, s, id, by simp [evaluate, hx], ?_⟩
      simpa [hx] using Evaluated.leaf hs (hrec x (by simp [hx]))
  | const value => exact ⟨none, s, id, by simp [evaluate], by simpa using Evaluated.nil hs⟩
  | op fn operands =>
    rw [leaves_op] at hrec ⊢
    obtain ⟨rs, u, rep, hrun, h⟩ := exists_evaluatedAll operands hs hrec
    rw [evaluate, Attempt.run_bind_of_ok hrun]
    generalize rs.filterMap id = results at h ⊢
    cases results with
    | nil => exact ⟨none, u, rep, rfl, h⟩
    | cons y ys =>
      obtain ⟨out, v, rep', hbroadcast, h'⟩ := h.broadcast hs (List.cons_ne_nil y ys) supply
      refine ⟨some (supply.record out v).1, (supply.record out v).2, rep', ?_, h'⟩
      simp only [Attempt.run_bind, Attempt.run_ofExcept, hbroadcast, Attempt.run_ofState,
        Attempt.run_pure]

/-- So does evaluating operands from left to right. -/
theorem exists_evaluatedAll (ts : List FusedTree) {s : Store} (hs : s.Bounded)
    (hrec : ∀ x ∈ (ts.flatMap leaves).filter isArray, s.has x = true) :
    ∃ rs u rep, (evaluateAll supply isArray ts).run s = (.ok rs, u) ∧
      Evaluated s ((ts.flatMap leaves).filter isArray) u rep (rs.filterMap id) := by
  cases ts with
  | nil => exact ⟨[], s, id, by simp [evaluateAll], Evaluated.nil hs⟩
  | cons t ts =>
    rw [List.flatMap_cons, List.filter_append] at hrec ⊢
    obtain ⟨r, u, rep, hrun, h⟩ :=
      exists_evaluated t hs fun x hx => hrec x (List.mem_append_left _ hx)
    obtain ⟨rs, v, rep', hrun', h'⟩ := exists_evaluatedAll ts h.bounded fun x hx =>
      h.toAdvance.has (hrec x (List.mem_append_right _ hx))
    refine ⟨r :: rs, v, rep' ∘ rep, ?_, ?_⟩
    · rw [evaluateAll, Attempt.run_bind_of_ok hrun, Attempt.run_bind_of_ok hrun']
      rfl
    · have happend := h.append h' hs fun x hx => hrec x (List.mem_append_right _ hx)
      cases r <;> exact happend

end

section

variable {t : FusedTree} {s : Store}

/-- Broadcasting the variables of a tree unites what faces each other in its array leaves. -/
theorem broadcast_vars_presents (hs : s.Bounded) (harray : ∃ x ∈ t.leaves, isArray x = true)
    (hrec : ∀ x ∈ t.leaves.filter isArray, s.has x = true) :
    ∃ out u rep, s.broadcast isArray t.vars = .ok (out, u) ∧
      Advance s u rep (s.shapesOf (t.leaves.filter isArray)) ∧
      Presents rep (s.shapesOf (t.leaves.filter isArray)) [out] ∧
      ∀ c d, Facing (s.shapesOf (t.leaves.filter isArray)) c d → rep c = rep d := by
  have hmem : ∀ x, x ∈ t.vars.filter isArray ↔ x ∈ t.leaves.filter isArray := by
    intro x
    rw [List.mem_filter, List.mem_filter, mem_vars]
  have hsub := s.shapesOf_subset fun x => (hmem x).mp
  have hsub' := s.shapesOf_subset fun x => (hmem x).mpr
  obtain ⟨x, hx, hxarray⟩ := harray
  have hne : t.vars.filter isArray ≠ [] :=
    List.ne_nil_of_mem ((hmem x).mpr (List.mem_filter.mpr ⟨hx, hxarray⟩))
  obtain ⟨out, u, rep, hrun, hadvance, hpresents, hunited, -⟩ :=
    broadcast_presents hs hne fun x hx => hrec x ((hmem x).mp hx)
  refine ⟨out, u, rep, ?_, hadvance.mono hsub, hpresents.congr_left hsub hsub',
    fun c d hface => hunited c d (hface.mono hsub')⟩
  rwa [broadcast_filter isArray ⟨x, (mem_vars t x).mpr hx, hxarray⟩]

/-- Evaluating a tree with an array leaf gives an array, which presents the array leaves. -/
theorem evaluate_presents (hs : s.Bounded)
    (harray : ∃ x ∈ t.leaves, isArray x = true)
    (hrec : ∀ x ∈ t.leaves.filter isArray, s.has x = true) :
    ∃ y out u rep, (t.evaluate supply isArray).run s = (.ok (some y), u) ∧
      u.shapes.find? y = some out ∧ Advance s u rep (s.shapesOf (t.leaves.filter isArray)) ∧
      Presents rep (s.shapesOf (t.leaves.filter isArray)) [out] := by
  obtain ⟨r, u, rep, hrun, h⟩ := exists_evaluated supply t hs hrec
  cases r with
  | none =>
    obtain ⟨x, hx, hxarray⟩ := harray
    have hmem : x ∈ t.leaves.filter isArray := List.mem_filter.mpr ⟨hx, hxarray⟩
    rw [h.nil_iff.mp rfl] at hmem
    cases hmem
  | some y =>
    obtain ⟨out, hout⟩ := (has_iff u y).mp (h.has y List.mem_cons_self)
    exact ⟨y, out, u, rep, hrun, hout, h.toAdvance, shapesOf_singleton hout ▸ h.presents⟩

/-- Broadcasting the variables of a fused tree at once agrees with evaluating the tree step by step. The
same dimensions of the result are unknown, and what the steps unite is united at once. Where no array
leaf has an unknown dimension, both give the same up to the names of classes. -/
theorem broadcast_vars_agrees (t : FusedTree) (isArray : Var → Bool)
    (hs : s.Bounded) (harray : ∃ x ∈ t.leaves, isArray x = true)
    (hrec : ∀ x ∈ t.leaves, isArray x = true → s.has x = true) :
    ∃ out u y out' v, s.broadcast isArray t.vars = .ok (out, u) ∧
      (t.evaluate supply isArray).run s = (.ok (some y), v) ∧ v.shapes.find? y = some out' ∧
      Coarser s out u out' v ∧
      ((∀ x ∈ t.leaves, isArray x = true →
          ∀ shape, s.shapes.find? x = some shape → noClass ∉ shape) →
        ∃ f, Renamed f s out u out' v) := by
  have hrec' : ∀ x ∈ t.leaves.filter isArray, s.has x = true := fun x hx =>
    hrec x (List.mem_filter.mp hx).1 (List.mem_filter.mp hx).2
  obtain ⟨out, u, rep, hrun, hadvance, hpresents, hunited⟩ :=
    broadcast_vars_presents hs harray hrec'
  obtain ⟨y, out', v, rep', hrun', hout', hadvance', hpresents'⟩ :=
    evaluate_presents supply hs harray hrec'
  refine ⟨out, u, y, out', v, hrun, hrun', hout',
    hadvance.coarser hadvance' hs hpresents hpresents' hunited, fun hknown => ?_⟩
  refine hadvance.renamed hadvance' hs hpresents hpresents' ?_
  rintro j ⟨_, hmem, hhidden⟩
  obtain ⟨x, hx, rfl⟩ := List.mem_map.mp hmem
  obtain ⟨shape, hshape⟩ := (has_iff s x).mp (hrec' x hx)
  rw [hshape, Option.getD_some] at hhidden
  exact hknown x (List.mem_filter.mp hx).1 (List.mem_filter.mp hx).2 shape hshape
    (mem_of_trailing hhidden (by decide))

end

/-- Arrays `a`, `b` and `c` and a number `k`, combined in `(a * 2) + (k - (b + c))`. -/
def nestedTree : FusedTree :=
  op "+" [op "*" [leaf "a", const 2], op "-" [leaf "k", op "+" [leaf "b", leaf "c"]]]

/-- The array `d` is no leaf, and has classes of leaves. -/
def nestedStore : Store where
  shapes := .ofList [("a", [1, 2]), ("b", [3]), ("c", [4, 0]), ("d", [3, 2, 5])]
  sizeVars := .empty
  classSizes := .ofList [(0, [.literal 1])]
  nextClass := 6

theorem broadcast_vars_agrees_nested :
    ∃ out u y out' v f, nestedStore.broadcast (· != "k") nestedTree.vars = .ok (out, u) ∧
      (nestedTree.evaluate default (· != "k")).run nestedStore = (.ok (some y), v) ∧
      v.shapes.find? y = some out' ∧ Coarser nestedStore out u out' v ∧
      Renamed f nestedStore out u out' v := by
  obtain ⟨out, u, y, out', v, hrun, hrun', hout', hcoarser, hrenamed⟩ :=
    broadcast_vars_agrees (s := nestedStore) default nestedTree (· != "k") (by decide)
      (by decide +kernel) (by decide +kernel)
  have hknown : ∀ x ∈ nestedTree.leaves, (x != "k") = true →
      ∀ shape ∈ nestedStore.shapes.find? x, noClass ∉ shape := by decide +kernel
  obtain ⟨f, hf⟩ := hrenamed hknown
  exact ⟨out, u, y, out', v, f, hrun, hrun', hout', hcoarser, hf⟩

/-! An intermediate array hides behind its unknown dimension what an operand shows beside it. -/

/-- In `(a + b) + c` the only dimension of `a` is unknown. -/
def hidingTree : FusedTree := op "+" [op "+" [leaf "a", leaf "b"], leaf "c"]

def hidingStore : Store where
  shapes := .ofList [("a", [-1]), ("b", [1]), ("c", [2])]
  sizeVars := .empty
  classSizes := .ofList [(0, [.literal 1])]
  nextClass := 3

example : (hidingStore.broadcast (fun _ => true) hidingTree.vars).map (fun r => r.2.shapes.toList) =
    .ok [("a", [-1]), ("b", [3]), ("c", [3])] := by decide +kernel

example : ((hidingTree.evaluate default fun _ => true).run hidingStore).2.shapes.toList =
    [("a", [-1]), ("b", [1]), ("c", [2]), ("%abc", [-1]), ("%abc%abc", [-1])] := by decide +kernel

end FusedTree

end DimEquiv
