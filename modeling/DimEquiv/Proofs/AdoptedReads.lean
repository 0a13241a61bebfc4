import DimEquiv.Occurrence
import DimEquiv.Proofs.ReadLookup
import Mathlib.Data.List.Nodup

/-!
# What an adopted read reads

A scan lists the reads of a program by array and dimension. It takes the array of a tuple from the last
place where the tuple is assigned a shape, although the tuple may hold something else where it is read.
Where that cannot be, the variable that a scan lists for a dimension was read off that dimension.
-/

namespace DimEquiv

/-- The latest assignment to `x`. -/
def Assign.latest? (x : Var) (as : List Assign) : Option Assign :=
  as.reverse.find? fun a => a.target = x

theorem Assign.exists_latest? {x : Var} {as : List Assign} (h : x ∈ as.map Assign.target) :
    ∃ a ∈ as, a.target = x ∧ Assign.latest? x as = some a := by
  unfold latest?
  obtain ⟨b, hb, hx⟩ := List.mem_map.mp h
  cases hlatest : as.reverse.find? fun a => a.target = x with
  | none =>
    have hnone := List.find?_eq_none.mp hlatest b (List.mem_reverse.mpr hb)
    exact absurd (decide_eq_true hx) hnone
  | some a =>
    have ha : a ∈ as := List.mem_reverse.mp (List.mem_of_find?_eq_some hlatest)
    have htarget := List.find?_some hlatest
    exact ⟨a, ha, of_decide_eq_true htarget, rfl⟩

namespace Program

/-- The assignment at place `k` gives `n` an item of a tuple, and the tuple was last assigned the
shape of the array. -/
def ReadsAt (p : Program) (k : Nat) (n array : Var) (dim : Int) : Prop :=
  ∃ a tuple indexVar source, p.assigns[k]? = some a ∧ a.target = n ∧
    a.value = .staticGetitem tuple dim indexVar ∧
    Assign.latest? tuple (p.assigns.take k) = some source ∧
    source.value = .getattr array Operators.shapeAttr

/-- A variable that is assigned the shape of an array is assigned nothing else, and that before an item
of it is read. -/
structure SteadyTuples (p : Program) : Prop where
  steady : ∀ source ∈ p.assigns, ∀ array, source.value = .getattr array Operators.shapeAttr →
    ∀ a ∈ p.assigns, a.target = source.target → a.value = source.value
  defined : ∀ source ∈ p.assigns, ∀ array, source.value = .getattr array Operators.shapeAttr →
    ∀ (k : Nat) (a : Assign) dim indexVar, p.assigns[k]? = some a →
      a.value = .staticGetitem source.target dim indexVar →
      source.target ∈ (p.assigns.take k).map Assign.target

/-- Single assignments before use are enough. -/
theorem DefinedBeforeUse.steadyTuples {p : Program} (hp : p.DefinedBeforeUse) : p.SteadyTuples where
  steady source hsource _ _ a ha htarget :=
    congrArg Assign.value (List.inj_on_of_nodup_map hp.once ha hsource htarget)
  defined source hsource _ _ k a dim indexVar hk hvalue := by
    obtain ⟨hlt, rfl⟩ := List.getElem?_eq_some_iff.mp hk
    have hmentioned : source.target ∈ p.assigns[k].value.mentions := by
      rw [hvalue]
      exact List.mem_cons_self
    exact (hp.defined k hlt _ hmentioned).resolve_right fun h => h (List.mem_map_of_mem hsource)

end Program

namespace Symbols

/-- A tuple counts for an array whose shape it is assigned somewhere. -/
theorem exists_of_find?_shapeTuples {as : List Assign} {tuple array : Var}
    (h : (shapeTuples as).find? tuple = some array) :
    ∃ source ∈ as, source.target = tuple ∧
      source.value = .getattr array Operators.shapeAttr := by
  rw [find?_shapeTuples] at h
  obtain ⟨source, hsource, hshape⟩ := List.exists_of_findSome?_eq_some h
  obtain ⟨hvalue, htarget⟩ := Assign.shapeTuple?_eq_some_iff.mp hshape
  exact ⟨source, List.mem_reverse.mp hsource, htarget, hvalue⟩

/-- A listed variable is the target of an assignment that reads an item of a tuple of the array. -/
theorem exists_of_fetch?_scan {p : Program} {array n : Var} {dim : Int}
    (h : (empty.scan p).fetch? array dim = some n) :
    ∃ (k : Nat) (a : Assign) (tuple : Var) (indexVar : Option Var), p.assigns[k]? = some a ∧
      a.target = n ∧ a.value = .staticGetitem tuple dim indexVar ∧
      (shapeTuples p.assigns).find? tuple = some array := by
  rw [fetch?_scan_empty] at h
  obtain ⟨a, ha, hread⟩ := List.exists_of_findSome?_eq_some h
  obtain ⟨⟨tuple, indexVar, hvalue, htuple⟩, htarget⟩ := Assign.read?_eq_some_iff.mp hread
  obtain ⟨k, hk⟩ := List.getElem?_of_mem ha
  exact ⟨k, a, tuple, indexVar, hk, htarget, hvalue, htuple⟩

/-- If shape tuples are steady, the variable that a scan lists for a dimension of an array is assigned
an item of a tuple at a place where the tuple holds the shape of that array. -/
theorem readsAt_of_fetch?_scan {p : Program} (hp : p.SteadyTuples) {array n : Var} {dim : Int}
    (h : (empty.scan p).fetch? array dim = some n) : ∃ k, p.ReadsAt k n array dim := by
  obtain ⟨k, a, tuple, indexVar, hk, htarget, hvalue, htuple⟩ := exists_of_fetch?_scan h
  obtain ⟨source, hsource, rfl, hshape⟩ := exists_of_find?_shapeTuples htuple
  obtain ⟨latest, hmem, hlatest, hfound⟩ :=
    Assign.exists_latest? (hp.defined source hsource array hshape k a dim indexVar hk hvalue)
  have hsame : latest.value = source.value :=
    hp.steady source hsource array hshape latest (List.mem_of_mem_take hmem) hlatest
  exact ⟨k, a, source.target, indexVar, latest, hk, htarget, hvalue, hfound, hsame.trans hshape⟩

/-- A tuple is assigned the shape of the same array twice, and read after each time. -/
def steadyProgram : Program where
  name := "steady"
  argNames := ["a"]
  blocks := [
    ⟨0, [
      .assign ⟨"t", .getattr "a" "shape", none, 0⟩,
      .assign ⟨"m", .staticGetitem "t" 1 none, none, 1⟩,
      .assign ⟨"t", .getattr "a" "shape", none, 2⟩,
      .assign ⟨"n", .staticGetitem "t" 0 none, none, 3⟩,
      .ret "n" none]⟩]

theorem steadyTuples_steadyProgram : steadyProgram.SteadyTuples := by
  have hassigns : steadyProgram.assigns = [⟨"t", .getattr "a" "shape", none, 0⟩,
      ⟨"m", .staticGetitem "t" 1 none, none, 1⟩, ⟨"t", .getattr "a" "shape", none, 2⟩,
      ⟨"n", .staticGetitem "t" 0 none, none, 3⟩] := rfl
  constructor
  · rw [hassigns]
    simp [Operators.shapeAttr]
  · rw [hassigns]
    simp only [List.mem_cons, List.not_mem_nil, or_false]
    rintro source (rfl | rfl | rfl | rfl) array hsource k a dim indexVar hk hvalue <;>
      match k with
      | 0 => cases hk; cases hvalue
      | k + 1 => simp_all

theorem readsAt_of_fetch?_scan_steady : ∃ k, steadyProgram.ReadsAt k "n" "a" 0 :=
  readsAt_of_fetch?_scan steadyTuples_steadyProgram (by decide)

/-- A tuple is assigned the shape of one array, read, and then assigned the shape of another. -/
def reusedProgram : Program where
  name := "reused"
  argNames := ["a", "b"]
  blocks := [
    ⟨0, [
      .assign ⟨"t", .getattr "a" "shape", none, 0⟩,
      .assign ⟨"n", .staticGetitem "t" 0 none, none, 1⟩,
      .assign ⟨"t", .getattr "b" "shape", none, 2⟩,
      .ret "n" none]⟩]

/-- The read counts for the second array, although what it reads is a dimension of the first. -/
theorem misread_reused : (empty.scan reusedProgram).fetch? "b" 0 = some "n" ∧
    (¬ ∃ k, reusedProgram.ReadsAt k "n" "b" 0) ∧ reusedProgram.ReadsAt 1 "n" "a" 0 := by
  refine ⟨by decide, ?_, _, _, _, _, rfl, rfl, rfl, rfl, rfl⟩
  rintro ⟨k, a, tuple, indexVar, source, hk, -, hvalue, hlatest, hsource⟩
  match k with
  | 0 | 2 =>
    cases hk
    cases hvalue
  | 1 =>
    cases hk
    cases hvalue
    cases hlatest
    exact absurd hsource (by simp)
  | k + 3 => cases hk

end Symbols

end DimEquiv
