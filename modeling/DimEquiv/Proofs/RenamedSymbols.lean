import DimEquiv.Proofs.ReadLookup
import DimEquiv.Proofs.RenamedInference

/-!
# Symbol tables under other names

What a renamed program tells about a renamed variable is what the program tells about the variable. The
reads of dimensions that it contains are the same reads, under other names.
-/

namespace DimEquiv

variable {σ : Var → Var}

theorem Table.find?_insert_rename {ν μ : Type} {f : ν → μ} {s : Table Var ν} {t : Table Var μ}
    (hσ : Function.Injective σ) (h : ∀ x, t.find? (σ x) = (s.find? x).map f) (k : Var) (v : ν)
    (x : Var) : (t.insert (σ k) (f v)).find? (σ x) = ((s.insert k v).find? x).map f := by
  rw [find?_insert, find?_insert, h]
  by_cases hk : k = x
  · simp [hk]
  · simp [hk, hσ.ne hk]

theorem NameSet.mem_insert_rename {s t : NameSet} (hσ : Function.Injective σ)
    (h : ∀ x, σ x ∈ t ↔ x ∈ s) (x y : Var) : σ y ∈ t.insert (σ x) ↔ y ∈ s.insert x := by
  rw [NameSet.mem_insert, NameSet.mem_insert, h, hσ.eq_iff]

theorem Program.assigns_rename (σ : Var → Var) (p : Program) :
    (p.rename σ).assigns = p.assigns.map (Assign.rename σ) := by
  have hinstruction : ∀ i : Instruction, (i.rename σ).assign? = i.assign?.map (Assign.rename σ) := by
    intro i
    cases i <;> rfl
  have hblock : ∀ b : Block, (b.rename σ).assigns = b.assigns.map (Assign.rename σ) := by
    intro b
    simp only [Block.assigns, Block.rename, List.filterMap_map, List.map_filterMap]
    exact congrArg (fun f => b.body.filterMap f) (funext hinstruction)
  simp only [Program.assigns, Program.rename, List.flatMap_map, List.map_flatMap, hblock]

/-! ### The reads that a program contains -/

theorem Assign.shapeTuple?_rename (hσ : Function.Injective σ) (x : Var) (a : Assign) :
    (a.rename σ).shapeTuple? (σ x) = (a.shapeTuple? x).map σ := by
  obtain ⟨target, value, loc, site⟩ := a
  cases value with
  | getattr array attr =>
    simp only [shapeTuple?, Assign.rename, Expr.rename, hσ.eq_iff]
    split <;> rfl
  | _ => rfl

theorem Symbols.find?_shapeTuples_rename (hσ : Function.Injective σ) (as : List Assign) (x : Var) :
    (shapeTuples (as.map (Assign.rename σ))).find? (σ x) = ((shapeTuples as).find? x).map σ := by
  rw [find?_shapeTuples, find?_shapeTuples, ← List.map_reverse, List.findSome?_map,
    List.map_findSome?]
  exact congrArg (fun f => as.reverse.findSome? f) (funext (Assign.shapeTuple?_rename hσ x))

theorem Assign.read?_rename {tuples tuples' : Table Var Var} (hσ : Function.Injective σ)
    (h : ∀ x, tuples'.find? (σ x) = (tuples.find? x).map σ) (array : Var) (dim : Int) (a : Assign) :
    (a.rename σ).read? tuples' (σ array) dim = (a.read? tuples array dim).map σ := by
  obtain ⟨target, value, loc, site⟩ := a
  cases value with
  | staticGetitem x index indexVar =>
    have hfound : tuples'.find? (σ x) = some (σ array) ↔ tuples.find? x = some array := by
      rw [h, Option.map_eq_some_iff]
      simp [hσ.eq_iff]
    simp only [read?, Assign.rename, Expr.rename, hfound]
    split <;> rfl
  | _ => rfl

theorem Symbols.fetch?_scan_rename (hσ : Function.Injective σ) (p : Program) (array : Var)
    (dim : Int) :
    (empty.scan (p.rename σ)).fetch? (σ array) dim = ((empty.scan p).fetch? array dim).map σ := by
  rw [fetch?_scan_empty, fetch?_scan_empty, p.assigns_rename, List.findSome?_map,
    List.map_findSome?]
  have htuples := find?_shapeTuples_rename hσ p.assigns
  exact congrArg (fun f => p.assigns.findSome? f) (funext (Assign.read?_rename hσ htuples array dim))

/-! ### Tables -/

def MethodCall.rename (σ : Var → Var) (call : MethodCall) : MethodCall :=
  { call with receiver := σ call.receiver }

def Role.rename (σ : Var → Var) : Role → Role
  | methodCall call => methodCall (call.rename σ)
  | tuple items => tuple (items.map (SizeValue.rename σ))
  | role => role

/-- A renamed value gives the renamed role. -/
theorem Expr.role?_rename {isModule isModule' isArray isArray' : Var → Bool} {e : Expr}
    (hmodule : ∀ x, isModule' (σ x) = isModule x) (harray : ∀ x, isArray' (σ x) = isArray x) :
    (e.rename σ).role? isModule' isArray' = (e.role? isModule isArray).map (Role.rename σ) := by
  cases e with
  | global x value =>
    obtain ⟨kind, name⟩ := value
    cases kind with
    | moduleRef =>
      simp only [rename, role?]
      split <;> rfl
    | _ => rfl
  | getattr x attr =>
    simp only [rename, role?, hmodule, harray]
    split
    · rfl
    · split <;> rfl
  | buildTuple items =>
    simp [rename, role?, Role.rename, SizeValue.rename, Function.comp_def]
  | const value =>
    cases value with
    | list xs => simp [rename, role?, Role.rename, SizeValue.rename, Function.comp_def]
    | _ => rfl
  | _ => rfl

namespace Symbols

/-- The second tables tell of renamed variables what the first tell of the variables. Methods are fetched
from known variables only. -/
structure Renamed (known : Var → Prop) (σ : Var → Var) (t t' : Symbols) : Prop where
  arrayModules : ∀ x, σ x ∈ t'.arrayModules ↔ x ∈ t.arrayModules
  mapCalls : ∀ x, σ x ∈ t'.mapCalls ↔ x ∈ t.mapCalls
  moduleCalls : ∀ x, t'.moduleCalls.find? (σ x) = t.moduleCalls.find? x
  methodCalls : ∀ x, t'.methodCalls.find? (σ x) = (t.methodCalls.find? x).map (MethodCall.rename σ)
  receivers : ∀ x call, t.methodCalls.find? x = some call → known call.receiver
  tuples : ∀ x, t'.tuples.find? (σ x) = (t.tuples.find? x).map (List.map (SizeValue.rename σ))
  fetches : ∀ array dim, t'.fetch? (σ array) dim = (t.fetch? array dim).map σ

variable {known : Var → Prop} {isArray isArray' : Var → Bool} {t t' : Symbols}

/-- Renamed programs list renamed reads. -/
theorem renamed_scan (known : Var → Prop) (hσ : Function.Injective σ) (p : Program) :
    Renamed known σ (empty.scan p) (empty.scan (p.rename σ)) := by
  have hfetches := fetch?_scan_rename hσ p
  rw [scan_eq empty p, scan_eq empty (p.rename σ)] at hfetches ⊢
  exact {
    arrayModules := fun x => by simp [empty]
    mapCalls := fun x => by simp [empty]
    moduleCalls := fun x => rfl
    methodCalls := fun x => rfl
    receivers := nofun
    tuples := fun x => rfl
    fetches := hfetches }

theorem Renamed.enter (hσ : Function.Injective σ) (h : Renamed known σ t t') (x : Var) {role : Role}
    (hreceiver : ∀ call, role = .methodCall call → known call.receiver) :
    Renamed known σ (t.enter x role) (t'.enter (σ x) (role.rename σ)) := by
  cases role with
  | arrayModule => exact { h with arrayModules := NameSet.mem_insert_rename hσ h.arrayModules x }
  | map => exact { h with mapCalls := NameSet.mem_insert_rename hσ h.mapCalls x }
  | moduleCall name =>
    refine { h with moduleCalls := fun y => ?_ }
    simp only [Symbols.enter, Role.rename, Table.find?_insert, h.moduleCalls, hσ.eq_iff]
  | methodCall call =>
    refine { h with
      methodCalls := Table.find?_insert_rename hσ h.methodCalls x call
      receivers := fun y call' hcall => ?_ }
    rcases holds_of_enter (.methodCall call') hcall with ⟨-, hsame⟩ | hcall
    · exact hreceiver call' hsame
    · exact h.receivers y call' hcall
  | tuple items => exact { h with tuples := Table.find?_insert_rename hσ h.tuples x items }

/-- A renamed assignment tells the same. -/
theorem Renamed.observe (hσ : Function.Injective σ) (h : Renamed known σ t t') {a : Assign}
    (hvars : ∀ x ∈ a.value.vars, known x) (harray : ∀ x, isArray' (σ x) = isArray x) :
    Renamed known σ (t.observe isArray a) (t'.observe isArray' (a.rename σ)) := by
  have hrole : (a.value.rename σ).role? (fun x => x ∈ t'.arrayModules) isArray' =
      (a.value.role? (fun x => x ∈ t.arrayModules) isArray).map (Role.rename σ) :=
    Expr.role?_rename (fun x => decide_eq_decide.mpr (h.arrayModules x)) harray
  rw [observe_eq, observe_eq, Assign.rename, hrole]
  cases hgives : a.value.role? (fun x => x ∈ t.arrayModules) isArray with
  | none => exact h
  | some role =>
    refine h.enter hσ a.target fun call hcall => ?_
    rw [hcall, Expr.role?_eq_some_iff] at hgives
    exact hvars _ (Expr.mem_mentions.mp hgives.receiver_mem).1

theorem Renamed.callee?_eq (h : Renamed known σ t t') (func : Var) :
    t'.callee? (σ func) = (t.callee? func).map (Callee.rename σ) := by
  simp only [callee?, h.mapCalls, h.moduleCalls, h.methodCalls]
  split
  · rfl
  · cases t.moduleCalls.find? func with
    | some name => rfl
    | none => cases t.methodCalls.find? func <;> rfl

end Symbols

end DimEquiv
