import DimEquiv.Proofs.BroadcastEffect
import DimEquiv.Proofs.InferenceOutcome

/-!
# How inference changes the tables

Inference creates classes and unites classes. New classes leave every recorded shape as it is, and a
union replaces classes in all of them alike. A matrix product makes at most one union. Either way a
class keeps its size values under its new name.
-/

namespace DimEquiv.Store

/-! ### New classes -/

theorem keys_addClass {s : Store} (size : Option SizeValue) {c : Int}
    (hc : c ∈ (s.addClass size).2.classSizes.keys) :
    c ∈ s.classSizes.keys ∨ c = s.nextClass := by
  simp only [addClass, allocate] at hc
  split at hc
  · rcases (Table.mem_keys_insert ..).mp hc with rfl | hc
    · exact .inr rfl
    · exact .inl hc
  · exact .inl hc

@[simp] theorem sizeVars_addClass (s : Store) (size : Option SizeValue) :
    (s.addClass size).2.sizeVars = s.sizeVars := by
  simp only [addClass, allocate]
  split <;> rfl

theorem Bounded.addClass {s : Store} (h : s.Bounded) (size : Option SizeValue) :
    (s.addClass size).2.Bounded where
  next_pos := by
    have := h.next_pos
    rw [nextClass_addClass]
    omega
  lt_of_recorded := by
    intro x shape hx c hc
    rw [shapes_addClass] at hx
    have := h.lt_of_recorded x shape hx c hc
    rw [nextClass_addClass]
    omega
  lt_of_sized := by
    intro c hc
    rw [nextClass_addClass]
    rcases keys_addClass size hc with hc | rfl
    · have := h.lt_of_sized c hc
      omega
    · omega

/-- A new class has the size value that it is made for, unless that is a placeholder. -/
theorem find?_classSizes_addClass (s : Store) (size : Option SizeValue) (c : Int) :
    (s.addClass size).2.classSizes.find? c =
      if s.nextClass = c then
        ((size.filter fun value => !value.isPlaceholder).map fun value => [value]).or
          (s.classSizes.find? c)
      else s.classSizes.find? c := by
  simp only [Store.addClass, allocate]
  cases size.filter fun value => !value.isPlaceholder with
  | none => simp
  | some value => simp [putSizes, Table.find?_insert]

theorem find?_classSizes_addClass_of_ne (s : Store) (size : Option SizeValue) {c : Int}
    (hc : c ≠ s.nextClass) : (s.addClass size).2.classSizes.find? c = s.classSizes.find? c := by
  rw [find?_classSizes_addClass, if_neg (Ne.symm hc)]

theorem Bounded.addClasses {s : Store} (h : s.Bounded) (sizes : List (Option SizeValue)) :
    (addClasses sizes s).2.Bounded := by
  induction sizes generalizing s with
  | nil => exact h
  | cons size sizes ih => exact ih (h.addClass size)

@[simp] theorem shapes_addClasses (sizes : List (Option SizeValue)) (s : Store) :
    (addClasses sizes s).2.shapes = s.shapes := by
  induction sizes generalizing s with
  | nil => rfl
  | cons size sizes ih => exact (ih _).trans (shapes_addClass s size)

@[simp] theorem sizeVars_addClasses (sizes : List (Option SizeValue)) (s : Store) :
    (addClasses sizes s).2.sizeVars = s.sizeVars := by
  induction sizes generalizing s with
  | nil => rfl
  | cons size sizes ih => exact (ih _).trans (sizeVars_addClass s size)

theorem length_addClasses (sizes : List (Option SizeValue)) (s : Store) :
    (addClasses sizes s).1.length = sizes.length := by
  induction sizes generalizing s with
  | nil => rfl
  | cons size sizes ih => exact congrArg (· + 1) (ih _)

theorem nextClass_addClasses (sizes : List (Option SizeValue)) (s : Store) :
    (addClasses sizes s).2.nextClass = s.nextClass + sizes.length := by
  induction sizes generalizing s with
  | nil => simp [Store.addClasses]
  | cons size sizes ih =>
    have h := ih (s.addClass size).2
    rw [nextClass_addClass] at h
    rw [List.length_cons]
    simp only [Store.addClasses, h]
    omega

theorem mem_addClasses {sizes : List (Option SizeValue)} {s : Store} {c : Int}
    (hc : c ∈ (addClasses sizes s).1) :
    s.nextClass ≤ c ∧ c < (addClasses sizes s).2.nextClass := by
  obtain ⟨i, hi⟩ := List.mem_iff_getElem?.mp hc
  rw [getElem?_addClasses] at hi
  split at hi
  · cases hi
    rw [nextClass_addClasses]
    omega
  · cases hi

/-- Other classes keep their size values. -/
theorem find?_classSizes_addClasses {sizes : List (Option SizeValue)} {s : Store} {c : Int}
    (hc : c ∉ (addClasses sizes s).1) :
    (addClasses sizes s).2.classSizes.find? c = s.classSizes.find? c := by
  induction sizes generalizing s with
  | nil => rfl
  | cons size sizes ih =>
    obtain ⟨hhead, htail⟩ : c ≠ (s.addClass size).1 ∧ c ∉ (addClasses sizes (s.addClass size).2).1 :=
      List.ne_and_not_mem_of_not_mem_cons hc
    rw [fst_addClass] at hhead
    exact (ih htail).trans (find?_classSizes_addClass_of_ne s size hhead)

theorem notMem_addClasses_of_lt {sizes : List (Option SizeValue)} {s : Store} {c : Int}
    (hc : c < s.nextClass) : c ∉ (addClasses sizes s).1 :=
  fun hmem => Int.not_le.mpr hc (mem_addClasses hmem).1

theorem find?_classSizes_addClasses_new {sizes : List (Option SizeValue)} {s : Store} {i : Nat}
    {size : Option SizeValue} (hi : sizes[i]? = some size) :
    (addClasses sizes s).2.classSizes.find? (s.nextClass + i) =
      ((size.filter fun value => !value.isPlaceholder).map fun value => [value]).or
        (s.classSizes.find? (s.nextClass + i)) := by
  induction sizes generalizing s i with
  | nil => cases hi
  | cons head sizes ih =>
    cases i with
    | zero =>
      obtain rfl : head = size := Option.some.inj hi
      have hlater : s.nextClass ∉ (addClasses sizes (s.addClass head).2).1 :=
        notMem_addClasses_of_lt (by rw [nextClass_addClass]; omega)
      rw [Int.natCast_zero, Int.add_zero]
      exact (find?_classSizes_addClasses hlater).trans
        ((find?_classSizes_addClass s head _).trans (if_pos rfl))
    | succ i =>
      have hid : (s.addClass head).2.nextClass + (i : Int) = s.nextClass + ((i + 1 : Nat) : Int) := by
        rw [nextClass_addClass]
        omega
      have hrest := ih (s := (s.addClass head).2) (i := i) hi
      rw [hid, find?_classSizes_addClass_of_ne s head (by omega)] at hrest
      exact hrest

theorem sizesOf_addClasses_of_lt (sizes : List (Option SizeValue)) {s : Store} {c : Int}
    (hc : c < s.nextClass) : (addClasses sizes s).2.sizesOf c = s.sizesOf c := by
  rw [sizesOf, sizesOf, find?_classSizes_addClasses (notMem_addClasses_of_lt hc)]

theorem sizesOf_addClasses_new {s : Store} (h : s.Bounded) (sizes : List (Option SizeValue))
    {i : Nat} {size : Option SizeValue} (hi : sizes[i]? = some size) :
    (addClasses sizes s).2.sizesOf (s.nextClass + i) =
      (size.filter fun value => !value.isPlaceholder).toList := by
  rw [sizesOf, find?_classSizes_addClasses_new hi, find?_classSizes_of_le h (by omega)]
  cases size.filter fun value => !value.isPlaceholder <;> rfl

/-! ### Matrix products -/

/-- Contracted classes become one where both are known, and no other classes do. -/
theorem collapse_contract {s : Store} (hs : s.Bounded) {c₁ c₂ : Int} (h₁ : c₁ < s.nextClass)
    (h₂ : c₂ < s.nextClass) :
    ∃ rep, Collapse s
        (if c₁ = Shape.noClass ∨ c₂ = Shape.noClass then s else (s.equate c₁ c₂).2) rep ∧
      ∀ c < s.nextClass, ∀ d < s.nextClass, (rep c = rep d ↔ c = d ∨
        (c₁ ≠ Shape.noClass ∧ c₂ ≠ Shape.noClass ∧ (c = c₁ ∨ c = c₂) ∧ (d = c₁ ∨ d = c₂))) := by
  by_cases hunknown : c₁ = Shape.noClass ∨ c₂ = Shape.noClass
  · rw [if_pos hunknown]
    refine ⟨id, .refl hs, fun c _ d _ => ⟨.inl, fun h => h.resolve_right ?_⟩⟩
    rintro ⟨hknown₁, hknown₂, -⟩
    exact hunknown.elim hknown₁ hknown₂
  rw [if_neg hunknown]
  push Not at hunknown
  by_cases hne : c₁ = c₂
  · rw [hne, equate_self]
    refine ⟨id, .refl hs, fun c _ d _ => ⟨.inl, ?_⟩⟩
    rintro (hcd | ⟨-, -, hc, hd⟩)
    · exact hcd
    · rw [id, id, hc.elim id id, hd.elim id id]
  · rw [equate_of_ne s hne]
    refine ⟨_, (Collapse.refl hs).unite h₁ h₂ hne, fun c hc d hd => ?_⟩
    rw [Collapse.uniteRep_eq_iff hc hd]
    simp only [id]
    tauto

/-- A contraction leaves unknown dimensions unknown. -/
theorem Collapse.rep_noClass_of_contract {s t : Store} {rep : Int → Int} (h : Collapse s t rep)
    (hs : s.Bounded) {c₁ c₂ : Int}
    (hrep : ∀ c < s.nextClass, ∀ d < s.nextClass, (rep c = rep d ↔ c = d ∨
      (c₁ ≠ Shape.noClass ∧ c₂ ≠ Shape.noClass ∧ (c = c₁ ∨ c = c₂) ∧ (d = c₁ ∨ d = c₂)))) :
    rep Shape.noClass = Shape.noClass := by
  refine h.self_of_alone _ hs.noClass_lt fun d hd he => ?_
  rcases (hrep d hd _ hs.noClass_lt).mp he with he | ⟨h₁, h₂, -, hn | hn⟩
  · exact he
  · exact absurd hn.symm h₁
  · exact absurd hn.symm h₂

/-- A matrix product contracts two classes and answers what is left of the operands' shapes. -/
theorem matrixProduct_effect {s t : Store} (hs : s.Bounded) {callName : String} {a b : Var}
    {out : Shape} (h : s.matrixProduct callName a b = .ok (out, t)) :
    ∃ shape₁ shape₂ c₁ c₂ rep, s.shapes.find? a = some shape₁ ∧ s.shapes.find? b = some shape₂ ∧
      shape₁.getLast? = some c₁ ∧ shape₂[contractedIndex shape₂]? = some c₂ ∧ Collapse s t rep ∧
      out = productShape (shape₁.map rep) (shape₂.map rep) ∧
      ∀ c < s.nextClass, ∀ d < s.nextClass, (rep c = rep d ↔ c = d ∨
        (c₁ ≠ Shape.noClass ∧ c₂ ≠ Shape.noClass ∧ (c = c₁ ∨ c = c₂) ∧ (d = c₁ ∨ d = c₂))) := by
  unfold matrixProduct at h
  cases ha : s.lookup a with
  | error e => simp [ha, bind, Except.bind] at h
  | ok shape₁ =>
    cases hb : s.lookup b with
    | error e => simp [ha, hb, bind, Except.bind] at h
    | ok shape₂ =>
      simp only [ha, hb, bind, Except.bind] at h
      rw [lookup_eq_ok_iff] at ha hb
      split at h
      · rename_i c₁ c₂ hc₁ hc₂
        have h₁ := hs.lt_of_recorded a shape₁ ha c₁ (List.mem_of_getLast? hc₁)
        have h₂ := hs.lt_of_recorded b shape₂ hb c₂ (List.mem_of_getElem? hc₂)
        obtain ⟨rep, hcollapse, hrep⟩ := collapse_contract hs h₁ h₂
        generalize (if c₁ = Shape.noClass ∨ c₂ = Shape.noClass then s else (s.equate c₁ c₂).2) = u
          at h hcollapse
        have hla : u.lookup a = .ok (shape₁.map rep) := by
          rw [lookup_eq_ok_iff, hcollapse.find?_shapes, ha, Option.map_some]
        have hlb : u.lookup b = .ok (shape₂.map rep) := by
          rw [lookup_eq_ok_iff, hcollapse.find?_shapes, hb, Option.map_some]
        rw [hla, hlb] at h
        cases h
        exact ⟨shape₁, shape₂, c₁, c₂, rep, ha, hb, hc₁, hc₂, hcollapse, rfl, hrep⟩
      · cases h

/-! ### Every inference -/

/-- The store `t` is `s` with its classes renamed, where each class keeps its size values. -/
structure Carries (s t : Store) (rep : Int → Int) : Prop where
  bounded : t.Bounded
  find?_shapes : ∀ x, t.shapes.find? x = (s.shapes.find? x).map (List.map rep)
  sizeVars : t.sizeVars = s.sizeVars
  unknown : rep Shape.noClass = Shape.noClass
  sizes : ∀ c < s.nextClass, s.sizesOf c ⊆ t.sizesOf (rep c)

theorem Collapse.carries {s t : Store} {rep : Int → Int} (h : Collapse s t rep) (hs : s.Bounded)
    (hunknown : rep Shape.noClass = Shape.noClass) : Carries s t rep where
  bounded := h.bounded hs
  find?_shapes := h.find?_shapes
  sizeVars := h.sizeVars
  unknown := hunknown
  sizes := fun _ hc _ hsize => h.mem_sizesOf_rep hc hsize

theorem carries_addClasses {s : Store} (hs : s.Bounded) (sizes : List (Option SizeValue)) :
    Carries s (addClasses sizes s).2 id where
  bounded := hs.addClasses sizes
  find?_shapes := by simp
  sizeVars := sizeVars_addClasses sizes s
  unknown := rfl
  sizes := by
    intro c hc
    rw [id, sizesOf_addClasses_of_lt sizes hc]
    exact List.Subset.refl _

end DimEquiv.Store

namespace DimEquiv.Outcome

open Store

variable {s t : Store} {answer : Except ShapeError Shape}

/-- An inference renames classes and keeps all that is known of them. -/
theorem carries (hs : s.Bounded) (h : Outcome s answer t) : ∃ rep, Carries s t rep := by
  cases h with
  | failed sizes e => exact ⟨id, carries_addClasses hs sizes⟩
  | copied h => exact ⟨id, (Collapse.refl hs).carries hs rfl⟩
  | reversed h => exact ⟨id, (Collapse.refl hs).carries hs rfl⟩
  | created sizes => exact ⟨id, carries_addClasses hs sizes⟩
  | @broadcast _ isArray operands out h =>
    obtain ⟨-, -, hr⟩ := broadcast_eq_ok_iff.mp h
    obtain ⟨rep, base, -, hprogress⟩ := exists_progress_broadcastAll isArray operands hs
    cases hr
    exact ⟨rep, hprogress.collapse.carries hs (hprogress.rep_noClass hs)⟩
  | product h =>
    obtain ⟨-, -, _, _, rep, -, -, -, -, hcollapse, -, hrep⟩ := matrixProduct_effect hs h
    exact ⟨rep, hcollapse.carries hs (hcollapse.rep_noClass_of_contract hs hrep)⟩

theorem bounded (hs : s.Bounded) (h : Outcome s answer t) : t.Bounded := by
  obtain ⟨rep, hcarries⟩ := h.carries hs
  exact hcarries.bounded

/-- An inferred shape has classes in use only. -/
theorem lt_nextClass {shape : Shape} (hs : s.Bounded) (h : Outcome s (.ok shape) t) :
    ∀ c ∈ shape, c < t.nextClass := by
  cases h with
  | copied h => exact hs.lt_of_recorded _ _ h
  | reversed h => exact fun c hc => hs.lt_of_recorded _ _ h c (List.mem_reverse.mp hc)
  | created sizes => exact fun c hc => (mem_addClasses hc).2
  | @broadcast _ isArray operands out h =>
    obtain ⟨-, -, hr⟩ := broadcast_eq_ok_iff.mp h
    obtain ⟨rep, base, -, hprogress⟩ := exists_progress_broadcastAll isArray operands hs
    cases hr
    intro c hc
    rw [hprogress.done, List.mem_map] at hc
    obtain ⟨d, hd, rfl⟩ := hc
    obtain ⟨j, hj⟩ := List.mem_iff_getElem?.mp hd
    exact hprogress.collapse.rep_lt d ((hprogress.result j d hj).lt hs)
  | product h =>
    obtain ⟨shape₁, shape₂, -, -, rep, ha, hb, -, -, hcollapse, rfl, -⟩ := matrixProduct_effect hs h
    intro c hc
    rcases List.mem_append.mp hc with hc | hc
    · obtain ⟨d, hd, rfl⟩ := List.mem_map.mp (List.dropLast_subset _ hc)
      exact hcollapse.rep_lt d (hs.lt_of_recorded _ shape₁ ha d hd)
    · obtain ⟨d, hd, rfl⟩ := List.mem_map.mp (List.mem_of_mem_eraseIdx hc)
      exact hcollapse.rep_lt d (hs.lt_of_recorded _ shape₂ hb d hd)

end DimEquiv.Outcome
