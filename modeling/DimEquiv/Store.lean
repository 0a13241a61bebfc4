import DimEquiv.Error
import DimEquiv.Number
import DimEquiv.Shape

/-!
# Recorded shapes and their classes

A store holds the shape recorded for each array, the size values chosen for its dimensions, and the
size values known for each class. Classes are united at once: a union takes a new id, which replaces
both old ids in every recorded shape, and joins their size values.
-/

namespace DimEquiv

/-- A run-time value equal to the length of a dimension. -/
inductive SizeValue where
  | var (x : Var)
  | literal (value : Number)
  deriving DecidableEq

namespace SizeValue

def text : SizeValue → String
  | var x => x
  | literal value => value.text

/-- A negative literal is no length. -/
def isPlaceholder : SizeValue → Bool
  | var _ => false
  | literal value => value.isNegative

end SizeValue

structure Store where
  /-- The shape recorded for each array. -/
  shapes : Table Var Shape
  /-- The size value chosen for each dimension of an array. -/
  sizeVars : Table Var (List SizeValue)
  /-- The size values of each class; the first represents the class. -/
  classSizes : Table Int (List SizeValue)
  /-- The id that the next new class takes. -/
  nextClass : Int

/-- What recording a shape did. -/
inductive RecordOutcome where
  | recorded
  | unchanged
  /-- The array had another shape, and now none of its dimensions is known. -/
  | conflict (previous incoming : Shape)
  deriving DecidableEq

namespace Store

/-- Nothing is recorded, and only the class of length one has a size value. -/
def empty : Store where
  shapes := .empty
  sizeVars := .empty
  classSizes := Table.empty.insert Shape.sizeOne [.literal 1]
  nextClass := 1

instance : Inhabited Store := ⟨empty⟩

/-! ### Classes -/

/-- A new class. -/
def allocate (s : Store) : Int × Store := (s.nextClass, { s with nextClass := s.nextClass + 1 })

def hasSizes (s : Store) (c : Int) : Bool := s.classSizes.contains c

def sizesOf (s : Store) (c : Int) : List SizeValue := (s.classSizes.find? c).getD []

/-- The size value that stands for a class. -/
def representative? (s : Store) (c : Int) : Option SizeValue := (s.sizesOf c).head?

/-- Gives a known class its size values. -/
def putSizes (s : Store) (c : Int) (sizes : List SizeValue) : Store :=
  { s with classSizes := s.classSizes.insert c sizes }

/-- A new class, backed by its size if that is known. A placeholder tells no size. -/
def addClass (s : Store) (size : Option SizeValue) : Int × Store :=
  let (c, s') := s.allocate
  match size.filter fun value => !value.isPlaceholder with
  | some value => (c, s'.putSizes c [value])
  | none => (c, s')

/-- A new class for every dimension, in order. -/
def addClasses : List (Option SizeValue) → Store → Shape × Store
  | [], s => ([], s)
  | size :: sizes, s =>
    let (c, s₁) := s.addClass size
    let (shape, s₂) := addClasses sizes s₁
    (c :: shape, s₂)

/-- Like `putSizes`, but refuses the mark of unknown dimensions. -/
def setSizes (s : Store) (c : Int) (sizes : List SizeValue) : Except ShapeError Store :=
  if c = Shape.noClass then .error .sizesOfUnknown else .ok (s.putSizes c sizes)

/-- Makes a size value stand for a class; an unknown dimension is no class. -/
def represent (s : Store) (c : Int) (size : SizeValue) : Store :=
  if c = Shape.noClass then s else s.putSizes c [size]

/-- Puts `target` for every one of `sources`, in all recorded shapes. -/
def renameClasses (s : Store) (sources : List Int) (target : Int) : Store :=
  { s with shapes := s.shapes.mapValues (Shape.rename sources target) }

/-- Makes one new class of two, and gives it the size values of the first and then of the second. -/
def unite (s : Store) (c₁ c₂ : Int) : Int × Store :=
  let (merged, s₁) := s.allocate
  let s₂ := s₁.renameClasses [c₁, c₂] merged
  let remaining := (s.classSizes.erase c₁).erase c₂
  (merged, { s₂ with classSizes := remaining.insert merged (s.sizesOf c₁ ++ s.sizesOf c₂) })

/-- The one class that two classes make when they are found equal. -/
def equate (s : Store) (c₁ c₂ : Int) : Int × Store := if c₁ = c₂ then (c₁, s) else s.unite c₁ c₂

/-- Like `equate`, but refuses to make an unknown dimension equal to a class. -/
def merge (s : Store) (c₁ c₂ : Int) : Except ShapeError (Int × Store) :=
  if c₁ ≠ c₂ ∧ (c₁ = Shape.noClass ∨ c₂ = Shape.noClass) then
    .error (.invalidMerge (if c₁ = Shape.noClass then c₂ else c₁))
  else .ok (s.equate c₁ c₂)

/-! ### Shapes -/

def has (s : Store) (x : Var) : Bool := s.shapes.contains x

def lookup (s : Store) (x : Var) : Except ShapeError Shape :=
  match s.shapes.find? x with
  | some shape => .ok shape
  | none => .error (.unknownVariable x)

/-- Records the shape of an array. An array that has another shape already loses every class and its
size values; the number of its dimensions stays. -/
def record (s : Store) (x : Var) (shape : Shape) : RecordOutcome × Store :=
  match s.shapes.find? x with
  | none => (.recorded, { s with shapes := s.shapes.insert x shape })
  | some previous =>
    if previous = shape then (.unchanged, s)
    else
      (.conflict previous shape,
        { s with
          shapes := s.shapes.insert x (.unknown previous.length)
          sizeVars := s.sizeVars.erase x })

def setSizeVars (s : Store) (x : Var) (sizes : List SizeValue) : Store :=
  { s with sizeVars := s.sizeVars.insert x sizes }

def sizeVarsOf? (s : Store) (x : Var) : Option (List SizeValue) := s.sizeVars.find? x

/-! ### What each operation does to the tables -/

@[simp] theorem fst_addClass (s : Store) (size : Option SizeValue) :
    (s.addClass size).1 = s.nextClass := by
  simp only [addClass, allocate]
  split <;> rfl

@[simp] theorem nextClass_addClass (s : Store) (size : Option SizeValue) :
    (s.addClass size).2.nextClass = s.nextClass + 1 := by
  simp only [addClass, allocate]
  split <;> rfl

@[simp] theorem shapes_addClass (s : Store) (size : Option SizeValue) :
    (s.addClass size).2.shapes = s.shapes := by
  simp only [addClass, allocate]
  split <;> rfl

/-- New classes have consecutive ids. -/
theorem getElem?_addClasses (sizes : List (Option SizeValue)) (s : Store) (i : Nat) :
    (addClasses sizes s).1[i]? = if i < sizes.length then some (s.nextClass + i) else none := by
  induction sizes generalizing s i with
  | nil => simp [addClasses]
  | cons size sizes ih =>
    cases i with
    | zero => simp [addClasses]
    | succ i =>
      simp only [addClasses, List.getElem?_cons_succ, ih, nextClass_addClass, List.length_cons,
        Nat.add_lt_add_iff_right]
      split
      · exact congrArg some (by omega)
      · rfl

@[simp] theorem find?_shapes_unite (s : Store) (c₁ c₂ : Int) (x : Var) :
    (s.unite c₁ c₂).2.shapes.find? x =
      (s.shapes.find? x).map (Shape.rename [c₁, c₂] s.nextClass) := by
  simp [unite, allocate, renameClasses]

@[simp] theorem keys_shapes_unite (s : Store) (c₁ c₂ : Int) :
    (s.unite c₁ c₂).2.shapes.keys = s.shapes.keys := by
  simp [unite, allocate, renameClasses]

@[simp] theorem fst_unite (s : Store) (c₁ c₂ : Int) : (s.unite c₁ c₂).1 = s.nextClass := rfl

@[simp] theorem nextClass_unite (s : Store) (c₁ c₂ : Int) :
    (s.unite c₁ c₂).2.nextClass = s.nextClass + 1 := rfl

@[simp] theorem equate_self (s : Store) (c : Int) : s.equate c c = (c, s) := if_pos rfl

theorem equate_of_ne (s : Store) {c₁ c₂ : Int} (h : c₁ ≠ c₂) : s.equate c₁ c₂ = s.unite c₁ c₂ :=
  if_neg h

theorem sizesOf_unite (s : Store) (c₁ c₂ c : Int) :
    (s.unite c₁ c₂).2.sizesOf c =
      if s.nextClass = c then s.sizesOf c₁ ++ s.sizesOf c₂
      else if c₂ = c ∨ c₁ = c then [] else s.sizesOf c := by
  simp only [unite, allocate, renameClasses, sizesOf, Table.find?_insert, Table.find?_erase]
  grind

/-- What stands for an array after a shape was recorded for it. -/
theorem find?_shapes_record (s : Store) (x y : Var) (shape : Shape) :
    (s.record x shape).2.shapes.find? y =
      if x = y then
        match s.shapes.find? x with
        | none => some shape
        | some previous => some (if previous = shape then shape else .unknown previous.length)
      else s.shapes.find? y := by
  unfold record
  split
  · simp_all
  · split
    · grind
    · simp_all

@[simp] theorem nextClass_record (s : Store) (x : Var) (shape : Shape) :
    (s.record x shape).2.nextClass = s.nextClass := by
  unfold record
  split
  · rfl
  · split <;> rfl

@[simp] theorem classSizes_record (s : Store) (x : Var) (shape : Shape) :
    (s.record x shape).2.classSizes = s.classSizes := by
  unfold record
  split
  · rfl
  · split <;> rfl

theorem lookup_eq_ok_iff (s : Store) (x : Var) (shape : Shape) :
    s.lookup x = .ok shape ↔ s.shapes.find? x = some shape := by
  unfold lookup
  split <;> simp_all

theorem merge_eq_error_iff (s : Store) (c₁ c₂ : Int) :
    (∃ e, s.merge c₁ c₂ = .error e) ↔
      c₁ ≠ c₂ ∧ (c₁ = Shape.noClass ∨ c₂ = Shape.noClass) := by
  unfold merge
  split <;> simp_all

end Store

end DimEquiv
