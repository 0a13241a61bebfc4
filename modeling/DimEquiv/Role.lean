import DimEquiv.Callee
import DimEquiv.Occurrence
import DimEquiv.Symbols

/-!
# Roles of variables

What an assignment tells of its target for later calls: that it holds the array module, a function, a
method of an array or a tuple. A variable plays the role that the latest assignment to it gives, and none
if that assignment tells nothing of the kind.
-/

namespace DimEquiv

/-- What a variable stands for. -/
inductive Role where
  | arrayModule
  /-- A universal function. -/
  | map
  /-- A function of the array module. -/
  | moduleCall (name : String)
  /-- A method of an array. -/
  | methodCall (call : MethodCall)
  | tuple (items : List SizeValue)
  deriving DecidableEq

namespace Role

/-- The symbol tables that keep roles, one for each kind. -/
inductive Kind where
  | arrayModule
  | map
  | moduleCall
  | methodCall
  | tuple
  deriving DecidableEq

def kind : Role → Kind
  | arrayModule => .arrayModule
  | map => .map
  | moduleCall _ => .moduleCall
  | methodCall _ => .methodCall
  | tuple _ => .tuple

/-- What the role of a variable makes of a call of it. -/
def callee? : Role → Option Callee
  | map => some .map
  | moduleCall name => some (.named name none)
  | methodCall call => some (.named call.method (some call.receiver))
  | _ => none

end Role

/-- The role of a variable with this value, where `isModule` tells the variables that hold the array
module. -/
def Expr.role? (isModule isArray : Var → Bool) : Expr → Option Role
  | global _ ⟨.ufunc, _⟩ => some .map
  | global _ ⟨.moduleRef, name⟩ =>
    if name = Operators.arrayModule then some .arrayModule else none
  | getattr x attr =>
    if isModule x then some (.moduleCall attr)
    else if isArray x then some (.methodCall ⟨attr, x⟩)
    else none
  | buildTuple items => some (.tuple (items.map .var))
  | const (.list xs) => some (.tuple (xs.map .literal))
  | _ => none

namespace Expr

/-- The values that give roles. -/
inductive Gives (isModule isArray : Var → Bool) : Expr → Role → Prop
  | arrayModule (x : Var) :
    Gives isModule isArray (.global x ⟨.moduleRef, Operators.arrayModule⟩) .arrayModule
  | map (x : Var) (name : String) : Gives isModule isArray (.global x ⟨.ufunc, name⟩) .map
  | moduleCall {x : Var} (attr : String) (hmodule : isModule x = true) :
    Gives isModule isArray (.getattr x attr) (.moduleCall attr)
  | methodCall {x : Var} (attr : String) (hmodule : isModule x = false) (harray : isArray x = true) :
    Gives isModule isArray (.getattr x attr) (.methodCall ⟨attr, x⟩)
  | tuple (xs : List Var) : Gives isModule isArray (.buildTuple xs) (.tuple (xs.map .var))
  | literals (xs : List Number) :
    Gives isModule isArray (.const (.list xs)) (.tuple (xs.map .literal))

variable {isModule isModule' isArray isArray' : Var → Bool} {e : Expr}

theorem role?_eq_some_iff {role : Role} :
    e.role? isModule isArray = some role ↔ e.Gives isModule isArray role := by
  constructor
  · intro h
    unfold role? at h
    split at h
    · cases h
      exact .map _ _
    · split at h
      · rename_i hname
        cases h
        exact hname ▸ .arrayModule _
      · cases h
    · split at h
      · rename_i hmodule
        cases h
        exact .moduleCall _ hmodule
      · rename_i hmodule
        split at h
        · rename_i harray
          cases h
          exact .methodCall _ (Bool.eq_false_iff.mpr hmodule) harray
        · cases h
    · cases h
      exact .tuple _
    · cases h
      exact .literals _
    · cases h
  · intro h
    cases h with
    | arrayModule x => simp [role?]
    | map x name => rfl
    | moduleCall attr hmodule => simp [role?, hmodule]
    | methodCall attr hmodule harray => simp [role?, hmodule, harray]
    | tuple xs => rfl
    | literals xs => rfl

/-- A method is fetched by an expression that mentions its receiver. -/
theorem Gives.receiver_mem {call : MethodCall} (h : e.Gives isModule isArray (.methodCall call)) :
    call.receiver ∈ e.mentions := by
  cases h
  exact List.mem_singleton_self _

/-- A tuple is made by an expression that mentions its variables. -/
theorem Gives.item_mem {items : List SizeValue} {x : Var}
    (h : e.Gives isModule isArray (.tuple items)) (hx : .var x ∈ items) : x ∈ e.mentions := by
  cases h with
  | tuple xs =>
    obtain ⟨y, hy, hsame⟩ := List.mem_map.mp hx
    cases hsame
    exact hy
  | literals xs =>
    obtain ⟨n, -, hsame⟩ := List.mem_map.mp hx
    cases hsame

/-- Only what is told of the receiver of an attribute matters for the role. -/
theorem role?_congr (hmodule : ∀ x ∈ e.mentions, isModule' x = isModule x)
    (harray : ∀ x ∈ e.mentions, isArray' x = isArray x) :
    e.role? isModule' isArray' = e.role? isModule isArray := by
  cases e with
  | getattr x attr =>
    have hx : x ∈ (getattr x attr).mentions := List.mem_singleton_self x
    simp only [role?, hmodule x hx, harray x hx]
  | global x value =>
    obtain ⟨kind, name⟩ := value
    cases kind <;> rfl
  | const value => cases value <;> rfl
  | _ => rfl

/-- What a variable with this value stands for in a call is what its role makes of the call. -/
theorem callee?_eq_role? (e : Expr) (isModule isArray : Var → Bool) :
    e.callee? isModule isArray = (e.role? isModule isArray).bind Role.callee? := by
  cases e with
  | global x value =>
    obtain ⟨kind, name⟩ := value
    cases kind with
    | moduleRef =>
      simp only [role?]
      split <;> rfl
    | _ => rfl
  | getattr x attr =>
    simp only [role?, callee?]
    split
    · rfl
    · split <;> rfl
  | const value => cases value <;> rfl
  | _ => rfl

end Expr

/-- The role of a variable after some assignments, listed from the latest to the first. The receiver of
an attribute is looked up where the attribute is fetched. -/
def roleOf? (isArray : Var → Bool) : List Assign → Var → Option Role
  | [], _ => none
  | a :: earlier, x =>
    if a.target = x then
      a.value.role? (fun y => roleOf? isArray earlier y = some .arrayModule) isArray
    else roleOf? isArray earlier x

/-- Assignments to other variables leave the role of a variable as it was. -/
theorem roleOf?_append {isArray : Var → Bool} {later : List Assign} {x : Var}
    (h : ∀ a ∈ later, a.target ≠ x) (earlier : List Assign) :
    roleOf? isArray (later ++ earlier) x = roleOf? isArray earlier x := by
  induction later with
  | nil => rfl
  | cons a later ih =>
    rw [List.cons_append, roleOf?, if_neg (h a List.mem_cons_self)]
    exact ih fun b hb => h b (List.mem_cons_of_mem a hb)

/-- No assignment takes from a variable the kind of role that it plays. The assignments are listed from
the latest to the first. -/
def KeepsRoles (isArray : Var → Bool) : List Assign → Prop
  | [] => True
  | a :: earlier =>
    KeepsRoles isArray earlier ∧
      ∀ role ∈ roleOf? isArray earlier a.target,
        (roleOf? isArray (a :: earlier) a.target).map Role.kind = some role.kind

instance decidableKeepsRoles (isArray : Var → Bool) :
    (as : List Assign) → Decidable (KeepsRoles isArray as)
  | [] => inferInstanceAs (Decidable True)
  | _ :: earlier =>
    have := decidableKeepsRoles isArray earlier
    inferInstanceAs (Decidable (_ ∧ _))

namespace Symbols

/-- The tables after some assignments. -/
def observeAll (isArray : Var → Bool) (as : List Assign) : Symbols :=
  as.foldl (Symbols.observe isArray) .empty

/-- The table for roles of this kind says that `x` plays the role. -/
def Holds (t : Symbols) (x : Var) : Role → Prop
  | .arrayModule => x ∈ t.arrayModules
  | .map => x ∈ t.mapCalls
  | .moduleCall name => t.moduleCalls.find? x = some name
  | .methodCall call => t.methodCalls.find? x = some call
  | .tuple items => t.tuples.find? x = some items

/-- Enters a role of `x` into the table for roles of its kind. -/
def enter (t : Symbols) (x : Var) : Role → Symbols
  | .arrayModule => { t with arrayModules := t.arrayModules.insert x }
  | .map => { t with mapCalls := t.mapCalls.insert x }
  | .moduleCall name => { t with moduleCalls := t.moduleCalls.insert x name }
  | .methodCall call => { t with methodCalls := t.methodCalls.insert x call }
  | .tuple items => { t with tuples := t.tuples.insert x items }

/-- An observed assignment enters the role that it gives, and nothing leaves a table. -/
theorem observe_eq (isArray : Var → Bool) (t : Symbols) (a : Assign) :
    t.observe isArray a =
      ((a.value.role? (fun x => x ∈ t.arrayModules) isArray).map (t.enter a.target)).getD t := by
  obtain ⟨target, value, loc, site⟩ := a
  cases value with
  | global name value =>
    obtain ⟨kind, name'⟩ := value
    cases kind with
    | moduleRef =>
      simp only [observe, Expr.role?]
      split <;> rfl
    | _ => rfl
  | getattr x attr =>
    simp only [observe, Expr.role?, decide_eq_true_eq]
    split
    · rfl
    · split <;> rfl
  | const value => cases value <;> rfl
  | _ => rfl

/-- An observed assignment tells nothing, or it enters the role that its value gives. -/
theorem observe_cases (isArray : Var → Bool) (t : Symbols) (a : Assign) :
    t.observe isArray a = t ∧ a.value.role? (fun x => x ∈ t.arrayModules) isArray = none ∨
      ∃ role, t.observe isArray a = t.enter a.target role ∧
        a.value.Gives (fun x => x ∈ t.arrayModules) isArray role := by
  rw [observe_eq]
  cases hrole : a.value.role? (fun x => x ∈ t.arrayModules) isArray with
  | none => exact .inl ⟨rfl, rfl⟩
  | some role => exact .inr ⟨role, rfl, Expr.role?_eq_some_iff.mp hrole⟩

/-- What is entered replaces the role of that kind; entries of other kinds stay. -/
theorem holds_enter {t : Symbols} {x y : Var} {entered role : Role} :
    (t.enter x entered).Holds y role ↔
      if x = y ∧ entered.kind = role.kind then entered = role else t.Holds y role := by
  cases entered <;> cases role <;>
    simp only [enter, Holds, Role.kind, Table.find?_insert, NameSet.mem_insert, reduceCtorEq,
      and_true, and_false, if_false] <;>
    grind

/-- What is told after an entry was entered or was told before. -/
theorem holds_of_enter {t : Symbols} {x y : Var} {entered : Role} (role : Role)
    (h : (t.enter x entered).Holds y role) : x = y ∧ entered = role ∨ t.Holds y role := by
  rw [holds_enter] at h
  split at h
  · rename_i hplace
    exact .inl ⟨hplace.1, h⟩
  · exact .inr h

@[simp] theorem fetches_enter (t : Symbols) (x : Var) (role : Role) :
    (t.enter x role).fetches = t.fetches := by
  cases role <;> rfl

end Symbols

end DimEquiv
