import DimEquiv.Diagnostic
import DimEquiv.Occurrence

/-!
# Other names for the variables

A renaming gives the variables of a program and of its types other names. Attributes, keywords, operators
and the names of globals are no variables and stay.
-/

namespace DimEquiv

namespace FusedTree

mutual

def rename (ρ : Var → Var) : FusedTree → FusedTree
  | leaf x => leaf (ρ x)
  | const value => const value
  | op fn operands => op fn (renameAll ρ operands)

def renameAll (ρ : Var → Var) : List FusedTree → List FusedTree
  | [] => []
  | t :: ts => rename ρ t :: renameAll ρ ts

end

end FusedTree

def Expr.rename (ρ : Var → Var) : Expr → Expr
  | global name value => global name value
  | arg index name => arg index (ρ name)
  | getattr value attr => getattr (ρ value) attr
  | buildTuple items => buildTuple (items.map ρ)
  | const value => const value
  | var x => var (ρ x)
  | unary fn value => unary fn (ρ value)
  | binop fn lhs rhs => binop fn (ρ lhs) (ρ rhs)
  | inplaceBinop fn immutableFn lhs rhs => inplaceBinop fn immutableFn (ρ lhs) (ρ rhs)
  | fused tree => fused (tree.rename ρ)
  | cast value => cast (ρ value)
  | call func args kws => call (ρ func) (args.map ρ) (kws.map fun kw => (kw.1, ρ kw.2))
  | staticGetitem value index indexVar => staticGetitem (ρ value) index (indexVar.map ρ)
  | other op => other op

def Assign.rename (ρ : Var → Var) (a : Assign) : Assign :=
  { a with target := ρ a.target, value := a.value.rename ρ }

def Instruction.rename (ρ : Var → Var) : Instruction → Instruction
  | assign a => assign (a.rename ρ)
  | ret value loc => ret (ρ value) loc
  | jump target => jump target
  | branch cond ifTrue ifFalse => branch (ρ cond) ifTrue ifFalse
  | del x => del (ρ x)

def Block.rename (ρ : Var → Var) (b : Block) : Block :=
  { b with body := b.body.map (Instruction.rename ρ) }

def Program.rename (ρ : Var → Var) (p : Program) : Program :=
  { p with argNames := p.argNames.map ρ, blocks := p.blocks.map (Block.rename ρ) }

/-- The types under the new names, in the same order. -/
def Types.rename (ρ : Var → Var) (types : Types) : Types :=
  .ofList (types.toList.map fun entry => (ρ entry.1, entry.2))

/-! ### Only the names that occur matter -/

section Congruence

variable {ρ σ : Var → Var}

namespace FusedTree

mutual

theorem rename_congr :
    ∀ {t : FusedTree}, (∀ x ∈ t.leaves, ρ x = σ x) → t.rename ρ = t.rename σ
  | leaf x, h => by rw [rename, rename, h x (by simp)]
  | const value, _ => by rw [rename, rename]
  | op fn operands, h => by
    rw [leaves] at h
    rw [rename, rename, renameAll_congr h]

theorem renameAll_congr :
    ∀ {ts : List FusedTree}, (∀ x ∈ leavesList ts, ρ x = σ x) → renameAll ρ ts = renameAll σ ts
  | [], _ => rfl
  | t :: ts, h => by
    rw [leavesList] at h
    have ht : ∀ x ∈ t.leaves, ρ x = σ x := fun x hx => h x (List.mem_append_left _ hx)
    have hts : ∀ x ∈ leavesList ts, ρ x = σ x := fun x hx => h x (List.mem_append_right _ hx)
    rw [renameAll, renameAll, rename_congr ht, renameAll_congr hts]

end

end FusedTree

theorem Expr.rename_congr {e : Expr} (h : ∀ x ∈ e.vars, ρ x = σ x) :
    e.rename ρ = e.rename σ := by
  cases e with
  | buildTuple items => exact congrArg buildTuple (List.map_congr_left h)
  | fused tree =>
    exact congrArg fused (FusedTree.rename_congr fun x hx => h x ((tree.mem_vars x).mpr hx))
  | call func args kws =>
    obtain ⟨hfunc, hrest⟩ := List.forall_mem_cons.mp h
    obtain ⟨hargs, hkws⟩ := List.forall_mem_append.mp hrest
    have hkeywords : kws.map (fun kw => (kw.1, ρ kw.2)) = kws.map fun kw => (kw.1, σ kw.2) :=
      List.map_congr_left fun kw hkw => congrArg (Prod.mk kw.1) (hkws _ (List.mem_map_of_mem hkw))
    rw [rename, rename, hfunc, List.map_congr_left hargs, hkeywords]
  | staticGetitem value index indexVar =>
    obtain ⟨hvalue, hindex⟩ := List.forall_mem_cons.mp h
    rw [rename, rename, hvalue]
    cases indexVar with
    | none => rfl
    | some x => rw [Option.map_some, Option.map_some, hindex x List.mem_cons_self]
  | _ => simp_all [rename, vars]

theorem Instruction.rename_congr {i : Instruction} (h : ∀ x ∈ i.vars, ρ x = σ x) :
    i.rename ρ = i.rename σ := by
  cases i with
  | assign a =>
    obtain ⟨htarget, hvalue⟩ := List.forall_mem_cons.mp h
    rw [rename, rename, Assign.rename, Assign.rename, htarget, Expr.rename_congr hvalue]
  | _ => simp_all [rename, vars]

theorem Program.rename_congr {p : Program} (h : ∀ x ∈ p.vars, ρ x = σ x) :
    p.rename ρ = p.rename σ := by
  obtain ⟨hargs, hblocks⟩ := List.forall_mem_append.mp h
  have hblock : ∀ b ∈ p.blocks, b.rename ρ = b.rename σ := by
    intro b hb
    have hbody : b.body.map (Instruction.rename ρ) = b.body.map (Instruction.rename σ) := by
      refine List.map_congr_left fun i hi => Instruction.rename_congr fun x hx => ?_
      exact hblocks x (List.mem_flatMap.mpr ⟨b, hb, List.mem_flatMap.mpr ⟨i, hi, hx⟩⟩)
    rw [Block.rename, Block.rename, hbody]
  rw [rename, rename, List.map_congr_left hargs, List.map_congr_left hblock]

theorem Types.rename_congr {types : Types} (h : ∀ x, types.contains x = true → ρ x = σ x) :
    types.rename ρ = types.rename σ := by
  have hentry : ∀ entry ∈ types.toList, (ρ entry.1, entry.2) = (σ entry.1, entry.2) := by
    intro entry hentry
    rw [h entry.1 ((types.contains_iff_mem_keys _).mpr (List.mem_map_of_mem hentry))]
  rw [rename, rename, List.map_congr_left hentry]

end Congruence

/-! ### Analyses under other names -/

/-- The second diagnostic reports the same of the renamed target. Only its message, which may quote other
variables, is left open. -/
inductive Diagnostic.Renamed (ρ : Var → Var) : Diagnostic → Diagnostic → Prop
  | unsupportedOperation (target : Var) (op message message' : String) :
    Renamed ρ (.unsupportedOperation target op message)
      (.unsupportedOperation (ρ target) op message')
  | unsupportedCall (target : Var) (callName : String) :
    Renamed ρ (.unsupportedCall target callName) (.unsupportedCall (ρ target) callName)
  | conflict (target : Var) (previous incoming : Shape) :
    Renamed ρ (.conflict target previous incoming) (.conflict (ρ target) previous incoming)

theorem Diagnostic.Renamed.congr {ρ σ : Var → Var} {d d' : Diagnostic} (hd : d.Renamed σ d')
    (h : ρ d.target = σ d.target) : d.Renamed ρ d' := by
  cases hd with
  | unsupportedOperation target op message message' =>
    exact h ▸ .unsupportedOperation target op message message'
  | unsupportedCall target callName => exact h ▸ .unsupportedCall target callName
  | conflict target previous incoming => exact h ▸ .conflict target previous incoming

/-- Two lists of instructions with equally many assignments to new variables put behind corresponding
instructions. The types tell the old variables of each. -/
inductive SplicedAlike (types types' : Types) :
    List Instruction → List Instruction → List Instruction → List Instruction → Prop
  | nil : SplicedAlike types types' [] [] [] []
  | cons (i i' : Instruction) {reads reads' : List Assign} {is is' out out' : List Instruction}
    (hlength : reads'.length = reads.length)
    (hnew : ∀ b ∈ reads, types.contains b.target = false)
    (hnew' : ∀ b ∈ reads', types'.contains b.target = false)
    (hrest : SplicedAlike types types' is is' out out') :
    SplicedAlike types types' (i :: is) (i' :: is') (i :: (reads.map .assign ++ out))
      (i' :: (reads'.map .assign ++ out'))

/-- The same for blocks, which keep their labels. -/
inductive SplicedBlocksAlike (types types' : Types) :
    List Block → List Block → List Block → List Block → Prop
  | nil : SplicedBlocksAlike types types' [] [] [] []
  | cons {b b' : Block} {body body' : List Instruction} {bs bs' out out' : List Block}
    (h : SplicedAlike types types' b.body b'.body body body')
    (hrest : SplicedBlocksAlike types types' bs bs' out out') :
    SplicedBlocksAlike types types' (b :: bs) (b' :: bs') ({ b with body } :: out)
      ({ b' with body := body' } :: out')

end DimEquiv
