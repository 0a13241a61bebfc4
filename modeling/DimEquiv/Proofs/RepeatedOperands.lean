import DimEquiv.FusedTree
import DimEquiv.Proofs.FirstAppearances
import DimEquiv.Proofs.TrailingDimensions

/-!
# Operands that are given more than once

A broadcast reads an operand again wherever it is repeated, and the unions in between have changed what it
reads. Still a repeated operand makes no difference: its class in the dimension at hand is unknown, of size
one, or the candidate itself, because whatever was united was united with the candidate. So a fused tree
may list each of its variables once.
-/

namespace DimEquiv

/-! ### The walk through a tree -/

/-- A name that is new goes to the end, and one that is not is passed over. -/
theorem NameSet.toList_insert (s : NameSet) (x : String) :
    (s.insert x).toList = if x ∈ s.toList then s.toList else s.toList ++ [x] := by
  unfold insert
  split <;> rfl

theorem NameSet.toList_foldl_insert (xs : List String) :
    (xs.foldl NameSet.insert .empty).toList = xs.eraseDups := by
  induction xs using List.reverseRecOn with
  | nil => rfl
  | append_singleton xs x ih =>
    rw [List.foldl_append, List.foldl_cons, List.foldl_nil, toList_insert, ih, eraseDups_concat]
    simp only [List.mem_eraseDups]

namespace FusedTree

mutual

/-- The names met so far, after a walk through the tree from left to right. -/
def collect (seen : NameSet) : FusedTree → NameSet
  | leaf x => seen.insert x
  | const _ => seen
  | op _ operands => collectAll seen operands

/-- The names met so far, after a walk through one tree after the other. -/
def collectAll (seen : NameSet) : List FusedTree → NameSet
  | [] => seen
  | t :: ts => collectAll (collect seen t) ts

end

mutual

/-- The walk meets the leaves in their order. -/
theorem collect_eq_foldl (seen : NameSet) (t : FusedTree) :
    t.collect seen = t.leaves.foldl NameSet.insert seen := by
  cases t with
  | leaf x => simp [collect]
  | const value => simp [collect]
  | op fn operands => simpa [collect, leaves] using collectAll_eq_foldl seen operands

theorem collectAll_eq_foldl (seen : NameSet) (ts : List FusedTree) :
    collectAll seen ts = (leavesList ts).foldl NameSet.insert seen := by
  cases ts with
  | nil => simp [collectAll, leavesList]
  | cons t ts =>
    rw [collectAll, leavesList, List.foldl_append, collectAll_eq_foldl, collect_eq_foldl]

end

/-- A walk that starts without names has met the variables of the tree. -/
theorem toList_collect (t : FusedTree) : (t.collect .empty).toList = t.vars := by
  rw [collect_eq_foldl, NameSet.toList_foldl_insert, vars]

end FusedTree

/-! ### Operands that were taken before -/

namespace Broadcast

open Store

variable {isArray : Var → Bool} {operands : List Var} {rank : Nat} {s : Store} {b : Broadcast}
  {rep : Int → Int} {base : Shape}

/-- Nothing happens at an operand that was taken before. -/
theorem Midway.take_seen {i : Nat} {seen : List Var} {c₀ : Int}
    (h : Midway isArray operands rank s i seen b rep base c₀) (hs : s.Bounded) {x : Var}
    (hx : x ∈ seen) : b.take (operandClass isArray rank i b.store x) = b := by
  rw [h.operandClass_eq hs]
  by_cases hn : operandClass isArray rank i s x = Shape.noClass
  · have hsaw : b.sawUnknown = true := h.unknown.mpr ⟨x, hx, hn⟩
    rw [hn, h.rep_noClass hs, Broadcast.take, if_pos rfl, ← hsaw]
  have hlt : operandClass isArray rank i s x < s.nextClass := operandClass_lt hs i x
  rw [Broadcast.take, if_neg (mt (h.rep_eq_special_iff hs (.inl rfl) hlt).mp hn)]
  by_cases ho : operandClass isArray rank i s x = Shape.sizeOne
  · rw [ho, h.rep_sizeOne hs, if_pos (.inl rfl)]
  · rw [h.agree _ ⟨hn, ho, x, hx, rfl⟩, ← h.candidate, if_pos (.inr rfl)]

namespace Progress

/-- Within a dimension, operands that are given once are taken to the same effect. -/
theorem foldl_take_eraseDups (h : Progress isArray operands rank s b rep base) (hs : s.Bounded)
    {i : Nat} (hi : i < rank) (xs : List Var) (hxs : ∀ x ∈ xs, x ∈ operands) :
    let begun : Broadcast := { b with candidate := Shape.sizeOne, sawUnknown := false }
    xs.eraseDups.foldl (fun b x => b.take (operandClass isArray rank i b.store x)) begun =
      xs.foldl (fun b x => b.take (operandClass isArray rank i b.store x)) begun := by
  intro begun
  induction xs using List.reverseRecOn with
  | nil => rfl
  | append_singleton xs x ih =>
    have hbefore : ∀ y ∈ xs, y ∈ operands := fun y hy => hxs y (List.mem_append_left _ hy)
    rw [eraseDups_concat, List.foldl_append]
    split
    · rename_i hx
      obtain ⟨rep', c₀, h'⟩ := (h.midway hs i).takeAll hs xs hbefore (by simp) hi
      rw [ih hbefore, List.foldl_cons, List.foldl_nil, h'.take_seen hs (by simpa using hx)]
    · rw [List.foldl_append, ih hbefore]

theorem dimension_eraseDups (h : Progress isArray operands rank s b rep base) (hs : s.Bounded)
    {i : Nat} (hi : i < rank) :
    b.dimension isArray operands.eraseDups rank i = b.dimension isArray operands rank i := by
  simp only [Broadcast.dimension, h.foldl_take_eraseDups hs hi operands fun _ hx => hx]

/-- The first `n` dimensions, of operands that are given once. -/
theorem dimensions_eraseDups (hs : s.Bounded) (n : Nat) (hn : n ≤ rank) :
    (List.range n).foldl (Broadcast.dimension isArray operands.eraseDups rank) (.start s) =
      (List.range n).foldl (Broadcast.dimension isArray operands rank) (.start s) := by
  induction n with
  | zero => rfl
  | succ n ih =>
    have hn' : n ≤ rank := Nat.le_of_succ_le hn
    obtain ⟨rep, base, -, h⟩ :
        ∃ rep base, base.length = n ∧ Progress isArray operands rank s _ rep base := dimensions hs n hn'
    rw [List.range_succ, List.foldl_append, List.foldl_append, ih hn']
    exact h.dimension_eraseDups hs hn

end Progress

end Broadcast

namespace Store

variable {isArray : Var → Bool} {operands : List Var} {s : Store}

theorem operandRank_eraseDups :
    operandRank isArray operands.eraseDups s = operandRank isArray operands s := by
  refine Shape.maxRank_eq_of_iff fun n => ?_
  simp [List.mem_eraseDups]

/-- Operands that are given once are broadcast to the same effect. -/
theorem broadcast_eraseDups (hs : s.Bounded) (harr : ∃ x ∈ operands, isArray x = true)
    (hrec : ∀ x ∈ operands, isArray x = true → s.has x = true) :
    ∃ out t, s.broadcast isArray operands.eraseDups = .ok (out, t) ∧
      s.broadcast isArray operands = .ok (out, t) := by
  have hall : broadcastAll isArray operands.eraseDups s = broadcastAll isArray operands s := by
    rw [broadcastAll, broadcastAll, operandRank_eraseDups]
    exact Broadcast.Progress.dimensions_eraseDups hs _ (Nat.le_refl _)
  refine ⟨_, _, broadcast_eq_ok_iff.mpr ⟨?_, ?_, rfl⟩, broadcast_eq_ok_iff.mpr ⟨harr, hrec, ?_⟩⟩
  · simpa only [List.mem_eraseDups] using harr
  · simpa only [List.mem_eraseDups] using hrec
  · rw [hall]

end Store

namespace FusedTree

/-- The variables of a tree are its leaves, each once and in order of first appearance, and they are
broadcast like the leaves with their repetitions. -/
theorem broadcast_vars_eq_leaves (t : FusedTree) :
    FirstAppearances t.leaves t.vars ∧ (t.collect .empty).toList = t.vars ∧
      ∀ (isArray : Var → Bool) (s : Store), s.Bounded → (∃ x ∈ t.leaves, isArray x = true) →
        (∀ x ∈ t.leaves, isArray x = true → s.has x = true) →
        ∃ out u, s.broadcast isArray t.vars = .ok (out, u) ∧
          s.broadcast isArray t.leaves = .ok (out, u) := by
  refine ⟨firstAppearances_eraseDups t.leaves, t.toList_collect, fun isArray s hs harr hrec => ?_⟩
  exact Store.broadcast_eraseDups hs harr hrec

/-- A square array, one with other classes and one that is partly unknown appear twice, around an
array with a dimension of size one and a number. -/
def repeatingTree : FusedTree :=
  op "+" [op "-" [leaf "b", leaf "s"], op "*" [leaf "o", leaf "k", leaf "b"],
    op "/" [leaf "u", op "neg" [leaf "s"], leaf "u"]]

def repeatingStore : Store where
  shapes := .ofList [("s", [1, 1]), ("b", [2, 3]), ("o", [3, 0]), ("u", [-1, 4])]
  sizeVars := .empty
  classSizes := .ofList [(0, [.literal 1]), (1, [.var "m"]), (3, [.var "n"])]
  nextClass := 5

theorem broadcast_vars_eq_leaves_repeating :
    FirstAppearances repeatingTree.leaves repeatingTree.vars ∧
      (repeatingTree.collect .empty).toList = ["b", "s", "o", "k", "u"] ∧
      repeatingStore.Bounded ∧ (∃ x ∈ repeatingTree.leaves, (x != "k") = true) ∧
      (∀ x ∈ repeatingTree.leaves, (x != "k") = true → repeatingStore.has x = true) ∧
      ∃ u, repeatingStore.broadcast (· != "k") repeatingTree.vars = .ok ([-1, 7], u) ∧
        repeatingStore.broadcast (· != "k") repeatingTree.leaves = .ok ([-1, 7], u) := by
  obtain ⟨hfirst, hwalk, hbroadcast⟩ := broadcast_vars_eq_leaves repeatingTree
  have hs : repeatingStore.Bounded := by decide
  have harr : ∃ x ∈ repeatingTree.leaves, (x != "k") = true := by decide +kernel
  have hrec : ∀ x ∈ repeatingTree.leaves, (x != "k") = true → repeatingStore.has x = true := by
    decide +kernel
  obtain ⟨out, u, hvars, hleaves⟩ := hbroadcast (· != "k") repeatingStore hs harr hrec
  have hout : (repeatingStore.broadcast (· != "k") repeatingTree.leaves).map Prod.fst =
      .ok [-1, 7] := by decide +kernel
  rw [hleaves] at hout
  obtain rfl : out = [-1, 7] := Except.ok.inj hout
  exact ⟨hfirst, hwalk, hs, harr, hrec, u, hvars, hleaves⟩

end FusedTree

end DimEquiv
