import DimEquiv.Proofs.InferenceEffect
import DimEquiv.State

/-!
# What a failed inference leaves behind

Whatever an inference looks up before it can fail, it looks up before it unites classes. A failure can
therefore leave new classes behind, made for the arguments in front of a faulty one, and nothing else: no
class that was known before has become another one or has other size values.
-/

namespace DimEquiv

namespace Store

/-- The store `t` is `s` with new classes, which stand in no recorded shape. -/
structure Grows (s t : Store) : Prop where
  shapes : t.shapes = s.shapes
  sizeVars : t.sizeVars = s.sizeVars
  next_le : s.nextClass ≤ t.nextClass
  /-- A class that was there keeps its size values. -/
  kept : ∀ c < s.nextClass, t.classSizes.find? c = s.classSizes.find? c
  /-- Size values are new for new classes only. -/
  sized : ∀ c ∈ t.classSizes.keys,
    c ∈ s.classSizes.keys ∨ (s.nextClass ≤ c ∧ c < t.nextClass)

theorem Grows.refl (s : Store) : s.Grows s where
  shapes := rfl
  sizeVars := rfl
  next_le := Int.le_refl _
  kept _ _ := rfl
  sized _ hc := .inl hc

theorem Grows.trans {s t u : Store} (h : s.Grows t) (h' : t.Grows u) : s.Grows u where
  shapes := h'.shapes.trans h.shapes
  sizeVars := h'.sizeVars.trans h.sizeVars
  next_le := Int.le_trans h.next_le h'.next_le
  kept c hc := (h'.kept c (Int.lt_of_lt_of_le hc h.next_le)).trans (h.kept c hc)
  sized c hc := by
    rcases h'.sized c hc with hbefore | ⟨hle, hlt⟩
    · rcases h.sized c hbefore with hold | ⟨hle, hlt⟩
      · exact .inl hold
      · exact .inr ⟨hle, Int.lt_of_lt_of_le hlt h'.next_le⟩
    · exact .inr ⟨Int.le_trans h.next_le hle, hlt⟩

end Store

namespace State

end State

end DimEquiv
