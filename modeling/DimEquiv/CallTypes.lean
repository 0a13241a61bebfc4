import DimEquiv.Program

/-!
# Resolved call signatures

Type inference records what it resolved at expression sites. An entry without a signature marks an
expression that later stages resolve on their own. New sites are handed out above all entries.
-/

namespace DimEquiv

structure CallSignature where
  returnType : StaticType
  args : List StaticType

/-- Signatures by site, and the next site that is free. -/
structure CallTypes where
  entries : Table Nat (Option CallSignature)
  next : Nat
  lt_next : ∀ site ∈ entries.keys, site < next

namespace CallTypes

/-- No entries; sites below `next` are in use. -/
def empty (next : Nat) : CallTypes := ⟨.empty, next, by simp⟩

instance : Inhabited CallTypes := ⟨empty 0⟩

def find? (c : CallTypes) (site : Nat) : Option (Option CallSignature) := c.entries.find? site

def size (c : CallTypes) : Nat := c.entries.size

def insert (c : CallTypes) (site : Nat) (signature : Option CallSignature) : CallTypes where
  entries := c.entries.insert site signature
  next := max c.next (site + 1)
  lt_next := fun s hs => by
    rcases (Table.mem_keys_insert ..).mp hs with rfl | hs
    · omega
    · have := c.lt_next s hs
      omega

/-- Hands out the next site without an entry. -/
def skip (c : CallTypes) : CallTypes :=
  { c with next := c.next + 1, lt_next := fun s hs => Nat.lt_succ_of_lt (c.lt_next s hs) }

theorem next_notMem (c : CallTypes) : c.next ∉ c.entries.keys :=
  fun h => Nat.lt_irrefl _ (c.lt_next _ h)

/-- An entry at the next free site goes to the end. -/
theorem toList_insert_next (c : CallTypes) (signature : Option CallSignature) :
    (c.insert c.next signature).entries.toList = c.entries.toList ++ [(c.next, signature)] :=
  Table.toList_insert_of_notMem _ _ _ c.next_notMem

end CallTypes

end DimEquiv
