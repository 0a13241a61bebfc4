/-!
# Tables in insertion order

A finite map that remembers the order in which its keys arrived. Overwriting a key keeps its
place, a new key goes to the end, and a key that is erased and inserted again counts as new.
Every operation is described by one equation for `find?`.
-/

namespace DimEquiv

/-- A list of key-value pairs in which no key occurs twice. -/
structure Table (κ ν : Type) where
  toList : List (κ × ν)
  nodup : (toList.map Prod.fst).Nodup

namespace Table

variable {κ ν μ : Type}

@[ext] theorem ext {s t : Table κ ν} (h : s.toList = t.toList) : s = t := by
  cases s; cases t; cases h; rfl

instance [DecidableEq κ] [DecidableEq ν] : DecidableEq (Table κ ν) := fun s t =>
  decidable_of_iff (s.toList = t.toList) ⟨ext, fun h => h ▸ rfl⟩

def empty : Table κ ν := ⟨[], .nil⟩

instance : Inhabited (Table κ ν) := ⟨empty⟩

def keys (t : Table κ ν) : List κ := t.toList.map Prod.fst

def size (t : Table κ ν) : Nat := t.toList.length

/-- Changes every value and keeps the keys and their order. -/
def mapValues (f : ν → μ) (t : Table κ ν) : Table κ μ where
  toList := t.toList.map fun entry => (entry.1, f entry.2)
  nodup := by simpa [List.map_map, Function.comp_def] using t.nodup

@[simp] theorem toList_empty : (empty : Table κ ν).toList = [] := rfl

@[simp] theorem toList_mapValues (f : ν → μ) (t : Table κ ν) :
    (t.mapValues f).toList = t.toList.map fun entry => (entry.1, f entry.2) := rfl

@[simp] theorem keys_empty : (empty : Table κ ν).keys = [] := rfl

@[simp] theorem keys_mapValues (f : ν → μ) (t : Table κ ν) : (t.mapValues f).keys = t.keys := by
  simp [keys, List.map_map, Function.comp_def]

theorem keys_nodup (t : Table κ ν) : t.keys.Nodup := t.nodup

variable [DecidableEq κ]

def find? (t : Table κ ν) (k : κ) : Option ν := t.toList.lookup k

def contains (t : Table κ ν) (k : κ) : Bool := (t.find? k).isSome

/-- Gives the key a new value where it stands, or appends the pair. -/
def put (k : κ) (v : ν) : List (κ × ν) → List (κ × ν)
  | [] => [(k, v)]
  | (k', v') :: entries => if k' = k then (k', v) :: entries else (k', v') :: put k v entries

theorem mem_keys_put (k : κ) (v : ν) (entries : List (κ × ν)) (x : κ) :
    x ∈ (put k v entries).map Prod.fst ↔ x = k ∨ x ∈ entries.map Prod.fst := by
  induction entries with
  | nil => simp [put]
  | cons entry entries ih =>
    by_cases h : entry.1 = k
    · simp only [put, h, if_true, List.map_cons, List.mem_cons]
      grind
    · simp only [put, h, if_false, List.map_cons, List.mem_cons, ih]
      grind

theorem nodup_put (k : κ) (v : ν) (entries : List (κ × ν)) (h : (entries.map Prod.fst).Nodup) :
    ((put k v entries).map Prod.fst).Nodup := by
  induction entries with
  | nil => simp [put]
  | cons entry entries ih =>
    simp only [List.map_cons, List.nodup_cons] at h
    by_cases hk : entry.1 = k
    · simp only [put, hk, if_true, List.map_cons, List.nodup_cons]
      exact ⟨hk ▸ h.1, h.2⟩
    · have hm := mem_keys_put k v entries entry.1
      simp only [put, hk, if_false, List.map_cons, List.nodup_cons]
      exact ⟨fun hin => (hm.mp hin).elim hk h.1, ih h.2⟩

def insert (t : Table κ ν) (k : κ) (v : ν) : Table κ ν :=
  ⟨put k v t.toList, nodup_put k v t.toList t.nodup⟩

/-- Drops the key, if it is there, and keeps the order of the others. -/
def erase (t : Table κ ν) (k : κ) : Table κ ν where
  toList := t.toList.filter fun entry => entry.1 ≠ k
  nodup := t.nodup.sublist (List.filter_sublist.map Prod.fst)

/-- Inserts the pairs from left to right. -/
def ofList (entries : List (κ × ν)) : Table κ ν :=
  entries.foldl (fun t entry => t.insert entry.1 entry.2) empty

theorem lookup_put (k : κ) (v : ν) (entries : List (κ × ν)) (x : κ) :
    (put k v entries).lookup x = if k = x then some v else entries.lookup x := by
  induction entries with
  | nil => grind [put]
  | cons entry entries ih => grind [put]

theorem lookup_filter (k : κ) (entries : List (κ × ν)) (x : κ) :
    (entries.filter fun entry => entry.1 ≠ k).lookup x =
      if k = x then none else entries.lookup x := by
  induction entries with
  | nil => simp
  | cons entry entries ih => by_cases h : entry.1 = k <;> grind

@[simp] theorem find?_empty (x : κ) : (empty : Table κ ν).find? x = none := rfl

@[simp] theorem find?_insert (t : Table κ ν) (k : κ) (v : ν) (x : κ) :
    (t.insert k v).find? x = if k = x then some v else t.find? x :=
  lookup_put k v t.toList x

@[simp] theorem find?_erase (t : Table κ ν) (k x : κ) :
    (t.erase k).find? x = if k = x then none else t.find? x :=
  lookup_filter k t.toList x

@[simp] theorem find?_mapValues (f : ν → μ) (t : Table κ ν) (x : κ) :
    (t.mapValues f).find? x = (t.find? x).map f := by
  simp only [find?, toList_mapValues]
  generalize t.toList = entries
  induction entries with
  | nil => rfl
  | cons entry entries ih =>
    obtain ⟨k, v⟩ := entry
    by_cases h : x == k <;> simp [List.lookup_cons, h, ih]

theorem contains_iff_mem_keys (t : Table κ ν) (x : κ) : t.contains x = true ↔ x ∈ t.keys := by
  simp only [contains, find?, keys]
  generalize t.toList = entries
  induction entries with
  | nil => simp
  | cons entry entries ih =>
    obtain ⟨k, v⟩ := entry
    by_cases h : x = k
    · simp [h]
    · simp only [List.lookup_cons, beq_false_of_ne h, ih, List.map_cons, List.mem_cons, h, false_or]

theorem find?_eq_some_iff (t : Table κ ν) (x : κ) (v : ν) :
    t.find? x = some v ↔ (x, v) ∈ t.toList := by
  have h := t.nodup
  simp only [find?]
  generalize t.toList = entries at h
  induction entries with
  | nil => simp
  | cons entry entries ih =>
    rw [List.map_cons, List.nodup_cons] at h
    obtain ⟨k, w⟩ := entry
    by_cases hx : x = k
    · subst hx
      have hn : (x, v) ∉ entries := fun hm => h.1 (List.mem_map.mpr ⟨_, hm, rfl⟩)
      simp [hn, eq_comm]
    · simp [List.lookup_cons, beq_false_of_ne hx, ih h.2, hx]

@[simp] theorem mem_keys_insert (t : Table κ ν) (k : κ) (v : ν) (x : κ) :
    x ∈ (t.insert k v).keys ↔ x = k ∨ x ∈ t.keys :=
  mem_keys_put k v t.toList x

/-- A new key goes to the end. -/
theorem toList_insert_of_notMem (t : Table κ ν) (k : κ) (v : ν) (h : k ∉ t.keys) :
    (t.insert k v).toList = t.toList ++ [(k, v)] := by
  simp only [keys] at h
  simp only [insert]
  generalize t.toList = entries at h
  induction entries with
  | nil => rfl
  | cons entry entries ih =>
    rw [List.map_cons, List.mem_cons, not_or] at h
    simp [put, Ne.symm h.1, ih h.2]

theorem toList_foldl_insert (entries : List (κ × ν)) (t : Table κ ν)
    (h : (t.keys ++ entries.map Prod.fst).Nodup) :
    (entries.foldl (fun t entry => t.insert entry.1 entry.2) t).toList = t.toList ++ entries := by
  induction entries generalizing t with
  | nil => rw [List.append_nil, List.foldl_nil]
  | cons entry entries ih =>
    have hnew : entry.1 ∉ t.keys := fun hm =>
      (List.nodup_append.mp h).2.2 _ hm _ (List.mem_map_of_mem List.mem_cons_self) rfl
    have hlist := toList_insert_of_notMem t entry.1 entry.2 hnew
    have hkeys : (t.insert entry.1 entry.2).keys = t.keys ++ [entry.1] := by
      rw [keys, hlist, List.map_append]
      rfl
    rw [List.foldl_cons, ih, hlist, List.append_assoc, List.singleton_append]
    rwa [hkeys, List.append_assoc, List.singleton_append, ← List.map_cons]

/-- Pairs with different keys stand in the order given. -/
theorem toList_ofList {entries : List (κ × ν)} (h : (entries.map Prod.fst).Nodup) :
    (ofList entries).toList = entries :=
  toList_foldl_insert entries empty h

/-- A key that is there keeps its place. -/
theorem keys_insert_of_mem (t : Table κ ν) (k : κ) (v : ν) (h : k ∈ t.keys) :
    (t.insert k v).keys = t.keys := by
  simp only [keys] at h ⊢
  simp only [insert]
  generalize t.toList = entries at h
  induction entries with
  | nil => cases h
  | cons entry entries ih => by_cases hk : entry.1 = k <;> grind [put]

end Table

end DimEquiv
