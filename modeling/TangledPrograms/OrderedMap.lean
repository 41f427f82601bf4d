/-!
# Finite maps in key order

An `OrderedMap` is a list of key and value pairs whose keys strictly increase. Two maps with the
same look-ups are therefore the same list, and everything that walks a map meets its keys in order.

The main statements are one equation per operation through `find?`: `find?_insert`, `find?_erase`
and `find?_modify`, and extensionality (`OrderedMap.ext_find?`).
-/

namespace TangledPrograms

/-- Key and value pairs in strictly increasing order of their keys. -/
structure OrderedMap (κ α : Type) [Ord κ] where
  entries : List (κ × α)
  sorted : entries.Pairwise (fun a b => compare a.1 b.1 = .lt)

namespace OrderedMap

variable {κ α : Type} [Ord κ]

instance [DecidableEq κ] [DecidableEq α] : DecidableEq (OrderedMap κ α) := fun a b =>
  decidable_of_iff (a.entries = b.entries)
    ⟨fun h => by cases a; cases b; cases h; rfl, fun h => h ▸ rfl⟩

@[ext] theorem ext {a b : OrderedMap κ α} (h : a.entries = b.entries) : a = b := by
  cases a; cases b; cases h; rfl

def empty : OrderedMap κ α := ⟨[], .nil⟩

instance : Inhabited (OrderedMap κ α) := ⟨empty⟩

/-- The value of the entry whose key is `k`. -/
def lookup (k : κ) : List (κ × α) → Option α
  | [] => none
  | (j, v) :: rest => if compare k j = .eq then some v else lookup k rest

/-- The value stored under `k`. -/
def find? (m : OrderedMap κ α) (k : κ) : Option α := lookup k m.entries

/-- Whether a value is stored under `k`. -/
def contains (m : OrderedMap κ α) (k : κ) : Bool := (m.find? k).isSome

def keys (m : OrderedMap κ α) : List κ := m.entries.map (·.1)

def values (m : OrderedMap κ α) : List α := m.entries.map (·.2)

def size (m : OrderedMap κ α) : Nat := m.entries.length

/-- Puts `v` under `k` into a sorted list, in the place of the entry that had this key. -/
def insertEntry (k : κ) (v : α) : List (κ × α) → List (κ × α)
  | [] => [(k, v)]
  | (j, w) :: rest =>
    match compare k j with
    | .lt => (k, v) :: (j, w) :: rest
    | .eq => (k, v) :: rest
    | .gt => (j, w) :: insertEntry k v rest

theorem mem_insertEntry {k : κ} {v : α} {e : κ × α} :
    ∀ {l : List (κ × α)}, e ∈ insertEntry k v l → e = (k, v) ∨ e ∈ l
  | [], h => by simpa [insertEntry] using h
  | (j, w) :: rest, h => by
    unfold insertEntry at h
    split at h
    · simpa using h
    · rcases List.mem_cons.1 h with h | h
      · exact .inl h
      · exact .inr (List.mem_cons_of_mem _ h)
    · rcases List.mem_cons.1 h with h | h
      · exact .inr (h ▸ List.mem_cons_self)
      · exact (mem_insertEntry h).imp id (List.mem_cons_of_mem _)

variable [Std.TransOrd κ] [Std.LawfulEqOrd κ]

theorem pairwise_insertEntry (k : κ) (v : α) :
    ∀ {l : List (κ × α)}, l.Pairwise (fun a b => compare a.1 b.1 = .lt) →
      (insertEntry k v l).Pairwise (fun a b => compare a.1 b.1 = .lt)
  | [], _ => by simp [insertEntry]
  | (j, w) :: rest, h => by
    obtain ⟨hj, hrest⟩ := List.pairwise_cons.1 h
    unfold insertEntry
    split
    · rename_i hlt
      refine List.pairwise_cons.2 ⟨fun e he => ?_, h⟩
      rcases List.mem_cons.1 he with rfl | he
      · exact hlt
      · exact Std.TransCmp.lt_trans hlt (hj e he)
    · rename_i heq
      obtain rfl := Std.LawfulEqCmp.eq_of_compare heq
      exact List.pairwise_cons.2 ⟨hj, hrest⟩
    · rename_i hgt
      refine List.pairwise_cons.2 ⟨fun e he => ?_, pairwise_insertEntry k v hrest⟩
      rcases mem_insertEntry he with rfl | he
      · exact Std.OrientedCmp.gt_iff_lt.1 hgt
      · exact hj e he

/-- Stores `v` under `k`, in the place of what was there. -/
def insert (m : OrderedMap κ α) (k : κ) (v : α) : OrderedMap κ α :=
  ⟨insertEntry k v m.entries, pairwise_insertEntry k v m.sorted⟩

/-- Drops the entry of `k`. -/
def erase (m : OrderedMap κ α) (k : κ) : OrderedMap κ α :=
  ⟨m.entries.filter (fun e => compare k e.1 != .eq), m.sorted.filter _⟩

/-- Changes the value under `k`, if there is one. -/
def modify (m : OrderedMap κ α) (k : κ) (f : α → α) : OrderedMap κ α :=
  ⟨m.entries.map (fun e => if compare k e.1 = .eq then (e.1, f e.2) else e), by
    refine List.pairwise_map.2 (m.sorted.imp fun {a b} h => ?_)
    split <;> split <;> exact h⟩

omit [Std.TransOrd κ] in
theorem lookup_eq_some_iff {k : κ} {v : α} :
    ∀ {l : List (κ × α)}, l.Pairwise (fun a b => compare a.1 b.1 = .lt) →
      (lookup k l = some v ↔ (k, v) ∈ l)
  | [], _ => by simp [lookup]
  | (j, w) :: rest, h => by
    obtain ⟨hj, hrest⟩ := List.pairwise_cons.1 h
    by_cases hk : compare k j = .eq
    · obtain rfl := Std.LawfulEqCmp.eq_of_compare hk
      have : (k, v) ∉ rest := fun hm => by simpa using hj _ hm
      simp [lookup, this, eq_comm]
    · have : k ≠ j := fun e => hk (e ▸ Std.ReflCmp.compare_self)
      simp [lookup, hk, this, lookup_eq_some_iff hrest]

omit [Std.TransOrd κ] in
theorem find?_eq_some_iff {m : OrderedMap κ α} {k : κ} {v : α} :
    m.find? k = some v ↔ (k, v) ∈ m.entries := lookup_eq_some_iff m.sorted

omit [Std.TransOrd κ] [Std.LawfulEqOrd κ] in
@[simp] theorem find?_empty (k : κ) : (empty : OrderedMap κ α).find? k = none := rfl

omit [Std.TransOrd κ] in
theorem lookup_insertEntry (k j : κ) (v : α) :
    ∀ {l : List (κ × α)}, l.Pairwise (fun a b => compare a.1 b.1 = .lt) →
      lookup j (insertEntry k v l) = if compare j k = .eq then some v else lookup j l
  | [], _ => rfl
  | (i, w) :: rest, h => by
    obtain ⟨hi, hrest⟩ := List.pairwise_cons.1 h
    unfold insertEntry
    split
    · rfl
    · rename_i heq
      obtain rfl := Std.LawfulEqCmp.eq_of_compare heq
      by_cases hj : compare j k = .eq <;> simp [lookup, hj]
    · rename_i hgt
      simp only [lookup, lookup_insertEntry k j v hrest]
      by_cases hj : compare j i = .eq
      · obtain rfl := Std.LawfulEqCmp.eq_of_compare hj
        have : compare j k ≠ .eq := fun e => by
          obtain rfl := Std.LawfulEqCmp.eq_of_compare e
          simp at hgt
        simp [this]
      · simp [hj]

/-- A look-up after a store finds the stored value under its key and what was there elsewhere. -/
theorem find?_insert (m : OrderedMap κ α) (k j : κ) (v : α) :
    (m.insert k v).find? j = if compare j k = .eq then some v else m.find? j :=
  lookup_insertEntry k j v m.sorted

@[simp] theorem find?_insert_self (m : OrderedMap κ α) (k : κ) (v : α) :
    (m.insert k v).find? k = some v := by simp [find?_insert]

theorem find?_insert_of_ne (m : OrderedMap κ α) {k j : κ} (v : α) (h : j ≠ k) :
    (m.insert k v).find? j = m.find? j := by simp [find?_insert, h]

omit [Std.TransOrd κ] in
/-- A look-up after an erasure misses the erased key and finds what was there elsewhere. -/
theorem find?_erase (m : OrderedMap κ α) (k j : κ) :
    (m.erase k).find? j = if compare j k = .eq then none else m.find? j := by
  apply Option.ext
  intro v
  rw [find?_eq_some_iff]
  by_cases h : j = k
  · subst h; simp [erase]
  · have h' : ¬ k = j := fun e => h e.symm
    simp [erase, h, h', find?_eq_some_iff]

omit [Std.TransOrd κ] in
/-- A look-up after a change finds the changed value under its key. -/
theorem find?_modify (m : OrderedMap κ α) (k j : κ) (f : α → α) :
    (m.modify k f).find? j = if compare j k = .eq then (m.find? j).map f else m.find? j := by
  have key : ∀ l : List (κ × α),
      lookup j (l.map fun e => if compare k e.1 = .eq then (e.1, f e.2) else e) =
        if compare j k = .eq then (lookup j l).map f else lookup j l := by
    intro l
    induction l with
    | nil => simp [lookup]
    | cons e rest ih =>
      obtain ⟨i, w⟩ := e
      by_cases hk : k = i <;> by_cases hj : j = i <;> by_cases hjk : j = k <;>
        simp_all [lookup]
  exact key m.entries

/-- Maps with the same look-ups are equal. -/
theorem ext_find? {a b : OrderedMap κ α} (h : ∀ k, a.find? k = b.find? k) : a = b := by
  have hmem : ∀ e, e ∈ a.entries ↔ e ∈ b.entries := fun ⟨k, v⟩ => by
    rw [← find?_eq_some_iff, ← find?_eq_some_iff, h]
  have irrefl : ∀ e : κ × α, ¬ compare e.1 e.1 = .lt := fun e => by simp
  have nodup : ∀ {l : List (κ × α)}, l.Pairwise (fun x y => compare x.1 y.1 = .lt) → l.Nodup :=
    fun hl => hl.imp fun {x y} hxy (heq : x = y) => irrefl x (by subst heq; exact hxy)
  refine ext (List.Perm.eq_of_pairwise (fun x y _ _ hxy hyx => ?_) a.sorted b.sorted ?_)
  · exact absurd (Std.TransCmp.lt_trans hxy hyx) (irrefl x)
  · exact (List.perm_ext_iff_of_nodup (nodup a.sorted) (nodup b.sorted)).2 hmem

/-- Stores every pair of a list, so that the last of several pairs with one key stays. -/
def insertAll (m : OrderedMap κ α) (pairs : List (κ × α)) : OrderedMap κ α :=
  pairs.foldl (fun m e => m.insert e.1 e.2) m

/-- The map of a list of pairs; the last of several pairs with one key stays. -/
def ofList (pairs : List (κ × α)) : OrderedMap κ α := empty.insertAll pairs

def tally (ks : List κ) : OrderedMap κ Nat :=
  ks.foldl (fun m k => m.insert k ((m.find? k).getD 0 + 1)) empty

end OrderedMap

end TangledPrograms
