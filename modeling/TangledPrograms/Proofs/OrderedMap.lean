import TangledPrograms.OrderedMap
import Mathlib.Data.List.Basic
import Mathlib.Data.List.Nodup

/-!
# Counting in ordered maps

One store, change or erasure moves a count over the values of a map by what it does to one value. A
tally counts every key. Values that tell their own keys are a map again, in any order.
-/

namespace TangledPrograms.OrderedMap

variable {κ α β : Type} [Ord κ] [Std.TransOrd κ] [Std.LawfulEqOrd κ]

omit [Std.TransOrd κ] in
theorem mem_values_iff {m : OrderedMap κ α} {v : α} : v ∈ m.values ↔ ∃ k, m.find? k = some v := by
  simp [values, find?_eq_some_iff]

omit [Std.TransOrd κ] [Std.LawfulEqOrd κ] in
theorem contains_iff {m : OrderedMap κ α} {k : κ} :
    m.contains k = true ↔ ∃ v, m.find? k = some v := Option.isSome_iff_exists

theorem contains_insert (m : OrderedMap κ α) (k j : κ) (v : α) :
    (m.insert k v).contains j = true ↔ j = k ∨ m.contains j = true := by
  rw [contains, find?_insert]
  by_cases h : j = k <;> simp [h, contains]

omit [Std.TransOrd κ] in
theorem contains_erase (m : OrderedMap κ α) (k j : κ) :
    (m.erase k).contains j = true ↔ j ≠ k ∧ m.contains j = true := by
  rw [contains, find?_erase]
  by_cases h : j = k <;> simp [h, contains]

omit [Std.TransOrd κ] in
@[simp] theorem contains_modify (m : OrderedMap κ α) (k j : κ) (f : α → α) :
    (m.modify k f).contains j = m.contains j := by
  rw [contains, find?_modify]
  by_cases h : j = k <;> simp [h, contains]

omit [Std.TransOrd κ] in
theorem nodup_entries (m : OrderedMap κ α) : m.entries.Nodup :=
  m.sorted.imp fun {a b} h (e : a = b) => by simp [e] at h

omit [Std.TransOrd κ] in
theorem perm_of_find? {m : OrderedMap κ α} {l : List (κ × α)} (hl : l.Nodup)
    (h : ∀ k v, m.find? k = some v ↔ (k, v) ∈ l) : m.entries.Perm l := by
  rw [List.perm_ext_iff_of_nodup m.nodup_entries hl]
  rintro ⟨k, v⟩
  rw [← find?_eq_some_iff, h]

theorem perm_insert {m : OrderedMap κ α} {k : κ} (v : α) (h : m.find? k = none) :
    (m.insert k v).entries.Perm ((k, v) :: m.entries) := by
  have hk : ∀ w, (k, w) ∉ m.entries := fun w hw => by
    rw [← find?_eq_some_iff, h] at hw
    cases hw
  refine perm_of_find? (List.nodup_cons.2 ⟨hk v, m.nodup_entries⟩) fun j w => ?_
  rw [find?_insert, List.mem_cons, Prod.mk.injEq]
  by_cases hj : j = k
  · subst hj
    simp [hk, eq_comm]
  · simp [hj, find?_eq_some_iff]

omit [Std.TransOrd κ] in
theorem perm_erase {m : OrderedMap κ α} {k : κ} {v : α} (h : m.find? k = some v) :
    m.entries.Perm ((k, v) :: (m.erase k).entries) := by
  have hk : (k, v) ∉ (m.erase k).entries := fun hw => by
    rw [← find?_eq_some_iff, find?_erase] at hw
    simp at hw
  refine perm_of_find? (List.nodup_cons.2 ⟨hk, nodup_entries _⟩) fun j w => ?_
  rw [List.mem_cons, Prod.mk.injEq, ← find?_eq_some_iff, find?_erase]
  by_cases hj : j = k
  · subst hj
    simp [h, eq_comm]
  · simp [hj]

theorem erase_modify (m : OrderedMap κ α) (k : κ) (f : α → α) :
    (m.modify k f).erase k = m.erase k := by
  refine ext_find? fun j => ?_
  rw [find?_erase, find?_erase, find?_modify]
  by_cases hj : j = k <;> simp [hj]

theorem perm_modify {m : OrderedMap κ α} {k : κ} {v : α} (f : α → α) (h : m.find? k = some v) :
    (m.modify k f).entries.Perm ((k, f v) :: (m.erase k).entries) := by
  have hf : (m.modify k f).find? k = some (f v) := by simp [find?_modify, h]
  rw [← m.erase_modify k f]
  exact perm_erase hf

theorem modify_of_find?_eq_none {m : OrderedMap κ α} {k : κ} (f : α → α) (h : m.find? k = none) :
    m.modify k f = m := by
  refine ext_find? fun j => ?_
  rw [find?_modify]
  by_cases hj : j = k <;> simp [hj, h]

theorem modify_insert (m : OrderedMap κ α) (k : κ) (v : α) (f : α → α) :
    (m.insert k v).modify k f = m.insert k (f v) := by
  apply ext_find?
  intro j
  rw [find?_modify, find?_insert, find?_insert]
  split <;> rfl

theorem countP_insert {m : OrderedMap κ α} {k : κ} {v : α} (q : α → Bool) (h : m.find? k = none) :
    (m.insert k v).values.countP q = m.values.countP q + if q v then 1 else 0 := by
  have hperm := (perm_insert v h).map Prod.snd
  exact (hperm.countP_eq q).trans List.countP_cons

omit [Std.TransOrd κ] in
theorem countP_erase {m : OrderedMap κ α} {k : κ} {v : α} (q : α → Bool) (h : m.find? k = some v) :
    m.values.countP q = (m.erase k).values.countP q + if q v then 1 else 0 := by
  have hperm := (perm_erase h).map Prod.snd
  exact (hperm.countP_eq q).trans List.countP_cons

theorem countP_modify {m : OrderedMap κ α} {k : κ} {v : α} (q : α → Bool) (f : α → α)
    (h : m.find? k = some v) :
    ((m.modify k f).values.countP q + if q v then 1 else 0) =
      m.values.countP q + if q (f v) then 1 else 0 := by
  have hperm := (perm_modify f h).map Prod.snd
  have hmodify : (m.modify k f).values.countP q =
      (m.erase k).values.countP q + if q (f v) then 1 else 0 :=
    (hperm.countP_eq q).trans List.countP_cons
  rw [hmodify, countP_erase q h]
  omega

theorem getD_tally [DecidableEq κ] (ks : List κ) (k : κ) :
    ((tally ks).find? k).getD 0 = ks.count k := by
  have key : ∀ (ks : List κ) (m : OrderedMap κ Nat),
      ((ks.foldl (fun m k => m.insert k ((m.find? k).getD 0 + 1)) m).find? k).getD 0 =
        (m.find? k).getD 0 + ks.count k := by
    intro ks
    induction ks with
    | nil => simp
    | cons j ks ih =>
      intro m
      rw [List.foldl_cons, ih, find?_insert, List.count_cons]
      by_cases hj : k = j
      · subst hj
        simp
        omega
      · have : j ≠ k := fun e => hj e.symm
        simp [hj, this]
  exact (key ks empty).trans (Nat.zero_add _)

theorem find?_insertAll (k : κ) : ∀ {l : List (κ × α)} (m : OrderedMap κ α),
    l.Pairwise (fun a b => compare a.1 b.1 = .lt) →
    (m.insertAll l).find? k = (lookup k l).or (m.find? k)
  | [], _, _ => rfl
  | (j, v) :: l, m, h => by
    obtain ⟨hj, hl⟩ := List.pairwise_cons.1 h
    have hrest := find?_insertAll k (m.insert j v) hl
    rw [find?_insert] at hrest
    refine hrest.trans ?_
    by_cases hk : k = j
    · subst hk
      have hnone : lookup k l = none := Option.eq_none_iff_forall_ne_some.2 fun w hw => by
        have hlt := hj (k, w) ((lookup_eq_some_iff hl).1 hw)
        simp at hlt
      simp [lookup, hnone]
    · simp [lookup, hk]

theorem mem_of_find?_insertAll {k : κ} {v : α} : ∀ {l : List (κ × α)} {m : OrderedMap κ α},
    (m.insertAll l).find? k = some v → (k, v) ∈ l ∨ m.find? k = some v
  | [], _, h => .inr h
  | (j, w) :: l, m, h => by
    obtain hmem | hfind := mem_of_find?_insertAll (m := m.insert j w) h
    · exact .inl (List.mem_cons_of_mem _ hmem)
    · rw [find?_insert] at hfind
      split at hfind
      · rename_i hkj
        obtain rfl := Std.LawfulEqCmp.eq_of_compare hkj
        cases hfind
        exact .inl List.mem_cons_self
      · exact .inr hfind

theorem mem_of_find?_ofList {k : κ} {v : α} {l : List (κ × α)} (h : (ofList l).find? k = some v) :
    (k, v) ∈ l := (mem_of_find?_insertAll h).resolve_right nofun

theorem find?_insertAll_of_notMem {k : κ} : ∀ {l : List (κ × α)} {m : OrderedMap κ α},
    k ∉ l.map Prod.fst → (m.insertAll l).find? k = m.find? k
  | [], _, _ => rfl
  | (j, v) :: l, m, h => by
    rw [List.map_cons, List.mem_cons, not_or] at h
    exact (find?_insertAll_of_notMem h.2).trans (find?_insert_of_ne m v h.1)

theorem find?_insertAll_of_mem {k : κ} {v : α} : ∀ {l : List (κ × α)} {m : OrderedMap κ α},
    (l.map Prod.fst).Nodup → (k, v) ∈ l → (m.insertAll l).find? k = some v
  | (j, w) :: l, m, hl, h => by
    obtain ⟨hj, hl⟩ := List.nodup_cons.1 hl
    rcases List.mem_cons.1 h with heq | hmem
    · cases heq
      exact (find?_insertAll_of_notMem hj).trans (find?_insert_self ..)
    · exact find?_insertAll_of_mem (l := l) (m := m.insert j w) hl hmem

section indexed

variable {l : List α} {key : α → κ}

/-- If no two values have one key, each is found under its key. -/
theorem find?_ofList_eq_some_iff (h : (l.map key).Nodup) {k : κ} {a : α} :
    (ofList (l.map fun a => (key a, a))).find? k = some a ↔ a ∈ l ∧ key a = k := by
  constructor
  · intro hfind
    obtain ⟨_, hmem, ha⟩ := List.mem_map.1 (mem_of_find?_ofList hfind)
    cases ha
    exact ⟨hmem, rfl⟩
  · rintro ⟨hmem, rfl⟩
    have hkeys : ((l.map fun a => (key a, a)).map Prod.fst).Nodup := by simpa [Function.comp_def]
    exact find?_insertAll_of_mem hkeys (List.mem_map.2 ⟨a, hmem, rfl⟩)

theorem exists_last_of_find?_insertAll {k : κ} {a : α} : ∀ {l : List α} {m : OrderedMap κ α},
    (m.insertAll (l.map fun a => (key a, a))).find? k = some a →
      (∃ earlier later, l = earlier ++ a :: later ∧ key a = k ∧ ∀ b ∈ later, key b ≠ k) ∨
        m.find? k = some a ∧ ∀ b ∈ l, key b ≠ k
  | [], _, h => .inr ⟨h, nofun⟩
  | b :: l, m, h => by
    obtain ⟨earlier, later, rfl, ha, hlater⟩ | ⟨hfind, hl⟩ :=
      exists_last_of_find?_insertAll (m := m.insert (key b) b) h
    · exact .inl ⟨b :: earlier, later, rfl, ha, hlater⟩
    · by_cases hk : key b = k
      · subst hk
        obtain rfl := Option.some.inj ((find?_insert_self ..).symm.trans hfind)
        exact .inl ⟨[], l, rfl, rfl, hl⟩
      · rw [find?_insert_of_ne m b (Ne.symm hk)] at hfind
        exact .inr ⟨hfind, List.forall_mem_cons.2 ⟨hk, hl⟩⟩

/-- Of the values with one key the last is found. -/
theorem find?_ofList_eq_some_iff_last {k : κ} {a : α} :
    (ofList (l.map fun a => (key a, a))).find? k = some a ↔
      ∃ earlier later, l = earlier ++ a :: later ∧ key a = k ∧ ∀ b ∈ later, key b ≠ k := by
  constructor
  · exact fun h => (exists_last_of_find?_insertAll h).resolve_right nofun
  · rintro ⟨earlier, later, rfl, rfl, hlater⟩
    have hkey : key a ∉ (later.map fun a => (key a, a)).map Prod.fst := by
      simpa [Function.comp_def] using fun b hb => hlater b hb
    rw [ofList, insertAll, List.map_append, List.foldl_append]
    exact (find?_insertAll_of_notMem hkey).trans (find?_insert_self ..)

theorem mem_values_ofList_iff {a : α} :
    a ∈ (ofList (l.map fun a => (key a, a))).values ↔
      ∃ earlier later, l = earlier ++ a :: later ∧ ∀ b ∈ later, key b ≠ key a := by
  simp only [mem_values_iff, find?_ofList_eq_some_iff_last]
  constructor
  · rintro ⟨_, earlier, later, hsplit, rfl, hlater⟩
    exact ⟨earlier, later, hsplit, hlater⟩
  · rintro ⟨earlier, later, hsplit, hlater⟩
    exact ⟨_, earlier, later, hsplit, rfl, hlater⟩

theorem perm_values_ofList (h : (l.map key).Nodup) :
    (ofList (l.map fun a => (key a, a))).values.Perm l := by
  have hpairs : (l.map fun a => (key a, a)).Nodup :=
    h.of_map.map fun a b hab => congrArg Prod.snd hab
  have hperm := perm_of_find? hpairs fun k a => by
    rw [find?_ofList_eq_some_iff h, List.mem_map]
    simp only [Prod.mk.injEq]
    constructor
    · exact fun hmem => ⟨a, hmem.1, hmem.2, rfl⟩
    · rintro ⟨_, hmem, hkey, rfl⟩
      exact ⟨hmem, hkey⟩
  have hvalues := hperm.map Prod.snd
  simpa [values, Function.comp_def] using hvalues

end indexed

/-- The map of a map's own entries is the map. -/
theorem ofList_entries (m : OrderedMap κ α) : ofList m.entries = m := by
  refine ext_find? fun k => ?_
  rw [ofList, find?_insertAll k empty m.sorted]
  exact Option.or_none

section keyed

variable {m : OrderedMap κ α} {key : α → κ} (h : ∀ k v, m.find? k = some v → key v = k)
include h

omit [Std.TransOrd κ] in
theorem map_key_values : (m.values.map fun v => (key v, v)) = m.entries := by
  rw [values, List.map_map]
  refine (List.map_congr_left fun e he => ?_).trans (List.map_id _)
  exact Prod.ext (h e.1 e.2 (find?_eq_some_iff.2 he)) rfl

/-- The values of a map under their own keys are the map. -/
theorem ofList_values : ofList (m.values.map fun v => (key v, v)) = m := by
  rw [map_key_values h, ofList_entries]

omit [Std.TransOrd κ] in
theorem nodup_map_values : (m.values.map key).Nodup := by
  have hkeys : m.values.map key = m.entries.map Prod.fst := by
    rw [← map_key_values h, List.map_map]
    rfl
  rw [hkeys]
  exact List.pairwise_map.2 (m.sorted.imp fun {a b} hlt (e : a.1 = b.1) => by simp [e] at hlt)

end keyed

theorem entries_ofList {l : List (κ × α)} (h : l.Pairwise fun a b => compare a.1 b.1 = .lt) :
    (ofList l).entries = l := congrArg entries (ofList_entries ⟨l, h⟩)

def mapValues (f : α → β) (m : OrderedMap κ α) : OrderedMap κ β :=
  ⟨m.entries.map fun e => (e.1, f e.2), List.pairwise_map.2 m.sorted⟩

omit [Std.TransOrd κ] [Std.LawfulEqOrd κ] in
@[simp] theorem find?_mapValues (f : α → β) (m : OrderedMap κ α) (k : κ) :
    (m.mapValues f).find? k = (m.find? k).map f := by
  have key : ∀ l : List (κ × α), lookup k (l.map fun e => (e.1, f e.2)) = (lookup k l).map f := by
    intro l
    induction l with
    | nil => rfl
    | cons e l ih =>
      by_cases h : compare k e.1 = .eq <;> simp [lookup, h, ih]
  exact key m.entries

omit [Std.TransOrd κ] [Std.LawfulEqOrd κ] in
@[simp] theorem contains_mapValues (f : α → β) (m : OrderedMap κ α) (k : κ) :
    (m.mapValues f).contains k = m.contains k := by
  simp [contains]

omit [Std.TransOrd κ] [Std.LawfulEqOrd κ] in
theorem values_mapValues (f : α → β) (m : OrderedMap κ α) :
    (m.mapValues f).values = m.values.map f := by
  simp [values, mapValues]

theorem mapValues_insert (f : α → β) (m : OrderedMap κ α) (k : κ) (v : α) :
    (m.insert k v).mapValues f = (m.mapValues f).insert k (f v) := by
  refine ext_find? fun j => ?_
  rw [find?_mapValues, find?_insert, find?_insert, find?_mapValues]
  split <;> rfl

theorem mapValues_erase (f : α → β) (m : OrderedMap κ α) (k : κ) :
    (m.erase k).mapValues f = (m.mapValues f).erase k := by
  refine ext_find? fun j => ?_
  rw [find?_mapValues, find?_erase, find?_erase, find?_mapValues]
  split <;> rfl

/-- A change commutes with a change of all values if it does so on each. -/
theorem mapValues_modify (f : α → β) (m : OrderedMap κ α) (k : κ) {g : α → α} {g' : β → β}
    (h : ∀ v, f (g v) = g' (f v)) : (m.modify k g).mapValues f = (m.mapValues f).modify k g' := by
  refine ext_find? fun j => ?_
  rw [find?_mapValues, find?_modify, find?_modify, find?_mapValues]
  split
  · cases m.find? j <;> simp [h]
  · rfl

/-- Maps that agree up to a change of values are equal, if no two values under one key do so only up to
it. -/
theorem ext_map {m m' : OrderedMap κ α} {f : α → β}
    (h : ∀ k, (m.find? k).map f = (m'.find? k).map f)
    (hinj : ∀ k a b, m.find? k = some a → m'.find? k = some b → f a = f b → a = b) : m = m' := by
  refine ext_find? fun k => ?_
  have hk := h k
  cases ha : m.find? k with
  | none =>
    rw [ha, Option.map_none, eq_comm, Option.map_eq_none_iff] at hk
    exact hk.symm
  | some a =>
    rw [ha, Option.map_some, eq_comm, Option.map_eq_some_iff] at hk
    obtain ⟨b, hb, hab⟩ := hk
    rw [hb, hinj k a b ha hb hab.symm]

end TangledPrograms.OrderedMap
