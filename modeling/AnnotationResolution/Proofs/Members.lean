import Mathlib.Data.List.Perm.Subperm
import AnnotationResolution.Members

/-!
# What members hold

Look-ups and entries of a map after it was built up step by step.

* `get?_insert`, `mem_names_insert`, `get?_mapNamed`: single operations.
* `entries_insertAll`: names that are new and distinct are appended, in their order.
* `get?_insertAll_last`, `length_ofList_eq_iff`: of several pairs with one name the last one is
  found, and the others are lost.
* `get?_ofList_map`: a map of changed values.
* `get?_insertAllNew`, `entries_insertAllNew`: names that are written only when they are new yield
  to what is there, and what does come in comes last.
* `mem_values_of_insertAll`, `mem_values_of_insertAllNew`: a value was there before or has come in.
-/

namespace AnnotationResolution.Members

universe u v

variable {α : Type u} {β : Type v}

/-- Inserts pair after pair. -/
def insertAll (m : Members α) (new : List (String × α)) : Members α :=
  new.foldl (fun m entry => m.insert entry.1 entry.2) m

/-- Inserts pair after pair, as far as their names are new. -/
def insertAllNew (m : Members α) (new : List (String × α)) : Members α :=
  new.foldl (fun m entry => m.insertIfNew entry.1 entry.2) m

/-! ## Names and look-ups -/

@[simp] theorem get?_empty (name : String) : (∅ : Members α).get? name = none := rfl

@[simp] theorem names_empty : (∅ : Members α).names = [] := rfl

theorem isSome_get?_iff {m : Members α} {name : String} :
    (m.get? name).isSome = true ↔ name ∈ m.names := by
  rw [get?, List.lookup_isSome_iff, names, List.mem_map]
  simp only [beq_iff_eq, eq_comm (a := name)]

theorem get?_eq_none_iff {m : Members α} {name : String} :
    m.get? name = none ↔ name ∉ m.names := by
  rw [← isSome_get?_iff]
  simp

theorem exists_get?_of_mem_names {m : Members α} {name : String} (h : name ∈ m.names) :
    ∃ value, m.get? name = some value :=
  Option.isSome_iff_exists.mp (isSome_get?_iff.mpr h)

theorem mem_names_of_get? {m : Members α} {name : String} {value : α}
    (h : m.get? name = some value) : name ∈ m.names :=
  isSome_get?_iff.mp (Option.isSome_of_eq_some h)

theorem mem_entries_of_get? {m : Members α} {name : String} {value : α}
    (h : m.get? name = some value) : (name, value) ∈ m.entries := by
  obtain ⟨before, after, he, -⟩ := List.lookup_eq_some_iff.mp h
  rw [he]
  simp

theorem lookup_of_mem {entries : List (String × α)} (h : (entries.map (·.1)).Nodup)
    {name : String} {value : α} (hm : (name, value) ∈ entries) :
    entries.lookup name = some value := by
  induction entries with
  | nil => simp at hm
  | cons entry rest ih =>
    obtain ⟨key, first⟩ := entry
    rw [List.map_cons, List.nodup_cons] at h
    rcases List.mem_cons.mp hm with he | hr
    · cases he
      simp
    · have hne : name ≠ key := by
        rintro rfl
        exact h.1 (List.mem_map_of_mem (f := (·.1)) hr)
      rw [List.lookup_cons, beq_false_of_ne hne]
      exact ih h.2 hr

theorem mem_values_of_get? {m : Members α} {name : String} {value : α}
    (h : m.get? name = some value) : value ∈ m.values :=
  List.mem_map_of_mem (f := (·.2)) (mem_entries_of_get? h)

theorem mem_values_iff {m : Members α} (h : m.names.Nodup) {value : α} :
    value ∈ m.values ↔ ∃ name, m.get? name = some value := by
  constructor
  · intro hv
    obtain ⟨⟨name, value⟩, he, rfl⟩ := List.mem_map.mp hv
    exact ⟨name, lookup_of_mem h he⟩
  · rintro ⟨name, hn⟩
    exact mem_values_of_get? hn

/-- A look-up sees only the pairs of its name, so it does not matter which others are there. -/
theorem lookup_filter {p : String → Bool} {name : String} (h : p name = true)
    (entries : List (String × α)) :
    (entries.filter fun entry => p entry.1).lookup name = entries.lookup name := by
  induction entries with
  | nil => rfl
  | cons entry rest ih =>
    obtain ⟨key, value⟩ := entry
    by_cases hn : name = key
    · subst hn
      rw [List.filter_cons_of_pos (by exact h), List.lookup_cons_self, List.lookup_cons_self]
    · rw [List.lookup_cons, beq_false_of_ne hn, ← ih]
      by_cases hk : p key = true
      · rw [List.filter_cons_of_pos (by exact hk), List.lookup_cons, beq_false_of_ne hn]
      · rw [List.filter_cons_of_neg (by exact hk)]

/-! ## Single operations -/

theorem get?_insert (m : Members α) (name other : String) (value : α) :
    (m.insert name value).get? other = if other = name then some value else m.get? other := by
  by_cases h : other = name
  · rw [if_pos h, h, get?_insert_self]
  · rw [if_neg h, get?_insert_of_ne m h]

theorem mem_names_insert {m : Members α} {name other : String} {value : α} :
    other ∈ (m.insert name value).names ↔ other ∈ m.names ∨ other = name := by
  rw [names_insert]
  split
  · next h =>
    exact ⟨Or.inl, fun ho => ho.elim id fun he => he ▸ h⟩
  · simp

theorem put_of_notMem {name : String} {entries : List (String × α)}
    (h : name ∉ entries.map (·.1)) (value : α) :
    put name value entries = entries ++ [(name, value)] := by
  induction entries with
  | nil => rfl
  | cons entry rest ih =>
    obtain ⟨key, old⟩ := entry
    rw [List.map_cons, List.mem_cons, not_or] at h
    rw [put, if_neg (Ne.symm h.1), ih h.2, List.cons_append]

theorem entries_insert_of_notMem {m : Members α} {name : String} (h : name ∉ m.names)
    (value : α) : (m.insert name value).entries = m.entries ++ [(name, value)] :=
  put_of_notMem h value

theorem get?_insertIfNew (m : Members α) (name other : String) (value : α) :
    (m.insertIfNew name value).get? other =
      (m.get? other).or (if other = name then some value else none) := by
  rw [insertIfNew]
  by_cases hc : m.contains name = true
  · rw [if_pos hc]
    split
    · next h =>
      rw [contains_eq_true_iff, ← isSome_get?_iff, ← h, Option.isSome_iff_exists] at hc
      obtain ⟨old, ho⟩ := hc
      rw [ho, Option.some_or]
    · rw [Option.or_none]
  · rw [if_neg hc, get?_insert]
    rw [contains_eq_true_iff] at hc
    split
    · next h => rw [h, get?_eq_none_iff.mpr hc, Option.none_or]
    · rw [Option.or_none]

theorem lookup_mapNamed (f : String → α → β) (entries : List (String × α)) (name : String) :
    (entries.map fun entry => (entry.1, f entry.1 entry.2)).lookup name =
      (entries.lookup name).map (f name) := by
  induction entries with
  | nil => rfl
  | cons entry rest ih =>
    obtain ⟨key, value⟩ := entry
    by_cases h : name = key
    · simp [h]
    · simpa [List.lookup_cons, beq_false_of_ne h] using ih

theorem get?_mapNamed (f : String → α → β) (m : Members α) (name : String) :
    (m.mapNamed f).get? name = (m.get? name).map (f name) :=
  lookup_mapNamed f m.entries name

@[simp] theorem names_mapNamed (f : String → α → β) (m : Members α) :
    (m.mapNamed f).names = m.names := by
  simp [names, mapNamed, Function.comp_def]

theorem mapNamed_congr {f g : String → α → β} {m : Members α}
    (h : ∀ name ∈ m.names, ∀ value, f name value = g name value) : m.mapNamed f = m.mapNamed g := by
  rw [mapNamed, mapNamed, Members.mk.injEq]
  refine List.map_congr_left fun entry he => ?_
  rw [h entry.1 (List.mem_map_of_mem (f := (·.1)) he)]

/-! ## Many pairs -/

/-- **New, distinct names are appended.** -/
theorem entries_insertAll {m : Members α} {new : List (String × α)} (h : (new.map (·.1)).Nodup)
    (hm : ∀ entry ∈ new, entry.1 ∉ m.names) : (m.insertAll new).entries = m.entries ++ new := by
  induction new generalizing m with
  | nil => simp [insertAll]
  | cons entry rest ih =>
    rw [List.map_cons, List.nodup_cons] at h
    have hi : (m.insert entry.1 entry.2).entries = m.entries ++ [entry] :=
      entries_insert_of_notMem (hm entry List.mem_cons_self) entry.2
    have hr : ∀ other ∈ rest, other.1 ∉ (m.insert entry.1 entry.2).names := by
      intro other ho
      rw [mem_names_insert, not_or]
      exact ⟨hm other (List.mem_cons_of_mem _ ho),
        fun he => h.1 (he ▸ List.mem_map_of_mem (f := (·.1)) ho)⟩
    show ((m.insert entry.1 entry.2).insertAll rest).entries = _
    rw [ih h.2 hr, hi, List.append_assoc, List.singleton_append]

theorem names_nodup_insertAll {m : Members α} (h : m.names.Nodup) (new : List (String × α)) :
    (m.insertAll new).names.Nodup := by
  induction new generalizing m with
  | nil => exact h
  | cons entry rest ih => exact ih (names_nodup_insert h entry.1 entry.2)

theorem names_nodup_ofList (entries : List (String × α)) : (ofList entries).names.Nodup :=
  names_nodup_insertAll (m := ∅) List.nodup_nil entries

theorem mem_names_insertAll {m : Members α} {new : List (String × α)} {name : String} :
    name ∈ (m.insertAll new).names ↔ name ∈ m.names ∨ name ∈ new.map (·.1) := by
  induction new generalizing m with
  | nil => simp [insertAll]
  | cons entry rest ih =>
    show name ∈ ((m.insert entry.1 entry.2).insertAll rest).names ↔ _
    rw [ih, mem_names_insert, or_assoc, List.map_cons, List.mem_cons]

theorem mem_names_ofList {entries : List (String × α)} {name : String} :
    name ∈ (ofList entries).names ↔ name ∈ entries.map (·.1) := by
  have h := @mem_names_insertAll α ∅ entries name
  rwa [names_empty, or_iff_right List.not_mem_nil] at h

theorem get?_insertAll_of_notMem {new : List (String × α)} {name : String}
    (h : name ∉ new.map (·.1)) (m : Members α) : (m.insertAll new).get? name = m.get? name := by
  induction new generalizing m with
  | nil => rfl
  | cons entry rest ih =>
    rw [List.map_cons, List.mem_cons, not_or] at h
    show ((m.insert entry.1 entry.2).insertAll rest).get? name = _
    rw [ih h.2, get?_insert_of_ne m h.1]

/-- Of the pairs with one name the last one is found. -/
theorem get?_insertAll_last {name : String} {value : α} {before after : List (String × α)}
    (h : name ∉ after.map (·.1)) (m : Members α) :
    (m.insertAll (before ++ (name, value) :: after)).get? name = some value := by
  rw [insertAll, List.foldl_append, List.foldl_cons]
  show (((m.insertAll before).insert name value).insertAll after).get? name = _
  rw [get?_insertAll_of_notMem h, get?_insert_self]

theorem get?_insertAll_map (f : α → β) {m : Members α} {n : Members β}
    (h : ∀ name, n.get? name = (m.get? name).map f) (new : List (String × α)) (name : String) :
    (n.insertAll (new.map (Prod.map id f))).get? name = ((m.insertAll new).get? name).map f := by
  induction new generalizing m n with
  | nil => exact h name
  | cons entry rest ih =>
    refine ih fun other => ?_
    show (n.insert entry.1 (f entry.2)).get? other = ((m.insert entry.1 entry.2).get? other).map f
    rw [get?_insert, get?_insert, h]
    split
    · rfl
    · rfl

/-- A map of changed values has the changed values under the same names. -/
theorem get?_ofList_map (f : α → β) (entries : List (String × α)) (name : String) :
    (ofList (entries.map (Prod.map id f))).get? name = ((ofList entries).get? name).map f :=
  get?_insertAll_map f (fun _ => rfl) entries name

/-- **No pair is lost just when no name is there twice.** -/
theorem length_ofList_eq_iff {entries : List (String × α)} :
    (ofList entries).entries.length = entries.length ↔ (entries.map (·.1)).Nodup := by
  constructor
  · intro h
    have hsub : (ofList entries).names ⊆ entries.map (·.1) := fun _ => mem_names_ofList.mp
    have hlength : (entries.map (·.1)).length ≤ (ofList entries).names.length := by
      rw [names, List.length_map, List.length_map]
      exact Nat.le_of_eq h.symm
    have hperm := ((names_nodup_ofList entries).subperm hsub).perm_of_length_le hlength
    exact hperm.nodup_iff.mp (names_nodup_ofList entries)
  · intro h
    have he := entries_insertAll (m := ∅) h fun _ _ => List.not_mem_nil
    exact congrArg List.length he

theorem get?_insertAllNew (m : Members α) (new : List (String × α)) (name : String) :
    (m.insertAllNew new).get? name = (m.get? name).or (new.lookup name) := by
  induction new generalizing m with
  | nil => simp [insertAllNew]
  | cons entry rest ih =>
    obtain ⟨key, value⟩ := entry
    show ((m.insertIfNew key value).insertAllNew rest).get? name = _
    rw [ih, get?_insertIfNew, Option.or_assoc]
    by_cases h : name = key <;> simp [h, List.lookup_cons, beq_false_of_ne]

/-- **What was there stays in front, and the new names follow in their order.** -/
theorem entries_insertAllNew {new : List (String × α)} (h : (new.map (·.1)).Nodup)
    (m : Members α) :
    (m.insertAllNew new).entries = m.entries ++ new.filter fun entry => entry.1 ∉ m.names := by
  induction new generalizing m with
  | nil => simp [insertAllNew]
  | cons entry rest ih =>
    obtain ⟨key, value⟩ := entry
    rw [List.map_cons, List.nodup_cons] at h
    show ((m.insertIfNew key value).insertAllNew rest).entries = _
    rw [ih h.2]
    by_cases hc : key ∈ m.names
    · rw [insertIfNew, if_pos (contains_eq_true_iff.mpr hc), List.filter_cons_of_neg (by simpa)]
    · have hi : m.insertIfNew key value = m.insert key value :=
        if_neg fun ht => hc (contains_eq_true_iff.mp ht)
      rw [hi, entries_insert_of_notMem hc, List.filter_cons_of_pos (by simpa), List.append_assoc,
        List.singleton_append]
      congr 2
      -- The other names differ from `key`, so its coming in makes none of them present.
      refine List.filter_congr fun other ho => ?_
      have hne : other.1 ≠ key := fun he => h.1 (he ▸ List.mem_map_of_mem (f := (·.1)) ho)
      simp [mem_names_insert, hne]

theorem mem_values_of_insert {m : Members α} {name : String} {value v : α}
    (h : v ∈ (m.insert name value).values) : v ∈ m.values ∨ v = value := by
  obtain ⟨entries⟩ := m
  have hput : ∀ entries : List (String × α), v ∈ (put name value entries).map (·.2) →
      v ∈ entries.map (·.2) ∨ v = value := by
    intro entries
    induction entries with
    | nil => exact fun hv => Or.inr (List.mem_singleton.mp hv)
    | cons entry rest ih =>
      obtain ⟨key, old⟩ := entry
      rw [put]
      split
      · simp only [List.map_cons, List.mem_cons]
        grind
      · simp only [List.map_cons, List.mem_cons]
        grind
  exact hput entries h

theorem mem_values_of_insertAll {m : Members α} {new : List (String × α)} {v : α}
    (h : v ∈ (m.insertAll new).values) : v ∈ m.values ∨ v ∈ new.map (·.2) := by
  induction new generalizing m with
  | nil => exact Or.inl h
  | cons entry rest ih =>
    rw [List.map_cons, List.mem_cons]
    rcases ih (m := m.insert entry.1 entry.2) h with hv | hv
    · exact (mem_values_of_insert hv).imp_right Or.inl
    · exact Or.inr (Or.inr hv)

theorem mem_values_of_insertAllNew {m : Members α} {new : List (String × α)} {v : α}
    (h : v ∈ (m.insertAllNew new).values) : v ∈ m.values ∨ v ∈ new.map (·.2) := by
  induction new generalizing m with
  | nil => exact Or.inl h
  | cons entry rest ih =>
    rw [List.map_cons, List.mem_cons]
    rcases ih (m := m.insertIfNew entry.1 entry.2) h with hv | hv
    · rw [insertIfNew] at hv
      split at hv
      · exact Or.inl hv
      · exact (mem_values_of_insert hv).imp_right Or.inl
    · exact Or.inr (Or.inr hv)

end AnnotationResolution.Members
