/-!
# Members

A `Members α` is a map from names to values that remembers in which order the names first came in:
the members of an annotation, the entries of a metadata document, the type index of a model.  It is
a list of pairs, because such maps are short and because it occurs inside the recursive value
types.

* `insert` writes a value; a name that is present keeps its place.
* `insertIfNew` writes only a new name.
* `ofList` inserts pair after pair, so of two pairs with one name the later value wins and the
  earlier place.
* `get?_insert_self` and `get?_insert_of_ne` are what look-ups see of an insertion, `names_insert`
  what the order of the names does, and `names_nodup_insert` that names stay distinct.
-/

namespace AnnotationResolution

universe u v

structure Members (α : Type u) where
  entries : List (String × α) := []
deriving Repr, BEq

namespace Members

variable {α : Type u} {β : Type v}

instance : EmptyCollection (Members α) := ⟨⟨[]⟩⟩

instance : Inhabited (Members α) := ⟨∅⟩

def size (m : Members α) : Nat := m.entries.length

def isEmpty (m : Members α) : Bool := m.entries.isEmpty

def names (m : Members α) : List String := m.entries.map (·.1)

def values (m : Members α) : List α := m.entries.map (·.2)

def get? (m : Members α) (name : String) : Option α := m.entries.lookup name

def contains (m : Members α) (name : String) : Bool := m.names.contains name

/-- Overwrites the first pair of that name, or adds a pair at the end. -/
def put (name : String) (value : α) : List (String × α) → List (String × α)
  | [] => [(name, value)]
  | (key, old) :: rest =>
    if key = name then (key, value) :: rest else (key, old) :: put name value rest

def insert (m : Members α) (name : String) (value : α) : Members α :=
  ⟨put name value m.entries⟩

def insertIfNew (m : Members α) (name : String) (value : α) : Members α :=
  if m.contains name then m else m.insert name value

/-- Writes a value and gives back the one that it replaces. -/
def insertReplacing (m : Members α) (name : String) (value : α) : Option α × Members α :=
  (m.get? name, m.insert name value)

/-- Writes only a new name, and says whether it was new. -/
def insertIfAbsent (m : Members α) (name : String) (value : α) : Bool × Members α :=
  (!m.contains name, m.insertIfNew name value)

/-- Writes what `f` makes of the present value, or of its absence. -/
def upsert (m : Members α) (name : String) (f : Option α → α) : Members α :=
  m.insert name (f (m.get? name))

/-- Changes the value of a name that is present and leaves any other map as it is. -/
def modify (m : Members α) (name : String) (f : α → α) : Members α :=
  match m.get? name with
  | some value => m.insert name (f value)
  | none => m

def map (f : α → β) (m : Members α) : Members β :=
  ⟨m.entries.map fun entry => (entry.1, f entry.2)⟩

/-- As `map`, for a value that depends on the name it is found under. -/
def mapNamed (f : String → α → β) (m : Members α) : Members β :=
  ⟨m.entries.map fun entry => (entry.1, f entry.1 entry.2)⟩

def ofList (entries : List (String × α)) : Members α :=
  entries.foldl (fun m entry => m.insert entry.1 entry.2) ∅

/-! ## What an insertion changes -/

theorem lookup_put_self (name : String) (value : α) (entries : List (String × α)) :
    (put name value entries).lookup name = some value := by
  induction entries with
  | nil => simp [put]
  | cons entry rest ih =>
    obtain ⟨key, old⟩ := entry
    by_cases h : key = name
    · simp [put, h]
    · simp [put, h, List.lookup_cons, beq_false_of_ne (Ne.symm h), ih]

theorem lookup_put_of_ne {name other : String} (h : other ≠ name) (value : α)
    (entries : List (String × α)) :
    (put name value entries).lookup other = entries.lookup other := by
  induction entries with
  | nil => simp [put, List.lookup_cons, beq_false_of_ne h]
  | cons entry rest ih =>
    obtain ⟨key, old⟩ := entry
    by_cases hk : key = name
    · simp [put, hk, List.lookup_cons, beq_false_of_ne h]
    · simp [put, hk, List.lookup_cons, ih]

@[simp] theorem get?_insert_self (m : Members α) (name : String) (value : α) :
    (m.insert name value).get? name = some value :=
  lookup_put_self name value m.entries

theorem get?_insert_of_ne (m : Members α) {name other : String} (h : other ≠ name) (value : α) :
    (m.insert name value).get? other = m.get? other :=
  lookup_put_of_ne h value m.entries

theorem map_fst_put (name : String) (value : α) (entries : List (String × α)) :
    (put name value entries).map (·.1) =
      if name ∈ entries.map (·.1) then entries.map (·.1) else entries.map (·.1) ++ [name] := by
  induction entries with
  | nil => simp [put]
  | cons entry rest ih =>
    obtain ⟨key, old⟩ := entry
    by_cases h : key = name
    · simp [put, h]
    · have h' : ¬ name = key := fun e => h e.symm
      by_cases hr : name ∈ rest.map (·.1)
      · simpa [put, h, h', hr] using ih
      · simpa [put, h, h', hr] using ih

/-- **A present name keeps its place, a new one comes last.** -/
theorem names_insert (m : Members α) (name : String) (value : α) :
    (m.insert name value).names = if name ∈ m.names then m.names else m.names ++ [name] :=
  map_fst_put name value m.entries

theorem names_nodup_insert {m : Members α} (h : m.names.Nodup) (name : String) (value : α) :
    (m.insert name value).names.Nodup := by
  rw [names_insert]
  split
  · exact h
  · next hn =>
    rw [List.nodup_append]
    exact ⟨h, by simp, fun a ha b hb => by
      rintro rfl
      exact hn (by simpa using List.mem_singleton.mp hb ▸ ha)⟩

theorem contains_eq_true_iff {m : Members α} {name : String} :
    m.contains name = true ↔ name ∈ m.names := by
  simp [contains]

end Members

end AnnotationResolution
