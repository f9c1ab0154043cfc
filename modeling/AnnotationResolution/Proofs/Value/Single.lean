import AnnotationResolution.Assembly.Occurrence
import AnnotationResolution.Proofs.Lists
import AnnotationResolution.Proofs.Model.Accepted
import AnnotationResolution.Proofs.Value.Depth

/-!
# One annotation for an array member

A value that is one annotation may be written down as the annotation, or as a list that holds nothing
else; and both may be expressions or values that the host has resolved (`Expr.SpellsOne`,
`HostValue.SpellsOne`).  For an array member all of them are the same list of one: an annotation that
stands alone is wrapped, and in a list it is left as it is and gives the list its kind.  The list
takes one more level than the annotation in it.

* `readValue_of_spellsOne`: with a level to spare, all spellings are read as the same.
* `annotations?_of_spellsOne`, `holds_iff_of_spellsOne`: all of them consist of this annotation.

A raw value may have such values further in, in its lists and in the members of its annotations, where
fewer levels are left.  `Model.SpelledAlike` allows them to be respelled too, as long as there is a
level to spare in their place, and `SpelledAlike.readWithin_eq` says that nothing else is read.
-/

namespace AnnotationResolution

/-! ## What lies in a raw value -/

/-- An annotation lies in a raw value. -/
def RawValue.Holds : RawValue → AnnotationInstance → Prop
  | .expr e => e.Holds
  | .host h => h.Holds

def RawShape.Holds (inner : AnnotationInstance) : RawShape → Prop
  | .nested a => a.Holds inner
  | .list items => ∃ item ∈ items, item.Holds inner
  | .named value => value.Holds inner
  | .absent | .complete _ | .constant _ _ => False

theorem HostValue.holds_iff {host : HostValue} {inner : AnnotationInstance} :
    host.Holds inner ↔ host.shape.Holds inner := by
  constructor
  · rintro (h | ⟨hmem, h⟩)
    · exact h
    · exact ⟨_, List.mem_map_of_mem hmem, h⟩
  · cases host with
    | nested a => exact .nested
    | array items =>
      rintro ⟨_, hmem, h⟩
      obtain ⟨item, hi, rfl⟩ := List.mem_map.mp hmem
      exact .array hi h
    | _ => exact False.elim

theorem Expr.holds_iff {e : Expr} {inner : AnnotationInstance} :
    e.Holds inner ↔ e.shape.Holds inner := by
  constructor
  · intro h
    cases h with
    | nested h => exact h
    | list hmem h => exact ⟨_, List.mem_map_of_mem hmem, h⟩
    | initializer h => exact h
    | value h => exact HostValue.holds_iff.mp h
  · cases e with
    | nested a => exact .nested
    | list items =>
      rintro ⟨_, hmem, h⟩
      obtain ⟨item, hi, rfl⟩ := List.mem_map.mp hmem
      exact .list hi h
    | variableRef name initializer =>
      cases initializer with
      | none => exact False.elim
      | some e => exact .initializer
    | value host => exact fun h => .value (HostValue.holds_iff.mpr h)
    | literal constant => cases constant <;> exact False.elim
    | _ => exact False.elim

/-- What lies in a raw value is seen from its shape. -/
theorem RawValue.holds_iff {raw : RawValue} {inner : AnnotationInstance} :
    raw.Holds inner ↔ raw.shape.Holds inner := by
  cases raw with
  | expr e => exact Expr.holds_iff
  | host h => exact HostValue.holds_iff

def RawShape.nested? : RawShape → Option AnnotationInstance
  | .nested a => some a
  | _ => none

/-- The annotations that a value of this shape is made of. -/
def RawShape.annotations? : RawShape → Option (List AnnotationInstance)
  | .list items => items.mapM fun item => item.shape.nested?
  | shape => shape.nested?.map ([·])

theorem HostValue.nested?_eq (host : HostValue) : host.nested? = host.shape.nested? := by
  cases host <;> rfl

theorem Expr.nested?_eq (e : Expr) : e.nested? = e.shape.nested? := by
  cases e with
  | literal constant => cases constant <;> rfl
  | variableRef name initializer => cases initializer <;> rfl
  | value host => exact host.nested?_eq
  | _ => rfl

theorem Expr.annotations?_eq (e : Expr) : e.annotations? = e.shape.annotations? := by
  cases e with
  | literal constant => cases constant <;> rfl
  | list items =>
    rw [annotations?, shape, RawShape.annotations?, List.mapM_map]
    exact congrArg (items.mapM ·) (funext Expr.nested?_eq)
  | variableRef name initializer => cases initializer <;> rfl
  | value host =>
    cases host with
    | array items =>
      rw [annotations?, shape, HostValue.shape, RawShape.annotations?, List.mapM_map]
      exact congrArg (items.mapM ·) (funext HostValue.nested?_eq)
    | _ => rfl
  | _ => rfl

/-- A value that is made of annotations holds nothing else. -/
theorem RawShape.exists_holds_of_annotations? {shape : RawShape} {items : List AnnotationInstance}
    (h : shape.annotations? = some items) {inner : AnnotationInstance} (hi : shape.Holds inner) :
    ∃ item ∈ items, item.Holds inner := by
  cases shape with
  | nested a =>
    obtain rfl := Option.some.inj h
    exact ⟨a, List.mem_singleton_self a, hi⟩
  | list parts =>
    obtain ⟨part, hpart, hi⟩ := hi
    obtain ⟨item, hitem, hn⟩ := exists_mem_of_mapM_eq_some h hpart
    rw [RawValue.holds_iff] at hi
    refine ⟨item, hitem, ?_⟩
    cases hs : part.shape with
    | nested a =>
      rw [hs] at hi hn
      obtain rfl := Option.some.inj hn
      exact hi
    | _ =>
      rw [hs] at hn
      cases hn
  | named value => cases h
  | absent | complete _ | constant _ _ => exact hi.elim

namespace AnnotationInstance

variable {a a' : AnnotationInstance}

theorem namesDistinct_of_mem_entries (h : ∀ inner, a.Holds inner → inner.NamesDistinct) :
    ∀ entry ∈ a.members.entries, ∀ inner, entry.2.Holds inner → inner.NamesDistinct :=
  fun _ he inner hi => h inner (.member he hi)

theorem namesDistinct_of_names_eq (ha : a.NamesDistinct) (hnames : a'.members.names = a.members.names)
    (hentries : ∀ entry ∈ a'.members.entries, ∀ inner, entry.2.Holds inner →
      inner.NamesDistinct) :
    ∀ inner, a'.Holds inner → inner.NamesDistinct := by
  intro inner hi
  cases hi with
  | self => rwa [NamesDistinct, hnames]
  | member he hi => exact hentries _ he inner hi

end AnnotationInstance

/-! ## Single annotations -/

/-- The value is one annotation, by itself or in a list. -/
inductive HostValue.SpellsOne (a : AnnotationInstance) : HostValue → Prop
  | self : SpellsOne a (.nested a)
  | array : SpellsOne a (.array [.nested a])

inductive Expr.SpellsOne (a : AnnotationInstance) : Expr → Prop
  | self : SpellsOne a (.nested a)
  | list : SpellsOne a (.list [.nested a])
  | listOfValue : SpellsOne a (.list [.value (.nested a)])
  | value {host : HostValue} : host.SpellsOne a → SpellsOne a (.value host)

def RawValue.SpellsOne (a : AnnotationInstance) : RawValue → Prop
  | .expr e => e.SpellsOne a
  | .host h => h.SpellsOne a

section

variable {a : AnnotationInstance}

theorem RawValue.shape_eq_of_spellsOne {raw : RawValue} (h : raw.SpellsOne a) :
    raw.shape = .nested a ∨ ∃ item, raw.shape = .list [item] ∧ item.shape = .nested a := by
  have hhost : ∀ {host : HostValue}, host.SpellsOne a → host.shape = .nested a ∨
      ∃ item, host.shape = .list [item] ∧ item.shape = .nested a := by
    rintro _ (_ | _)
    · exact Or.inl rfl
    · exact Or.inr ⟨.host (.nested a), rfl, rfl⟩
  cases raw with
  | host host => exact hhost h
  | expr e =>
    cases h with
    | self => exact Or.inl rfl
    | list => exact Or.inr ⟨.expr (.nested a), rfl, rfl⟩
    | listOfValue => exact Or.inr ⟨.expr (.value (.nested a)), rfl, rfl⟩
    | value h => exact hhost h

/-- Whichever way it is written down, a container is seen to hold the annotation. -/
theorem RawValue.annotations?_of_spellsOne {raw : RawValue} (h : raw.SpellsOne a) :
    raw.shape.annotations? = some [a] := by
  rcases shape_eq_of_spellsOne h with hs | ⟨item, hs, hitem⟩
  · rw [hs]
    rfl
  · rw [hs, RawShape.annotations?, List.mapM_cons, List.mapM_nil, hitem]
    rfl

theorem RawValue.holds_iff_of_spellsOne {raw : RawValue} (h : raw.SpellsOne a)
    {inner : AnnotationInstance} : raw.Holds inner ↔ a.Holds inner := by
  rw [holds_iff]
  rcases shape_eq_of_spellsOne h with hs | ⟨item, hs, hitem⟩
  · rw [hs]
    rfl
  · have hi : item.Holds inner ↔ a.Holds inner := by
      rw [holds_iff, hitem]
      rfl
    rw [hs, ← hi]
    exact ⟨fun ⟨_, hmem, h⟩ => List.mem_singleton.mp hmem ▸ h,
      fun h => ⟨item, List.mem_singleton_self _, h⟩⟩

end

namespace Model

variable {m : Model} {member : Option DeclId}

theorem listFor_singleton (a : NestedAnnotation) :
    m.listFor member [.nested a] = ⟨.nested, [.nested a]⟩ := by
  rw [listFor]
  cases m.itemType? member <;> rfl

theorem wrapAnnotation_of_isSome (hm : (m.itemType? member).isSome) (a : NestedAnnotation) :
    m.wrapAnnotation member false a = .list ⟨.nested, [.nested a]⟩ := by
  rw [Model.wrapAnnotation, hm]
  rfl

/-- **All spellings of an annotation are read as the same**, over one more level at most. -/
theorem Reads.spellsOne (hm : (m.itemType? member).isSome) {a : AnnotationInstance}
    {value : Option Value} {height : Nat} (h : m.Reads member false (.expr (.nested a)) value height)
    {raw : RawValue} (hraw : raw.SpellsOne a) :
    ∃ n ≤ height + 1, m.Reads member false raw value n := by
  cases h with
  | @nested _ _ _ found read heights hs hmembers =>
    obtain rfl : a = found := RawShape.nested.inj hs
    rcases RawValue.shape_eq_of_spellsOne hraw with hshape | ⟨item, hshape, hitem⟩
    · exact ⟨_, Nat.le_succ _, .nested hshape hmembers⟩
    · -- As an item the annotation is not wrapped; the list around it is what wrapping gives.
      have hlist := @Reads.list m member false raw [item]
        (fun _ => some (.nested (m.nestedAnnotation read a))) (fun _ => _) hshape fun part hp => by
          obtain rfl := List.mem_singleton.mp hp
          exact .nested hitem hmembers
      rw [List.filterMap_cons, List.filterMap_nil, listFor_singleton] at hlist
      rw [wrapAnnotation_of_isSome hm]
      exact ⟨_, Nat.le_refl _, hlist⟩
  | absent hs | complete hs | list hs | named hs | unresolved hs | enumName hs | stored hs => cases hs

/-! ## Spellings further in -/

/-- Two spellings of a raw value where so many levels are left to read: lists are put around single
annotations for array members, or taken away, one after another and here or further in.  Each of the
annotations is read with a level to spare where it is. -/
inductive SpelledAlike (m : Model) : Nat → Option DeclId → Bool → RawValue → RawValue → Prop
  | same {levels : Nat} {member : Option DeclId} {inList : Bool} (raw : RawValue) :
      SpelledAlike m levels member inList raw raw
  | trans {levels : Nat} {member : Option DeclId} {inList : Bool} {raw between raw' : RawValue} :
      SpelledAlike m levels member inList raw between →
      SpelledAlike m levels member inList between raw' →
      SpelledAlike m levels member inList raw raw'
  | single {levels : Nat} {member : Option DeclId} {raw raw' : RawValue} {a : AnnotationInstance}
      {value : Option Value} {height : Nat} : raw.SpellsOne a → raw'.SpellsOne a →
      (m.itemType? member).isSome → m.Reads member false (.expr (.nested a)) value height →
      height + 1 ≤ levels → SpelledAlike m levels member false raw raw'
  | member {levels : Nat} {member : Option DeclId} {inList : Bool} {raw raw' : RawValue}
      {annotationType name : String} {e e' : Expr} {before after : List (String × Expr)} :
      raw.shape = .nested ⟨annotationType, ⟨before ++ (name, e) :: after⟩⟩ →
      raw'.shape = .nested ⟨annotationType, ⟨before ++ (name, e') :: after⟩⟩ →
      SpelledAlike m levels (m.annotationMember? annotationType name) false (.expr e) (.expr e') →
      SpelledAlike m (levels + 1) member inList raw raw'
  | item {levels : Nat} {member : Option DeclId} {inList : Bool} {raw raw' part part' : RawValue}
      {before after : List RawValue} : raw.shape = .list (before ++ part :: after) →
      raw'.shape = .list (before ++ part' :: after) → SpelledAlike m levels member true part part' →
      SpelledAlike m (levels + 1) member inList raw raw'
  | named {levels : Nat} {member : Option DeclId} {inList : Bool} {raw raw' inner inner' : RawValue} :
      raw.shape = .named inner → raw'.shape = .named inner' →
      SpelledAlike m levels member inList inner inner' →
      SpelledAlike m (levels + 1) member inList raw raw'

/-- **All spellings are read as the same**, and so they are with more levels. -/
theorem SpelledAlike.readWithin_eq {levels more : Nat} {inList : Bool} {raw raw' : RawValue}
    (h : m.SpelledAlike levels member inList raw raw') (hle : levels ≤ more) :
    m.readWithin more member inList raw' = m.readWithin more member inList raw := by
  induction h generalizing more with
  | same => rfl
  | trans _ _ ih ih' => exact (ih' hle).trans (ih hle)
  | @single levels member _ _ a value height hraw hraw' hm hreads hheight =>
    have hread : ∀ {raw : RawValue}, raw.SpellsOne a →
        m.readWithin more member false raw = value := by
      intro raw hraw
      obtain ⟨n, hn, hr⟩ := hreads.spellsOne hm hraw
      exact hr.readWithin_eq (Nat.le_trans hn (Nat.le_trans hheight hle))
    exact (hread hraw').trans (hread hraw).symm
  | member hs hs' _ ih =>
    obtain ⟨k, rfl⟩ := Nat.exists_eq_add_one_of_ne_zero (Nat.ne_zero_of_lt hle)
    rw [readWithin, readWithin, hs, hs']
    simp only [Model.nestedAnnotation, List.filterMap_append, List.filterMap_cons,
      ih (Nat.le_of_succ_le_succ hle)]
  | item hs hs' _ ih =>
    obtain ⟨k, rfl⟩ := Nat.exists_eq_add_one_of_ne_zero (Nat.ne_zero_of_lt hle)
    rw [readWithin, readWithin, hs, hs']
    simp only [List.filterMap_append, List.filterMap_cons, ih (Nat.le_of_succ_le_succ hle)]
  | named hs hs' _ ih =>
    obtain ⟨k, rfl⟩ := Nat.exists_eq_add_one_of_ne_zero (Nat.ne_zero_of_lt hle)
    rw [readWithin, readWithin, hs, hs']
    exact ih (Nat.le_of_succ_le_succ hle)

/-- Members are named once in the one spelling if they are in the other. -/
theorem SpelledAlike.namesDistinct {levels : Nat} {inList : Bool} {raw raw' : RawValue}
    (h : m.SpelledAlike levels member inList raw raw')
    (hn : ∀ inner, raw.Holds inner → inner.NamesDistinct) :
    ∀ inner, raw'.Holds inner → inner.NamesDistinct := by
  induction h with
  | same => exact hn
  | trans _ _ ih ih' => exact ih' (ih hn)
  | single hraw hraw' =>
    intro inner hi
    rw [RawValue.holds_iff_of_spellsOne hraw'] at hi
    exact hn inner ((RawValue.holds_iff_of_spellsOne hraw).mpr hi)
  | @member _ _ _ _ _ annotationType name e e' before after hs hs' _ ih =>
    simp only [RawValue.holds_iff, hs] at hn
    intro inner hi
    rw [RawValue.holds_iff, hs'] at hi
    obtain ⟨hbefore, he, hafter⟩ : _ ∧ _ ∧ _ := by
      simpa only [List.forall_mem_append, List.forall_mem_cons] using
        AnnotationInstance.namesDistinct_of_mem_entries hn
    refine AnnotationInstance.namesDistinct_of_names_eq (hn _ (.self _)) ?_ ?_ inner hi
    · simp only [Members.names, List.map_append, List.map_cons]
    · exact List.forall_mem_append.mpr ⟨hbefore, List.forall_mem_cons.mpr ⟨ih he, hafter⟩⟩
  | @item _ _ _ _ _ part part' before after hs hs' _ ih =>
    simp only [RawValue.holds_iff, hs] at hn
    intro inner hi
    rw [RawValue.holds_iff, hs'] at hi
    obtain ⟨found, hfound, hi⟩ := hi
    have hparts : ∀ p ∈ before ++ part :: after, ∀ inner, p.Holds inner → inner.NamesDistinct :=
      fun p hp inner hi => hn inner ⟨p, hp, hi⟩
    rw [List.forall_mem_append, List.forall_mem_cons] at hparts
    obtain ⟨hbefore, hpart, hafter⟩ := hparts
    have hparts' : ∀ p ∈ before ++ part' :: after, ∀ inner, p.Holds inner → inner.NamesDistinct :=
      List.forall_mem_append.mpr ⟨hbefore, List.forall_mem_cons.mpr ⟨ih hpart, hafter⟩⟩
    exact hparts' found hfound inner hi
  | named hs hs' _ ih =>
    simp only [RawValue.holds_iff, hs] at hn
    intro inner hi
    rw [RawValue.holds_iff, hs'] at hi
    exact ih hn inner hi

end Model

theorem Environment.readValue_of_spellsOne {env : Environment} {member : Option DeclId}
    (hm : (env.model.itemType? member).isSome) {a : AnnotationInstance} {value : Option Value}
    {height : Nat} (h : env.model.Reads member false (.expr (.nested a)) value height)
    (hle : height + 1 ≤ env.config.maxValueDepth) {raw : RawValue} (hraw : raw.SpellsOne a) :
    env.readValue member raw = value := by
  obtain ⟨n, hn, hr⟩ := h.spellsOne hm hraw
  exact hr.readWithin_eq (Nat.le_trans hn hle)

end AnnotationResolution
