import Mathlib.Logic.Relation
import Mathlib.Tactic.Choose
import AnnotationResolution.Proofs.Value.Homogeneous

/-!
# Reading without a limit

`Model.Reads` is what a raw value is read as when it is followed to its end: into lists, annotations
and variables, and on to the constants that it refers to.  It comes with a height, the number of
levels that are gone through.  Not every raw value has an end, for constants may refer to each other
in a circle; those that have one are those whose parts cannot be followed for ever
(`exists_reads_iff`).

* `Reads.readWithin_eq`: with at least as many levels as the height, nothing is missing.
* `nesting_le_of_readWithin`: annotations lie in each other at most as deep as there are levels.
* `readWithin_chain`, `readWithin_eq_none_of_endless`: a chain of constants takes a level for each of
  them and one for the value at its end; a chain without an end has no value.
* `readValue_limited`: so the limit cuts values off, and never changes one.
-/

namespace AnnotationResolution

/-- The greatest of some heights, zero if there are none. -/
def highest (heights : List Nat) : Nat := heights.foldr max 0

theorem le_highest {height : Nat} {heights : List Nat} (h : height ∈ heights) :
    height ≤ highest heights := by
  induction heights with
  | nil => cases h
  | cons first rest ih =>
    rcases List.mem_cons.mp h with rfl | hr
    · exact Nat.le_max_left _ _
    · exact Nat.le_trans (ih hr) (Nat.le_max_right _ _)

namespace Model

/-! ## Following a raw value to its end -/

/-- What a raw value for a member is read as, without a limit, and over how many levels. -/
inductive Reads (m : Model) : Option DeclId → Bool → RawValue → Option Value → Nat → Prop
  | absent {member : Option DeclId} {inList : Bool} {raw : RawValue} : raw.shape = .absent →
      Reads m member inList raw none 1
  | complete {member : Option DeclId} {inList : Bool} {raw : RawValue} {v : Value} :
      raw.shape = .complete v → Reads m member inList raw (some v) 1
  | nested {member : Option DeclId} {inList : Bool} {raw : RawValue} {a : AnnotationInstance}
      {read : Option DeclId → RawValue → Option Value} {height : String × Expr → Nat} :
      raw.shape = .nested a →
      (∀ entry ∈ a.members.entries, Reads m (m.annotationMember? a.annotationType entry.1) false
        (.expr entry.2) (read (m.annotationMember? a.annotationType entry.1) (.expr entry.2))
        (height entry)) →
      Reads m member inList raw
        (some (m.wrapAnnotation member inList (m.nestedAnnotation read a)))
        (highest (a.members.entries.map height) + 1)
  | list {member : Option DeclId} {inList : Bool} {raw : RawValue} {items : List RawValue}
      {read : RawValue → Option Value} {height : RawValue → Nat} : raw.shape = .list items →
      (∀ item ∈ items, Reads m member true item (read item) (height item)) →
      Reads m member inList raw (some (.list (m.listFor member (items.filterMap read))))
        (highest (items.map height) + 1)
  | named {member : Option DeclId} {inList : Bool} {raw inner : RawValue} {v : Option Value}
      {height : Nat} : raw.shape = .named inner → Reads m member inList inner v height →
      Reads m member inList raw v (height + 1)
  | unresolved {member : Option DeclId} {inList : Bool} {raw : RawValue} {owner name : String} :
      raw.shape = .constant owner name → m.constant? owner name = none →
      Reads m member inList raw none 1
  | enumName {member : Option DeclId} {inList : Bool} {raw : RawValue} {owner name : String} :
      raw.shape = .constant owner name → m.constant? owner name = some .enumName →
      Reads m member inList raw (some (.str name)) 1
  | stored {member : Option DeclId} {inList : Bool} {raw inner : RawValue} {owner name : String}
      {v : Option Value} {height : Nat} : raw.shape = .constant owner name →
      m.constant? owner name = some (.stored inner) → Reads m none false inner v height →
      Reads m member inList raw v (height + 1)

variable {m : Model} {member : Option DeclId} {inList : Bool} {raw : RawValue}

theorem nestedAnnotation_congr {read read' : Option DeclId → RawValue → Option Value}
    {a : AnnotationInstance}
    (h : ∀ entry ∈ a.members.entries,
      read (m.annotationMember? a.annotationType entry.1) (.expr entry.2) =
        read' (m.annotationMember? a.annotationType entry.1) (.expr entry.2)) :
    m.nestedAnnotation read a = m.nestedAnnotation read' a := by
  rw [Model.nestedAnnotation, Model.nestedAnnotation]
  refine congrArg₂ NestedAnnotation.mk rfl (congrArg Members.ofList ?_)
  exact List.filterMap_congr fun entry he => congrArg (Option.map _) (h entry he)

theorem Reads.height_pos {v : Option Value} {height : Nat}
    (h : m.Reads member inList raw v height) : 0 < height := by
  cases h <;> exact Nat.succ_pos _

/-- **With as many levels as it takes, what is read is what there is.** -/
theorem Reads.readWithin_eq {v : Option Value} {height levels : Nat}
    (h : m.Reads member inList raw v height) (hle : height ≤ levels) :
    m.readWithin levels member inList raw = v := by
  induction levels generalizing member inList raw v height with
  | zero => exact absurd hle (Nat.not_le.mpr h.height_pos)
  | succ levels ih =>
    rw [readWithin]
    cases h with
    | absent hs => rw [hs]
    | complete hs => rw [hs]
    | nested hs hmembers =>
      simp only [hs]
      rw [nestedAnnotation_congr fun entry he => ih (hmembers entry he) <|
        Nat.le_trans (le_highest (List.mem_map_of_mem he)) (Nat.le_of_succ_le_succ hle)]
    | list hs hitems =>
      simp only [hs]
      rw [List.filterMap_congr fun item hi => ih (hitems item hi) <|
        Nat.le_trans (le_highest (List.mem_map_of_mem hi)) (Nat.le_of_succ_le_succ hle)]
    | named hs hinner =>
      rw [hs]
      exact ih hinner (Nat.le_of_succ_le_succ hle)
    | unresolved hs hc => simp only [hs, hc]
    | enumName hs hc => simp only [hs, hc]
    | stored hs hc hinner =>
      simp only [hs, hc]
      exact ih hinner (Nat.le_of_succ_le_succ hle)

/-- In another place a raw value may be read as something else, but not over more or fewer levels. -/
theorem Reads.elsewhere {v : Option Value} {height : Nat} (h : m.Reads member inList raw v height)
    (other : Option DeclId) (otherInList : Bool) :
    ∃ v', m.Reads other otherInList raw v' height := by
  induction h generalizing other otherInList with
  | absent hs => exact ⟨_, .absent hs⟩
  | complete hs => exact ⟨_, .complete hs⟩
  | nested hs hmembers _ => exact ⟨_, .nested hs hmembers⟩
  | list hs _ ih =>
    choose! read hread using fun item hi => ih item hi other true
    exact ⟨_, .list hs hread⟩
  | named hs _ ih =>
    obtain ⟨v', hv'⟩ := ih other otherInList
    exact ⟨v', .named hs hv'⟩
  | unresolved hs hc => exact ⟨_, .unresolved hs hc⟩
  | enumName hs hc => exact ⟨_, .enumName hs hc⟩
  | stored hs hc hinner _ => exact ⟨_, .stored hs hc hinner⟩

/-! ## Which raw values have an end -/

/-- What is followed when something of this shape is read. -/
def parts (m : Model) : RawShape → List RawValue
  | .absent | .complete _ => []
  | .nested a => a.members.entries.map fun entry => .expr entry.2
  | .list items => items
  | .named inner => [inner]
  | .constant owner name =>
    match m.constant? owner name with
    | some (.stored inner) => [inner]
    | some .enumName | none => []

/-- The first raw value is followed when the second one is read. -/
def Follows (m : Model) (part raw : RawValue) : Prop := part ∈ m.parts raw.shape

theorem Reads.acc {v : Option Value} {height : Nat} (h : m.Reads member inList raw v height) :
    Acc m.Follows raw := by
  induction h with
  | absent hs | complete hs | unresolved hs hc | enumName hs hc =>
    refine ⟨_, fun part hp => ?_⟩
    simp_all [Follows, parts]
  | nested hs _ ih =>
    refine ⟨_, fun part hp => ?_⟩
    rw [Follows, hs] at hp
    obtain ⟨entry, he, rfl⟩ := List.mem_map.mp hp
    exact ih entry he
  | list hs _ ih =>
    refine ⟨_, fun part hp => ?_⟩
    rw [Follows, hs] at hp
    exact ih part hp
  | named hs _ ih =>
    refine ⟨_, fun part hp => ?_⟩
    rw [Follows, hs] at hp
    obtain rfl := List.mem_singleton.mp hp
    exact ih
  | @stored _ _ _ inner _ _ _ _ hs hc _ ih =>
    refine ⟨_, fun part hp => ?_⟩
    obtain rfl : part = inner := by simpa [Follows, parts, hs, hc] using hp
    exact ih

/-- **What cannot be followed for ever is read to its end**, and nothing else is. -/
theorem exists_reads_iff :
    (∃ v height, m.Reads member inList raw v height) ↔ Acc m.Follows raw := by
  constructor
  · rintro ⟨v, height, h⟩
    exact h.acc
  · intro h
    induction h generalizing member inList with
    | intro raw _ ih =>
      -- Each part is read wherever it stands.
      have hpart : ∀ part member inList, part ∈ m.parts raw.shape →
          ∃ v height, m.Reads member inList part v height := fun part _ _ hp => ih part hp
      choose! read height hread using hpart
      cases hs : raw.shape with
      | absent => exact ⟨_, _, .absent hs⟩
      | complete v => exact ⟨_, _, .complete hs⟩
      | nested a =>
        rw [hs] at hread
        exact ⟨_, _, @Reads.nested m member inList raw a (fun member part => read part member false)
          _ hs fun entry he => hread _ _ _ (List.mem_map_of_mem he)⟩
      | list items =>
        rw [hs] at hread
        exact ⟨_, _, .list hs fun item hi => hread item member true hi⟩
      | named inner =>
        rw [hs] at hread
        exact ⟨_, _, .named hs (hread inner member inList (List.mem_singleton_self _))⟩
      | constant owner name =>
        cases hc : m.constant? owner name with
        | none => exact ⟨_, _, .unresolved hs hc⟩
        | some constant =>
          cases constant with
          | enumName => exact ⟨_, _, .enumName hs hc⟩
          | stored inner =>
            have hinner : inner ∈ m.parts raw.shape := by simp [parts, hs, hc]
            exact ⟨_, _, .stored hs hc (hread inner none false hinner)⟩

end Model

/-! ## Annotations in annotations -/

mutual

/-- How deep annotations lie in each other in a value. -/
def Value.nesting : Value → Nat
  | .nested a => a.nesting
  | .list items => items.nesting
  | .str _ | .int _ | .float _ | .bool _ | .char _ | .enumConstant _ _ | .classRef _ => 0

def NestedAnnotation.nesting : NestedAnnotation → Nat
  | ⟨_, ⟨entries⟩⟩ => Value.nestingInEntries entries + 1

def ValueList.nesting : ValueList → Nat
  | ⟨_, items⟩ => Value.nestingIn items

def Value.nestingIn : List Value → Nat
  | [] => 0
  | v :: rest => max v.nesting (Value.nestingIn rest)

def Value.nestingInEntries : List (String × Value) → Nat
  | [] => 0
  | (_, v) :: rest => max v.nesting (Value.nestingInEntries rest)

end

/-- What is neither a list nor an annotation has none in it. -/
theorem Value.nesting_eq_zero {v : Value} (hl : v.asList? = none) (ha : v.asAnnotation? = none) :
    v.nesting = 0 := by
  cases v with
  | list items => cases hl
  | nested a => cases ha
  | _ => rfl

theorem ValueList.nesting_le_iff {list : ValueList} {depth : Nat} :
    list.nesting ≤ depth ↔ ∀ v ∈ list.items, v.nesting ≤ depth := by
  obtain ⟨component, items⟩ := list
  show Value.nestingIn items ≤ depth ↔ ∀ v ∈ items, v.nesting ≤ depth
  induction items with
  | nil => simp [Value.nestingIn]
  | cons v rest ih => rw [Value.nestingIn, Nat.max_le, ih, List.forall_mem_cons]

theorem NestedAnnotation.nesting_le_succ_iff {a : NestedAnnotation} {depth : Nat} :
    a.nesting ≤ depth + 1 ↔ ∀ v ∈ a.values.values, v.nesting ≤ depth := by
  obtain ⟨annotationType, ⟨entries⟩⟩ := a
  rw [nesting, Nat.succ_le_succ_iff]
  show _ ↔ ∀ v ∈ entries.map (·.2), v.nesting ≤ depth
  induction entries with
  | nil => simp [Value.nestingInEntries]
  | cons entry rest ih =>
    obtain ⟨name, v⟩ := entry
    rw [Value.nestingInEntries, Nat.max_le, ih, List.map_cons, List.forall_mem_cons]

/-- A conversion leaves an annotation as it is. -/
theorem Value.nesting_le_of_coerce? {component : Component} {v item : Value}
    (h : coerce? component v = some item) : item.nesting ≤ v.nesting := by
  unfold coerce? at h
  split at h
  · obtain rfl := Option.some.inj h
    exact Nat.le_refl _
  · split at h
    case h_9 => cases h
    all_goals
      obtain rfl := Option.some.inj h
      exact Nat.zero_le _

namespace ValueList

variable {values : List Value} {depth : Nat}

theorem nesting_ofKind_le (component : Component) (h : ∀ v ∈ values, v.nesting ≤ depth) :
    (ofKind component values).nesting ≤ depth := by
  refine nesting_le_iff.mpr fun item hi => ?_
  obtain ⟨v, hv, hc⟩ := List.mem_filterMap.mp hi
  exact Nat.le_trans (Value.nesting_le_of_coerce? hc) (h v hv)

theorem nesting_infer_le (h : ∀ v ∈ values, v.nesting ≤ depth) : (infer values).nesting ≤ depth := by
  refine nesting_ofKind_le _ fun item hi => ?_
  obtain ⟨v, hv, hitem⟩ := List.mem_flatMap.mp hi
  cases v with
  | list inner => exact nesting_le_iff.mp (h _ hv) item hitem
  | str _ | int _ | float _ | bool _ | char _ | enumConstant _ _ | classRef _ | nested _ =>
    obtain rfl := List.mem_singleton.mp hitem
    exact h _ hv

end ValueList

namespace Model

variable {m : Model} {member : Option DeclId} {inList : Bool} {raw : RawValue} {depth : Nat}

theorem nesting_listFor_le {values : List Value} (h : ∀ v ∈ values, v.nesting ≤ depth) :
    (m.listFor member values).nesting ≤ depth := by
  have hinfer := ValueList.nesting_infer_le h
  have hitems := ValueList.nesting_le_iff.mp hinfer
  rw [listFor]
  dsimp only
  split
  · exact hinfer
  · split
    · exact ValueList.nesting_le_iff.mpr hitems
    · split
      · exact ValueList.nesting_ofKind_le _ hitems
      · exact hinfer

theorem nesting_wrapAnnotation_le {a : NestedAnnotation} (h : a.nesting ≤ depth) :
    (m.wrapAnnotation member inList a).nesting ≤ depth := by
  rw [Model.wrapAnnotation]
  split
  · refine ValueList.nesting_le_iff.mpr fun v hv => ?_
    obtain rfl := List.mem_singleton.mp hv
    exact h
  · exact h

theorem nesting_nestedAnnotation_le {read : Option DeclId → RawValue → Option Value}
    (h : ∀ member raw v, read member raw = some v → v.nesting ≤ depth) (a : AnnotationInstance) :
    (m.nestedAnnotation read a).nesting ≤ depth + 1 := by
  refine NestedAnnotation.nesting_le_succ_iff.mpr fun v hv => ?_
  rcases Members.mem_values_of_insertAll (m := ∅) hv with hempty | hread
  · cases hempty
  · obtain ⟨entry, he, rfl⟩ := List.mem_map.mp hread
    obtain ⟨⟨name, e⟩, -, hr⟩ := List.mem_filterMap.mp he
    obtain ⟨value, hvalue, rfl⟩ := Option.map_eq_some_iff.mp hr
    exact h _ _ _ hvalue

/-- **Annotations lie in each other at most as deep as levels are read.** -/
theorem nesting_le_of_readWithin {levels : Nat} {v : Value}
    (h : m.readWithin levels member inList raw = some v) : v.nesting ≤ levels := by
  induction levels generalizing member inList raw v with
  | zero => cases h
  | succ levels ih =>
    rw [readWithin] at h
    split at h
    · cases h
    · next value hs =>
      cases h
      obtain ⟨hlist, hnested⟩ := RawValue.simple_of_shape_eq_complete hs
      rw [Value.nesting_eq_zero hlist hnested]
      exact Nat.zero_le _
    · cases h
      exact nesting_wrapAnnotation_le (nesting_nestedAnnotation_le (fun _ _ _ hr => ih hr) _)
    · cases h
      refine Nat.le_succ_of_le (nesting_listFor_le fun item hi => ?_)
      obtain ⟨part, -, hr⟩ := List.mem_filterMap.mp hi
      exact ih hr
    · exact Nat.le_succ_of_le (ih h)
    · split at h
      · cases h
      · cases h
        exact Nat.zero_le _
      · exact Nat.le_succ_of_le (ih h)

end Model

/-! ## Chains of constants -/

/-- The name of a constant. -/
structure ConstantRef where
  owner : String
  name : String

def ConstantRef.expr (c : ConstantRef) : Expr := .qualified c.owner c.name

namespace Model

/-- The initializer of the first constant is a reference to the second one. -/
def RefersTo (m : Model) (c next : ConstantRef) : Prop :=
  m.constant? c.owner c.name = some (.stored (.expr next.expr))

/-- The constant stands for a value that is written down there. -/
def StandsFor (m : Model) (c : ConstantRef) (v : Value) : Prop :=
  ∃ raw : RawValue, m.constant? c.owner c.name = some (.stored raw) ∧ raw.shape = .complete v

variable {m : Model} {member : Option DeclId} {inList : Bool}

theorem readWithin_of_stored {raw inner : RawValue} {owner name : String}
    (hs : raw.shape = .constant owner name) (hc : m.constant? owner name = some (.stored inner))
    (levels : Nat) :
    m.readWithin (levels + 1) member inList raw = m.readWithin levels none false inner := by
  rw [readWithin]
  simp only [hs, hc]

theorem readWithin_of_standsFor {c : ConstantRef} {v : Value} (h : m.StandsFor c v) (levels : Nat) :
    m.readWithin levels member inList (.expr c.expr) = if 1 < levels then some v else none := by
  obtain ⟨raw, hc, hs⟩ := h
  match levels with
  | 0 => rfl
  | 1 => exact readWithin_of_stored rfl hc 0
  | levels + 2 =>
    rw [readWithin_of_stored rfl hc, readWithin, hs, if_pos (Nat.lt_add_left levels Nat.one_lt_two)]

/-- **A chain of constants is as long as the levels that it takes**, and there has to be one more for
the value at its end. -/
theorem readWithin_chain {first : ConstantRef} {rest : List ConstantRef} {v : Value}
    (hchain : (first :: rest).IsChain m.RefersTo)
    (hlast : ∀ last ∈ (first :: rest).getLast?, m.StandsFor last v) (levels : Nat) :
    m.readWithin levels member inList (.expr first.expr) =
      if (first :: rest).length < levels then some v else none := by
  induction rest generalizing first levels member inList with
  | nil => exact readWithin_of_standsFor (hlast first rfl) levels
  | cons second rest ih =>
    obtain ⟨hfirst, hrest⟩ := List.isChain_cons_cons.mp hchain
    cases levels with
    | zero => rfl
    | succ levels =>
      rw [readWithin_of_stored rfl hfirst, ih hrest (by simpa using hlast)]
      simp only [List.length_cons, Nat.add_lt_add_iff_right]

/-- Where each constant refers to a further one, none has a value. -/
theorem readWithin_eq_none_of_endless (endless : ConstantRef → Prop)
    (h : ∀ c, endless c → ∃ next, endless next ∧ m.RefersTo c next) {c : ConstantRef}
    (hc : endless c) (levels : Nat) : m.readWithin levels member inList (.expr c.expr) = none := by
  induction levels generalizing c member inList with
  | zero => rfl
  | succ levels ih =>
    obtain ⟨next, hnext, hrefers⟩ := h c hc
    rw [readWithin_of_stored rfl hrefers]
    exact ih hnext

/-- A chain of constants that comes into a circle has no end. -/
theorem readWithin_eq_none_of_circle {c back : ConstantRef}
    (hc : Relation.ReflTransGen m.RefersTo c back) (hback : Relation.TransGen m.RefersTo back back)
    (levels : Nat) : m.readWithin levels member inList (.expr c.expr) = none := by
  refine readWithin_eq_none_of_endless (Relation.ReflTransGen m.RefersTo · back)
    (fun c hc => ?_) hc levels
  -- At the constant where the circle closes, the way goes on along the circle.
  obtain ⟨next, hnext, hrest⟩ := Relation.TransGen.head'_iff.mp (.trans_right hc hback)
  exact ⟨next, hrest, hnext⟩

end Model

namespace Environment

/-- **The limit cuts values off, and never changes one.**  A raw value whose reading without a limit
is no higher than the limit is read as just that, so it is the same under every larger limit.  In what
is read, annotations lie in each other no deeper than the limit.  A chain of constants is read as the
value at its end if the limit exceeds the number of its constants, and has no value otherwise; a chain
that comes into a circle has none under any limit. -/
theorem readValue_limited (m : Model) :
    (∀ member raw value height, m.Reads member false raw value height →
      ∀ config : Config, height ≤ config.maxValueDepth →
        (⟨m, config⟩ : Environment).readValue member raw = value) ∧
    (∀ (config : Config) member raw v,
      (⟨m, config⟩ : Environment).readValue member raw = some v →
        v.nesting ≤ config.maxValueDepth) ∧
    (∀ first rest v, (first :: rest).IsChain m.RefersTo →
      (∀ last ∈ (first :: rest).getLast?, m.StandsFor last v) → ∀ (config : Config) member,
        (⟨m, config⟩ : Environment).readValue member (.expr first.expr) =
          if (first :: rest).length < config.maxValueDepth then some v else none) ∧
    ∀ c back, Relation.ReflTransGen m.RefersTo c back → Relation.TransGen m.RefersTo back back →
      ∀ (config : Config) member,
        (⟨m, config⟩ : Environment).readValue member (.expr c.expr) = none :=
  ⟨fun _ _ _ _ h _ hle => h.readWithin_eq hle, fun _ _ _ _ h => Model.nesting_le_of_readWithin h,
    fun _ _ _ hchain hlast config _ => Model.readWithin_chain hchain hlast config.maxValueDepth,
    fun _ _ hc hback config _ => Model.readWithin_eq_none_of_circle hc hback config.maxValueDepth⟩

/-- Constants that refer to each other, two of them in a circle. -/
def limitsModel : Model :=
  { declarations := #[
      ⟨"a.Limits", none, [], .type { fields := [⟨1⟩, ⟨2⟩, ⟨3⟩, ⟨4⟩] }⟩,
      ⟨"MAX", some ⟨0⟩, [],
        .field { isStatic := true, initializer := some (.qualified "a.Limits" "HIGH") }⟩,
      ⟨"HIGH", some ⟨0⟩, [], .field { isStatic := true, constantValue := some (.int 5) }⟩,
      ⟨"THIS", some ⟨0⟩, [],
        .field { isStatic := true, initializer := some (.qualified "a.Limits" "THAT") }⟩,
      ⟨"THAT", some ⟨0⟩, [],
        .field { isStatic := true, initializer := some (.qualified "a.Limits" "THIS") }⟩]
    types := ⟨[("a.Limits", ⟨0⟩)]⟩ }

/-- A list with a chain of two constants has a height of four, the chain by itself needs three levels,
and the circle has no value. -/
theorem readValue_limited_limitsModel :
    (⟨limitsModel, { maxValueDepth := 4 }⟩ : Environment).readValue none
        (.expr (.list [.qualified "a.Limits" "MAX", .qualified "a.Limits" "MAX"])) =
      some (.list ⟨.int, [.int 5, .int 5]⟩) ∧
    (Value.list ⟨.nested, [.nested ⟨"a.Range", ∅⟩]⟩).nesting ≤ 2 ∧
    (⟨limitsModel, { maxValueDepth := 3 }⟩ : Environment).readValue none
        (.expr (.qualified "a.Limits" "MAX")) = some (.int 5) ∧
    (⟨limitsModel, { maxValueDepth := 2 }⟩ : Environment).readValue none
        (.expr (.qualified "a.Limits" "MAX")) = none ∧
    (⟨limitsModel, {}⟩ : Environment).readValue none
        (.expr (.qualified "a.Limits" "THIS")) = none := by
  obtain ⟨hreads, hnesting, hchain, hcircle⟩ := readValue_limited limitsModel
  have hmax : limitsModel.Reads none true (.expr (.qualified "a.Limits" "MAX"))
      (some (.int 5)) 3 := .stored rfl rfl (.stored rfl rfl (.complete rfl))
  have hlist : limitsModel.Reads none false
      (.expr (.list [.qualified "a.Limits" "MAX", .qualified "a.Limits" "MAX"]))
      (some (.list ⟨.int, [.int 5, .int 5]⟩)) 4 := by
    have hs : (RawValue.expr (.list [.qualified "a.Limits" "MAX", .qualified "a.Limits" "MAX"])).shape
        = .list [.expr (.qualified "a.Limits" "MAX"), .expr (.qualified "a.Limits" "MAX")] := rfl
    refine @Model.Reads.list _ _ _ _ _ (fun _ => some (.int 5)) (fun _ => 3) hs fun item hi => ?_
    rw [List.mem_pair, or_self] at hi
    rw [hi]
    exact hmax
  have hlinked : [ConstantRef.mk "a.Limits" "MAX", ⟨"a.Limits", "HIGH"⟩].IsChain
      limitsModel.RefersTo :=
    List.isChain_cons_cons.mpr ⟨rfl, .singleton _⟩
  have hend : ∀ last ∈ [ConstantRef.mk "a.Limits" "MAX", ⟨"a.Limits", "HIGH"⟩].getLast?,
      limitsModel.StandsFor last (.int 5) := by
    intro last hl
    obtain rfl := Option.some.inj hl
    exact ⟨_, rfl, rfl⟩
  have hthis : Relation.TransGen limitsModel.RefersTo ⟨"a.Limits", "THIS"⟩ ⟨"a.Limits", "THIS"⟩ :=
    .tail (.single (show limitsModel.RefersTo _ ⟨"a.Limits", "THAT"⟩ from rfl)) rfl
  exact ⟨hreads _ _ _ _ hlist { maxValueDepth := 4 } (Nat.le_refl 4),
    hnesting { maxValueDepth := 2 } none (.expr (.list [.nested ⟨"a.Range", ∅⟩])) _ rfl,
    hchain _ _ _ hlinked hend { maxValueDepth := 3 } none,
    hchain _ _ _ hlinked hend { maxValueDepth := 2 } none, hcircle _ _ .refl hthis {} none⟩

end Environment

end AnnotationResolution
