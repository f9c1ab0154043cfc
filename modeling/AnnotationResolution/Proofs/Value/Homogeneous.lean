import AnnotationResolution.Defaults
import AnnotationResolution.Proofs.Members

/-!
# Lists of one kind, inside out

A list that is read is of one kind: no list is among its items, each item has the kind that the list
says, and the kind is unknown only if there is no item (`ValueList.Homogeneous`).  A value is *flat*
if all lists that lie in it are like this, at whatever depth.

Flatness goes from the inside out.  When lists are joined to one, what is left of an inner list are
its items, and they are no lists because the inner list was flat before; so the items that
`ValueList.infer` looks at are never lists (`of_mem_items`), and conversion does not make lists of
them (`of_coerce?_eq_some`).

* `flat_infer`, `flat_listFor`: lists of flat values are flat.
* `flat_readWithin`: every value that is read is flat, by induction on the levels.
* `flat_of_mem_defaultValues`: so are the defaults.
-/

namespace AnnotationResolution

mutual

/-- A list lies in a value, or is that value. -/
inductive Value.HoldsList : Value → ValueList → Prop
  | self (list : ValueList) : Value.HoldsList (.list list) list
  | item {list inner : ValueList} {v : Value} : v ∈ list.items → Value.HoldsList v inner →
      Value.HoldsList (.list list) inner
  | nested {a : NestedAnnotation} {inner : ValueList} : NestedAnnotation.HoldsList a inner →
      Value.HoldsList (.nested a) inner

/-- A list lies in a value of an annotation. -/
inductive NestedAnnotation.HoldsList : NestedAnnotation → ValueList → Prop
  | value {a : NestedAnnotation} {inner : ValueList} {v : Value} : v ∈ a.values.values →
      Value.HoldsList v inner → NestedAnnotation.HoldsList a inner

end

/-- A list of one kind, without lists among its items. -/
structure ValueList.Homogeneous (list : ValueList) : Prop where
  asList?_eq_none : ∀ v ∈ list.items, v.asList? = none
  component_eq : ∀ v ∈ list.items, v.component = list.component
  items_eq_nil : list.component = .unknown → list.items = []

/-- All lists in the value are of one kind. -/
def Value.Flat (v : Value) : Prop := ∀ list, v.HoldsList list → list.Homogeneous

def NestedAnnotation.Flat (a : NestedAnnotation) : Prop :=
  ∀ list, a.HoldsList list → list.Homogeneous

/-! ## Parts of a flat value -/

namespace Value

theorem flat_list_iff {list : ValueList} :
    (Value.list list).Flat ↔ list.Homogeneous ∧ ∀ v ∈ list.items, v.Flat := by
  constructor
  · intro h
    exact ⟨h list (.self list), fun v hv inner hi => h inner (.item hv hi)⟩
  · rintro ⟨hlist, hitems⟩ inner hi
    cases hi with
    | self => exact hlist
    | item hv hi => exact hitems _ hv inner hi

theorem flat_nested_iff {a : NestedAnnotation} : (Value.nested a).Flat ↔ a.Flat := by
  constructor
  · exact fun h inner hi => h inner (.nested hi)
  · intro h inner hi
    cases hi with
    | nested hi => exact h inner hi

/-- What is neither a list nor an annotation has no parts. -/
theorem flat_of_simple {v : Value} (hl : v.asList? = none) (ha : v.asAnnotation? = none) :
    v.Flat := by
  intro inner hi
  cases hi with
  | self | item => cases hl
  | nested => cases ha

/-- Only lists can be of unknown kind. -/
theorem component_ne_unknown {v : Value} (h : v.asList? = none) : v.component ≠ .unknown := by
  cases v with
  | list inner => cases h
  | str _ | int _ | float _ | bool _ | char _ | enumConstant _ _ | classRef _ | nested _ =>
    exact Component.noConfusion

end Value

theorem NestedAnnotation.flat_iff {a : NestedAnnotation} :
    a.Flat ↔ ∀ v ∈ a.values.values, v.Flat := by
  constructor
  · exact fun h v hv inner hi => h inner (.value hv hi)
  · intro h inner hi
    cases hi with
    | value hv hi => exact h _ hv inner hi

/-! ## Joining values to a list -/

namespace Value

/-- The items that a flat value stands for are flat, and no lists. -/
theorem of_mem_items {v item : Value} (h : v.Flat) (hi : item ∈ v.items) :
    item.asList? = none ∧ item.Flat := by
  cases v with
  | list inner =>
    obtain ⟨hinner, hitems⟩ := flat_list_iff.mp h
    exact ⟨hinner.asList?_eq_none item hi, hitems item hi⟩
  | str _ | int _ | float _ | bool _ | char _ | enumConstant _ _ | classRef _ | nested _ =>
    obtain rfl := List.mem_singleton.mp hi
    exact ⟨rfl, h⟩

/-- A converted value has the kind asked for.  What is no list stays no list. -/
theorem of_coerce?_eq_some {component : Component} {v item : Value}
    (h : coerce? component v = some item) :
    item.component = component ∧ (v.asList? = none → item.asList? = none) ∧ (v.Flat → item.Flat) := by
  unfold coerce? at h
  split at h
  · next he =>
    obtain rfl := Option.some.inj h
    exact ⟨he, id, id⟩
  · -- All other conversions give a string, a class or a number.
    split at h
    case h_9 => cases h
    all_goals
      obtain rfl := Option.some.inj h
      exact ⟨rfl, fun _ => rfl, fun _ => flat_of_simple rfl rfl⟩

end Value

namespace Component

theorem widen_ne_unknown (current : Component) {item : Component} (h : item ≠ unknown) :
    widen current item ≠ unknown := by
  rw [widen]
  split
  · exact h
  · next hc =>
    split
    · exact Component.noConfusion
    · exact fun he => hc (Or.inl he)

/-- As soon as there is an item, the kind of the list is known. -/
theorem eq_nil_of_ofItems_eq_unknown {values : List Value} (h : ∀ v ∈ values, v.asList? = none)
    (hu : ofItems values = unknown) : values = [] := by
  rcases List.eq_nil_or_concat' values with rfl | ⟨before, last, rfl⟩
  · rfl
  · -- The last item alone decides that the kind is known.
    have hlast : last.component ≠ unknown := Value.component_ne_unknown (h last (by simp))
    rw [ofItems, List.foldl_append] at hu
    exact absurd hu (widen_ne_unknown _ hlast)

end Component

namespace ValueList

theorem flat_ofKind {component : Component} {values : List Value}
    (h : ∀ v ∈ values, v.asList? = none ∧ v.Flat) (hu : component = .unknown → values = []) :
    (Value.list (ofKind component values)).Flat := by
  have hitem : ∀ item ∈ (ofKind component values).items,
      item.component = component ∧ item.asList? = none ∧ item.Flat := by
    intro item hi
    obtain ⟨v, hv, hc⟩ := List.mem_filterMap.mp hi
    obtain ⟨hkind, hlist, hflat⟩ := Value.of_coerce?_eq_some hc
    exact ⟨hkind, hlist (h v hv).1, hflat (h v hv).2⟩
  refine Value.flat_list_iff.mpr ⟨⟨?_, ?_, ?_⟩, fun item hi => (hitem item hi).2.2⟩
  · exact fun item hi => (hitem item hi).2.1
  · exact fun item hi => (hitem item hi).1
  · intro he
    show values.filterMap _ = []
    rw [hu he, List.filterMap_nil]

/-- **A list of flat values is flat.** -/
theorem flat_infer {values : List Value} (h : ∀ v ∈ values, v.Flat) :
    (Value.list (infer values)).Flat := by
  have hitems : ∀ item ∈ values.flatMap Value.items, item.asList? = none ∧ item.Flat := by
    intro item hi
    obtain ⟨v, hv, hitem⟩ := List.mem_flatMap.mp hi
    exact Value.of_mem_items (h v hv) hitem
  exact flat_ofKind hitems
    (Component.eq_nil_of_ofItems_eq_unknown fun item hi => (hitems item hi).1)

end ValueList

/-! ## Reading -/

/-- A raw value that is complete is neither a list nor an annotation. -/
theorem RawValue.simple_of_shape_eq_complete {raw : RawValue} {v : Value}
    (h : raw.shape = .complete v) : v.asList? = none ∧ v.asAnnotation? = none := by
  have hhost : ∀ host : HostValue, host.shape = .complete v →
      v.asList? = none ∧ v.asAnnotation? = none := by
    intro host hh
    cases host <;> cases hh
    all_goals exact ⟨rfl, rfl⟩
  cases raw with
  | host host => exact hhost host h
  | expr e =>
    cases e with
    | literal constant =>
      cases constant <;> cases h
      all_goals exact ⟨rfl, rfl⟩
    | typeLiteral ty =>
      cases h
      exact ⟨rfl, rfl⟩
    | value host => exact hhost host h
    | variableRef name initializer => cases initializer <;> cases h
    | nested _ | qualified _ _ | list _ | unsupported _ => cases h

namespace Model

variable {m : Model} {member : Option DeclId}

/-- **The declared kind is taken over only where it fits all items.** -/
theorem flat_listFor {values : List Value} (h : ∀ v ∈ values, v.Flat) :
    (Value.list (m.listFor member values)).Flat := by
  have hinfer := ValueList.flat_infer h
  obtain ⟨hlist, hitems⟩ := Value.flat_list_iff.mp hinfer
  rw [listFor]
  dsimp only
  split
  · exact hinfer
  · split
    · next hunknown =>
      -- A list of unknown kind has no items, so it may be given any kind.
      have hnil := hlist.items_eq_nil hunknown
      refine Value.flat_list_iff.mpr ⟨⟨?_, ?_, fun _ => hnil⟩, hitems⟩
      all_goals simp [hnil]
    · split
      · exact ValueList.flat_ofKind (fun v hv => ⟨hlist.asList?_eq_none v hv, hitems v hv⟩)
          Component.noConfusion
      · exact hinfer

theorem flat_wrapAnnotation {a : NestedAnnotation} (h : a.Flat) (inList : Bool) :
    (m.wrapAnnotation member inList a).Flat := by
  have hnested : (Value.nested a).Flat := Value.flat_nested_iff.mpr h
  rw [Model.wrapAnnotation]
  split
  · refine Value.flat_list_iff.mpr ⟨⟨?_, ?_, Component.noConfusion⟩, ?_⟩
    all_goals
      intro v hv
      obtain rfl := List.mem_singleton.mp hv
    · rfl
    · rfl
    · exact hnested
  · exact hnested

theorem flat_nestedAnnotation {read : Option DeclId → RawValue → Option Value}
    (h : ∀ member raw v, read member raw = some v → v.Flat) (a : AnnotationInstance) :
    (m.nestedAnnotation read a).Flat := by
  refine NestedAnnotation.flat_iff.mpr fun v hv => ?_
  rcases Members.mem_values_of_insertAll (m := ∅) hv with hempty | hread
  · cases hempty
  · obtain ⟨entry, he, rfl⟩ := List.mem_map.mp hread
    obtain ⟨⟨name, e⟩, -, hr⟩ := List.mem_filterMap.mp he
    obtain ⟨value, hvalue, rfl⟩ := Option.map_eq_some_iff.mp hr
    exact h _ _ _ hvalue

/-- **What is read is flat**, however deep one reads. -/
theorem flat_readWithin {levels : Nat} {inList : Bool} {raw : RawValue} {v : Value}
    (h : m.readWithin levels member inList raw = some v) : v.Flat := by
  induction levels generalizing member inList raw v with
  | zero => cases h
  | succ levels ih =>
    rw [readWithin] at h
    split at h
    · cases h
    · next value hs =>
      cases h
      obtain ⟨hlist, hnested⟩ := RawValue.simple_of_shape_eq_complete hs
      exact Value.flat_of_simple hlist hnested
    · cases h
      exact flat_wrapAnnotation (Model.flat_nestedAnnotation (fun _ _ _ hr => ih hr) _) inList
    · cases h
      refine flat_listFor fun item hi => ?_
      obtain ⟨part, -, hr⟩ := List.mem_filterMap.mp hi
      exact ih hr
    · exact ih h
    · split at h
      · cases h
      · cases h
        exact Value.flat_of_simple rfl rfl
      · exact ih h

end Model

namespace Environment

variable {env : Environment}

theorem flat_readValue {member : Option DeclId} {raw : RawValue} {v : Value}
    (h : env.readValue member raw = some v) : v.Flat :=
  Model.flat_readWithin h

theorem flat_readAnnotation (a : AnnotationInstance) : (env.readAnnotation a).Flat :=
  Model.flat_nestedAnnotation (fun _ _ _ => flat_readValue) a

theorem flat_memberDefault? {resolved : Bool} {member : DeclId} {info : MethodInfo} {v : Value}
    (h : env.memberDefault? resolved member info = some v) : v.Flat := by
  obtain ⟨hv, -⟩ := Option.filter_eq_some_iff.mp h
  obtain ⟨raw, -, hr⟩ := Option.bind_eq_some_iff.mp hv
  exact flat_readValue hr

theorem flat_of_mem_defaultValues {ty : DeclId} {v : Value}
    (h : v ∈ (env.defaultValues ty).values) : v.Flat := by
  rw [defaultValues] at h
  split at h
  · cases h
  · rcases Members.mem_values_of_insertAll (m := ∅) h with hempty | hdefault
    · cases hempty
    · obtain ⟨entry, he, rfl⟩ := List.mem_map.mp hdefault
      obtain ⟨member, -, hr⟩ := List.mem_filterMap.mp he
      simp only [bind, pure, Option.bind_eq_some_iff] at hr
      obtain ⟨d, -, method, -, value, hvalue, hentry⟩ := hr
      obtain rfl := Option.some.inj hentry
      exact flat_memberDefault? hvalue

end Environment

end AnnotationResolution
