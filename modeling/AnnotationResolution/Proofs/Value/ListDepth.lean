import AnnotationResolution.Proofs.Value.Inference

/-!
# How far lists are opened

`ValueList.infer` opens the lists among the values, and not the lists in these.  A list that lies in a
list is an item like any other then, of the kind that it has stored: it is dropped if this is not the
kind of the result, and kept as it is if it is (`ValueList.KeepsInner`).

So one pass takes one level of lists away.  What comes out is a list of one kind, and its items are no
lists unless an inner one was kept; and as a further pass would open that one, only a result without
lists comes out again when it is inferred once more.

* `exists_component_eq_ofItems`: some item has the kind of the list, whatever the items are.
* `listDepthIn_infer_le`: each pass takes a level away.
* `infer_opens_one_level`: what a pass comes to.
-/

namespace AnnotationResolution

mutual

/-- How deep lists lie in each other.  Lists in annotations do not count. -/
def Value.listDepth : Value → Nat
  | .list items => items.listDepth + 1
  | .str _ | .int _ | .float _ | .bool _ | .char _ | .enumConstant _ _ | .classRef _
  | .nested _ => 0

def ValueList.listDepth : ValueList → Nat
  | ⟨_, items⟩ => Value.listDepthIn items

def Value.listDepthIn : List Value → Nat
  | [] => 0
  | v :: rest => max v.listDepth (Value.listDepthIn rest)

end

namespace Value

theorem listDepth_eq_zero_iff {v : Value} : v.listDepth = 0 ↔ v.asList? = none := by
  cases v with
  | list inner => simp [listDepth, asList?]
  | str _ | int _ | float _ | bool _ | char _ | enumConstant _ _ | classRef _ | nested _ =>
    simp [listDepth, asList?]

theorem listDepthIn_le_iff {values : List Value} {depth : Nat} :
    listDepthIn values ≤ depth ↔ ∀ v ∈ values, v.listDepth ≤ depth := by
  induction values with
  | nil => simp [listDepthIn]
  | cons v rest ih => rw [listDepthIn, Nat.max_le, ih, List.forall_mem_cons]

theorem listDepth_le_of_mem {values : List Value} {v : Value} (h : v ∈ values) :
    v.listDepth ≤ listDepthIn values :=
  listDepthIn_le_iff.mp (Nat.le_refl _) v h

/-- The items that a value stands for lie a level deeper in it. -/
theorem listDepth_le_of_mem_items {v item : Value} (h : item ∈ v.items) :
    item.listDepth ≤ v.listDepth - 1 := by
  cases v with
  | list inner =>
    obtain ⟨component, items⟩ := inner
    rw [listDepth, ValueList.listDepth, Nat.add_sub_cancel]
    exact listDepth_le_of_mem h
  | str _ | int _ | float _ | bool _ | char _ | enumConstant _ _ | classRef _ | nested _ =>
    obtain rfl := List.mem_singleton.mp h
    exact Nat.zero_le _

theorem ConvertsTo.listDepth_le {component : Component} {v item : Value}
    (h : ConvertsTo component v item) : item.listDepth ≤ v.listDepth := by
  cases h with
  | same => exact Nat.le_refl _
  | className | constantText | classText | intText | floatText | boolText | charText | widened =>
    exact Nat.zero_le _

/-- No conversion makes a list. -/
theorem convertsTo_list_iff {component : Component} {v : Value} {inner : ValueList} :
    ConvertsTo component v (.list inner) ↔ v = .list inner ∧ inner.component = component := by
  constructor
  · intro h
    cases h with
    | same hc => exact ⟨rfl, hc⟩
  · rintro ⟨rfl, hc⟩
    exact .same hc

theorem mem_items_list_iff {v : Value} {inner : ValueList} :
    .list inner ∈ v.items ↔ ∃ outer, v = .list outer ∧ .list inner ∈ outer.items := by
  cases v with
  | list outer => simp [items]
  | str _ | int _ | float _ | bool _ | char _ | enumConstant _ _ | classRef _ | nested _ =>
    simp [items]

end Value

/-- Some item has the kind of the list, lists among the items or not. -/
theorem Component.exists_component_eq_ofItems {items : List Value} (h : items ≠ []) :
    ∃ v ∈ items, v.component = ofItems items := by
  induction items using List.reverseRecOn with
  | nil => exact absurd rfl h
  | append_singleton before last ih =>
    have hwiden : ofItems (before ++ [last]) = widen (ofItems before) last.component := by
      rw [ofItems, List.foldl_append]
      rfl
    have hlast : last ∈ before ++ [last] := List.mem_append_right _ List.mem_cons_self
    rw [hwiden, widen]
    split
    · exact ⟨last, hlast, rfl⟩
    · next hknown =>
      split
      · next hfloat => exact ⟨last, hlast, hfloat.2⟩
      · -- The kind was known before, so there was an item.
        by_cases hnil : before = []
        · exact absurd (Or.inl (by rw [hnil]; rfl)) hknown
        · obtain ⟨v, hv, hc⟩ := ih hnil
          exact ⟨v, List.mem_append_left _ hv, hc⟩

namespace ValueList

variable {values : List Value}

theorem mem_items_infer_iff {item : Value} :
    item ∈ (infer values).items ↔
      ∃ v ∈ values, ∃ part ∈ v.items, Value.ConvertsTo (infer values).component part item := by
  show item ∈ (values.flatMap Value.items).filterMap (Value.coerce? (infer values).component) ↔ _
  simp only [List.mem_filterMap, List.mem_flatMap, Value.coerce?_eq_some_iff]
  constructor
  · rintro ⟨part, ⟨v, hv, hpart⟩, hto⟩
    exact ⟨v, hv, part, hpart, hto⟩
  · rintro ⟨v, hv, part, hpart, hto⟩
    exact ⟨part, ⟨v, hv, hpart⟩, hto⟩

/-- **Each pass takes a level of lists away.** -/
theorem listDepthIn_infer_le :
    Value.listDepthIn (infer values).items ≤ Value.listDepthIn values - 1 := by
  refine Value.listDepthIn_le_iff.mpr fun item hi => ?_
  obtain ⟨v, hv, part, hpart, hto⟩ := mem_items_infer_iff.mp hi
  have hdepth := hto.listDepth_le
  have hdeeper := Value.listDepth_le_of_mem_items hpart
  have hv' := Value.listDepth_le_of_mem hv
  omega

theorem component_of_mem_items_infer {item : Value} (h : item ∈ (infer values).items) :
    item.component = (infer values).component := by
  obtain ⟨v, -, part, -, hto⟩ := mem_items_infer_iff.mp h
  exact (Value.of_coerce?_eq_some (Value.coerce?_eq_some_iff.mpr hto)).1

variable (values) in
/-- A list that lies in a list says that it is of the kind of the result, and is kept. -/
def KeepsInner : Prop :=
  ∃ outer inner : ValueList, .list outer ∈ values ∧ .list inner ∈ outer.items ∧
    inner.component = (infer values).component

theorem forall_asList?_eq_none_iff :
    (∀ item ∈ (infer values).items, item.asList? = none) ↔ ¬ KeepsInner values := by
  constructor
  · rintro h ⟨outer, inner, houter, hinner, hc⟩
    have hkept : .list inner ∈ (infer values).items :=
      mem_items_infer_iff.mpr ⟨.list outer, houter, .list inner, hinner, .same hc⟩
    cases h _ hkept
  · intro h item hi
    by_contra hlist
    obtain ⟨inner, hinner⟩ := Option.ne_none_iff_exists'.mp hlist
    obtain rfl : item = .list inner := by
      cases item <;> cases hinner
      rfl
    obtain ⟨v, hv, part, hpart, hto⟩ := mem_items_infer_iff.mp hi
    obtain ⟨rfl, hc⟩ := Value.convertsTo_list_iff.mp hto
    obtain ⟨outer, rfl, hmem⟩ := Value.mem_items_list_iff.mp hpart
    exact h ⟨outer, inner, hv, hmem, hc⟩

/-- Values that are read hold no such lists. -/
theorem not_keepsInner_of_flat (h : ∀ v ∈ values, v.Flat) : ¬ KeepsInner values := by
  rintro ⟨outer, inner, houter, hinner, -⟩
  have hnone := (Value.of_mem_items (h _ houter) hinner).1
  cases hnone

/-- A result without lists is inferred from its own items. -/
theorem infer_items_infer (h : ∀ item ∈ (infer values).items, item.asList? = none) :
    infer (infer values).items = infer values := by
  by_cases hnil : values.flatMap Value.items = []
  · have hempty : infer values = ⟨.unknown, []⟩ := by
      rw [infer, hnil]
      rfl
    rw [hempty]
    rfl
  · -- The item that gives the list its kind is among those that are left.
    have hkept : (infer values).items ≠ [] := by
      obtain ⟨part, hpart, hc⟩ := Component.exists_component_eq_ofItems hnil
      obtain ⟨v, hv, hmem⟩ := List.mem_flatMap.mp hpart
      exact List.ne_nil_of_mem (mem_items_infer_iff.mpr ⟨v, hv, part, hmem, .same hc⟩)
    obtain ⟨item, hitem, hc⟩ := Component.exists_component_eq_ofItems hkept
    have hkind : Component.ofItems (infer values).items = (infer values).component :=
      hc.symm.trans (component_of_mem_items_infer hitem)
    have hagain : infer (infer values).items =
        ofKind (infer values).component (infer values).items := by
      rw [infer, flatMap_items_of_forall h, hkind]
    rw [hagain]
    exact congrArg (ValueList.mk _)
      (items_ofKind_of_forall fun _ hi => component_of_mem_items_infer hi)

/-- A result that comes out again has no lists in it: a pass would have opened them. -/
theorem asList?_eq_none_of_infer_eq (h : infer (infer values).items = infer values) {item : Value}
    (hi : item ∈ (infer values).items) : item.asList? = none := by
  have hless : Value.listDepthIn (infer (infer values).items).items ≤
      Value.listDepthIn (infer values).items - 1 := listDepthIn_infer_le
  rw [h] at hless
  have hitem := Value.listDepth_le_of_mem hi
  refine Value.listDepth_eq_zero_iff.mp ?_
  omega

/-- **One pass opens the lists among the values.**  All items are of the kind of the result, and one
level of lists is gone.  None is left, and the result comes out again when it is inferred once more,
just when no list that lies in a list has the kind of the result. -/
theorem infer_opens_one_level (values : List Value) :
    let list := infer values
    (∀ item ∈ list.items, item.component = list.component) ∧
      Value.listDepthIn list.items ≤ Value.listDepthIn values - 1 ∧
      ((∀ item ∈ list.items, item.asList? = none) ↔ ¬ KeepsInner values) ∧
      (infer list.items = list ↔ ¬ KeepsInner values) := by
  refine ⟨fun _ => component_of_mem_items_infer, listDepthIn_infer_le, forall_asList?_eq_none_iff,
    ?_⟩
  rw [← forall_asList?_eq_none_iff]
  constructor
  · exact fun h _ => asList?_eq_none_of_infer_eq h
  · exact infer_items_infer

/-- An integer beside a list of integers: the list is opened, and nothing is left to open. -/
theorem infer_opens_one_level_ints :
    let values : List Value := [.int 1, .list ⟨.int, [.int 2]⟩]
    .int 2 ∈ (infer values).items ∧ (Value.int 2).component = (infer values).component ∧
      ¬ KeepsInner values ∧ infer (infer values).items = infer values := by
  intro values
  obtain ⟨hkind, -, hopened, hagain⟩ := infer_opens_one_level values
  have hmem : .int 2 ∈ (infer values).items := List.mem_cons_of_mem _ List.mem_cons_self
  have hnone : ¬ KeepsInner values := by
    refine hopened.mp fun item hi => ?_
    rcases List.mem_cons.mp hi with rfl | hi
    · rfl
    · obtain rfl := List.mem_singleton.mp hi
      rfl
  exact ⟨hmem, hkind _ hmem, hnone, hagain.mpr hnone⟩

/-- A list of integers in a list in a list: it is opened in the second pass only. -/
theorem list_left_in_list :
    let values : List Value := [.list ⟨.int, [.list ⟨.int, [.int 1]⟩]⟩]
    (∃ item ∈ (infer values).items, item.asList? ≠ none) ∧
      infer (infer values).items ≠ infer values := by
  intro values
  have hfirst : infer values = ⟨.int, [.list ⟨.int, [.int 1]⟩]⟩ := rfl
  have hsecond : infer (infer values).items = ⟨.int, [.int 1]⟩ := rfl
  rw [hsecond, hfirst]
  refine ⟨⟨_, List.mem_cons_self, Option.some_ne_none _⟩, fun h => ?_⟩
  cases h

end ValueList

end AnnotationResolution
