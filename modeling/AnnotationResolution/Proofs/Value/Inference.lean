import Mathlib.Data.List.Induction
import AnnotationResolution.Proofs.Value.Homogeneous

/-!
# The kind of a list

`ValueList.infer` finds the kind of a list by going through the items from left to right, and what it
has come to may be overruled by the next item.  `Component.ofRule` says at once what comes out: the
last annotation or class among the items decides; without any, a list that starts with an integer and
has a float somewhere is a list of floats; and else the first item decides.  `Value.ConvertsTo` is the
table of the conversions between kinds.

* `ofItems_eq_ofRule`: the walk comes to what the rule says, by induction from the end of the list.
* `coerce?_eq_some_iff`: an item is kept just when the table has an entry for it.
* `infer_exact`: hence what a list is made of, as long as lists lie no deeper than in the values given.
-/

namespace AnnotationResolution

/-! ## The rule -/

/-- Annotations and classes decide the kind of the list that they are in. -/
def Value.decides (v : Value) : Bool := v.component == .nested || v.component == .classRef

def Component.ofFirst : List Value → Component
  | [] => .unknown
  | first :: rest =>
    if first.component = .int ∧ ∃ v ∈ rest, v.component = .float then .float else first.component

def Component.ofRule (items : List Value) : Component :=
  match (items.filter Value.decides).getLast? with
  | some last => last.component
  | none => ofFirst items

namespace Value

/-- A value of any kind, and what it becomes as an item of a list of the given kind. -/
inductive ConvertsTo : Component → Value → Value → Prop
  | same {component : Component} {v : Value} : v.component = component → ConvertsTo component v v
  | className (s : String) : ConvertsTo .classRef (.str s) (.classRef s)
  | constantText (typeName constant : String) :
      ConvertsTo .string (.enumConstant typeName constant) (.str constant)
  | classText (name : String) : ConvertsTo .string (.classRef name) (.str name)
  | intText (n : Int64) : ConvertsTo .string (.int n) (.str (toString n.toInt))
  | floatText (x : Float) : ConvertsTo .string (.float x) (.str (plainFloatText x))
  | boolText (b : Bool) : ConvertsTo .string (.bool b) (.str (if b then "true" else "false"))
  | charText (c : Char) : ConvertsTo .string (.char c) (.str (String.singleton c))
  | widened (n : Int64) : ConvertsTo .float (.int n) (.float n.toFloat)

theorem coerce?_of_component_eq {component : Component} {v : Value} (h : v.component = component) :
    coerce? component v = some v := by
  unfold coerce?
  rw [if_pos h]

theorem coerce?_eq_some_iff {component : Component} {v item : Value} :
    coerce? component v = some item ↔ ConvertsTo component v item := by
  constructor
  · intro h
    unfold coerce? at h
    split at h
    · next hc =>
      obtain rfl := Option.some.inj h
      exact .same hc
    · split at h
      case h_9 => cases h
      all_goals
        obtain rfl := Option.some.inj h
        constructor
  · intro h
    cases h with
    | same hc => exact coerce?_of_component_eq hc
    | className | constantText | classText | intText | floatText | boolText | charText | widened =>
      rfl

/-- The value can be an item of a list of the given kind. -/
def Fits (component : Component) (v : Value) : Prop := ∃ item, ConvertsTo component v item

theorem isSome_coerce?_iff {component : Component} {v : Value} :
    (coerce? component v).isSome = true ↔ v.Fits component := by
  rw [Option.isSome_iff_exists]
  exact exists_congr fun _ => coerce?_eq_some_iff

instance (component : Component) : DecidablePred (Fits component) :=
  fun _ => decidable_of_iff _ isSome_coerce?_iff

end Value

/-! ## The walk comes to what the rule says -/

namespace Component

variable {items : List Value}

theorem ofFirst_concat (h : ∀ v ∈ items, v.asList? = none) {last : Value}
    (hd : ¬ (last.component = nested ∨ last.component = classRef)) :
    ofFirst (items ++ [last]) = widen (ofFirst items) last.component := by
  cases items with
  | nil => simp [ofFirst, widen]
  | cons first rest =>
    have hfirst : first.component ≠ unknown :=
      Value.component_ne_unknown (h first List.mem_cons_self)
    by_cases hint : first.component = int
    · by_cases hfloat : ∃ v ∈ rest, v.component = float
      · simp [ofFirst, widen, hint, hfloat, hd, or_and_right, exists_or]
      · by_cases hnow : last.component = float <;>
          simp [ofFirst, widen, hint, hfloat, hnow, hd, or_and_right, exists_or]
    · simp [ofFirst, widen, hint, hfirst, hd]

theorem ofRule_concat (h : ∀ v ∈ items, v.asList? = none) (last : Value) :
    ofRule (items ++ [last]) = widen (ofRule items) last.component := by
  have hdecides : last.decides = true ↔ last.component = nested ∨ last.component = classRef := by
    simp [Value.decides]
  unfold ofRule
  by_cases hd : last.decides = true
  · have hlast : ((items ++ [last]).filter Value.decides).getLast? = some last := by
      simp [List.filter_append, hd]
    rw [hlast, widen, if_pos (Or.inr (hdecides.mp hd))]
  · -- What decided before still does.
    have hfilter : (items ++ [last]).filter Value.decides = items.filter Value.decides := by
      simp [List.filter_append, hd]
    rw [hfilter]
    cases hl : (items.filter Value.decides).getLast? with
    | some decider =>
      have hdecider := (List.mem_filter.mp (List.mem_of_getLast? hl)).2
      simp only [Value.decides, Bool.or_eq_true, beq_iff_eq] at hdecider
      rcases hdecider with hc | hc <;> simp [widen, hc, hdecides.not.mp hd]
    | none => exact ofFirst_concat h (hdecides.not.mp hd)

/-- **The kind that the walk comes to is that of the rule.** -/
theorem ofItems_eq_ofRule (h : ∀ v ∈ items, v.asList? = none) : ofItems items = ofRule items := by
  induction items using List.reverseRecOn with
  | nil => rfl
  | append_singleton before last ih =>
    have hbefore : ∀ v ∈ before, v.asList? = none := fun v hv => h v (List.mem_append_left _ hv)
    rw [ofRule_concat hbefore, ← ih hbefore, ofItems, List.foldl_append]
    rfl

/-- Some item has the kind of the list. -/
theorem exists_component_eq_ofRule (h : items ≠ []) : ∃ v ∈ items, v.component = ofRule items := by
  unfold ofRule
  split
  · next last hl => exact ⟨last, (List.mem_filter.mp (List.mem_of_getLast? hl)).1, rfl⟩
  · cases items with
    | nil => exact absurd rfl h
    | cons first rest =>
      rw [ofFirst]
      split
      · next hf =>
        obtain ⟨v, hv, hfloat⟩ := hf.2
        exact ⟨v, List.mem_cons_of_mem _ hv, hfloat⟩
      · exact ⟨first, List.mem_cons_self, rfl⟩

theorem ofRule_of_forall {component : Component} (hne : items ≠ [])
    (h : ∀ v ∈ items, v.component = component) : ofRule items = component := by
  obtain ⟨v, hv, hc⟩ := exists_component_eq_ofRule hne
  exact hc.symm.trans (h v hv)

end Component

/-! ## What a list is made of -/

namespace ValueList

/-- The items of a list of one kind are those that fit in, in order, each converted. -/
theorem forall₂_items_ofKind (component : Component) (items : List Value) :
    List.Forall₂ (Value.ConvertsTo component) (items.filter fun v => Value.Fits component v)
      (ofKind component items).items := by
  show List.Forall₂ _ _ (items.filterMap _)
  induction items with
  | nil => exact .nil
  | cons v rest ih =>
    cases hv : Value.coerce? component v with
    | some item =>
      have hto : Value.ConvertsTo component v item := Value.coerce?_eq_some_iff.mp hv
      have hfits : decide (Value.Fits component v) = true := decide_eq_true ⟨item, hto⟩
      rw [List.filter_cons, if_pos hfits, List.filterMap_cons_some hv]
      exact .cons hto ih
    | none =>
      have hfits : ¬ decide (Value.Fits component v) = true := by
        rw [decide_eq_true_eq, ← Value.isSome_coerce?_iff, hv]
        exact Bool.false_ne_true
      rw [List.filter_cons, if_neg hfits, List.filterMap_cons_none hv]
      exact ih

theorem items_ofKind_of_forall {component : Component} {items : List Value}
    (h : ∀ v ∈ items, v.component = component) : (ofKind component items).items = items := by
  show items.filterMap _ = items
  rw [List.filterMap_congr fun v hv => Value.coerce?_of_component_eq (h v hv)]
  exact List.filterMap_some

theorem flatMap_items_of_forall {items : List Value} (h : ∀ v ∈ items, v.asList? = none) :
    items.flatMap Value.items = items := by
  have hone : ∀ v ∈ items, v.items = [v] := by
    intro v hv
    cases v with
    | list inner => cases h _ hv
    | str _ | int _ | float _ | bool _ | char _ | enumConstant _ _ | classRef _ | nested _ => rfl
  rw [List.flatMap_congr hone, List.flatMap_singleton']

/-- A list of items that are no lists is inferred from these items alone. -/
theorem infer_of_forall {items : List Value} (h : ∀ v ∈ items, v.asList? = none) :
    infer items = ofKind (Component.ofRule items) items := by
  rw [infer, flatMap_items_of_forall h, Component.ofItems_eq_ofRule h]

theorem infer_items_ofKind {items : List Value} (h : ∀ v ∈ items, v.asList? = none)
    (hkept : items ≠ [] → (ofKind (Component.ofRule items) items).items ≠ []) :
    infer (ofKind (Component.ofRule items) items).items = ofKind (Component.ofRule items) items := by
  have hitem : ∀ item ∈ (ofKind (Component.ofRule items) items).items,
      item.component = Component.ofRule items ∧ item.asList? = none := by
    intro item hi
    obtain ⟨v, hv, hc⟩ := List.mem_filterMap.mp hi
    obtain ⟨hkind, hlist, -⟩ := Value.of_coerce?_eq_some hc
    exact ⟨hkind, hlist (h v hv)⟩
  rw [infer_of_forall fun item hi => (hitem item hi).2]
  rcases eq_or_ne items [] with rfl | hne
  · rfl
  · rw [Component.ofRule_of_forall (hkept hne) fun item hi => (hitem item hi).1]
    exact congrArg (ValueList.mk _) (items_ofKind_of_forall fun item hi => (hitem item hi).1)

/-- **Of what kind a list is, and which items it has.**  Let no list among the values hold another
one, so that all items come to light when lists are replaced by their items.  Then the kind is that
of the rule, and the items are those that have this kind or convert to it, in order.  At least one of
them is left if there was any, all are left if they are of one kind, and what is left makes up the
same list again. -/
theorem infer_exact {values : List Value}
    (h : ∀ list : ValueList, .list list ∈ values → ∀ item ∈ list.items, item.asList? = none) :
    let items := values.flatMap Value.items
    let list := infer values
    (items = [] → list = ⟨.unknown, []⟩) ∧
      list.component = Component.ofRule items ∧
      List.Forall₂ (Value.ConvertsTo list.component)
        (items.filter fun v => Value.Fits list.component v) list.items ∧
      (items ≠ [] → list.items ≠ []) ∧
      (∀ component, (∀ v ∈ items, v.component = component) → list.items = items) ∧
      infer list.items = list := by
  intro items list
  have hitems : ∀ item ∈ items, item.asList? = none := by
    intro item hi
    obtain ⟨v, hv, hitem⟩ := List.mem_flatMap.mp hi
    cases v with
    | list inner => exact h inner hv item hitem
    | str _ | int _ | float _ | bool _ | char _ | enumConstant _ _ | classRef _ | nested _ =>
      obtain rfl := List.mem_singleton.mp hitem
      rfl
  have hlist : list = ofKind (Component.ofRule items) items := by
    show ofKind (Component.ofItems items) items = _
    rw [Component.ofItems_eq_ofRule hitems]
  have hkept : items ≠ [] → (ofKind (Component.ofRule items) items).items ≠ [] := by
    intro hne
    obtain ⟨v, hv, hc⟩ := Component.exists_component_eq_ofRule hne
    exact List.ne_nil_of_mem (List.mem_filterMap.mpr ⟨v, hv, Value.coerce?_of_component_eq hc⟩)
  rw [hlist]
  refine ⟨fun hnil => ?_, rfl, forall₂_items_ofKind _ items, hkept, fun component hc => ?_,
    infer_items_ofKind hitems hkept⟩
  · rw [hnil]
    rfl
  · rcases eq_or_ne items [] with hnil | hne
    · rw [hnil]
      rfl
    · rw [Component.ofRule_of_forall hne hc]
      exact items_ofKind_of_forall hc

/-- A name, a list of classes and a number: the class decides, the name becomes one, and there is no
class for the number. -/
theorem infer_exact_classes :
    (∀ list : ValueList,
      .list list ∈ [Value.str "a.A", .list ⟨.classRef, [.classRef "a.B"]⟩, .int 1] →
        ∀ item ∈ list.items, item.asList? = none) ∧
      let list := infer [.str "a.A", .list ⟨.classRef, [.classRef "a.B"]⟩, .int 1]
      list.component = .classRef ∧ list.items = [.classRef "a.A", .classRef "a.B"] ∧
        infer list.items = list := by
  have h : ∀ list : ValueList,
      .list list ∈ [Value.str "a.A", .list ⟨.classRef, [.classRef "a.B"]⟩, .int 1] →
        ∀ item ∈ list.items, item.asList? = none := by
    intro list hl
    simp only [List.mem_cons, reduceCtorEq, Value.list.injEq, List.not_mem_nil, or_false,
      false_or] at hl
    subst hl
    simp [Value.asList?]
  obtain ⟨-, hkind, -, -, -, hagain⟩ := infer_exact h
  exact ⟨h, hkind.trans rfl, rfl, hagain⟩

end ValueList

end AnnotationResolution
