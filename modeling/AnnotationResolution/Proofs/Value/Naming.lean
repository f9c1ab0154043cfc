import AnnotationResolution.Proofs.Model.Accepted
import AnnotationResolution.Proofs.Value.Depth

/-!
# Names for values

A value may be written down where it is needed, or be given a name: that of a variable, or that of a
constant of a type.  A variable is read as its initializer in the same place, so the name makes no
difference.  A constant is read for no member, wherever it is referred to, and what an array member
makes of a value is left out: it wraps an annotation that stands alone, gives its kind to a list
without items, and widens integers to floats (`Model.Retypes`).

* `not_retypes_of_readWithin`: a value that is written down has been adapted to its member, and
  there is nothing left to do.
* `readWithin_eq_iff`: it reads the same for an array member and for none just if the member makes
  nothing else of it.  Here a list of lists for floats is left out, for integers inside of it may be
  widened before they become texts.
* `readValue_named`: what this says of variables and of references to constants.
-/

namespace AnnotationResolution

/-- What a raw value is, once the variables that name it are followed. -/
inductive RawValue.Denotes : RawValue → RawShape → Prop
  | self (raw : RawValue) : Denotes raw raw.shape
  | named {raw inner : RawValue} {shape : RawShape} : raw.shape = .named inner →
      Denotes inner shape → Denotes raw shape

theorem RawValue.denotes_of_shape_eq {raw : RawValue} {shape : RawShape} (h : raw.shape = shape) :
    raw.Denotes shape :=
  h ▸ .self raw

/-- What is not a name denotes itself. -/
theorem RawValue.Denotes.eq_shape {raw : RawValue} {shape : RawShape} (h : raw.Denotes shape)
    (hn : ∀ inner, raw.shape ≠ .named inner) : shape = raw.shape := by
  cases h with
  | self => rfl
  | named hs => exact absurd hs (hn _)

theorem RawValue.denotes_iff_of_named {raw inner : RawValue} (h : raw.shape = .named inner)
    {shape : RawShape} (hn : ∀ other, shape ≠ .named other) :
    raw.Denotes shape ↔ inner.Denotes shape := by
  constructor
  · intro hd
    cases hd with
    | self => exact absurd h (hn _)
    | named hs hd => exact RawShape.named.inj (h.symm.trans hs) ▸ hd
  · exact .named h

/-- The raw value is a reference to a constant. -/
def RawValue.IsReference (raw : RawValue) : Prop :=
  ∃ owner name, raw.Denotes (.constant owner name)

theorem RawValue.isReference_iff_of_named {raw inner : RawValue} (h : raw.shape = .named inner) :
    raw.IsReference ↔ inner.IsReference :=
  exists₂_congr fun _ _ => denotes_iff_of_named h nofun

/-- What is neither a name nor a constant is no reference. -/
theorem RawValue.not_isReference {raw : RawValue} (hn : ∀ inner, raw.shape ≠ .named inner)
    (hc : ∀ owner name, raw.shape ≠ .constant owner name) : ¬ raw.IsReference := by
  rintro ⟨owner, name, hd⟩
  exact hc owner name (hd.eq_shape hn).symm

/-- The raw value is a list with a list among its items. -/
def RawValue.HoldsInnerList (raw : RawValue) : Prop :=
  ∃ items item inner, raw.Denotes (.list items) ∧ item ∈ items ∧ item.Denotes (.list inner)

namespace Model

/-- The member makes something else of a value that was read for no member. -/
inductive Retypes (m : Model) (member : Option DeclId) : Value → Prop
  | wraps {item : TypeRef} {a : NestedAnnotation} : m.itemType? member = some item →
      Retypes m member (.nested a)
  | declares {item : TypeRef} {list : ValueList} : m.itemType? member = some item →
      list.component = .unknown → m.declaredComponent item ≠ .unknown → Retypes m member (.list list)
  | widens {item : TypeRef} {list : ValueList} : m.itemType? member = some item →
      list.component = .int → m.declaredComponent item = .float → Retypes m member (.list list)

/-- The member is for floats. -/
def TakesFloats (m : Model) (member : Option DeclId) : Prop :=
  ∃ item, m.itemType? member = some item ∧ m.declaredComponent item = .float

variable {m : Model} {member : Option DeclId} {raw : RawValue}

theorem not_retypes_of_simple {v : Value} (hl : v.asList? = none) (ha : v.asAnnotation? = none) :
    ¬ m.Retypes member v := by
  rintro (_ | _ | _)
  · cases ha
  · cases hl
  · cases hl

theorem not_retypes_of_eq_none (h : m.itemType? member = none) (v : Value) :
    ¬ m.Retypes member v := by
  rintro (hi | ⟨hi, -⟩ | ⟨hi, -⟩) <;> cases h.symm.trans hi

theorem retypes_list_iff {item : TypeRef} (h : m.itemType? member = some item) (list : ValueList) :
    m.Retypes member (.list list) ↔
      (list.component = .unknown ∧ m.declaredComponent item ≠ .unknown) ∨
        (list.component = .int ∧ m.declaredComponent item = .float) := by
  constructor
  · rintro (_ | ⟨hi, hunknown, hd⟩ | ⟨hi, hint, hfloat⟩)
    · obtain rfl := Option.some.inj (h.symm.trans hi)
      exact Or.inl ⟨hunknown, hd⟩
    · obtain rfl := Option.some.inj (h.symm.trans hi)
      exact Or.inr ⟨hint, hfloat⟩
  · rintro (⟨hunknown, hd⟩ | ⟨hint, hfloat⟩)
    · exact .declares h hunknown hd
    · exact .widens h hint hfloat

/-! ## What a member makes of a list -/

theorem listFor_none (values : List Value) : m.listFor none values = .infer values := rfl

theorem listFor_of_eq_none (h : m.itemType? member = none) (values : List Value) :
    m.listFor member values = .infer values := by
  rw [listFor, h]

theorem listFor_of_eq_some {item : TypeRef} (h : m.itemType? member = some item)
    (values : List Value) :
    m.listFor member values =
      if (ValueList.infer values).component = .unknown then
        { ValueList.infer values with component := m.declaredComponent item }
      else if (ValueList.infer values).component = .int ∧ m.declaredComponent item = .float then
        .ofKind .float (ValueList.infer values).items
      else .infer values := by
  rw [listFor, h]

theorem listFor_eq_infer_iff {values : List Value} :
    m.listFor member values = .infer values ↔ ¬ m.Retypes member (.list (.infer values)) := by
  cases hi : m.itemType? member with
  | none => exact iff_of_true (listFor_of_eq_none hi values) (not_retypes_of_eq_none hi _)
  | some item =>
    rw [listFor_of_eq_some hi, retypes_list_iff hi]
    split
    · next hunknown =>
      -- The kind is all that changes, so the lists are the same if it does not.
      have hkind : { ValueList.infer values with component := m.declaredComponent item } =
          ValueList.infer values ↔ m.declaredComponent item = .unknown := by
        rw [← hunknown]
        exact ⟨congrArg ValueList.component, congrArg (ValueList.mk · _)⟩
      simp [hkind, hunknown]
    · next hknown =>
      split
      · next hw =>
        refine iff_of_false (fun he => ?_) (not_not_intro (Or.inr hw))
        cases (congrArg ValueList.component he).trans hw.1
      · next hw => simp [hknown, hw]

theorem not_retypes_listFor (values : List Value) :
    ¬ m.Retypes member (.list (m.listFor member values)) := by
  cases hi : m.itemType? member with
  | none => exact not_retypes_of_eq_none hi _
  | some item =>
    rw [listFor_of_eq_some hi, retypes_list_iff hi]
    split
    · rintro (⟨hunknown, hd⟩ | ⟨hint, hfloat⟩)
      · exact hd hunknown
      · cases hint.symm.trans hfloat
    · next hknown =>
      split
      · simp [ValueList.ofKind]
      · next hw => simp [hknown, hw]

/-- A member that is not for floats leaves the items as they are. -/
theorem items_listFor (h : ¬ m.TakesFloats member) (values : List Value) :
    (m.listFor member values).items = (ValueList.infer values).items := by
  cases hi : m.itemType? member with
  | none => rw [listFor_of_eq_none hi]
  | some item =>
    rw [listFor_of_eq_some hi]
    split
    · rfl
    · rw [if_neg]
      exact fun hw => h ⟨item, hi, hw.2⟩

theorem infer_filterMap_congr {α : Type} {f g : α → Option Value} {xs : List α}
    (h : ∀ x ∈ xs, (f x).map Value.items = (g x).map Value.items) :
    ValueList.infer (xs.filterMap f) = ValueList.infer (xs.filterMap g) := by
  have hitems : (xs.filterMap f).flatMap Value.items = (xs.filterMap g).flatMap Value.items := by
    have hmap : (xs.filterMap f).map Value.items = (xs.filterMap g).map Value.items := by
      rw [List.map_filterMap, List.map_filterMap]
      exact List.filterMap_congr h
    rw [List.flatMap_def, List.flatMap_def, hmap]
  rw [ValueList.infer, ValueList.infer, hitems]

/-! ## Items of a list -/

/-- What is no list reads the same for every member, once it is an item of a list. -/
theorem readWithin_item_of_not_list (h : ∀ items, ¬ raw.Denotes (.list items)) (levels : Nat) :
    m.readWithin levels member true raw = m.readWithin levels none true raw := by
  induction levels generalizing raw with
  | zero => rfl
  | succ levels ih =>
    rw [readWithin, readWithin]
    cases hs : raw.shape with
    | list items => exact absurd (RawValue.denotes_of_shape_eq hs) (h items)
    | named inner => exact ih fun items hi => h items (.named hs hi)
    | absent | complete _ | nested _ | constant _ _ => rfl

/-- For a member that is not for floats, an item comes to the same items, if it is a list itself. -/
theorem map_items_readWithin (h : ¬ m.TakesFloats member) (levels : Nat) :
    (m.readWithin levels member true raw).map Value.items =
      (m.readWithin levels none true raw).map Value.items := by
  induction levels generalizing raw with
  | zero => rfl
  | succ levels ih =>
    rw [readWithin, readWithin]
    cases raw.shape with
    | list items =>
      have hsame := infer_filterMap_congr fun item (_ : item ∈ items) => @ih item
      have hitems := (items_listFor h (items.filterMap (m.readWithin levels member true))).trans
        (congrArg ValueList.items hsame)
      exact congrArg some hitems
    | named inner => exact ih
    | absent | complete _ | nested _ | constant _ _ => rfl

/-! ## With the member and without -/

theorem wrapAnnotation_eq_iff {a : NestedAnnotation} :
    m.wrapAnnotation member false a = .nested a ↔ ¬ m.Retypes member (.nested a) := by
  rw [Model.wrapAnnotation]
  cases hi : m.itemType? member with
  | none => exact iff_of_true rfl (not_retypes_of_eq_none hi _)
  | some item => exact iff_of_false (fun he => Value.noConfusion he) (not_not_intro (.wraps hi))

theorem not_retypes_wrapAnnotation (a : NestedAnnotation) :
    ¬ m.Retypes member (m.wrapAnnotation member false a) := by
  rw [Model.wrapAnnotation]
  cases hi : m.itemType? member with
  | none => exact not_retypes_of_eq_none hi _
  | some item => simp [retypes_list_iff hi]

/-- What is read where something is written down, and not referred to. -/
theorem eq_iff_of_not_isReference {value own : Value} (hreference : ¬ raw.IsReference)
    (h : value = own ↔ ¬ m.Retypes member own) :
    some value = some own ↔ raw.IsReference ∨ ∀ v ∈ some own, ¬ m.Retypes member v := by
  rw [or_iff_right hreference, Option.some.injEq, h]
  simp only [Option.mem_def, Option.some.injEq, forall_eq']

/-- **A value that is written down is the same for an array member and for none** just if the member
makes nothing else of it.  A constant is the same in any case. -/
theorem readWithin_eq_iff (h : m.TakesFloats member → ¬ raw.HoldsInnerList) (levels : Nat) :
    m.readWithin levels member false raw = m.readWithin levels none false raw ↔
      raw.IsReference ∨ ∀ v ∈ m.readWithin levels none false raw, ¬ m.Retypes member v := by
  have habsent : ∀ v ∈ (none : Option Value), ¬ m.Retypes member v :=
    fun v hv => absurd hv (Option.not_mem_none v)
  induction levels generalizing raw with
  | zero => exact iff_of_true rfl (Or.inr habsent)
  | succ levels ih =>
    rw [readWithin, readWithin]
    cases hs : raw.shape with
    | absent => exact iff_of_true rfl (Or.inr habsent)
    | complete value =>
      refine iff_of_true rfl (Or.inr fun v hv => ?_)
      obtain rfl := Option.some.inj hv
      obtain ⟨hlist, hnested⟩ := RawValue.simple_of_shape_eq_complete hs
      exact not_retypes_of_simple hlist hnested
    | nested a =>
      have hreference : ¬ raw.IsReference := RawValue.not_isReference (by simp [hs]) (by simp [hs])
      exact eq_iff_of_not_isReference hreference wrapAnnotation_eq_iff
    | list items =>
      have hreference : ¬ raw.IsReference := RawValue.not_isReference (by simp [hs]) (by simp [hs])
      have hitems : ValueList.infer (items.filterMap (m.readWithin levels member true)) =
          ValueList.infer (items.filterMap (m.readWithin levels none true)) := by
        refine infer_filterMap_congr fun item hi => ?_
        by_cases hfloats : m.TakesFloats member
        · refine congrArg _ (readWithin_item_of_not_list (fun inner hd => ?_) levels)
          exact h hfloats ⟨items, item, inner, RawValue.denotes_of_shape_eq hs, hi, hd⟩
        · exact map_items_readWithin hfloats levels
      refine eq_iff_of_not_isReference hreference ?_
      rw [listFor_none, Value.list.injEq, ← hitems]
      exact listFor_eq_infer_iff
    | named inner =>
      rw [RawValue.isReference_iff_of_named hs]
      refine ih fun hfloats => ?_
      rintro ⟨items, item, list, hd, hi, hl⟩
      exact h hfloats ⟨items, item, list, .named hs hd, hi, hl⟩
    | constant owner name =>
      exact iff_of_true rfl (Or.inl ⟨owner, name, RawValue.denotes_of_shape_eq hs⟩)

/-! ## Adapted values -/

/-- **What is written down is adapted to the member**, and the member makes nothing else of it. -/
theorem not_retypes_of_readWithin {levels : Nat} {v : Value} (hreference : ¬ raw.IsReference)
    (h : m.readWithin levels member false raw = some v) : ¬ m.Retypes member v := by
  induction levels generalizing raw with
  | zero => cases h
  | succ levels ih =>
    rw [readWithin] at h
    cases hs : raw.shape with
    | absent => simp [hs] at h
    | complete value =>
      obtain rfl : value = v := by simpa [hs] using h
      obtain ⟨hlist, hnested⟩ := RawValue.simple_of_shape_eq_complete hs
      exact not_retypes_of_simple hlist hnested
    | nested a =>
      obtain rfl : m.wrapAnnotation member false _ = v := by
        simpa only [hs, Option.some.injEq] using h
      exact not_retypes_wrapAnnotation _
    | list items =>
      obtain rfl : Value.list (m.listFor member _) = v := by
        simpa only [hs, Option.some.injEq] using h
      exact not_retypes_listFor _
    | named inner =>
      rw [hs] at h
      rw [RawValue.isReference_iff_of_named hs] at hreference
      exact ih hreference h
    | constant owner name => exact absurd ⟨owner, name, RawValue.denotes_of_shape_eq hs⟩ hreference

/-! ## Constants -/

/-- The constant is a static field of a type that is no enum, with this initializer and without a
compiled value. -/
def InitializedBy (m : Model) (owner name : String) (e : Expr) : Prop :=
  ∃ ty info field d f, m.typeNamed? owner = some ty ∧ m.typeInfo? ty = some info ∧
    info.kind ≠ .enum ∧ m.staticField? ty name = some field ∧ m.declaration? field = some d ∧
      d.fieldInfo? = some f ∧ f.constantValue = none ∧ f.initializer = some e

theorem InitializedBy.constant?_eq {owner name : String} {e : Expr}
    (h : m.InitializedBy owner name e) : m.constant? owner name = some (.stored (.expr e)) := by
  obtain ⟨ty, info, field, d, f, hty, hinfo, hkind, hfield, hd, hf, hvalue, he⟩ := h
  simp [constant?, hty, hinfo, hkind, hfield, hd, hf, FieldInfo.stored?, hvalue, he]

end Model

namespace Environment

/-- **What a name does to a value.**  Let an expression be read for a member with two levels to spare.
What is written down is adapted to the member, and a variable with this initializer is read as the
expression itself.  A constant with this initializer is read as the expression is for no member; this
is the same, unless an array member makes something else of what is written down there (for floats,
as long as no list lies in a list). -/
theorem readValue_named {env : Environment} {member : Option DeclId} {e : Expr}
    {value : Option Value} {height : Nat} (h : env.model.Reads member false (.expr e) value height)
    (hle : height + 2 ≤ env.config.maxValueDepth) :
    env.readValue member (.expr e) = value ∧
    (¬ (RawValue.expr e).IsReference → ∀ v ∈ value, ¬ env.model.Retypes member v) ∧
    (∀ name, env.readValue member (.expr (.variableRef name (some e))) = value) ∧
    ∀ owner name, env.model.InitializedBy owner name e →
      env.readValue member (.expr (.qualified owner name)) = env.readValue none (.expr e) ∧
      ((env.model.TakesFloats member → ¬ (RawValue.expr e).HoldsInnerList) →
        (env.readValue member (.expr (.qualified owner name)) = value ↔
          (RawValue.expr e).IsReference ∨
            ∀ v ∈ env.readValue none (.expr e), ¬ env.model.Retypes member v)) := by
  have hvalue : env.readValue member (.expr e) = value := h.readWithin_eq (by omega)
  refine ⟨hvalue, fun hreference v hv => ?_, fun name => ?_, fun owner name hconstant => ?_⟩
  · exact Model.not_retypes_of_readWithin hreference (hvalue.trans hv)
  · have hvariable : env.model.Reads member false (.expr (.variableRef name (some e))) value
        (height + 1) := .named rfl h
    exact hvariable.readWithin_eq (by omega)
  · obtain ⟨plain, hplain⟩ := h.elsewhere none false
    have hreference : env.model.Reads member false (.expr (.qualified owner name)) plain
        (height + 1) := .stored rfl hconstant.constant?_eq hplain
    have hsame : env.readValue member (.expr (.qualified owner name)) =
        env.readValue none (.expr e) :=
      (hreference.readWithin_eq (by omega)).trans (hplain.readWithin_eq (by omega)).symm
    refine ⟨hsame, fun hfloats => ?_⟩
    rw [hsame, ← hvalue, eq_comm]
    exact Model.readWithin_eq_iff hfloats _

/-- Constants for the members of an annotation type: an annotation, a list without items, a list of
integers and a list of names. -/
def holder : Environment where
  config := {}
  model :=
    { declarations := #[
        ⟨"a.Role", none, [], .type { kind := .annotationType }⟩,
        ⟨"a.Config", none, [], .type { kind := .annotationType, methods := [⟨2⟩, ⟨3⟩, ⟨4⟩] }⟩,
        ⟨"roles", some ⟨1⟩, [], .method { returnType := .array (.named "a.Role" []) }⟩,
        ⟨"names", some ⟨1⟩, [], .method { returnType := .array (.named "String" []) }⟩,
        ⟨"ratios", some ⟨1⟩, [], .method { returnType := .array (.named "double" []) }⟩,
        ⟨"a.Holder", none, [], .type { fields := [⟨6⟩, ⟨7⟩, ⟨8⟩, ⟨9⟩] }⟩,
        ⟨"ROLE", some ⟨5⟩, [],
          .field { isStatic := true, initializer := some (.nested ⟨"a.Role", ∅⟩) }⟩,
        ⟨"NONE", some ⟨5⟩, [], .field { isStatic := true, initializer := some (.list []) }⟩,
        ⟨"COUNTS", some ⟨5⟩, [],
          .field { isStatic := true,
                   initializer := some (.list [.literal (.int 1), .literal (.int 2)]) }⟩,
        ⟨"NAMES", some ⟨5⟩, [],
          .field { isStatic := true,
                   initializer := some (.list [.literal (.str "a"), .literal (.str "b")]) }⟩]
      types := ⟨[("a.Role", ⟨0⟩), ("a.Config", ⟨1⟩), ("a.Holder", ⟨5⟩)]⟩ }

/-- A list of names is the same for the member `names`, whether it is written down, or named by a
variable or by a constant. -/
theorem readValue_named_holder :
    let names : Expr := .list [.literal (.str "a"), .literal (.str "b")]
    let value : Value := .list ⟨.string, [.str "a", .str "b"]⟩
    holder.model.Reads (some ⟨3⟩) false (.expr names) (some value) 2 ∧
      holder.model.InitializedBy "a.Holder" "NAMES" names ∧
      ¬ holder.model.TakesFloats (some ⟨3⟩) ∧
      holder.readValue (some ⟨3⟩) (.expr (.variableRef "names" (some names))) = some value ∧
      holder.readValue (some ⟨3⟩) (.expr (.qualified "a.Holder" "NAMES")) = some value := by
  intro names value
  have hreads : holder.model.Reads (some ⟨3⟩) false (.expr names) (some value) 2 := by
    have hs : (RawValue.expr names).shape =
        .list [.expr (.literal (.str "a")), .expr (.literal (.str "b"))] := rfl
    refine @Model.Reads.list _ _ _ _ _ (holder.model.readWithin 1 (some ⟨3⟩) true) (fun _ => 1) hs
      fun item hi => ?_
    rcases List.mem_pair.mp hi with rfl | rfl
    · exact .complete rfl
    · exact .complete rfl
  have hconstant : holder.model.InitializedBy "a.Holder" "NAMES" names :=
    ⟨_, _, _, _, _, rfl, rfl, nofun, rfl, rfl, rfl, rfl, rfl⟩
  have hfloats : ¬ holder.model.TakesFloats (some ⟨3⟩) := by
    rintro ⟨item, hi, hd⟩
    cases hi
    exact absurd hd (by decide)
  obtain ⟨-, -, hvariable, hqualified⟩ := readValue_named hreads (by decide)
  refine ⟨hreads, hconstant, hfloats, hvariable _, ?_⟩
  refine ((hqualified _ _ hconstant).2 fun h => absurd h hfloats).mpr (Or.inr ?_)
  rintro v hv (_ | ⟨-, hunknown, -⟩ | ⟨-, hint, -⟩)
  · cases hv
  · cases hv
    cases hunknown
  · cases hv
    cases hint

/-- **The constants are not adapted to the member.**  The annotation is not wrapped, the list without
items gets no kind, and the integers are not widened. -/
theorem constants_unadapted_holder :
    let role : Expr := .nested ⟨"a.Role", ∅⟩
    let counts : Expr := .list [.literal (.int 1), .literal (.int 2)]
    holder.model.Accepted ∧
      holder.model.InitializedBy "a.Holder" "ROLE" role ∧
      holder.model.InitializedBy "a.Holder" "NONE" (.list []) ∧
      holder.model.InitializedBy "a.Holder" "COUNTS" counts ∧
      (∃ value, holder.model.Reads (some ⟨2⟩) false (.expr role) value 1) ∧
      (∃ value, holder.model.Reads (some ⟨3⟩) false (.expr (.list [])) value 1) ∧
      (∃ value, holder.model.Reads (some ⟨4⟩) false (.expr counts) value 2) ∧
      holder.readValue (some ⟨2⟩) (.expr (.qualified "a.Holder" "ROLE")) ≠
        holder.readValue (some ⟨2⟩) (.expr role) ∧
      holder.readValue (some ⟨3⟩) (.expr (.qualified "a.Holder" "NONE")) ≠
        holder.readValue (some ⟨3⟩) (.expr (.list [])) ∧
      holder.readValue (some ⟨4⟩) (.expr (.qualified "a.Holder" "COUNTS")) ≠
        holder.readValue (some ⟨4⟩) (.expr counts) := by
  intro role counts
  have hloaded : Model.ofDeclarations holder.model.declarations.toList = .ok holder.model := rfl
  -- The kinds of the results tell them apart, and so does whether there is a list at all.
  have hkind : ∀ {read read' : Option Value},
      read.map Value.component ≠ read'.map Value.component → read ≠ read' :=
    fun h he => h (congrArg _ he)
  have hrole := @Model.Reads.nested holder.model (some ⟨2⟩) false (.expr role) _ (fun _ _ => none)
    (fun _ => 1) rfl nofun
  have hnone := @Model.Reads.list holder.model (some ⟨3⟩) false (.expr (.list [])) _ (fun _ => none)
    (fun _ => 1) rfl nofun
  have hcounts := @Model.Reads.list holder.model (some ⟨4⟩) false (.expr counts) _
    (holder.model.readWithin 1 (some ⟨4⟩) true) (fun _ => 1) rfl fun item hi => by
      rcases List.mem_pair.mp hi with rfl | rfl
      · exact .complete rfl
      · exact .complete rfl
  refine ⟨Model.accepted_of_load hloaded (by decide),
    ⟨_, _, _, _, _, rfl, rfl, nofun, rfl, rfl, rfl, rfl, rfl⟩,
    ⟨_, _, _, _, _, rfl, rfl, nofun, rfl, rfl, rfl, rfl, rfl⟩,
    ⟨_, _, _, _, _, rfl, rfl, nofun, rfl, rfl, rfl, rfl, rfl⟩, ⟨_, hrole⟩, ⟨_, hnone⟩,
    ⟨_, hcounts⟩, ?_, hkind (by decide), hkind (by decide)⟩
  exact fun h => absurd (congrArg (Option.map fun v => v.asList?.isSome) h) (by decide)

end Environment

end AnnotationResolution
