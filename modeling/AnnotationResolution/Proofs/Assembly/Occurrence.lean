import Mathlib.Data.List.Basic
import AnnotationResolution.Assembly.Occurrence
import AnnotationResolution.Proofs.Lists
import AnnotationResolution.Proofs.Recording

/-!
# The occurrences of one annotation type

What is written on a level, sorted by what becomes of it.  `plainOn` are the annotations of a type
that are merged, and `applicationsOn` the applications of a repeatable annotation, those in pure
containers included.

* `filter_mergesInto_occurrences`, `filter_repeats_occurrences`: of all occurrences, just these
  concern the type, level by level.
* `container_of_mem_occurrences`: it depends on the type alone which of the two becomes of it.
* `namesDistinct_of_mem_occurrences`: in an accepted model an occurrence names its members once,
  also when it lies in a container.
-/

namespace AnnotationResolution

/-- The occurrence goes into the merged entry of the name. -/
def Occurrence.mergesInto (name : String) (o : Occurrence) : Bool :=
  o.container.isNone && o.applied.annotationType == name

/-- The occurrence is an application of the repeatable annotation of the name. -/
def Occurrence.repeats (name : String) (o : Occurrence) : Bool :=
  o.container.isSome && o.applied.annotationType == name

/-! ## The annotations in a container -/

theorem HostValue.holds_of_nested? {host : HostValue} {a : AnnotationInstance}
    (h : host.nested? = some a) : host.Holds a := by
  cases host <;> cases h
  exact .nested (.self _)

theorem Expr.holds_of_nested? {e : Expr} {a : AnnotationInstance} (h : e.nested? = some a) :
    e.Holds a := by
  cases e with
  | nested inner =>
    cases h
    exact .nested (.self _)
  | value host => exact .value (HostValue.holds_of_nested? h)
  | _ => cases h

/-- An expression holds the annotations it is made of. -/
theorem Expr.holds_of_annotations? {e : Expr} {items : List AnnotationInstance}
    (h : e.annotations? = some items) {item : AnnotationInstance} (hi : item ∈ items) :
    e.Holds item := by
  have single : e.nested?.map ([·]) = some items → e.Holds item := by
    intro hs
    obtain ⟨only, ho, rfl⟩ := Option.map_eq_some_iff.mp hs
    obtain rfl := List.mem_singleton.mp hi
    exact Expr.holds_of_nested? ho
  rw [Expr.annotations?.eq_def] at h
  split at h
  · obtain ⟨e, he, hn⟩ := mem_of_mapM_eq_some h hi
    exact .list he (Expr.holds_of_nested? hn)
  · obtain ⟨host, hh, hn⟩ := mem_of_mapM_eq_some h hi
    exact .value (.array hh (HostValue.holds_of_nested? hn))
  · exact single h

namespace Environment

variable {env : Environment}

/-- What makes an annotation a pure container. -/
theorem of_containerItems? {a : AnnotationInstance} {items : List AnnotationInstance}
    (h : env.containerItems? a = some items) :
    items ≠ [] ∧ ∀ item ∈ items,
      env.repeatableContainer? item.annotationType = some a.annotationType ∧ a.Holds item := by
  rw [containerItems?] at h
  split at h
  · cases h
  · simp only [bind, Option.bind_eq_some_iff] at h
    obtain ⟨e, he, found, hf, hc⟩ := h
    split at hc
    · next hp =>
      cases hc
      simp only [Bool.and_eq_true, List.all_eq_true, beq_iff_eq] at hp
      refine ⟨by simpa using hp.1.2, fun item hi => ⟨hp.2 item hi, ?_⟩⟩
      exact .member (Members.mem_entries_of_get? he) (Expr.holds_of_annotations? hf hi)
    · cases hc

variable (env) in
/-- The annotations of a type on a level that count and are no pure containers. -/
def plainOn (target : BuildTarget) (annotationType : String) (level : DeclId) :
    List AnnotationInstance :=
  (env.keptAnnotations target level).filter fun a =>
    a.annotationType == annotationType && (env.containerItems? a).isNone

variable (env) in
/-- The annotations of a type that one annotation stands for. -/
def applicationsIn (annotationType : String) (a : AnnotationInstance) : List AnnotationInstance :=
  match env.containerItems? a with
  | some items => items.filter (·.annotationType == annotationType)
  | none => if a.annotationType == annotationType then [a] else []

variable (env) in
/-- The applications of a repeatable annotation on a level, as written. -/
def applicationsOn (target : BuildTarget) (annotationType : String) (level : DeclId) :
    List AnnotationInstance :=
  (env.keptAnnotations target level).flatMap (env.applicationsIn annotationType)

/-! ## The occurrences that concern a type -/

variable (target : BuildTarget) {annotationType : String}

theorem occurrencesOn_eq (level : DeclId) :
    env.occurrencesOn target level = (env.keptAnnotations target level).flatMap fun a =>
      (env.applications a).map fun application =>
        ⟨level, sourceOf target level, application.1, application.2⟩ :=
  rfl

variable (env) in
/-- The occurrences that one annotation of a level comes to, none if it does not count. -/
def occurrencesFrom (level : DeclId) (a : AnnotationInstance) : List Occurrence :=
  if env.passesExclusion target a && env.passesInheritance target level a then
    (env.applications a).map fun application =>
      ⟨level, sourceOf target level, application.1, application.2⟩
  else []

theorem occurrencesOn_eq_flatMap (level : DeclId) :
    env.occurrencesOn target level =
      (env.model.annotations level).flatMap (env.occurrencesFrom target level) := by
  rw [occurrencesOn_eq, keptAnnotations]
  induction env.model.annotations level with
  | nil => rfl
  | cons a rest ih =>
    rw [List.flatMap_cons, ← ih, List.filter_cons, occurrencesFrom]
    split
    · rw [List.flatMap_cons]
    · rw [List.nil_append]

theorem filter_mergesInto_occurrencesOn (h : env.repeatableContainer? annotationType = none)
    (level : DeclId) :
    (env.occurrencesOn target level).filter (·.mergesInto annotationType) =
      (env.plainOn target annotationType level).map fun a =>
        ⟨level, sourceOf target level, a, none⟩ := by
  rw [occurrencesOn_eq, List.filter_flatMap, plainOn]
  induction env.keptAnnotations target level with
  | nil => rfl
  | cons a rest ih =>
    rw [List.flatMap_cons, ih, applications]
    cases hc : env.containerItems? a with
    | some items =>
      -- What lies in a container has that container, so it is merged into nothing.
      have hnone : ∀ o ∈ (items.map (·, some a.annotationType)).map (fun application =>
          Occurrence.mk level (sourceOf target level) application.1 application.2),
          ¬ o.mergesInto annotationType = true := by
        intro o ho
        rw [List.map_map] at ho
        obtain ⟨item, -, rfl⟩ := List.mem_map.mp ho
        simp [Occurrence.mergesInto]
      rw [List.filter_eq_nil_iff.mpr hnone, List.nil_append, List.filter_cons_of_neg (by simp [hc])]
    | none =>
      by_cases ht : a.annotationType = annotationType
      · rw [List.filter_cons_of_pos (by simp [hc, ht]), List.map_cons]
        simp [Occurrence.mergesInto, ht, h]
      · rw [List.filter_cons_of_neg (by simp [ht])]
        simp [Occurrence.mergesInto, ht]

theorem filter_repeats_occurrencesOn {container : String}
    (h : env.repeatableContainer? annotationType = some container) (level : DeclId) :
    (env.occurrencesOn target level).filter (·.repeats annotationType) =
      (env.applicationsOn target annotationType level).map fun a =>
        ⟨level, sourceOf target level, a, some container⟩ := by
  rw [occurrencesOn_eq, List.filter_flatMap, applicationsOn, List.map_flatMap]
  refine List.flatMap_congr fun a _ => ?_
  rw [applications, applicationsIn]
  cases hc : env.containerItems? a with
  | some items =>
    rw [List.map_map, List.filter_map]
    have hf : items.filter ((fun o : Occurrence => o.repeats annotationType) ∘
        (fun application => ⟨level, sourceOf target level, application.1, application.2⟩) ∘
          fun item => (item, some a.annotationType)) =
        items.filter (·.annotationType == annotationType) :=
      List.filter_congr fun item _ => by simp [Occurrence.repeats]
    rw [hf]
    refine List.map_congr_left fun item hi => ?_
    obtain ⟨hi, ht⟩ := List.mem_filter.mp hi
    have hp := ((of_containerItems? hc).2 item hi).1
    rw [eq_of_beq ht, h] at hp
    rw [Function.comp_apply, hp]
  | none =>
    by_cases ht : a.annotationType = annotationType
    · simp [Occurrence.repeats, ht, h]
    · simp [Occurrence.repeats, ht]

/-! ## All levels -/

theorem filter_mergesInto_occurrences (h : env.repeatableContainer? annotationType = none)
    (options : BuildOptions) :
    (env.occurrences options target).filter (·.mergesInto annotationType) =
      (env.levels options target.id).reverse.flatMap fun level =>
        (env.plainOn target annotationType level).map fun a =>
          ⟨level, sourceOf target level, a, none⟩ := by
  rw [occurrences, List.filter_flatMap]
  exact List.flatMap_congr fun level _ => filter_mergesInto_occurrencesOn target h level

theorem filter_repeats_occurrences {container : String}
    (h : env.repeatableContainer? annotationType = some container) (options : BuildOptions) :
    (env.occurrences options target).filter (·.repeats annotationType) =
      (env.levels options target.id).reverse.flatMap fun level =>
        (env.applicationsOn target annotationType level).map fun a =>
          ⟨level, sourceOf target level, a, some container⟩ := by
  rw [occurrences, List.filter_flatMap]
  exact List.flatMap_congr fun level _ => filter_repeats_occurrencesOn target h level

variable {target} {options : BuildOptions}

theorem holds_of_mem_applications {a : AnnotationInstance}
    {application : AnnotationInstance × Option String} (h : application ∈ env.applications a) :
    a.Holds application.1 := by
  rw [applications] at h
  split at h
  · next items hc =>
    obtain ⟨item, hi, rfl⟩ := List.mem_map.mp h
    exact ((of_containerItems? hc).2 item hi).2
  · obtain rfl := List.mem_singleton.mp h
    exact .self a

theorem mem_occurrences_iff {o : Occurrence} :
    o ∈ env.occurrences options target ↔
      ∃ level ∈ env.levels options target.id, ∃ a ∈ env.keptAnnotations target level,
        ∃ application ∈ env.applications a,
          o = ⟨level, sourceOf target level, application.1, application.2⟩ := by
  simp only [occurrences, List.mem_flatMap, List.mem_reverse, occurrencesOn_eq, List.mem_map,
    eq_comm]

/-- **An occurrence has the container that its annotation type names.**  So it depends on the type
alone whether it is merged or repeated. -/
theorem container_of_mem_occurrences {o : Occurrence} (ho : o ∈ env.occurrences options target) :
    o.container = env.repeatableContainer? o.applied.annotationType := by
  obtain ⟨level, -, a, -, application, happ, rfl⟩ := mem_occurrences_iff.mp ho
  rw [applications] at happ
  split at happ
  · next items hc =>
    obtain ⟨item, hi, rfl⟩ := List.mem_map.mp happ
    exact ((of_containerItems? hc).2 item hi).1.symm
  · obtain rfl := List.mem_singleton.mp happ
    rfl

/-- A type whose annotations are merged names no container. -/
theorem repeatableContainer?_of_mergesInto {o : Occurrence}
    (ho : o ∈ env.occurrences options target) (hm : o.mergesInto annotationType = true) :
    env.repeatableContainer? annotationType = none := by
  obtain ⟨hnone, htype⟩ := Bool.and_eq_true_iff.mp hm
  rw [← eq_of_beq htype, ← container_of_mem_occurrences ho]
  exact Option.isNone_iff_eq_none.mp hnone

/-- A type whose annotations are repeated names the container that they have. -/
theorem repeatableContainer?_of_repeats {o : Occurrence}
    (ho : o ∈ env.occurrences options target) (hr : o.repeats annotationType = true) :
    ∃ container, o.container = some container ∧
      env.repeatableContainer? annotationType = some container := by
  obtain ⟨hsome, htype⟩ := Bool.and_eq_true_iff.mp hr
  obtain ⟨container, hc⟩ := Option.isSome_iff_exists.mp hsome
  exact ⟨container, hc, by rw [← eq_of_beq htype, ← container_of_mem_occurrences ho, hc]⟩

/-- What is merged is a plain annotation of its level. -/
theorem mem_plainOn_of_mergesInto {o : Occurrence} (ho : o ∈ env.occurrences options target)
    (hm : o.mergesInto annotationType = true) :
    o.applied ∈ env.plainOn target annotationType o.level ∧ o.source = sourceOf target o.level := by
  obtain ⟨hnone, htype⟩ := Bool.and_eq_true_iff.mp hm
  obtain ⟨level, -, a, ha, application, happ, rfl⟩ := mem_occurrences_iff.mp ho
  rw [applications] at happ
  split at happ
  · -- An application in a container has one, and is not merged.
    obtain ⟨item, -, rfl⟩ := List.mem_map.mp happ
    cases hnone
  · next hplain =>
    obtain rfl := List.mem_singleton.mp happ
    exact ⟨List.mem_filter.mpr ⟨ha, Bool.and_eq_true_iff.mpr ⟨htype, by rw [hplain]; rfl⟩⟩, rfl⟩

theorem namesDistinct_of_mem_occurrences (h : env.model.Accepted) {o : Occurrence}
    (ho : o ∈ env.occurrences options target) : o.applied.NamesDistinct := by
  obtain ⟨level, -, a, ha, application, happ, rfl⟩ := mem_occurrences_iff.mp ho
  exact h.namesDistinct_of_holds (List.mem_filter.mp ha).1 (holds_of_mem_applications happ)

end Environment

end AnnotationResolution
