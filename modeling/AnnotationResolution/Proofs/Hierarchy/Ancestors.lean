import Mathlib.Data.List.Nodup
import AnnotationResolution.Proofs.DepthFirst
import AnnotationResolution.Proofs.Hierarchy.Levels
import AnnotationResolution.Proofs.Model.Index

/-!
# The order of the ancestors

The types that count for a type are found class by class along its `lineage`: the type itself, then
the superclasses that are not ignored, each with the interfaces that are new with it
(`cons_typeAncestors`).  The hierarchy is this order reversed.

* `nodup_typeHierarchy`: no type is found twice.
* `isType_of_mem_typeHierarchy`: in an accepted model all of them are types.
* `FirstWay`: the way that the search takes to a type.  It leaves the lineage at the first class
  whose interfaces lead there and follows the first path from then on.
* `foundAlong_foldl_withClass`: the search finds a type along the first way to it.
-/

namespace AnnotationResolution

namespace Model

variable {m : Model}

theorem mem_ids_of_typeInfo? {id : DeclId} {info : TypeInfo} (h : m.typeInfo? id = some info) :
    id ∈ m.ids := by
  obtain ⟨d, hd, -⟩ := Option.bind_eq_some_iff.mp h
  exact mem_ids_iff.mpr ⟨d, hd⟩

theorem mem_ids_of_superType? {id superclass : DeclId} (h : m.superType? id = some superclass) :
    id ∈ m.ids := by
  obtain ⟨info, hi, -⟩ := Option.bind_eq_some_iff.mp h
  exact mem_ids_of_typeInfo? hi

theorem mem_ids_of_superType?_ne_nil (id : DeclId) (h : (m.superType? id).toList ≠ []) :
    id ∈ m.ids := by
  cases hs : m.superType? id with
  | none => exact absurd (by rw [hs]; rfl) h
  | some superclass => exact mem_ids_of_superType? hs

theorem mem_ids_of_mem_interfaces {id interface : DeclId} (h : interface ∈ m.interfaces id) :
    id ∈ m.ids := by
  rw [interfaces] at h
  split at h
  · next info hi => exact mem_ids_of_typeInfo? hi
  · cases h

theorem exists_typeNamed?_of_superType? {id superclass : DeclId}
    (h : m.superType? id = some superclass) : ∃ name, m.typeNamed? name = some superclass := by
  simp only [superType?, bind, Option.bind_eq_some_iff] at h
  obtain ⟨info, -, ref, -, name, -, hn⟩ := h
  exact ⟨name, hn⟩

theorem exists_superType?_of_mem_superclasses {id superclass : DeclId}
    (h : superclass ∈ m.superclasses id) : ∃ below, m.superType? below = some superclass := by
  have hwalk : superclass ∈ walkOrder m.ids (fun k => (m.superType? k).toList)
      (m.superType? id).toList [id] := h
  obtain ⟨first, hf, hl⟩ := leads_of_mem_walkOrder mem_ids_of_superType?_ne_nil hwalk
  rcases Relation.ReflTransGen.cases_tail hl with rfl | ⟨below, -, hb⟩
  · exact ⟨id, Option.mem_toList.mp hf⟩
  · exact ⟨below, Option.mem_toList.mp hb⟩

theorem notMem_superclasses (id : DeclId) : id ∉ m.superclasses id := fun h =>
  (nodup_freshKeys _ _ _ _).2 id h List.mem_cons_self

end Model

namespace Environment

variable (env : Environment)

/-! ## Interfaces -/

theorem exists_typeNamed?_of_mem_interfaces {id interface : DeclId}
    (h : interface ∈ env.interfaces id) : ∃ name, env.model.typeNamed? name = some interface := by
  rw [interfaces] at h
  split at h
  · obtain ⟨ref, -, hr⟩ := List.mem_filterMap.mp h
    simp only [bind, Option.bind_eq_some_iff] at hr
    obtain ⟨name, -, hn⟩ := hr
    split at hn
    · cases hn
    · exact ⟨name, hn⟩
  · cases h

theorem mem_ids_of_interfaces_ne_nil (id : DeclId) (h : env.interfaces id ≠ []) :
    id ∈ env.model.ids := by
  rw [interfaces] at h
  split at h
  · next info hi => exact Model.mem_ids_of_typeInfo? hi
  · exact absurd rfl h

theorem interfaceClosure_eq (id : DeclId) (seen : List DeclId) :
    env.interfaceClosure id seen =
      walkOrder env.model.ids env.interfaces (env.interfaces id) seen :=
  rfl

theorem leads_of_mem_interfaceClosure {id k : DeclId} {seen : List DeclId}
    (h : k ∈ env.interfaceClosure id seen) : Leads env.interfaces id k := by
  obtain ⟨first, hf, hl⟩ := leads_of_mem_walkOrder env.mem_ids_of_interfaces_ne_nil h
  exact .of_edge hf hl

/-! ## Class by class -/

/-- A type and its superclasses, nearest first, without those that are ignored. -/
def lineage (ty : DeclId) : List DeclId :=
  ty :: (env.model.superclasses ty).filter fun c => !env.ignoresSuperclass c

/-- The types found so far, with a class and the interfaces that are new with it. -/
def withClass (found : List DeclId) (c : DeclId) : List DeclId :=
  addNew found c ++ env.interfaceClosure c (addNew found c)

theorem addNew_of_notMem {found : List DeclId} {c : DeclId} (h : c ∉ found) :
    addNew found c = found ++ [c] :=
  if_neg h

theorem mem_addNew {found : List DeclId} {c k : DeclId} : k ∈ addNew found c ↔ k ∈ found ∨ k = c := by
  rw [addNew]
  split
  · next h => exact ⟨Or.inl, fun hk => hk.elim id fun he => he ▸ h⟩
  · simp

theorem cons_addSuperclass {ty c : DeclId} (hne : c ≠ ty) (ancestors : List DeclId) :
    ty :: env.addSuperclass ty ancestors c =
      if env.ignoresSuperclass c then ty :: ancestors else env.withClass (ty :: ancestors) c := by
  rw [addSuperclass]
  split
  · rfl
  · -- The superclass differs from the type, so it is new after it just when it is new.
    have hnew : addNew (ty :: ancestors) c =
        ty :: if c ∈ ancestors then ancestors else ancestors ++ [c] := by
      by_cases hc : c ∈ ancestors
      · simp [addNew, hc]
      · simp [addNew, hc, hne]
    rw [withClass, hnew]
    rfl

theorem cons_typeAncestors (ty : DeclId) :
    ty :: env.typeAncestors ty = (env.lineage ty).foldl env.withClass [] := by
  have hrest : ∀ (classes ancestors : List DeclId), (∀ c ∈ classes, c ≠ ty) →
      ty :: classes.foldl (env.addSuperclass ty) ancestors =
        (classes.filter fun c => !env.ignoresSuperclass c).foldl env.withClass
          (ty :: ancestors) := by
    intro classes
    induction classes with
    | nil => intro ancestors _; rfl
    | cons c rest ih =>
      intro ancestors hne
      have hstep := env.cons_addSuperclass (hne c List.mem_cons_self) ancestors
      rw [List.foldl_cons, ih _ fun other ho => hne other (List.mem_cons_of_mem _ ho), hstep]
      by_cases hi : env.ignoresSuperclass c = true
      · rw [if_pos hi, List.filter_cons_of_neg (by simp [hi])]
      · rw [if_neg hi, List.filter_cons_of_pos (by simpa using hi), List.foldl_cons]
  rw [typeAncestors, hrest, lineage, List.foldl_cons]
  · rfl
  · intro c hc he
    exact Model.notMem_superclasses ty (he ▸ hc)

theorem typeHierarchy_eq {ty : DeclId} {d : Declaration} (hd : env.model.declaration? ty = some d)
    (hn : d.isAnnotationType = false) :
    env.typeHierarchy ty = ((env.lineage ty).foldl env.withClass []).reverse := by
  rw [typeHierarchy, hd, Option.any_some, hn, ← cons_typeAncestors]
  rfl

theorem prefix_foldl_withClass (classes found : List DeclId) :
    ∃ new, classes.foldl env.withClass found = found ++ new := by
  induction classes generalizing found with
  | nil => exact ⟨[], (List.append_nil found).symm⟩
  | cons c rest ih =>
    obtain ⟨new, hnew⟩ := ih (env.withClass found c)
    have hadd : ∃ added, addNew found c = found ++ added := by
      rw [addNew]
      split
      · exact ⟨[], (List.append_nil found).symm⟩
      · exact ⟨[c], rfl⟩
    obtain ⟨added, ha⟩ := hadd
    refine ⟨added ++ env.interfaceClosure c (addNew found c) ++ new, ?_⟩
    rw [List.foldl_cons, hnew, withClass, ha]
    simp only [List.append_assoc]

theorem nodup_withClass {found : List DeclId} (h : found.Nodup) (c : DeclId) :
    (env.withClass found c).Nodup := by
  have hadd : (addNew found c).Nodup := by
    rw [addNew]
    split
    · exact h
    · next hc =>
      rw [List.nodup_append]
      refine ⟨h, List.nodup_singleton c, fun a ha b hb he => hc ?_⟩
      rwa [← List.mem_singleton.mp hb, ← he]
  obtain ⟨hclosure, hnew⟩ := nodup_freshKeys env.model.ids
    (fun k (_ : Unit) => (env.interfaces k).map (·, ())) ((env.interfaces c).map (·, ()))
    (addNew found c)
  rw [withClass, List.nodup_append]
  refine ⟨hadd, hclosure, fun a ha b hb he => hnew b hb ?_⟩
  rwa [← he]

theorem nodup_cons_typeAncestors (ty : DeclId) : (ty :: env.typeAncestors ty).Nodup := by
  rw [cons_typeAncestors]
  generalize hfound : ([] : List DeclId) = found
  have hnodup : found.Nodup := hfound ▸ List.nodup_nil
  clear hfound
  induction env.lineage ty generalizing found with
  | nil => exact hnodup
  | cons c rest ih => exact ih _ (env.nodup_withClass hnodup c)

/-- **No type is in a hierarchy twice.** -/
theorem nodup_typeHierarchy (ty : DeclId) : (env.typeHierarchy ty).Nodup := by
  rw [typeHierarchy]
  split
  · exact List.nodup_singleton ty
  · exact List.nodup_reverse.mpr (env.nodup_cons_typeAncestors ty)

theorem leads_of_mem_foldl_withClass {classes found : List DeclId} {k : DeclId}
    (h : k ∈ classes.foldl env.withClass found) :
    k ∈ found ∨ ∃ c ∈ classes, Leads env.interfaces c k := by
  induction classes generalizing found with
  | nil => exact Or.inl h
  | cons c rest ih =>
    rcases ih h with hk | ⟨other, ho, hl⟩
    · rcases List.mem_append.mp hk with hk | hk
      · rcases mem_addNew.mp hk with hk | rfl
        · exact Or.inl hk
        · exact Or.inr ⟨k, List.mem_cons_self, .refl⟩
      · exact Or.inr ⟨c, List.mem_cons_self, env.leads_of_mem_interfaceClosure hk⟩
    · exact Or.inr ⟨other, List.mem_cons_of_mem _ ho, hl⟩

theorem exists_leads_of_mem_typeHierarchy {ty k : DeclId} (h : k ∈ env.typeHierarchy ty) :
    ∃ c ∈ env.lineage ty, Leads env.interfaces c k := by
  rw [typeHierarchy] at h
  split at h
  · obtain rfl := List.mem_singleton.mp h
    exact ⟨k, List.mem_cons_self, .refl⟩
  · rw [List.mem_reverse, cons_typeAncestors] at h
    rcases env.leads_of_mem_foldl_withClass h with hk | hk
    · cases hk
    · exact hk

/-- What a hierarchy has besides the type itself goes by a name. -/
theorem exists_typeNamed?_of_mem_typeHierarchy {ty k : DeclId} (h : k ∈ env.typeHierarchy ty) :
    k = ty ∨ ∃ name, env.model.typeNamed? name = some k := by
  obtain ⟨c, hc, hl⟩ := env.exists_leads_of_mem_typeHierarchy h
  rcases Relation.ReflTransGen.cases_tail hl with rfl | ⟨below, -, hb⟩
  · rcases List.mem_cons.mp hc with rfl | hc
    · exact Or.inl rfl
    · obtain ⟨below, hb⟩ := Model.exists_superType?_of_mem_superclasses (List.mem_filter.mp hc).1
      exact Or.inr (Model.exists_typeNamed?_of_superType? hb)
  · exact Or.inr (env.exists_typeNamed?_of_mem_interfaces hb)

/-- **A hierarchy consists of types.** -/
theorem isType_of_mem_typeHierarchy (hm : env.model.Accepted) {ty k : DeclId}
    (ht : env.model.isType ty = true) (h : k ∈ env.typeHierarchy ty) :
    env.model.isType k = true := by
  rcases env.exists_typeNamed?_of_mem_typeHierarchy h with rfl | ⟨name, hn⟩
  · exact ht
  · exact hm.isType_of_typeNamed? hn

theorem mem_typeHierarchy_self (ty : DeclId) : ty ∈ env.typeHierarchy ty := by
  rw [typeHierarchy]
  split
  · exact List.mem_singleton_self ty
  · exact List.mem_reverse.mpr List.mem_cons_self

theorem isType_of_mem_levels {env : Environment} (hm : env.model.Accepted) {ty : DeclId}
    {d : Declaration} (hd : env.model.declaration? ty = some d) (ht : d.isType = true)
    {options : BuildOptions} {level : DeclId} (h : level ∈ env.levels options ty) :
    env.model.isType level = true := by
  have hty : env.model.isType ty = true := Model.isType_iff.mpr ⟨d, hd, ht⟩
  have hmem : level ∈ env.typeHierarchy ty := by
    rw [levels_of_isType hd ht] at h
    split at h
    · obtain rfl := List.mem_singleton.mp h
      exact env.mem_typeHierarchy_self level
    · exact h
  exact env.isType_of_mem_typeHierarchy hm hty hmem

/-! ## The first way -/

/-- The way from a lineage to the type `top`: up to the first class whose interfaces lead there, and
from it the first path. -/
inductive FirstWay (top : DeclId) : List DeclId → List DeclId → Prop
  | turn {c : DeclId} {rest path : List DeclId} (hp : FirstPath env.interfaces top c path) :
      FirstWay top (c :: rest) path
  | up {c : DeclId} {rest way : List DeclId} (hc : ¬ Leads env.interfaces c top)
      (hw : FirstWay top rest way) : FirstWay top (c :: rest) (c :: way)

variable {env} {top : DeclId}

theorem exists_firstWay (hcycle : NoCycle env.interfaces) {classes : List DeclId}
    (h : ∃ c ∈ classes, Leads env.interfaces c top) : ∃ way, env.FirstWay top classes way := by
  induction classes with
  | nil =>
    obtain ⟨c, hc, -⟩ := h
    cases hc
  | cons first rest ih =>
    by_cases hf : Leads env.interfaces first top
    · obtain ⟨path, hp⟩ := exists_firstPath env.mem_ids_of_interfaces_ne_nil hcycle hf
      exact ⟨path, .turn hp⟩
    · obtain ⟨c, hc, hl⟩ := h
      have hr : c ∈ rest := by
        rcases List.mem_cons.mp hc with rfl | hr
        · exact absurd hl hf
        · exact hr
      obtain ⟨way, hw⟩ := ih ⟨c, hr, hl⟩
      exact ⟨first :: way, .up hf hw⟩

theorem foundAlong_withClass (hcycle : NoCycle env.interfaces) {c : DeclId}
    {path found : List DeclId} (hp : FirstPath env.interfaces top c path)
    (hf : ∀ k ∈ found, ¬ Leads env.interfaces k top) :
    FoundAlong env.interfaces top path (env.withClass found c) := by
  have hnew : c ∉ found := fun hc => hf c hc hp.leads
  rw [withClass, addNew_of_notMem hnew, List.append_assoc]
  refine FoundAlong.prepend ?_ hf
  cases hp with
  | arrived => exact .head _
  | @step _ next before after path hne he hb hnext =>
    refine FoundAlong.step ?_ c
    rw [interfaceClosure_eq, he]
    refine foundAlong_walkOrder env.mem_ids_of_interfaces_ne_nil hcycle hb hnext fun s hs hl => ?_
    rcases List.mem_append.mp hs with hs | hs
    · exact hf s hs
    · obtain rfl := List.mem_singleton.mp hs
      exact absurd hl (hcycle s next (by simp [he]))

/-- **The search along a lineage finds `top` along the first way.** -/
theorem foundAlong_foldl_withClass (hcycle : NoCycle env.interfaces) {classes way : List DeclId}
    (hw : env.FirstWay top classes way) {found : List DeclId}
    (hf : ∀ k ∈ found, ¬ Leads env.interfaces k top) :
    FoundAlong env.interfaces top way (classes.foldl env.withClass found) := by
  induction hw generalizing found with
  | @turn c rest path hp =>
    obtain ⟨new, hnew⟩ := env.prefix_foldl_withClass rest (env.withClass found c)
    rw [List.foldl_cons, hnew]
    exact (foundAlong_withClass hcycle hp hf).append new
  | @up c rest way hc hw ih =>
    have hf' : ∀ k ∈ env.withClass found c, ¬ Leads env.interfaces k top := by
      intro k hk
      rcases List.mem_append.mp hk with hk | hk
      · rcases mem_addNew.mp hk with hk | rfl
        · exact hf k hk
        · exact hc
      · exact fun hl => hc ((env.leads_of_mem_interfaceClosure hk).trans hl)
    have hmem : c ∈ env.withClass found c := List.mem_append_left _ (mem_addNew.mpr (Or.inr rfl))
    have hrec := ih hf'
    obtain ⟨new, hnew⟩ := env.prefix_foldl_withClass rest (env.withClass found c)
    rw [List.foldl_cons]
    rw [hnew] at hrec ⊢
    exact hrec.cons_of_mem_front hf' hmem

end Environment

end AnnotationResolution
