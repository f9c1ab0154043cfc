import AnnotationResolution.Proofs.DepthFirst.Frontier
import AnnotationResolution.Proofs.Hierarchy.Superclasses

/-!
# Which types are ancestors

The search for ancestors looks at the interfaces of one class after the other and passes over all that
it has found before.  Nothing is lost by this: after each class the types found so far have a frontier
with nothing pending (`frontier_withClass`), so what lies behind them has been found too.

* `mem_foldl_withClass_iff`: found is what some class of the lineage leads to.
* `filter_foldl_withClass`: classes that are no interfaces keep the order of the lineage.
* `introduced_foldl_withClass`: any other type is found after one that names it.
* `typeAncestors_exact`: what the ancestors of a type are, and in what order.
-/

namespace AnnotationResolution.Environment

variable {env : Environment} {ty : DeclId}

/-! ## Interfaces -/

variable (env) in
/-- A type names another one as an interface, in a reference that resolves and is not ignored. -/
def NamesInterface (id interface : DeclId) : Prop :=
  ∃ info, env.model.typeInfo? id = some info ∧ ∃ ref ∈ info.interfaces, ∃ name,
    ref.rawName? = some name ∧ env.config.ignoresInterface name = false ∧
      env.model.typeNamed? name = some interface

theorem mem_interfaces_iff {id interface : DeclId} :
    interface ∈ env.interfaces id ↔ env.NamesInterface id interface := by
  rw [interfaces, NamesInterface]
  cases env.model.typeInfo? id with
  | none => simp
  | some info =>
    simp only [List.mem_filterMap, Option.some_inj, exists_eq_left', bind, Option.bind_eq_some_iff]
    refine exists_congr fun ref => and_congr_right fun _ => exists_congr fun name =>
      and_congr_right fun _ => ?_
    cases env.config.ignoresInterface name <;> simp

theorem leads_interfaces_iff {id k : DeclId} :
    Leads env.interfaces id k ↔ Relation.ReflTransGen env.NamesInterface id k := by
  have hedge : (fun a b => b ∈ env.interfaces a) = env.NamesInterface := by
    funext a b
    exact propext mem_interfaces_iff
  rw [Leads, hedge]

theorem exists_mem_interfaces_of_mem_interfaceClosure {id k : DeclId} {seen : List DeclId}
    (h : k ∈ env.interfaceClosure id seen) : ∃ p, k ∈ env.interfaces p := by
  rw [interfaceClosure_eq, mem_walkOrder_iff_visited env.mem_ids_of_interfaces_ne_nil] at h
  rcases h.2 with hk | ⟨p, -, hk⟩
  · exact ⟨id, hk⟩
  · exact ⟨p, hk⟩

/-- Behind a frontier the closure has what can be reached and was not seen. -/
theorem mem_interfaceClosure_iff {id k : DeclId} {seen : List DeclId}
    (h : Frontier env.interfaces seen (env.interfaces id)) :
    k ∈ env.interfaceClosure id seen ↔ k ∉ seen ∧ Relation.TransGen env.NamesInterface id k := by
  rw [interfaceClosure_eq, h.mem_walkOrder_iff env.mem_ids_of_interfaces_ne_nil,
    Relation.TransGen.head'_iff]
  simp only [mem_interfaces_iff, leads_interfaces_iff]

/-! ## Nothing is left out -/

theorem frontier_withClass {found : List DeclId} (h : Frontier env.interfaces found [])
    (c : DeclId) : Frontier env.interfaces (env.withClass found c) [] := by
  refine Frontier.append_walkOrder env.mem_ids_of_interfaces_ne_nil fun s hs k hk => ?_
  rcases mem_addNew.mp hs with hold | rfl
  · exact Or.inl (mem_addNew.mpr (Or.inl ((h s hold k hk).resolve_right List.not_mem_nil)))
  · exact Or.inr hk

theorem frontier_foldl_withClass (classes : List DeclId) {found : List DeclId}
    (h : Frontier env.interfaces found []) :
    Frontier env.interfaces (classes.foldl env.withClass found) [] := by
  induction classes generalizing found with
  | nil => exact h
  | cons c rest ih => exact ih (frontier_withClass h c)

theorem mem_foldl_withClass_of_mem {classes found : List DeclId} {c : DeclId} (hc : c ∈ classes) :
    c ∈ classes.foldl env.withClass found := by
  obtain ⟨below, above, rfl⟩ := List.append_of_mem hc
  rw [List.foldl_append, List.foldl_cons]
  obtain ⟨new, hnew⟩ := env.prefix_foldl_withClass above
    (env.withClass (below.foldl env.withClass found) c)
  rw [hnew]
  exact List.mem_append_left _ (List.mem_append_left _ (mem_addNew.mpr (Or.inr rfl)))

/-- **Found is what some class leads to.** -/
theorem mem_foldl_withClass_iff {classes : List DeclId} {k : DeclId} :
    k ∈ classes.foldl env.withClass [] ↔ ∃ c ∈ classes, Leads env.interfaces c k := by
  constructor
  · exact fun hk => (env.leads_of_mem_foldl_withClass hk).resolve_left List.not_mem_nil
  · rintro ⟨c, hc, hl⟩
    have hstart : Frontier env.interfaces ([] : List DeclId) [] := fun s hs => by cases hs
    exact (frontier_foldl_withClass classes hstart).mem_of_leads (mem_foldl_withClass_of_mem hc) hl

/-! ## The order -/

/-- **Classes that are no interfaces keep the order of the lineage.** -/
theorem filter_foldl_withClass {p : DeclId → Bool}
    (hp : ∀ k, ∀ interface ∈ env.interfaces k, p interface = false) {classes found : List DeclId}
    (hnodup : classes.Nodup) (hnew : ∀ c ∈ classes, p c = true → c ∉ found) :
    (classes.foldl env.withClass found).filter p = found.filter p ++ classes.filter p := by
  have hclosure : ∀ {c seen k}, k ∈ env.interfaceClosure c seen → p k = false := by
    intro c seen k hk
    obtain ⟨below, hbelow⟩ := exists_mem_interfaces_of_mem_interfaceClosure hk
    exact hp below k hbelow
  induction classes generalizing found with
  | nil => rw [List.foldl_nil, List.filter_nil, List.append_nil]
  | cons c rest ih =>
    rw [List.nodup_cons] at hnodup
    rw [List.forall_mem_cons] at hnew
    have hstep : (env.withClass found c).filter p = found.filter p ++ [c].filter p := by
      have hnone : (env.interfaceClosure c (addNew found c)).filter p = [] :=
        List.filter_eq_nil_iff.mpr fun k hk => by simp [hclosure hk]
      rw [withClass, List.filter_append, hnone, List.append_nil, addNew]
      split
      · next hc =>
        have hold : p c = false := by simpa using mt (hnew.1 ·) (not_not.mpr hc)
        rw [List.filter_cons_of_neg (by simp [hold]), List.filter_nil, List.append_nil]
      · rw [List.filter_append]
    have hrest : ∀ other ∈ rest, p other = true → other ∉ env.withClass found c := by
      intro other ho hpo hmem
      rcases List.mem_append.mp hmem with hmem | hmem
      · rcases mem_addNew.mp hmem with hmem | rfl
        · exact hnew.2 other ho hpo hmem
        · exact hnodup.1 ho
      · rw [hclosure hmem] at hpo
        cases hpo
    rw [List.foldl_cons, ih hnodup.2 hrest, hstep, List.append_assoc, ← List.filter_append,
      List.singleton_append]

variable (env) in
/-- Each type in a list is one of the classes or comes after a type that names it. -/
def Introduced (classes order : List DeclId) : Prop :=
  ∀ earlier k later, order = earlier ++ k :: later →
    k ∈ classes ∨ ∃ p ∈ earlier, k ∈ env.interfaces p

theorem Introduced.append {classes order more : List DeclId} (h : env.Introduced classes order)
    (hmore : ∀ earlier k later, more = earlier ++ k :: later →
      k ∈ classes ∨ ∃ p ∈ order ++ earlier, k ∈ env.interfaces p) :
    env.Introduced classes (order ++ more) := by
  intro earlier k later he
  rcases List.append_eq_append_iff.mp he with ⟨front, rfl, hfront⟩ | ⟨back, hback, hlater⟩
  · exact hmore front k later hfront
  · cases back with
    | nil =>
      obtain rfl : order = earlier := by rw [hback, List.append_nil]
      simpa using hmore [] k later hlater.symm
    | cons first back =>
      obtain ⟨rfl, -⟩ := List.cons.inj hlater
      exact h earlier k back hback

theorem introduced_withClass {classes found : List DeclId} (h : env.Introduced classes found)
    {c : DeclId} (hc : c ∈ classes) : env.Introduced classes (env.withClass found c) := by
  have hadd : env.Introduced classes (addNew found c) := by
    rw [addNew]
    split
    · exact h
    · refine h.append fun earlier k later he => Or.inl ?_
      have hk : k ∈ [c] := he ▸ List.mem_append_right _ List.mem_cons_self
      exact List.mem_singleton.mp hk ▸ hc
  refine hadd.append fun earlier k later he => Or.inr ?_
  rcases exists_edge_of_walkOrder_eq env.mem_ids_of_interfaces_ne_nil he with hk | ⟨p, hp, hk⟩
  · exact ⟨c, List.mem_append_left _ (mem_addNew.mpr (Or.inr rfl)), hk⟩
  · exact ⟨p, List.mem_append_right _ hp, hk⟩

/-- **A type that is no class of the lineage is found after one that names it.** -/
theorem introduced_foldl_withClass {classes rest found : List DeclId} (hsub : rest ⊆ classes)
    (h : env.Introduced classes found) :
    env.Introduced classes (rest.foldl env.withClass found) := by
  induction rest generalizing found with
  | nil => exact h
  | cons c rest ih =>
    rw [List.cons_subset] at hsub
    exact ih hsub.2 (introduced_withClass h hsub.1)

/-! ## The ancestors -/

variable (env ty) in
/-- The superclasses of a type that the configuration does not leave out. -/
def countedSuperclasses : List DeclId :=
  (env.model.superclasses ty).filter fun c => !env.ignoresSuperclass c

variable (env ty) in
/-- **The ancestors of a type** in order. -/
structure IsAncestry (ancestors : List DeclId) : Prop where
  /-- None is listed twice, nor is the type itself. -/
  nodup : (ty :: ancestors).Nodup
  /-- The superclasses that count, and what the type and they lead to by interfaces. -/
  mem_iff : ∀ k, k ∈ ancestors ↔ k ≠ ty ∧ (k ∈ env.countedSuperclasses ty ∨
    ∃ c ∈ ty :: env.countedSuperclasses ty, Relation.TransGen env.NamesInterface c k)
  /-- Superclasses that no type names as an interface are in the order of the chain. -/
  chained : ∀ classes : List DeclId, classes.Sublist (env.countedSuperclasses ty) →
    (∀ c ∈ classes, ∀ k, ¬ env.NamesInterface k c) → classes.Sublist ancestors
  /-- What is no superclass that counts comes after the type, or an ancestor, that names it. -/
  introduced : ∀ k ∈ ancestors, k ∉ env.countedSuperclasses ty →
    ∃ p, env.NamesInterface p k ∧ [p, k].Sublist (ty :: ancestors)

theorem lineage_eq (ty : DeclId) : env.lineage ty = ty :: env.countedSuperclasses ty := rfl

theorem nodup_lineage (ty : DeclId) : (env.lineage ty).Nodup := by
  have hnodup := (env.model.isSuperclassChain_superclasses ty).nodup
  exact hnodup.sublist (List.filter_sublist.cons_cons ty)

theorem mem_typeAncestors_iff (k : DeclId) :
    k ∈ env.typeAncestors ty ↔ k ≠ ty ∧ (k ∈ env.countedSuperclasses ty ∨
      ∃ c ∈ ty :: env.countedSuperclasses ty, Relation.TransGen env.NamesInterface c k) := by
  have hfound : k ∈ ty :: env.typeAncestors ty ↔ ∃ c ∈ env.lineage ty, Leads env.interfaces c k := by
    rw [cons_typeAncestors, mem_foldl_withClass_iff]
  have hne : k ∈ env.typeAncestors ty → k ≠ ty := by
    rintro hk rfl
    exact (List.nodup_cons.mp (env.nodup_cons_typeAncestors k)).1 hk
  have hcases : k ∈ env.typeAncestors ty ↔ k ≠ ty ∧ k ∈ ty :: env.typeAncestors ty := by
    rw [List.mem_cons]
    tauto
  rw [hcases, hfound, lineage_eq]
  refine and_congr_right fun hk => ?_
  simp only [leads_interfaces_iff, Relation.reflTransGen_iff_eq_or_transGen, and_or_left, exists_or]
  refine or_congr_left ⟨?_, fun hc => ⟨k, List.mem_cons_of_mem _ hc, rfl⟩⟩
  rintro ⟨c, hc, rfl⟩
  exact (List.mem_cons.mp hc).resolve_left hk

theorem filter_typeAncestors {p : DeclId → Bool}
    (hp : ∀ k, ∀ interface ∈ env.interfaces k, p interface = false) :
    (env.typeAncestors ty).filter p = (env.countedSuperclasses ty).filter p := by
  have hall : ((env.lineage ty).foldl env.withClass []).filter p = (env.lineage ty).filter p :=
    filter_foldl_withClass hp (nodup_lineage ty) fun _ _ _ => List.not_mem_nil
  rw [← cons_typeAncestors, lineage_eq, List.filter_cons, List.filter_cons] at hall
  split at hall
  · exact (List.cons.inj hall).2
  · exact hall

theorem chained_typeAncestors {classes : List DeclId}
    (hsub : classes.Sublist (env.countedSuperclasses ty))
    (hnone : ∀ c ∈ classes, ∀ k, ¬ env.NamesInterface k c) :
    classes.Sublist (env.typeAncestors ty) := by
  classical
  have hself : classes.filter (fun c => ∀ k, ¬ env.NamesInterface k c) = classes :=
    List.filter_eq_self.mpr fun c hc => decide_eq_true (hnone c hc)
  have hfilter : (env.typeAncestors ty).filter (fun c => ∀ k, ¬ env.NamesInterface k c) =
      (env.countedSuperclasses ty).filter (fun c => ∀ k, ¬ env.NamesInterface k c) :=
    filter_typeAncestors fun k _ hi => decide_eq_false fun h => h k (mem_interfaces_iff.mp hi)
  rw [← hself]
  refine (hsub.filter _).trans ?_
  rw [← hfilter]
  exact List.filter_sublist

theorem introduced_typeAncestors {k : DeclId} (hk : k ∈ env.typeAncestors ty)
    (hclass : k ∉ env.countedSuperclasses ty) :
    ∃ p, env.NamesInterface p k ∧ [p, k].Sublist (ty :: env.typeAncestors ty) := by
  have hintro : env.Introduced (env.lineage ty) (ty :: env.typeAncestors ty) := by
    rw [cons_typeAncestors]
    refine introduced_foldl_withClass (List.Subset.refl _) fun earlier k later he => ?_
    simp at he
  obtain ⟨earlier, later, he⟩ := List.append_of_mem hk
  have hsplit : ty :: env.typeAncestors ty = (ty :: earlier) ++ k :: later := by
    rw [he, List.cons_append]
  have hne : k ≠ ty := ((mem_typeAncestors_iff k).mp hk).1
  rcases hintro _ k later hsplit with hmem | ⟨p, hp, hk⟩
  · exact absurd ((List.mem_cons.mp hmem).resolve_left hne) hclass
  · refine ⟨p, mem_interfaces_iff.mp hk, ?_⟩
    rw [hsplit]
    exact (List.singleton_sublist.mpr hp).append (List.singleton_sublist.mpr List.mem_cons_self)

/-- **What the ancestors of a type are.**  The hierarchy is made of them, unless the type is an
annotation type. -/
theorem typeAncestors_exact (env : Environment) (ty : DeclId) :
    env.model.IsSuperclassChain ty (env.model.superclasses ty) ∧
      env.IsAncestry ty (env.typeAncestors ty) ∧
      env.typeHierarchy ty =
        if (env.model.declaration? ty).any Declaration.isAnnotationType then [ty]
        else (env.typeAncestors ty).reverse ++ [ty] := by
  refine ⟨Model.isSuperclassChain_superclasses ty, ?_, by rw [typeHierarchy, List.reverse_cons]⟩
  exact {
    nodup := env.nodup_cons_typeAncestors ty
    mem_iff := mem_typeAncestors_iff
    chained := fun _ => chained_typeAncestors
    introduced := fun _ => introduced_typeAncestors }

end AnnotationResolution.Environment
