import AnnotationResolution.Proofs.Model.Linked
import AnnotationResolution.Proofs.Renumbering.Assembly

/-!
# Other annotations on a declaration

`Model.reannotate` gives a declaration other annotations.  The loader accepts them if they name their
members once (`Accepted.reannotate`), for it does not look at annotations.  If the declaration is the
type of no annotation, nothing but its own annotations is read differently in a build: the environment
mirrors the one before under the same ids (`Environment.mirrors_reannotate`).  So the builds are the
same as soon as its annotations come to the same (`Environment.exists_build_reannotate`).
-/

namespace AnnotationResolution

@[simp] theorem Declaration.renumber_id (d : Declaration) : d.renumber id = d := by
  obtain ⟨name, declaringType, annotations, element⟩ := d
  cases element <;>
    simp [renumber, Element.renumber, TypeInfo.renumber, MethodInfo.renumber,
      ParameterInfo.renumber]

/-- The declaration holds what it held, apart from its own annotations, and what the new ones
hold. -/
theorem Declaration.holds_or_of_withAnnotations {d : Declaration}
    {annotations : List AnnotationInstance} {inner : AnnotationInstance}
    (h : (d.withAnnotations annotations).Holds inner) :
    d.Holds inner ∨ ∃ a ∈ annotations, a.Holds inner := by
  cases h with
  | applied ha hi => exact Or.inr ⟨_, ha, hi⟩
  | defaultValue hm hv hi => exact Or.inl (.defaultValue hm hv hi)
  | defaultBody hm hs he hi => exact Or.inl (.defaultBody hm hs he hi)
  | constantValue hf hv hi => exact Or.inl (.constantValue hf hv hi)
  | initializer hf hv hi => exact Or.inl (.initializer hf hv hi)

namespace Model

/-- The model with these annotations on a declaration, in place of its own. -/
def reannotate (m : Model) (id : DeclId) (annotations : List AnnotationInstance) : Model :=
  m.modify id (Declaration.withAnnotations annotations)

variable {m : Model} {id : DeclId} (annotations : List AnnotationInstance)

theorem declaration?_reannotate (other : DeclId) :
    (m.reannotate id annotations).declaration? other =
      if id = other then (m.declaration? other).map (Declaration.withAnnotations annotations)
      else m.declaration? other :=
  declaration?_modify m id other _

theorem exists_of_declaration?_reannotate {other : DeclId} {d : Declaration}
    (hd : (m.reannotate id annotations).declaration? other = some d) :
    ∃ old, m.declaration? other = some old ∧ (d = old ∨ d = old.withAnnotations annotations) := by
  rw [declaration?_reannotate] at hd
  split at hd
  · obtain ⟨old, ho, rfl⟩ := Option.map_eq_some_iff.mp hd
    exact ⟨old, ho, Or.inr rfl⟩
  · exact ⟨d, hd, Or.inl rfl⟩

theorem annotations_reannotate_self {d : Declaration} (hd : m.declaration? id = some d) :
    (m.reannotate id annotations).annotations id = annotations := by
  rw [Model.annotations, declaration?_reannotate, if_pos rfl, hd]
  rfl

theorem annotations_reannotate_of_ne {other : DeclId} (h : id ≠ other) :
    (m.reannotate id annotations).annotations other = m.annotations other := by
  rw [Model.annotations, declaration?_reannotate, if_neg h]
  rfl

theorem sameShape_reannotate : m.SameShape (Equiv.refl DeclId) (m.reannotate id annotations) where
  declaration? other := by
    simp only [Equiv.coe_refl, Declaration.renumber_id, id_eq]
    rw [declaration?_reannotate]
    split
    · next he =>
      subst he
      cases hd : m.declaration? id with
      | none => rfl
      | some d => rw [annotations_reannotate_self annotations hd]
    · next hne =>
      rw [annotations_reannotate_of_ne annotations hne, Model.annotations]
      cases m.declaration? other <;> rfl
  typeNamed? name := by
    rw [Equiv.coe_refl, Option.map_id]
    rfl

/-- **The loader accepts other annotations if they name their members once.** -/
theorem Accepted.reannotate (hm : m.Accepted)
    (hn : ∀ a ∈ annotations, ∀ inner, a.Holds inner → inner.NamesDistinct) :
    (m.reannotate id annotations).Accepted := by
  have hshape : m.SameShape (Equiv.refl DeclId) (m.reannotate id annotations) :=
    sameShape_reannotate annotations
  obtain ⟨htypes, -, hreferences⟩ := ofDeclarations_eq_ok_iff.mp hm.loads
  refine ⟨ofDeclarations_eq_ok_iff.mpr ⟨?_, rfl, ?_⟩, fun d hd a ha => ?_⟩
  · exact indexed_modify htypes (fun d => d.name_withAnnotations annotations)
      fun d => d.isType_withAnnotations annotations
  · refine checkReferences_eq_ok_iff.mpr fun other d hd reference hr => ?_
    have hkind : (m.reannotate id annotations).kind? reference.1 = m.kind? reference.1 :=
      hshape.kind? reference.1
    rw [hkind]
    obtain ⟨old, ho, rfl | rfl⟩ := exists_of_declaration?_reannotate annotations hd
    · exact checkReferences_eq_ok_iff.mp hreferences other _ ho reference hr
    · exact checkReferences_eq_ok_iff.mp hreferences other old ho reference hr
  · obtain ⟨i, hi⟩ := Array.mem_iff_getElem?.mp hd
    obtain ⟨old, ho, rfl | rfl⟩ :=
      exists_of_declaration?_reannotate annotations (show _ = some d from hi)
    · exact hm.namesDistinct _ (Array.mem_of_getElem? ho) a ha
    · rcases Declaration.holds_or_of_withAnnotations ha with hh | ⟨b, hb, hh⟩
      · exact hm.namesDistinct old (Array.mem_of_getElem? ho) a hh
      · exact hn b hb a hh

end Model

namespace Environment

/-- The environment with these annotations on a declaration of the model, in place of its own. -/
def reannotate (env : Environment) (id : DeclId) (annotations : List AnnotationInstance) :
    Environment :=
  { env with model := env.model.reannotate id annotations }

/-- **A declaration that is the type of no annotation may be annotated otherwise.** -/
theorem mirrors_reannotate {env : Environment} (hm : env.model.Accepted) {id : DeclId}
    {d : Declaration} (hd : env.model.declaration? id = some d)
    (hun : d.isType = true → ¬ env.model.MentionsType d.name)
    (annotations : List AnnotationInstance) :
    env.Mirrors (Equiv.refl DeclId) (env.reannotate id annotations) where
  shape := ⟨Model.sameShape_reannotate annotations, rfl⟩
  annotations := by
    intro name ty hmention hty
    refine Model.annotations_reannotate_of_ne annotations fun he => ?_
    subst he
    obtain ⟨found, hfound, ht, rfl⟩ := hm.typeNamed?_eq_some_iff.mp hty
    obtain rfl : d = found := Option.some.inj (hd.symm.trans hfound)
    exact hun ht hmention

/-- If the same is collected for every target, the builds are the same. -/
theorem exists_build_reannotate {env : Environment} (hm : env.model.Accepted) {id : DeclId}
    {d : Declaration} (hd : env.model.declaration? id = some d)
    (hun : d.isType = true → ¬ env.model.MentionsType d.name)
    {annotations : List AnnotationInstance} {options : BuildOptions}
    (hc : ∀ (shown : List AnnotationInstance) (target : BuildTarget),
      (env.reannotate id annotations).collectAll ((env.reannotate id annotations).occurrences options
          ((target.renumber (Equiv.refl DeclId)).withAnnotations shown)) =
        (env.collectAll (env.occurrences options target)).renumber (Equiv.refl DeclId))
    {target : DeclId} (htarget : target ∈ env.model.ids) (validator : Option Validator) :
    ∃ result, env.build validator {} options target = .ok result ∧
      ∃ again, (env.reannotate id annotations).build validator {} options target = .ok again ∧
        again.metadata = result.metadata ∧
          ((∀ validate ∈ validator, validate.TreatsAlike (Equiv.refl DeclId) env.model
              (env.reannotate id annotations).model) →
            again.diagnostics = result.diagnostics) := by
  have h : env.Mirrors (Equiv.refl DeclId) (env.reannotate id annotations) :=
    mirrors_reannotate hm hd hun _
  obtain ⟨e, he⟩ := Model.mem_ids_iff.mp htarget
  have he' := h.shape.model.declaration? target
  rw [he, Option.map_some] at he'
  obtain ⟨result, hr, again, hagain, hmetadata, -, hdiagnostics⟩ :=
    h.exists_build_of_collectAll he he' (hc _ ⟨target, e⟩) validator {}
  exact ⟨result, hr, again, hagain, hmetadata, fun hv => (hdiagnostics hv).trans (List.map_id _)⟩

end Environment

end AnnotationResolution
