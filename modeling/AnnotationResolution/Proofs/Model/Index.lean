import AnnotationResolution.Proofs.Model.Accepted

/-!
# The index of the types

The loader enters every type of a model into the index under its name and nothing else, and it
rejects a model in which two types would share an entry.  So in an accepted model a name leads to a
declaration exactly when that declaration is a type of this name
(`Accepted.typeNamed?_eq_some_iff`), and types with different ids have different names
(`Accepted.eq_of_qualifiedName_eq`).
-/

namespace AnnotationResolution.Model

theorem pairwise_ids (m : Model) : m.ids.Pairwise fun a b => a.index < b.index :=
  List.pairwise_map.mpr List.pairwise_lt_range

theorem isType_iff {m : Model} {id : DeclId} :
    m.isType id = true ↔ ∃ d, m.declaration? id = some d ∧ d.isType = true := by
  rw [isType, kind?, decide_eq_true_iff, Option.map_eq_some_iff]
  simp only [Declaration.isType, decide_eq_true_iff]

/-- The qualified name of a type is its name. -/
theorem qualifiedName_of_isType {m : Model} {id : DeclId} {d : Declaration}
    (hd : m.declaration? id = some d) (ht : d.isType = true) : m.qualifiedName id = d.name := by
  rw [Declaration.isType, decide_eq_true_iff, Declaration.kind] at ht
  rw [qualifiedName, qualifiedNameWithin.eq_def, hd]
  cases he : d.element with
  | type info => simp only [he]
  | package => simp only [he]
  | method _ | field _ | property _ | parameter _ => simp [he, Element.kind] at ht

/-- **The index has the types that were in it before and those that were read.** -/
theorem get?_indexTypes {declarations : List Declaration} {next : Nat}
    {index types : Members DeclId} (h : indexTypes next index declarations = .ok types)
    (name : String) (id : DeclId) :
    types.get? name = some id ↔ index.get? name = some id ∨
      ∃ k d, declarations[k]? = some d ∧ d.isType = true ∧ d.name = name ∧ id = ⟨next + k⟩ := by
  induction declarations generalizing next index with
  | nil =>
    cases h
    simp
  | cons d rest ih =>
    -- The declarations at positions from one on are those of `rest`, counted from `next + 1`.
    have hpos : (∃ k e, (d :: rest)[k]? = some e ∧ e.isType = true ∧ e.name = name ∧
          id = ⟨next + k⟩) ↔ (d.isType = true ∧ d.name = name ∧ id = ⟨next⟩) ∨
        ∃ k e, rest[k]? = some e ∧ e.isType = true ∧ e.name = name ∧ id = ⟨next + 1 + k⟩ := by
      constructor
      · rintro ⟨k, e, he, ht, hn, rfl⟩
        cases k with
        | zero =>
          obtain rfl : d = e := by simpa using he
          exact Or.inl ⟨ht, hn, rfl⟩
        | succ k =>
          exact Or.inr ⟨k, e, by simpa using he, ht, hn, by rw [DeclId.mk.injEq]; omega⟩
      · rintro (⟨ht, hn, rfl⟩ | ⟨k, e, he, ht, hn, rfl⟩)
        · exact ⟨0, d, rfl, ht, hn, rfl⟩
        · exact ⟨k + 1, e, by simpa using he, ht, hn, by rw [DeclId.mk.injEq]; omega⟩
    rw [hpos]
    rw [indexTypes] at h
    by_cases ht : d.isType = true
    · rw [if_pos ht] at h
      by_cases hc : index.contains d.name = true
      · rw [if_pos hc] at h
        cases h
      · rw [if_neg hc] at h
        have hnew : index.get? d.name = none :=
          Members.get?_eq_none_iff.mpr fun hn => hc (Members.contains_eq_true_iff.mpr hn)
        rw [ih h, Members.get?_insert]
        by_cases hn : name = d.name
        · subst hn
          rw [if_pos rfl, hnew, Option.some_inj, eq_comm (a := id)]
          simp [ht]
        · simp [hn, Ne.symm hn]
    · rw [if_neg ht] at h
      rw [ih h]
      simp [ht]

theorem typeNamed?_eq_some_iff {m : Model}
    (h : indexTypes 0 ∅ m.declarations.toList = .ok m.types) {name : String} {id : DeclId} :
    m.typeNamed? name = some id ↔
      ∃ d, m.declaration? id = some d ∧ d.isType = true ∧ d.name = name := by
  rw [typeNamed?, get?_indexTypes h, declaration?]
  constructor
  · rintro (hempty | ⟨k, d, hd, ht, hn, rfl⟩)
    · cases hempty
    · exact ⟨d, by simpa using hd, ht, hn⟩
  · rintro ⟨d, hd, ht, hn⟩
    exact Or.inr ⟨id.index, d, by simpa using hd, ht, hn, by simp⟩

namespace Accepted

variable {m : Model}

theorem indexTypes_eq (h : m.Accepted) : indexTypes 0 ∅ m.declarations.toList = .ok m.types :=
  (ofDeclarations_eq_ok_iff.mp h.loads).1

/-- **A name leads to the type that has it.** -/
theorem typeNamed?_eq_some_iff (h : m.Accepted) {name : String} {id : DeclId} :
    m.typeNamed? name = some id ↔
      ∃ d, m.declaration? id = some d ∧ d.isType = true ∧ d.name = name :=
  Model.typeNamed?_eq_some_iff h.indexTypes_eq

theorem isType_of_typeNamed? (h : m.Accepted) {name : String} {id : DeclId}
    (hn : m.typeNamed? name = some id) : m.isType id = true := by
  obtain ⟨d, hd, ht, -⟩ := h.typeNamed?_eq_some_iff.mp hn
  exact isType_iff.mpr ⟨d, hd, ht⟩

theorem exists_typeInfo?_of_typeNamed? (h : m.Accepted) {name : String} {id : DeclId}
    (hn : m.typeNamed? name = some id) : ∃ info, m.typeInfo? id = some info := by
  obtain ⟨d, hd, ht, -⟩ := h.typeNamed?_eq_some_iff.mp hn
  obtain ⟨dname, declaringType, annotations, element⟩ := d
  cases element with
  | type info => exact ⟨info, by rw [typeInfo?, hd, Option.bind_some, Declaration.typeInfo?]⟩
  | _ => cases ht

/-- What declares something is a type. -/
theorem isType_of_declaringType (h : m.Accepted) {id owner : DeclId} {d : Declaration}
    (hd : m.declaration? id = some d) (ho : d.declaringType = some owner) :
    m.isType owner = true := by
  have hreference : (owner, ElementKind.type) ∈ d.references := by
    rw [Declaration.references, ho]
    exact List.mem_append_left _ (List.mem_singleton_self _)
  exact decide_eq_true (checkReferences_eq_ok_iff.mp (ofDeclarations_eq_ok_iff.mp h.loads).2.2 id d
    hd _ hreference)

/-- **Different types have different qualified names.** -/
theorem eq_of_qualifiedName_eq (h : m.Accepted) {a b : DeclId} (ha : m.isType a = true)
    (hb : m.isType b = true) (hn : m.qualifiedName a = m.qualifiedName b) : a = b := by
  obtain ⟨d, hd, hdt⟩ := isType_iff.mp ha
  obtain ⟨e, he, het⟩ := isType_iff.mp hb
  rw [qualifiedName_of_isType hd hdt, qualifiedName_of_isType he het] at hn
  have hfound : m.typeNamed? d.name = some a := h.typeNamed?_eq_some_iff.mpr ⟨d, hd, hdt, rfl⟩
  have hother : m.typeNamed? d.name = some b := h.typeNamed?_eq_some_iff.mpr ⟨e, he, het, hn.symm⟩
  exact Option.some.inj (hfound.symm.trans hother)

end Accepted

end AnnotationResolution.Model
