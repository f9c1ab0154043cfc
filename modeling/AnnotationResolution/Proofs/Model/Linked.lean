import AnnotationResolution.Proofs.Model.Growing
import AnnotationResolution.Proofs.Model.Index

/-!
# Linked models

A model is *linked* if it has the index that the loader would make, its references lead where they
should, and its lists say the same as the owners that the declarations name.

* `Linked.enter`, `Linked.annotate`: a step keeps a model linked.
* `Linked.declaringType_of_mem_methodsNamed`: a type lists no methods but its own.
* `indexTypes_modify`, `indexTypes_append_singleton`: what a step does to the index.
-/

namespace AnnotationResolution.Model

variable {m later : Model} {d : Declaration}

/-! ## Linked models -/

/-- **The lists of a model, its references and its index fit together.** -/
structure Linked (m : Model) : Prop where
  indexed : indexTypes 0 ∅ m.declarations.toList = .ok m.types
  references : ∀ id d, m.declaration? id = some d → ∀ reference ∈ d.references,
    m.kind? reference.1 = some reference.2
  /-- A list has what it is the list of, once, and nothing else. -/
  listed : ∀ id d, m.declaration? id = some d → ∀ other e, m.declaration? other = some e →
    ∀ kind, (e.listed kind).count id = if d.kind = kind ∧ d.owner? = some other then 1 else 0
  declared : ∀ id d, m.declaration? id = some d → d.kind = .method ∨ d.kind = .field →
    d.declaringType.isSome = true
  position : ∀ id d info, m.declaration? id = some d → d.element = .parameter info →
    ∃ method, m.declaration? info.method = some method ∧
      (method.listed .parameter)[info.index]? = some id ∧
      d.declaringType = method.declaringType

theorem linked_empty : Linked {} where
  indexed := rfl
  references := fun _ _ hd => by cases hd
  listed := fun _ _ hd => by cases hd
  declared := fun _ _ hd => by cases hd
  position := fun _ _ _ hd => by cases hd

theorem indexTypes_modify {f : Declaration → Declaration} (hname : ∀ d, (f d).name = d.name)
    (htype : ∀ d, (f d).isType = d.isType) (declarations : List Declaration) (i next : Nat)
    (index : Members DeclId) :
    indexTypes next index (declarations.modify i f) = indexTypes next index declarations := by
  induction declarations generalizing i next index with
  | nil => rw [List.modify_nil]
  | cons d rest ih =>
    cases i with
    | zero => rw [List.modify_zero_cons, indexTypes, indexTypes, hname, htype]
    | succ i => simp only [List.modify_succ_cons, indexTypes, ih]

theorem indexed_modify {f : Declaration → Declaration} {id : DeclId}
    (h : indexTypes 0 ∅ m.declarations.toList = .ok m.types) (hname : ∀ d, (f d).name = d.name)
    (htype : ∀ d, (f d).isType = d.isType) :
    indexTypes 0 ∅ (m.modify id f).declarations.toList = .ok (m.modify id f).types := by
  rw [modify, Array.toList_modify, indexTypes_modify hname htype]
  exact h

/-- A declaration at the end comes into the index last. -/
theorem indexTypes_append_singleton {declarations : List Declaration} {next : Nat}
    {index types : Members DeclId} (h : indexTypes next index declarations = .ok types)
    (hnew : d.isType = true → types.contains d.name = false) :
    indexTypes next index (declarations ++ [d]) =
      .ok (if d.isType then types.insert d.name ⟨next + declarations.length⟩ else types) := by
  induction declarations generalizing next index with
  | nil =>
    obtain rfl : index = types := Except.ok.inj h
    rw [List.nil_append, indexTypes, indexTypes, indexTypes]
    by_cases ht : d.isType = true
    · rw [if_pos ht, if_pos ht, if_neg (by rw [hnew ht]; exact Bool.false_ne_true)]
      rfl
    · rw [if_neg ht, if_neg ht]
      rfl
  | cons e rest ih =>
    have hpos : next + (e :: rest).length = next + 1 + rest.length := by
      rw [List.length_cons]
      omega
    rw [indexTypes] at h
    rw [List.cons_append, indexTypes, hpos]
    by_cases ht : e.isType = true
    · rw [if_pos ht] at h ⊢
      by_cases hc : index.contains e.name = true
      · rw [if_pos hc] at h
        cases h
      · rw [if_neg hc] at h ⊢
        exact ih h
    · rw [if_neg ht] at h ⊢
      exact ih h

theorem Linked.contains_eq_false (hm : m.Linked) {name : String}
    (hnew : ∀ e ∈ m.declarations, e.isType = true → e.name ≠ name) :
    m.types.contains name = false := by
  rw [← Bool.not_eq_true, Members.contains_eq_true_iff]
  intro hn
  obtain ⟨id, hid⟩ := Members.exists_get?_of_mem_names hn
  obtain ⟨e, he, ht, hname⟩ := (typeNamed?_eq_some_iff hm.indexed).mp hid
  exact hnew e (Array.mem_of_getElem? he) ht hname

theorem Linked.indexed_enter (hm : m.Linked) (h : m.Fits d) :
    indexTypes 0 ∅ (m.enter d).declarations.toList = .ok (m.enter d).types := by
  have hpush : indexTypes 0 ∅ (m.push d).1.declarations.toList = .ok (m.push d).1.types := by
    rw [push, Array.toList_push,
      indexTypes_append_singleton hm.indexed fun ht => hm.contains_eq_false (h.newName ht),
      Array.length_toList, Nat.zero_add]
    rfl
  rw [enter]
  split
  · exact hpush
  · exact indexed_modify hpush (fun _ => rfl) (Declaration.isType_link · _ _)

theorem Linked.count_listed_size (hm : m.Linked) {id : DeclId} {e : Declaration}
    (he : m.declaration? id = some e) (kind : ElementKind) :
    (e.listed kind).count ⟨m.size⟩ = 0 := by
  refine List.count_eq_zero.mpr fun hmem => ?_
  have hkind := hm.references id e he _ (Declaration.mem_references_of_mem_listed hmem)
  rw [Model.kind?, declaration?_size] at hkind
  cases hkind

theorem owner?_ne_size (hr : ∀ reference ∈ d.references, m.kind? reference.1 = some reference.2) :
    d.owner? ≠ some ⟨m.size⟩ := by
  intro ho
  obtain ⟨kind, -, hmem⟩ := Declaration.exists_reference_of_owner? ho
  have hkind := hr _ hmem
  rw [kind?, declaration?_size] at hkind
  cases hkind

/-- The owner has a list for what is entered in it. -/
theorem Fits.owner?_kind (h : m.Fits d) {owner : DeclId} {e : Declaration}
    (ho : d.owner? = some owner) (he : m.declaration? owner = some e) :
    d.kind.owner? = some e.kind := by
  obtain ⟨kind, hk, hmem⟩ := Declaration.exists_reference_of_owner? ho
  have hkind := h.references _ hmem
  rw [Model.kind?, he] at hkind
  rw [hk, ← hkind]
  rfl

theorem Linked.references_enter (hm : m.Linked) (h : m.Fits d) {id : DeclId} {e : Declaration}
    (he : (m.enter d).declaration? id = some e) :
    ∀ reference ∈ e.references, (m.enter d).kind? reference.1 = some reference.2 := by
  intro reference hr
  rcases exists_of_declaration?_enter h he with ⟨-, rfl⟩ | ⟨-, old, hold, -, rfl⟩
  · exact h.extends_enter.kind? (h.references reference hr)
  · have hcases : reference ∈ old.references ∨ reference = (⟨m.size⟩, d.kind) := by
      split at hr
      · exact Declaration.mem_references_of_mem_link hr
      · exact Or.inl hr
    rcases hcases with hr | rfl
    · exact h.extends_enter.kind? (hm.references id old hold reference hr)
    · rw [Model.kind?, declaration?_enter_self h, Option.map_some]

/-- What entering a declaration does to the lists of its owner, and to no others. -/
theorem Fits.count_listed (h : m.Fits d) {id owner : DeclId} {old e : Declaration}
    (hold : m.declaration? owner = some old)
    (he : e = if d.owner? = some owner then old.link d.kind ⟨m.size⟩ else old)
    (kind : ElementKind) :
    (e.listed kind).count id = (old.listed kind).count id +
      if id = ⟨m.size⟩ ∧ d.kind = kind ∧ d.owner? = some owner then 1 else 0 := by
  subst he
  by_cases ho : d.owner? = some owner
  · rw [if_pos ho, Declaration.listed_link (h.owner?_kind ho hold), List.count_append]
    by_cases hk : kind = d.kind
    · subst hk
      by_cases hid : id = ⟨m.size⟩
      · simp [ho, hid]
      · simp [hid, Ne.symm hid]
    · simp [hk, Ne.symm hk]
  · simp [ho]

theorem Linked.listed_enter (hm : m.Linked) (h : m.Fits d) {id other : DeclId} {e f : Declaration}
    (he : (m.enter d).declaration? id = some e) (hf : (m.enter d).declaration? other = some f)
    (kind : ElementKind) :
    (f.listed kind).count id = if e.kind = kind ∧ e.owner? = some other then 1 else 0 := by
  rcases exists_of_declaration?_enter h hf with ⟨rfl, rfl⟩ | ⟨-, oldOwner, howner, -, hlink⟩
  · -- The new declaration lists nothing, and nothing names it as its owner.
    rw [h.listed, List.count_nil, if_neg]
    rintro ⟨-, ho⟩
    rcases exists_of_declaration?_enter h he with ⟨-, rfl⟩ | ⟨-, old, hold, hgrows, -⟩
    · exact owner?_ne_size h.references ho
    · exact owner?_ne_size (hm.references id old hold) (hgrows.owner?_eq ▸ ho)
  · rw [h.count_listed howner hlink]
    rcases exists_of_declaration?_enter h he with ⟨rfl, rfl⟩ | ⟨hid, old, hold, hgrows, -⟩
    · rw [hm.count_listed_size howner, Nat.zero_add]
      exact if_congr (and_iff_right rfl) rfl rfl
    · rw [hm.listed id old hold other oldOwner howner kind, hgrows.kind_eq, hgrows.owner?_eq]
      exact Nat.add_eq_left.mpr (if_neg fun hnew => hid hnew.1)

/-- Parameters keep their places when models are extended. -/
theorem Linked.position_of_extends (hm : m.Linked) (h : m.Extends later) {id : DeclId}
    {old e : Declaration} (hold : m.declaration? id = some old) (hgrows : old.GrowsTo e)
    {info : ParameterInfo} (hinfo : e.element = .parameter info) :
    ∃ method, later.declaration? info.method = some method ∧
      (method.listed .parameter)[info.index]? = some id ∧
      e.declaringType = method.declaringType := by
  obtain ⟨method, hmethod, hindex, hdeclaring⟩ :=
    hm.position id old info hold (hgrows.parameter_iff.mp hinfo)
  obtain ⟨grown, hgrown, hmethodGrows⟩ := h info.method method hmethod
  obtain ⟨more, hmore⟩ := hmethodGrows.exists_listed_eq .parameter
  refine ⟨grown, hgrown, ?_, ?_⟩
  · obtain ⟨hlt, -⟩ := List.getElem?_eq_some_iff.mp hindex
    rw [hmore, List.getElem?_append_left hlt, hindex]
  · rw [hgrows.declaringType, hdeclaring, hmethodGrows.declaringType]

theorem Fits.position_enter (h : m.Fits d) {info : ParameterInfo}
    (hinfo : d.element = .parameter info) :
    ∃ method, (m.enter d).declaration? info.method = some method ∧
      (method.listed .parameter)[info.index]? = some ⟨m.size⟩ ∧
      d.declaringType = method.declaringType := by
  obtain ⟨method, hmethod, hindex, hdeclaring⟩ := h.position info hinfo
  have ho : d.owner? = some info.method := by rw [Declaration.owner?, hinfo]
  have hkind : d.kind = .parameter := by rw [Declaration.kind, hinfo, Element.kind]
  have hne : info.method ≠ ⟨m.size⟩ := fun he => owner?_ne_size h.references (he ▸ ho)
  refine ⟨method.link d.kind ⟨m.size⟩, ?_, ?_, hdeclaring⟩
  · rw [declaration?_enter h, if_neg hne, hmethod, Option.map_some, if_pos ho]
  · rw [Declaration.listed_link (h.owner?_kind ho hmethod), hkind, if_pos rfl, hindex,
      List.getElem?_append_right (Nat.le_refl _), Nat.sub_self, List.getElem?_cons_zero]

/-- **A step that adds a declaration keeps a model linked.** -/
theorem Linked.enter (hm : m.Linked) (h : m.Fits d) : (m.enter d).Linked where
  indexed := hm.indexed_enter h
  references _ _ he := hm.references_enter h he
  listed _ _ he _ _ hf := hm.listed_enter h he hf
  declared id e he hkind := by
    rcases exists_of_declaration?_enter h he with ⟨-, rfl⟩ | ⟨-, old, hold, hgrows, -⟩
    · exact h.declared hkind
    · rw [hgrows.declaringType]
      exact hm.declared id old hold (hgrows.kind_eq ▸ hkind)
  position id e info he hinfo := by
    rcases exists_of_declaration?_enter h he with ⟨rfl, rfl⟩ | ⟨-, old, hold, hgrows, -⟩
    · exact h.position_enter hinfo
    · exact hm.position_of_extends h.extends_enter hold hgrows hinfo

theorem exists_of_declaration?_annotate {id other : DeclId} {a : AnnotationInstance}
    {e : Declaration} (he : (m.annotate id a).declaration? other = some e) :
    ∃ old, m.declaration? other = some old ∧ old.GrowsTo e ∧ e.element = old.element := by
  rw [annotate, declaration?_modify] at he
  split at he
  · obtain ⟨old, ho, rfl⟩ := Option.map_eq_some_iff.mp he
    exact ⟨old, ho, ⟨rfl, rfl, ⟨[a], rfl⟩, .same _⟩, rfl⟩
  · exact ⟨e, he, .refl e, rfl⟩

/-- **A step that annotates keeps a model linked.** -/
theorem Linked.annotate (hm : m.Linked) (id : DeclId) (a : AnnotationInstance) :
    (m.annotate id a).Linked where
  indexed := indexed_modify hm.indexed (fun _ => rfl) fun _ => rfl
  references other e he reference hr := by
    obtain ⟨old, hold, hgrows, helement⟩ := exists_of_declaration?_annotate he
    have hsame : e.references = old.references := by
      rw [Declaration.references, Declaration.elementReferences, hgrows.declaringType, helement]
      rfl
    exact (m.extends_annotate id a).kind? (hm.references other old hold reference (hsame ▸ hr))
  listed other e he owner f hf kind := by
    obtain ⟨old, hold, hgrows, -⟩ := exists_of_declaration?_annotate he
    obtain ⟨oldOwner, howner, -, hsame⟩ := exists_of_declaration?_annotate hf
    rw [hgrows.kind_eq, hgrows.owner?_eq, Declaration.listed, hsame]
    exact hm.listed other old hold owner oldOwner howner kind
  declared other e he hkind := by
    obtain ⟨old, hold, hgrows, -⟩ := exists_of_declaration?_annotate he
    rw [hgrows.declaringType]
    exact hm.declared other old hold (hgrows.kind_eq ▸ hkind)
  position other e info he hinfo := by
    obtain ⟨old, hold, hgrows, -⟩ := exists_of_declaration?_annotate he
    exact hm.position_of_extends (m.extends_annotate id a) hold hgrows hinfo

/-- **A type lists the methods that it declares only.** -/
theorem Linked.declaringType_of_mem_methodsNamed (hm : m.Linked) {id owner : DeclId} {name : String}
    (hd : m.declaration? id = some d) (h : id ∈ m.methodsNamed owner name) :
    d.declaringType = some owner := by
  rw [methodsNamed] at h
  split at h
  · next info hi =>
    obtain ⟨e, he, hinfo⟩ := Option.bind_eq_some_iff.mp hi
    have hmem : id ∈ e.listed .method := by
      rw [Declaration.typeInfo?] at hinfo
      rw [Declaration.listed]
      cases hel : e.element with
      | type other =>
        rw [hel] at hinfo
        obtain rfl := Option.some.inj hinfo
        exact (List.mem_filter.mp h).1
      | _ =>
        rw [hel] at hinfo
        cases hinfo
    have hcount := hm.listed id d hd owner e he .method
    split at hcount
    · next howner =>
      obtain ⟨hkind, howner⟩ := howner
      obtain ⟨dname, declaringType, annotations, element⟩ := d
      cases element with
      | method _ => exact howner
      | _ => cases hkind
    · exact absurd hmem (List.count_eq_zero.mp hcount)
  · cases h

end AnnotationResolution.Model
