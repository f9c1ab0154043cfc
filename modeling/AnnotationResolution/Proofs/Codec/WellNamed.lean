import AnnotationResolution.Codec.Declaration
import AnnotationResolution.Proofs.Lists
import AnnotationResolution.Proofs.Model.Accepted

/-!
# Models that are read from a text

The members of an annotation are read into a map, so no name is left twice in it.  This goes through
all forms in which an annotation may lie in a value.

* `Expr.wellNamed_of_ofJson?`, `HostValue.wellNamed_of_ofJson?`: what is read is well-named.
* `Model.accepted_of_parse`: a model that is read from a text is accepted.
-/

namespace AnnotationResolution

/-! ## Values -/

theorem Expr.entriesWellNamed_put {entries : List (String × Expr)}
    (h : entriesWellNamed entries = true) (name : String) {e : Expr} (he : e.wellNamed = true) :
    entriesWellNamed (Members.put name e entries) = true := by
  induction entries with
  | nil => simp [Members.put, entriesWellNamed, he]
  | cons entry rest ih =>
    obtain ⟨key, old⟩ := entry
    rw [entriesWellNamed, Bool.and_eq_true] at h
    rw [Members.put]
    split
    · simp [entriesWellNamed, he, h.2]
    · simp [entriesWellNamed, h.1, ih h.2]

theorem AnnotationInstance.wellNamed_ofList {entries : List (String × Expr)}
    (h : Expr.entriesWellNamed entries = true) (annotationType : String) :
    (AnnotationInstance.mk annotationType (Members.ofList entries)).wellNamed = true := by
  refine wellNamed_iff.mpr ⟨Members.names_nodup_ofList entries, ?_⟩
  have hfold : ∀ (rest : List (String × Expr)) (m : Members Expr),
      Expr.entriesWellNamed m.entries = true → Expr.entriesWellNamed rest = true →
      Expr.entriesWellNamed
        (rest.foldl (fun m entry => m.insert entry.1 entry.2) m).entries = true := by
    intro rest
    induction rest with
    | nil =>
      intro m hm _
      exact hm
    | cons entry rest ih =>
      intro m hm hr
      rw [Expr.entriesWellNamed, Bool.and_eq_true] at hr
      exact ih _ (Expr.entriesWellNamed_put hm entry.1 hr.1) hr.2
  exact hfold entries ∅ rfl h

mutual

theorem Expr.wellNamed_of_ofJson? {access : Json.Access} {j : Json} {e : Expr}
    (h : Expr.ofJson? access j = some e) : e.wellNamed = true := by
  rw [Expr.ofJson?] at h
  split at h
  · obtain ⟨constant, -, ⟨⟩⟩ := Option.bind_eq_some_iff.mp h
    rfl
  · next hsmaller _ =>
    have hlt := hsmaller rfl
    obtain ⟨a, ha, ⟨⟩⟩ := Option.bind_eq_some_iff.mp h
    exact AnnotationInstance.wellNamed_of_ofJson? ha
  · obtain ⟨record, -, h⟩ := Option.bind_eq_some_iff.mp h
    obtain ⟨owner, -, h⟩ := Option.bind_eq_some_iff.mp h
    obtain ⟨member, -, ⟨⟩⟩ := Option.bind_eq_some_iff.mp h
    rfl
  · obtain ⟨ty, -, ⟨⟩⟩ := Option.bind_eq_some_iff.mp h
    rfl
  · next items hsmaller _ =>
    have hlt := Nat.lt_trans (Json.sizeOf_items_lt items) (hsmaller rfl)
    obtain ⟨items, hi, ⟨⟩⟩ := Option.bind_eq_some_iff.mp h
    exact Expr.allWellNamed_of_listOfJson? hi
  · next hsmaller _ =>
    split at h
    · cases h
    · next record _ =>
      obtain ⟨name, -, h⟩ := Option.bind_eq_some_iff.mp h
      split at h
      · cases h
        rfl
      · cases h
        rfl
      · next hf =>
        have hlt := Nat.lt_trans (record.smaller hf) (hsmaller rfl)
        obtain ⟨initializer, hi, ⟨⟩⟩ := Option.bind_eq_some_iff.mp h
        rw [Expr.wellNamed]
        exact Expr.wellNamed_of_ofJson? hi
  · next hsmaller _ =>
    have hlt := hsmaller rfl
    obtain ⟨host, hh, ⟨⟩⟩ := Option.bind_eq_some_iff.mp h
    exact HostValue.wellNamed_of_ofJson? hh
  · cases h
    rfl
  · cases h
termination_by sizeOf j
decreasing_by all_goals assumption

theorem HostValue.wellNamed_of_ofJson? {access : Json.Access} {j : Json} {host : HostValue}
    (h : HostValue.ofJson? access j = some host) : host.wellNamed = true := by
  rw [HostValue.ofJson?] at h
  split at h
  · cases h
    rfl
  · obtain ⟨n, -, ⟨⟩⟩ := Option.bind_eq_some_iff.mp h
    rfl
  · obtain ⟨x, -, ⟨⟩⟩ := Option.bind_eq_some_iff.mp h
    rfl
  · cases h
    rfl
  · obtain ⟨c, -, ⟨⟩⟩ := Option.bind_eq_some_iff.mp h
    rfl
  · obtain ⟨ty, -, ⟨⟩⟩ := Option.bind_eq_some_iff.mp h
    rfl
  · obtain ⟨record, -, h⟩ := Option.bind_eq_some_iff.mp h
    obtain ⟨typeName, -, h⟩ := Option.bind_eq_some_iff.mp h
    obtain ⟨constant, -, ⟨⟩⟩ := Option.bind_eq_some_iff.mp h
    rfl
  · next hsmaller _ =>
    have hlt := hsmaller rfl
    obtain ⟨a, ha, ⟨⟩⟩ := Option.bind_eq_some_iff.mp h
    exact AnnotationInstance.wellNamed_of_ofJson? ha
  · next items hsmaller _ =>
    have hlt := Nat.lt_trans (Json.sizeOf_items_lt items) (hsmaller rfl)
    obtain ⟨items, hi, ⟨⟩⟩ := Option.bind_eq_some_iff.mp h
    exact HostValue.allWellNamed_of_listOfJson? hi
  · cases h
termination_by sizeOf j
decreasing_by all_goals assumption

theorem AnnotationInstance.wellNamed_of_ofJson? {access : Json.Access} {j : Json}
    {a : AnnotationInstance} (h : AnnotationInstance.ofJson? access j = some a) :
    a.wellNamed = true := by
  rw [AnnotationInstance.ofJson?] at h
  split at h
  · cases h
  · next record _ =>
    obtain ⟨annotationType, -, h⟩ := Option.bind_eq_some_iff.mp h
    split at h
    · cases h
      rfl
    · next items hf =>
      have hlt := Nat.lt_trans (Json.sizeOf_items_lt items) (record.smaller hf)
      obtain ⟨entries, he, ha⟩ := Option.bind_eq_some_iff.mp h
      cases ha
      exact AnnotationInstance.wellNamed_ofList (Expr.entriesWellNamed_of_entriesOfJson? he) _
    · cases h
termination_by sizeOf j
decreasing_by all_goals assumption

theorem Expr.allWellNamed_of_listOfJson? {access : Json.Access} :
    ∀ {js : List Json} {items : List Expr}, Expr.listOfJson? access js = some items →
      Expr.allWellNamed items = true
  | [], items, h => by
    simp only [Expr.listOfJson?] at h
    cases h
    rfl
  | j :: rest, items, h => by
    simp only [Expr.listOfJson?, bind, pure, Option.bind_eq_some_iff] at h
    obtain ⟨e, he, others, ho, hi⟩ := h
    cases hi
    rw [Expr.allWellNamed, Expr.wellNamed_of_ofJson? he, Expr.allWellNamed_of_listOfJson? ho]
    rfl
termination_by js => sizeOf js

theorem HostValue.allWellNamed_of_listOfJson? {access : Json.Access} :
    ∀ {js : List Json} {items : List HostValue}, HostValue.listOfJson? access js = some items →
      HostValue.allWellNamed items = true
  | [], items, h => by
    simp only [HostValue.listOfJson?] at h
    cases h
    rfl
  | j :: rest, items, h => by
    simp only [HostValue.listOfJson?, bind, pure, Option.bind_eq_some_iff] at h
    obtain ⟨host, hh, others, ho, hi⟩ := h
    cases hi
    rw [HostValue.allWellNamed, HostValue.wellNamed_of_ofJson? hh,
      HostValue.allWellNamed_of_listOfJson? ho]
    rfl
termination_by js => sizeOf js

theorem Expr.entriesWellNamed_of_entriesOfJson? {access : Json.Access} :
    ∀ {js : List Json} {entries : List (String × Expr)},
      Expr.entriesOfJson? access js = some entries → Expr.entriesWellNamed entries = true
  | [], entries, h => by
    simp only [Expr.entriesOfJson?] at h
    cases h
    rfl
  | j :: rest, entries, h => by
    rw [Expr.entriesOfJson?] at h
    split at h
    · cases h
    · next record _ =>
      obtain ⟨name, -, h⟩ := Option.bind_eq_some_iff.mp h
      split at h
      · cases h
      · next value hf =>
        have hlt : sizeOf value < sizeOf (j :: rest) :=
          Nat.lt_trans (record.smaller hf) (by rw [List.cons.sizeOf_spec]; omega)
        obtain ⟨e, he, h⟩ := Option.bind_eq_some_iff.mp h
        obtain ⟨others, ho, hi⟩ := Option.bind_eq_some_iff.mp h
        cases hi
        rw [Expr.entriesWellNamed, Expr.wellNamed_of_ofJson? he,
          Expr.entriesWellNamed_of_entriesOfJson? ho]
        rfl
termination_by js => sizeOf js
decreasing_by
  · assumption
  · rw [List.cons.sizeOf_spec]
    omega

end

/-! ## Documents -/

section Fields

variable {α : Type} {read : Json → Option α} {P : α → Prop}

theorem Json.of_optional (hr : ∀ {j a}, read j = some a → P a) {fields : List (String × Json)}
    {key : String} {value : Option α} (h : Json.optional fields key read = some value) :
    ∀ a ∈ value, P a := by
  rintro a rfl
  rw [Json.optional] at h
  split at h
  · cases h
  · cases h
  · obtain ⟨read, hread, ⟨⟩⟩ := Option.map_eq_some_iff.mp h
    exact hr hread

theorem Json.of_orElse (hr : ∀ {j a}, read j = some a → P a) {default : α} (hd : P default)
    {fields : List (String × Json)} {key : String} {value : α}
    (h : Json.orElse fields key read default = some value) : P value := by
  rw [Json.orElse] at h
  split at h
  · cases h
    exact hd
  · exact hr h

theorem Json.of_list? (hr : ∀ {j a}, read j = some a → P a) {j : Json} {items : List α}
    (h : Json.list? read j = some items) : ∀ a ∈ items, P a := by
  intro a ha
  cases j with
  | arr js =>
    obtain ⟨item, -, hi⟩ := mem_of_mapM_eq_some h ha
    exact hr hi
  | _ => cases h

end Fields

variable {access : Json.Access} {j : Json}

theorem Statement.wellNamed_of_ofJson? {s : Statement} (h : Statement.ofJson? access j = some s) :
    s.wellNamed = true := by
  rw [Statement.ofJson?] at h
  split at h
  · obtain ⟨found, -, h⟩ := Option.bind_eq_some_iff.mp h
    split at h
    · obtain ⟨e, he, ⟨⟩⟩ := Option.bind_eq_some_iff.mp h
      cases e with
      | none => rfl
      | some e => exact Json.of_optional Expr.wellNamed_of_ofJson? he e rfl
    · obtain ⟨e, he, ⟨⟩⟩ := Option.bind_eq_some_iff.mp h
      obtain ⟨content, -, hc⟩ := Option.bind_eq_some_iff.mp he
      exact Expr.wellNamed_of_ofJson? hc
    · obtain ⟨source, -, ⟨⟩⟩ := Option.bind_eq_some_iff.mp h
      rfl
    · cases h
  · cases h

theorem MethodInfo.wellNamed_of_ofJson? {info : MethodInfo}
    (h : MethodInfo.ofJson? access j = some info) : (Element.method info).wellNamed = true := by
  simp only [MethodInfo.ofJson?, bind, pure, Option.bind_eq_some_iff] at h
  obtain ⟨fields, -, parameters, -, returnType, -, visibility, -, overrides, -, host, hh, body, hb,
    ⟨⟩⟩ := h
  have hbody : ∀ s ∈ body, s.wellNamed = true :=
    Json.of_orElse (P := fun body => ∀ s ∈ body, s.wellNamed = true)
      (Json.of_list? Statement.wellNamed_of_ofJson?) (by simp) hb
  have hhost : ∀ value ∈ host, value.wellNamed = true :=
    Json.of_optional HostValue.wellNamed_of_ofJson? hh
  rw [Element.wellNamed, Bool.and_eq_true, List.all_eq_true, Option.all_eq_true]
  exact ⟨hhost, hbody⟩

theorem FieldInfo.wellNamed_of_ofJson? {info : FieldInfo}
    (h : FieldInfo.ofJson? access j = some info) : (Element.field info).wellNamed = true := by
  simp only [FieldInfo.ofJson?, bind, pure, Option.bind_eq_some_iff] at h
  obtain ⟨fields, -, ty, -, visibility, -, isStatic, -, host, hh, initializer, hi, ⟨⟩⟩ := h
  have hhost : ∀ value ∈ host, value.wellNamed = true :=
    Json.of_optional HostValue.wellNamed_of_ofJson? hh
  have hinit : ∀ e ∈ initializer, e.wellNamed = true :=
    Json.of_optional Expr.wellNamed_of_ofJson? hi
  rw [Element.wellNamed, Bool.and_eq_true, Option.all_eq_true, Option.all_eq_true]
  exact ⟨hhost, hinit⟩

theorem Element.wellNamed_of_ofJson? {element : Element}
    (h : Element.ofJson? access j = some element) : element.wellNamed = true := by
  obtain ⟨found, -, h⟩ := Option.bind_eq_some_iff.mp h
  split at h
  · obtain ⟨info, -, ⟨⟩⟩ := Option.bind_eq_some_iff.mp h
    rfl
  · obtain ⟨info, hi, ⟨⟩⟩ := Option.bind_eq_some_iff.mp h
    exact MethodInfo.wellNamed_of_ofJson? hi
  · obtain ⟨info, hi, ⟨⟩⟩ := Option.bind_eq_some_iff.mp h
    exact FieldInfo.wellNamed_of_ofJson? hi
  · simp only [Element.propertyOfJson?, bind, pure, Option.bind_eq_some_iff] at h
    obtain ⟨record, -, ty, -, ⟨⟩⟩ := h
    rfl
  · obtain ⟨info, -, ⟨⟩⟩ := Option.bind_eq_some_iff.mp h
    rfl
  · cases h
    rfl
  · cases h
    rfl
  · cases h

theorem Declaration.wellNamed_of_ofJson? {d : Declaration}
    (h : Declaration.ofJson? access j = some d) : d.wellNamed = true := by
  simp only [Declaration.ofJson?, bind, pure, Option.bind_eq_some_iff] at h
  obtain ⟨fields, -, name, -, declaringType, -, annotations, ha, element, he, ⟨⟩⟩ := h
  obtain ⟨content, -, hc⟩ := Option.bind_eq_some_iff.mp he
  have happlied : ∀ a ∈ annotations, a.wellNamed = true :=
    Json.of_orElse (P := fun annotations => ∀ a ∈ annotations, a.wellNamed = true)
      (Json.of_list? AnnotationInstance.wellNamed_of_ofJson?) (by simp) ha
  rw [Declaration.wellNamed, Bool.and_eq_true, List.all_eq_true]
  exact ⟨happlied, Element.wellNamed_of_ofJson? hc⟩

/-- **A model that is read from a text is accepted.** -/
theorem Model.accepted_of_parse {text : String} {m : Model} (h : Model.parse text = .ok m) :
    m.Accepted := by
  rw [Model.parse] at h
  split at h
  · next j hj =>
    rw [Model.ofJson] at h
    split at h
    · next declarations hd =>
      refine Model.accepted_of_load h (List.all_eq_true.mpr ?_)
      obtain ⟨fields, -, hd⟩ := Option.bind_eq_some_iff.mp hd
      obtain ⟨content, -, hc⟩ := Option.bind_eq_some_iff.mp hd
      exact Json.of_list? Declaration.wellNamed_of_ofJson? hc
    · cases h
  · cases h

end AnnotationResolution
