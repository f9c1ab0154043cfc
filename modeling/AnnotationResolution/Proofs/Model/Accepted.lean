import AnnotationResolution.Proofs.Model.Loading

/-!
# Accepted models

`Model.Accepted` is what a build may rely on: the loader has let the declarations pass, and no
annotation in them names a member twice.  The second part is about every annotation, also those that
lie inside values; `Holds` says what lies inside what, and `wellNamed` looks through a declaration.

* `Accepted.namesDistinct_of_holds`: an annotation on a declaration, and every annotation inside it,
  names its members once.
* `accepted_of_load`: what the loader makes of well-named declarations is accepted.
* `Declaration.wellNamed_iff`, `Model.accepted_iff`: the check finds every repeated name, so being
  accepted can be computed.
-/

namespace AnnotationResolution

mutual

/-- An annotation lies in an expression, at any depth. -/
inductive Expr.Holds : Expr → AnnotationInstance → Prop
  | nested {a inner : AnnotationInstance} : AnnotationInstance.Holds a inner →
      Expr.Holds (.nested a) inner
  | list {items : List Expr} {e : Expr} {inner : AnnotationInstance} : e ∈ items →
      Expr.Holds e inner → Expr.Holds (.list items) inner
  | initializer {name : String} {e : Expr} {inner : AnnotationInstance} : Expr.Holds e inner →
      Expr.Holds (.variableRef name (some e)) inner
  | value {host : HostValue} {inner : AnnotationInstance} : HostValue.Holds host inner →
      Expr.Holds (.value host) inner

inductive HostValue.Holds : HostValue → AnnotationInstance → Prop
  | nested {a inner : AnnotationInstance} : AnnotationInstance.Holds a inner →
      HostValue.Holds (.nested a) inner
  | array {items : List HostValue} {host : HostValue} {inner : AnnotationInstance} :
      host ∈ items → HostValue.Holds host inner → HostValue.Holds (.array items) inner

/-- An annotation lies in another one, or is that one. -/
inductive AnnotationInstance.Holds : AnnotationInstance → AnnotationInstance → Prop
  | self (a : AnnotationInstance) : AnnotationInstance.Holds a a
  | member {a inner : AnnotationInstance} {name : String} {e : Expr} :
      (name, e) ∈ a.members.entries → Expr.Holds e inner → AnnotationInstance.Holds a inner

end

/-- An expression lies in a statement. -/
inductive Statement.Mentions : Statement → Expr → Prop
  | returned (e : Expr) : Statement.Mentions (.returned (some e)) e
  | expression (e : Expr) : Statement.Mentions (.expression e) e

/-- An annotation lies in a declaration: among its annotations, or in a value it gives. -/
inductive Declaration.Holds (d : Declaration) : AnnotationInstance → Prop
  | applied {a inner : AnnotationInstance} : a ∈ d.annotations → a.Holds inner → d.Holds inner
  | defaultValue {info : MethodInfo} {host : HostValue} {inner : AnnotationInstance} :
      d.methodInfo? = some info → info.defaultValue = some host → host.Holds inner → d.Holds inner
  | defaultBody {info : MethodInfo} {s : Statement} {e : Expr} {inner : AnnotationInstance} :
      d.methodInfo? = some info → s ∈ info.defaultBody → s.Mentions e → e.Holds inner →
      d.Holds inner
  | constantValue {info : FieldInfo} {host : HostValue} {inner : AnnotationInstance} :
      d.fieldInfo? = some info → info.constantValue = some host → host.Holds inner → d.Holds inner
  | initializer {info : FieldInfo} {e : Expr} {inner : AnnotationInstance} :
      d.fieldInfo? = some info → info.initializer = some e → e.Holds inner → d.Holds inner

mutual

theorem Expr.Holds.trans : ∀ {e : Expr} {a inner : AnnotationInstance}, e.Holds a →
    a.Holds inner → e.Holds inner
  | _, _, _, .nested h, hi => .nested (h.trans hi)
  | _, _, _, .list he h, hi => .list he (h.trans hi)
  | _, _, _, .initializer h, hi => .initializer (h.trans hi)
  | _, _, _, .value h, hi => .value (h.trans hi)

theorem HostValue.Holds.trans : ∀ {host : HostValue} {a inner : AnnotationInstance},
    host.Holds a → a.Holds inner → host.Holds inner
  | _, _, _, .nested h, hi => .nested (h.trans hi)
  | _, _, _, .array hh h, hi => .array hh (h.trans hi)

/-- What lies in a part lies in the whole. -/
theorem AnnotationInstance.Holds.trans : ∀ {a b inner : AnnotationInstance}, a.Holds b →
    b.Holds inner → a.Holds inner
  | _, _, _, .self _, hi => hi
  | _, _, _, .member he h, hi => .member he (h.trans hi)

end

/-- Each member of the annotation is named once. -/
def AnnotationInstance.NamesDistinct (a : AnnotationInstance) : Prop := a.members.names.Nodup

/-! ## Checking a declaration -/

mutual

/-- Each annotation in the expression names its members once. -/
def Expr.wellNamed : Expr → Bool
  | .nested a => a.wellNamed
  | .list items => Expr.allWellNamed items
  | .variableRef _ (some e) => e.wellNamed
  | .value host => host.wellNamed
  | .literal _ | .qualified _ _ | .typeLiteral _ | .variableRef _ none | .unsupported _ => true

def HostValue.wellNamed : HostValue → Bool
  | .nested a => a.wellNamed
  | .array items => HostValue.allWellNamed items
  | .str _ | .int _ | .float _ | .bool _ | .char _ | .classOf _ | .enumConstant _ _ => true

def AnnotationInstance.wellNamed : AnnotationInstance → Bool
  | ⟨_, ⟨entries⟩⟩ => decide (entries.map (·.1)).Nodup && Expr.entriesWellNamed entries

def Expr.allWellNamed : List Expr → Bool
  | [] => true
  | e :: rest => e.wellNamed && Expr.allWellNamed rest

def HostValue.allWellNamed : List HostValue → Bool
  | [] => true
  | host :: rest => host.wellNamed && HostValue.allWellNamed rest

def Expr.entriesWellNamed : List (String × Expr) → Bool
  | [] => true
  | (_, e) :: rest => e.wellNamed && Expr.entriesWellNamed rest

end

theorem Expr.wellNamed_of_mem {items : List Expr} (h : allWellNamed items = true) {e : Expr}
    (he : e ∈ items) : e.wellNamed = true := by
  induction items with
  | nil => cases he
  | cons first rest ih =>
    rw [allWellNamed, Bool.and_eq_true] at h
    rcases List.mem_cons.mp he with rfl | hr
    · exact h.1
    · exact ih h.2 hr

theorem HostValue.wellNamed_of_mem {items : List HostValue} (h : allWellNamed items = true)
    {host : HostValue} (hh : host ∈ items) : host.wellNamed = true := by
  induction items with
  | nil => cases hh
  | cons first rest ih =>
    rw [allWellNamed, Bool.and_eq_true] at h
    rcases List.mem_cons.mp hh with rfl | hr
    · exact h.1
    · exact ih h.2 hr

theorem Expr.wellNamed_of_mem_entries {entries : List (String × Expr)}
    (h : entriesWellNamed entries = true) {entry : String × Expr} (he : entry ∈ entries) :
    entry.2.wellNamed = true := by
  induction entries with
  | nil => cases he
  | cons first rest ih =>
    rw [entriesWellNamed, Bool.and_eq_true] at h
    rcases List.mem_cons.mp he with rfl | hr
    · exact h.1
    · exact ih h.2 hr

theorem AnnotationInstance.wellNamed_iff {a : AnnotationInstance} :
    a.wellNamed = true ↔ a.NamesDistinct ∧ Expr.entriesWellNamed a.members.entries = true := by
  obtain ⟨annotationType, ⟨entries⟩⟩ := a
  rw [wellNamed, Bool.and_eq_true, decide_eq_true_iff]
  rfl

mutual

theorem Expr.namesDistinct_of_holds : ∀ {e : Expr} {a : AnnotationInstance}, e.Holds a →
    e.wellNamed = true → a.NamesDistinct
  | _, _, .nested h, hn => AnnotationInstance.namesDistinct_of_holds h hn
  | _, _, .list he h, hn => Expr.namesDistinct_of_holds h (Expr.wellNamed_of_mem hn he)
  | _, _, .initializer h, hn => Expr.namesDistinct_of_holds h hn
  | _, _, .value h, hn => HostValue.namesDistinct_of_holds h hn

theorem HostValue.namesDistinct_of_holds : ∀ {host : HostValue} {a : AnnotationInstance},
    host.Holds a → host.wellNamed = true → a.NamesDistinct
  | _, _, .nested h, hn => AnnotationInstance.namesDistinct_of_holds h hn
  | _, _, .array hh h, hn => HostValue.namesDistinct_of_holds h (HostValue.wellNamed_of_mem hn hh)

theorem AnnotationInstance.namesDistinct_of_holds : ∀ {a inner : AnnotationInstance},
    a.Holds inner → a.wellNamed = true → inner.NamesDistinct
  | _, _, .self _, hn => (AnnotationInstance.wellNamed_iff.mp hn).1
  | _, _, .member he h, hn =>
    Expr.namesDistinct_of_holds h
      (Expr.wellNamed_of_mem_entries (AnnotationInstance.wellNamed_iff.mp hn).2 he)

end

def Statement.wellNamed : Statement → Bool
  | .returned (some e) => e.wellNamed
  | .expression e => e.wellNamed
  | .returned none | .other _ => true

def Element.wellNamed : Element → Bool
  | .method info =>
    info.defaultValue.all HostValue.wellNamed && info.defaultBody.all Statement.wellNamed
  | .field info =>
    info.constantValue.all HostValue.wellNamed && info.initializer.all Expr.wellNamed
  | .type _ | .property _ | .parameter _ | .package => true

/-- Each annotation in the declaration names its members once. -/
def Declaration.wellNamed (d : Declaration) : Bool :=
  d.annotations.all AnnotationInstance.wellNamed && d.element.wellNamed

theorem Declaration.element_of_methodInfo? {d : Declaration} {info : MethodInfo}
    (h : d.methodInfo? = some info) : d.element = .method info := by
  rw [methodInfo?] at h
  split at h
  · next found hf =>
    cases h
    exact hf
  · cases h

theorem Declaration.element_of_fieldInfo? {d : Declaration} {info : FieldInfo}
    (h : d.fieldInfo? = some info) : d.element = .field info := by
  rw [fieldInfo?] at h
  split at h
  · next found hf =>
    cases h
    exact hf
  · cases h

theorem Declaration.namesDistinct_of_holds {d : Declaration} (hn : d.wellNamed = true)
    {a : AnnotationInstance} (h : d.Holds a) : a.NamesDistinct := by
  obtain ⟨happlied, helement⟩ := Bool.and_eq_true_iff.mp hn
  cases h with
  | applied ha hi =>
    exact AnnotationInstance.namesDistinct_of_holds hi (List.all_eq_true.mp happlied _ ha)
  | defaultValue hm hv hi =>
    rw [element_of_methodInfo? hm, Element.wellNamed, hv, Bool.and_eq_true] at helement
    exact HostValue.namesDistinct_of_holds hi helement.1
  | defaultBody hm hs he hi =>
    rw [element_of_methodInfo? hm, Element.wellNamed, Bool.and_eq_true] at helement
    have hw := List.all_eq_true.mp helement.2 _ hs
    cases he with
    | returned e => exact Expr.namesDistinct_of_holds hi hw
    | expression e => exact Expr.namesDistinct_of_holds hi hw
  | constantValue hf hv hi =>
    rw [element_of_fieldInfo? hf, Element.wellNamed, hv, Bool.and_eq_true] at helement
    exact HostValue.namesDistinct_of_holds hi helement.1
  | initializer hf hv hi =>
    rw [element_of_fieldInfo? hf, Element.wellNamed, hv, Bool.and_eq_true] at helement
    exact Expr.namesDistinct_of_holds hi helement.2

/-! ### The check finds every repeated name -/

mutual

theorem Expr.wellNamed_of_namesDistinct : ∀ {e : Expr},
    (∀ a : AnnotationInstance, e.Holds a → a.NamesDistinct) → e.wellNamed = true
  | .nested _, h => by
    rw [Expr.wellNamed]
    exact AnnotationInstance.wellNamed_of_namesDistinct fun inner hi => h inner (.nested hi)
  | .list _, h => by
    rw [Expr.wellNamed]
    exact Expr.allWellNamed_of_namesDistinct fun e he a ha => h a (.list he ha)
  | .variableRef _ (some _), h => by
    rw [Expr.wellNamed]
    exact Expr.wellNamed_of_namesDistinct fun a ha => h a (.initializer ha)
  | .value _, h => by
    rw [Expr.wellNamed]
    exact HostValue.wellNamed_of_namesDistinct fun a ha => h a (.value ha)
  | .literal _, _ | .qualified _ _, _ | .typeLiteral _, _ | .variableRef _ none, _
  | .unsupported _, _ => rfl

theorem HostValue.wellNamed_of_namesDistinct : ∀ {host : HostValue},
    (∀ a : AnnotationInstance, host.Holds a → a.NamesDistinct) → host.wellNamed = true
  | .nested _, h => by
    rw [HostValue.wellNamed]
    exact AnnotationInstance.wellNamed_of_namesDistinct fun inner hi => h inner (.nested hi)
  | .array _, h => by
    rw [HostValue.wellNamed]
    exact HostValue.allWellNamed_of_namesDistinct fun host hh a ha => h a (.array hh ha)
  | .str _, _ | .int _, _ | .float _, _ | .bool _, _ | .char _, _ | .classOf _, _
  | .enumConstant _ _, _ => rfl

theorem AnnotationInstance.wellNamed_of_namesDistinct : ∀ {a : AnnotationInstance},
    (∀ inner : AnnotationInstance, a.Holds inner → inner.NamesDistinct) → a.wellNamed = true
  | ⟨_, ⟨_⟩⟩, h =>
    AnnotationInstance.wellNamed_iff.mpr ⟨h _ (.self _), Expr.entriesWellNamed_of_namesDistinct
      fun _ _ he inner hi => h inner (.member he hi)⟩

theorem Expr.allWellNamed_of_namesDistinct : ∀ {items : List Expr},
    (∀ e ∈ items, ∀ a : AnnotationInstance, e.Holds a → a.NamesDistinct) →
      Expr.allWellNamed items = true
  | [], _ => rfl
  | _ :: _, h => by
    rw [List.forall_mem_cons] at h
    rw [Expr.allWellNamed, Expr.wellNamed_of_namesDistinct h.1,
      Expr.allWellNamed_of_namesDistinct h.2]
    rfl

theorem HostValue.allWellNamed_of_namesDistinct : ∀ {items : List HostValue},
    (∀ host ∈ items, ∀ a : AnnotationInstance, host.Holds a → a.NamesDistinct) →
      HostValue.allWellNamed items = true
  | [], _ => rfl
  | _ :: _, h => by
    rw [List.forall_mem_cons] at h
    rw [HostValue.allWellNamed, HostValue.wellNamed_of_namesDistinct h.1,
      HostValue.allWellNamed_of_namesDistinct h.2]
    rfl

theorem Expr.entriesWellNamed_of_namesDistinct : ∀ {entries : List (String × Expr)},
    (∀ name e, (name, e) ∈ entries → ∀ a : AnnotationInstance, e.Holds a → a.NamesDistinct) →
      Expr.entriesWellNamed entries = true
  | [], _ => rfl
  | (name, e) :: _, h => by
    rw [Expr.entriesWellNamed,
      Expr.wellNamed_of_namesDistinct (h name e List.mem_cons_self),
      Expr.entriesWellNamed_of_namesDistinct
        fun name e he => h name e (List.mem_cons_of_mem _ he)]
    rfl

end

theorem Statement.wellNamed_of_namesDistinct {s : Statement}
    (h : ∀ e, s.Mentions e → ∀ a : AnnotationInstance, e.Holds a → a.NamesDistinct) :
    s.wellNamed = true := by
  cases s with
  | returned e =>
    cases e with
    | none => rfl
    | some e => exact Expr.wellNamed_of_namesDistinct (h e (.returned e))
  | expression e => exact Expr.wellNamed_of_namesDistinct (h e (.expression e))
  | other source => rfl

/-- **A declaration passes the check just when every annotation in it names its members once.** -/
theorem Declaration.wellNamed_iff {d : Declaration} :
    d.wellNamed = true ↔ ∀ a : AnnotationInstance, d.Holds a → a.NamesDistinct := by
  refine ⟨fun hn a h => namesDistinct_of_holds hn h, fun h => ?_⟩
  rw [wellNamed, Bool.and_eq_true, List.all_eq_true]
  refine ⟨fun a ha => AnnotationInstance.wellNamed_of_namesDistinct fun inner hi =>
    h inner (.applied ha hi), ?_⟩
  cases he : d.element with
  | method info =>
    have hm : d.methodInfo? = some info := by rw [methodInfo?, he]
    rw [Element.wellNamed, Bool.and_eq_true, Option.all_eq_true, List.all_eq_true]
    exact ⟨fun host hh => HostValue.wellNamed_of_namesDistinct fun a ha =>
        h a (.defaultValue hm hh ha),
      fun s hs => Statement.wellNamed_of_namesDistinct fun e hm' a ha =>
        h a (.defaultBody hm hs hm' ha)⟩
  | field info =>
    have hf : d.fieldInfo? = some info := by rw [fieldInfo?, he]
    rw [Element.wellNamed, Bool.and_eq_true, Option.all_eq_true, Option.all_eq_true]
    exact ⟨fun host hh => HostValue.wellNamed_of_namesDistinct fun a ha =>
        h a (.constantValue hf hh ha),
      fun e hi => Expr.wellNamed_of_namesDistinct fun a ha => h a (.initializer hf hi ha)⟩
  | type info => rfl
  | property ty => rfl
  | parameter info => rfl
  | package => rfl

/-! ## Models -/

/-- **A model that the loader accepts.** -/
structure Model.Accepted (m : Model) : Prop where
  loads : Model.ofDeclarations m.declarations.toList = .ok m
  namesDistinct : ∀ d ∈ m.declarations, ∀ a, d.Holds a → a.NamesDistinct

theorem Model.exists_declaration_of_mem_annotations {m : Model} {id : DeclId}
    {a : AnnotationInstance} (ha : a ∈ m.annotations id) :
    ∃ d, m.declaration? id = some d ∧ a ∈ d.annotations := by
  rw [Model.annotations] at ha
  split at ha
  · next d hd => exact ⟨d, hd, ha⟩
  · cases ha

theorem Model.Accepted.namesDistinct_of_holds {m : Model} (h : m.Accepted) {id : DeclId}
    {a inner : AnnotationInstance} (ha : a ∈ m.annotations id) (hi : a.Holds inner) :
    inner.NamesDistinct := by
  obtain ⟨d, hd, ha⟩ := Model.exists_declaration_of_mem_annotations ha
  exact h.namesDistinct d (Array.mem_of_getElem? hd) inner (.applied ha hi)

/-- **What the loader makes of well-named declarations is accepted.** -/
theorem Model.accepted_of_load {declarations : List Declaration} {m : Model}
    (h : Model.ofDeclarations declarations = .ok m)
    (hn : declarations.all Declaration.wellNamed = true) : m.Accepted := by
  have hm : m.declarations = declarations.toArray := (Model.ofDeclarations_eq_ok_iff.mp h).2.1
  refine ⟨by rw [hm]; exact h, fun d hd a ha => ?_⟩
  rw [hm, List.mem_toArray] at hd
  exact Declaration.namesDistinct_of_holds (List.all_eq_true.mp hn d hd) ha

/-- The loader and the check of each declaration together say that a model is accepted. -/
theorem Model.accepted_iff {m : Model} :
    m.Accepted ↔ Model.ofDeclarations m.declarations.toList = .ok m ∧
      m.declarations.toList.all Declaration.wellNamed = true := by
  rw [List.all_eq_true]
  refine ⟨fun h => ⟨h.loads, fun d hd => Declaration.wellNamed_iff.mpr
    (h.namesDistinct d (Array.mem_toList_iff.mp hd))⟩, fun h => ⟨h.1, fun d hd => ?_⟩⟩
  exact Declaration.wellNamed_iff.mp (h.2 d (Array.mem_toList_iff.mpr hd))

end AnnotationResolution
