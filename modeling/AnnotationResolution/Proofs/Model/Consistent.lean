import AnnotationResolution.Proofs.Model.Index

/-!
# Consistent declarations

Declarations are `Consistent` when no two types among them share a name and what stands in each slot
of a declaration is a declaration of the kind that belongs there (`Slot`, in the order in which the
slots are read).  `Fault` says what is the matter with any others: the first name that an earlier
type has, or, when there is none, the first reference that leads nowhere or to the wrong kind.

* `indexTypes_eq_error_iff`: the index refuses the first type whose name is taken.
* `checkReferences_eq_forM`: the references of all declarations are checked one after the other.
* `exists_ofDeclarations_iff`: the declarations that load are the consistent ones.
* `ofDeclarations_eq_error_iff`: any others are refused for their fault.
-/

namespace AnnotationResolution

/-! ## What declarations must be like -/

inductive Slot where
  | declaringType
  | methods
  | fields
  | parameters
  | method
deriving DecidableEq, Repr

def Slot.kind : Slot → ElementKind
  | declaringType => .type
  | methods => .method
  | fields => .field
  | parameters => .parameter
  | method => .method

def Slot.all : List Slot := [declaringType, methods, fields, parameters, method]

theorem Slot.mem_all (slot : Slot) : slot ∈ all := by
  cases slot <;> decide

def Declaration.inSlot (d : Declaration) : Slot → List DeclId
  | .declaringType => d.declaringType.toList
  | .methods => d.typeInfo?.elim [] TypeInfo.methods
  | .fields => d.typeInfo?.elim [] TypeInfo.fields
  | .parameters => d.methodInfo?.elim [] MethodInfo.parameters
  | .method => (d.parameterInfo?.map ParameterInfo.method).toList

theorem Declaration.references_eq_inSlot (d : Declaration) :
    d.references = Slot.all.flatMap fun slot => (d.inSlot slot).map (·, slot.kind) := by
  obtain ⟨name, declaringType, annotations, element⟩ := d
  cases element <;> simp [references, elementReferences, Slot.all, inSlot, Slot.kind, typeInfo?,
    methodInfo?, parameterInfo?]

section

variable (declarations : List Declaration)

def kindAt? (id : DeclId) : Option ElementKind := declarations[id.index]?.map Declaration.kind

def IsTypeNamed (name : String) (id : DeclId) : Prop :=
  ∃ d, declarations[id.index]? = some d ∧ d.kind = .type ∧ d.name = name

def TypesDistinct : Prop :=
  ∀ name id other, IsTypeNamed declarations name id → IsTypeNamed declarations name other →
    id = other

/-- **Declarations that fit together.** -/
structure Consistent : Prop where
  typesDistinct : TypesDistinct declarations
  referencesLead : ∀ (owner : DeclId) (d : Declaration), declarations[owner.index]? = some d →
    ∀ slot, ∀ target ∈ d.inSlot slot, kindAt? declarations target = some slot.kind

end

/-! ## What can be the matter with them -/

structure Reference where
  owner : DeclId
  target : DeclId
  expected : ElementKind

def Reference.Leads (declarations : List Declaration) (r : Reference) : Prop :=
  kindAt? declarations r.target = some r.expected

def Declaration.slotReferences (owner : DeclId) (d : Declaration) : List Reference :=
  Slot.all.flatMap fun slot => (d.inSlot slot).map (⟨owner, ·, slot.kind⟩)

/-- The references of declarations that begin at position `next`, one declaration after another. -/
def referencesFrom (next : Nat) : List Declaration → List Reference
  | [] => []
  | d :: rest => d.slotReferences ⟨next⟩ ++ referencesFrom (next + 1) rest

inductive Reference.Wrong (declarations : List Declaration) (r : Reference) : ModelError → Prop
  | dangling : kindAt? declarations r.target = none →
      r.Wrong declarations (.danglingReference r.owner r.target)
  | wrongKind {found : ElementKind} : kindAt? declarations r.target = some found →
      found ≠ r.expected →
      r.Wrong declarations (.wrongReferenceKind r.owner r.target r.expected found)

/-- **The first thing that is wrong with declarations.**  Names come before references. -/
inductive Fault (declarations : List Declaration) : ModelError → Prop
  | repeatedName {before after : List Declaration} {d : Declaration} {id : DeclId} :
      declarations = before ++ d :: after → TypesDistinct before → d.kind = .type →
      IsTypeNamed before d.name id → Fault declarations (.duplicateType d.name)
  | wrongReference {before after : List Reference} {r : Reference} {e : ModelError} :
      TypesDistinct declarations → referencesFrom 0 declarations = before ++ r :: after →
      (∀ earlier ∈ before, earlier.Leads declarations) → r.Wrong declarations e →
      Fault declarations e

/-! ## The first failure of a check -/

theorem exists_split_cons_iff {α : Type} {P : List α → α → Prop} {first : α} {rest : List α} :
    (∃ before x after, first :: rest = before ++ x :: after ∧ P before x) ↔
      P [] first ∨ ∃ before x after, rest = before ++ x :: after ∧ P (first :: before) x := by
  constructor
  · rintro ⟨before, x, after, hxs, hP⟩
    cases before with
    | nil =>
      obtain ⟨rfl, -⟩ := List.cons.inj hxs
      exact Or.inl hP
    | cons y before =>
      obtain ⟨rfl, hr⟩ := List.cons.inj hxs
      exact Or.inr ⟨before, x, after, hr, hP⟩
  · rintro (hP | ⟨before, x, after, rfl, hP⟩)
    · exact ⟨[], first, rest, rfl, hP⟩
    · exact ⟨first :: before, x, after, rfl, hP⟩

theorem forM_append {α ε : Type} {f : α → Except ε Unit} (xs ys : List α) :
    (xs ++ ys).forM f = (xs.forM f).bind fun _ => ys.forM f := by
  induction xs with
  | nil => rfl
  | cons x rest ih =>
    rw [List.cons_append, forM_cons, forM_cons, ih]
    cases f x <;> rfl

/-- A check of a list fails where it fails first. -/
theorem forM_eq_error_iff {α ε : Type} {f : α → Except ε Unit} {xs : List α} {e : ε} :
    xs.forM f = .error e ↔
      ∃ before x after, xs = before ++ x :: after ∧ (∀ y ∈ before, f y = .ok ()) ∧
        f x = .error e := by
  induction xs with
  | nil => exact iff_of_false (fun h => by cases h) fun ⟨before, _, _, h, _⟩ => by simp at h
  | cons first rest ih =>
    rw [forM_cons, exists_split_cons_iff]
    cases hf : f first with
    | error found => simp [Except.bind, hf]
    | ok u =>
      rw [Except.bind, ih]
      simp [hf]

namespace Model

/-! ## Names -/

theorem mem_typeNames_iff {declarations : List Declaration} {name : String} :
    name ∈ typeNames declarations ↔ ∃ id, IsTypeNamed declarations name id := by
  rw [typeNames, List.mem_map]
  constructor
  · rintro ⟨d, hd, rfl⟩
    obtain ⟨hmem, ht⟩ := List.mem_filter.mp hd
    obtain ⟨i, hi⟩ := List.mem_iff_getElem?.mp hmem
    exact ⟨⟨i⟩, d, hi, of_decide_eq_true ht, rfl⟩
  · rintro ⟨id, d, hd, ht, rfl⟩
    exact ⟨d, List.mem_filter.mpr ⟨List.mem_of_getElem? hd, decide_eq_true ht⟩, rfl⟩

theorem nodup_typeNames_iff {declarations : List Declaration} :
    (typeNames declarations).Nodup ↔ TypesDistinct declarations := by
  rw [typeNames, List.Nodup, List.pairwise_map, List.pairwise_filter, List.pairwise_iff_getElem]
  simp only [Declaration.isType, decide_eq_true_eq]
  constructor
  · rintro hpair name ⟨i⟩ ⟨j⟩ ⟨d, hd, hdt, hdn⟩ ⟨e, he, het, hen⟩
    obtain ⟨hi, rfl⟩ := List.getElem?_eq_some_iff.mp hd
    obtain ⟨hj, rfl⟩ := List.getElem?_eq_some_iff.mp he
    rcases Nat.lt_trichotomy i j with hlt | rfl | hlt
    · exact absurd (hdn.trans hen.symm) (hpair i j hi hj hlt hdt het)
    · rfl
    · exact absurd (hen.trans hdn.symm) (hpair j i hj hi hlt het hdt)
  · intro hdistinct i j hi hj hlt hit hjt hname
    have hsame : (⟨i⟩ : DeclId) = ⟨j⟩ :=
      hdistinct _ ⟨i⟩ ⟨j⟩ ⟨_, List.getElem?_eq_getElem hi, hit, rfl⟩
        ⟨_, List.getElem?_eq_getElem hj, hjt, hname.symm⟩
    exact absurd (DeclId.mk.inj hsame) (Nat.ne_of_lt hlt)

theorem exists_indexTypes_iff_typesDistinct {declarations : List Declaration} :
    (∃ types, indexTypes 0 ∅ declarations = .ok types) ↔ TypesDistinct declarations := by
  rw [exists_indexTypes_iff, nodup_typeNames_iff]
  exact and_iff_left fun _ _ hn => by cases hn

/-- **The index refuses the first type whose name is taken.** -/
theorem indexTypes_eq_error_iff {declarations : List Declaration} {next : Nat}
    {index : Members DeclId} {e : ModelError} :
    indexTypes next index declarations = .error e ↔
      ∃ before d after, declarations = before ++ d :: after ∧
        (∃ types, indexTypes next index before = .ok types) ∧ d.isType = true ∧
        (d.name ∈ index.names ∨ d.name ∈ typeNames before) ∧ e = .duplicateType d.name := by
  induction declarations generalizing next index with
  | nil => exact iff_of_false (fun h => by cases h) fun ⟨before, _, _, h, _⟩ => by simp at h
  | cons first rest ih =>
    rw [exists_split_cons_iff]
    simp only [indexTypes, typeNames_cons]
    by_cases ht : first.isType = true
    · by_cases hc : first.name ∈ index.names
      · -- The first type is refused, so no list that goes on after it has an index.
        have htaken := Members.contains_eq_true_iff.mpr hc
        rw [if_pos ht, if_pos htaken]
        constructor
        · intro h
          exact Or.inl ⟨⟨index, rfl⟩, ht, Or.inl hc, (Except.error.inj h).symm⟩
        · rintro (⟨-, -, -, rfl⟩ | ⟨_, _, _, _, ⟨_, hok⟩, -⟩)
          · rfl
          · rw [if_pos ht, if_pos htaken] at hok
            cases hok
      · simp only [if_pos ht, if_neg (mt Members.contains_eq_true_iff.mp hc), ih,
          Members.mem_names_insert, List.mem_cons, or_assoc]
        constructor
        · exact Or.inr
        · rintro (⟨-, -, hmem | hmem, -⟩ | h)
          · exact absurd hmem hc
          · cases hmem
          · exact h
    · simp [ht, ih]

/-! ## References -/

variable {m : Model}

variable (m) in
def checkOne (r : Reference) : Except ModelError Unit :=
  m.checkReference r.owner (r.target, r.expected)

theorem kind?_eq_kindAt? (id : DeclId) : m.kind? id = kindAt? m.declarations.toList id := by
  rw [kind?, declaration?, kindAt?, Array.getElem?_toList]

theorem checkOne_eq_ok_iff {r : Reference} :
    m.checkOne r = .ok () ↔ r.Leads m.declarations.toList := by
  rw [checkOne, checkReference_eq_ok_iff, kind?_eq_kindAt?, Reference.Leads]

theorem checkOne_eq_error_iff {r : Reference} {e : ModelError} :
    m.checkOne r = .error e ↔ r.Wrong m.declarations.toList e := by
  rw [checkOne, checkReference, kind?_eq_kindAt?]
  constructor
  · intro h
    split at h
    · next hk =>
      cases h
      exact .dangling hk
    · next found hk =>
      split at h
      · cases h
      · next hne =>
        cases h
        exact .wrongKind hk hne
  · rintro (hk | ⟨hk, hne⟩)
    · rw [hk]
      rfl
    · rw [hk]
      exact if_neg hne

theorem forM_references (owner : DeclId) (d : Declaration) :
    d.references.forM (m.checkReference owner) = (d.slotReferences owner).forM m.checkOne := by
  have hslots : d.slotReferences owner = d.references.map fun r => ⟨owner, r.1, r.2⟩ := by
    rw [Declaration.references_eq_inSlot, List.map_flatMap]
    simp only [List.map_map]
    rfl
  rw [hslots]
  induction d.references with
  | nil => rfl
  | cons r rest ih =>
    rw [List.map_cons, forM_cons, forM_cons, ih]
    rfl

/-- What is checked for the declarations that begin at position `next` are their references, if it
is so for each of them. -/
theorem forM_positions {check : DeclId → Except ModelError Unit}
    (hcheck : ∀ owner d, m.declaration? owner = some d →
      check owner = (d.slotReferences owner).forM m.checkOne)
    {rest : List Declaration} {next : Nat} (hat : ∀ k, m.declaration? ⟨next + k⟩ = rest[k]?) :
    ((List.range' next rest.length).map DeclId.mk).forM check =
      (referencesFrom next rest).forM m.checkOne := by
  induction rest generalizing next with
  | nil => rfl
  | cons d rest ih =>
    have hd : m.declaration? ⟨next⟩ = some d := hat 0
    have hlater : ∀ k, m.declaration? ⟨next + 1 + k⟩ = rest[k]? := by
      intro k
      rw [Nat.add_assoc, Nat.add_comm 1 k, hat (k + 1), List.getElem?_cons_succ]
    rw [referencesFrom, forM_append, ← hcheck _ d hd, ← ih hlater, List.length_cons,
      List.range'_succ, List.map_cons, forM_cons]

theorem checkReferences_eq_forM :
    m.checkReferences = (referencesFrom 0 m.declarations.toList).forM m.checkOne := by
  have hids : m.ids = (List.range' 0 m.declarations.toList.length).map DeclId.mk := by
    rw [ids, size, List.range_eq_range', Array.length_toList]
  rw [checkReferences, hids]
  refine forM_positions (fun owner d hd => ?_) fun k => ?_
  · rw [hd]
    exact forM_references owner d
  · rw [Nat.zero_add, declaration?, Array.getElem?_toList]

theorem checkReferences_eq_ok_iff_inSlot :
    m.checkReferences = .ok () ↔ ∀ (owner : DeclId) (d : Declaration),
      m.declarations.toList[owner.index]? = some d → ∀ slot, ∀ target ∈ d.inSlot slot,
        kindAt? m.declarations.toList target = some slot.kind := by
  rw [checkReferences_eq_ok_iff]
  simp only [declaration?, kind?_eq_kindAt?, Array.getElem?_toList]
  refine forall₃_congr fun owner d _ => ?_
  rw [Declaration.references_eq_inSlot]
  constructor
  · intro hall slot target ht
    exact hall (target, slot.kind)
      (List.mem_flatMap.mpr ⟨slot, slot.mem_all, List.mem_map.mpr ⟨target, ht, rfl⟩⟩)
  · rintro hall reference hr
    obtain ⟨slot, -, hr⟩ := List.mem_flatMap.mp hr
    obtain ⟨target, ht, rfl⟩ := List.mem_map.mp hr
    exact hall slot target ht

/-! ## Loading -/

/-- **The declarations that load are the consistent ones.** -/
theorem exists_ofDeclarations_iff {declarations : List Declaration} :
    (∃ m, ofDeclarations declarations = .ok m) ↔ Consistent declarations := by
  constructor
  · rintro ⟨m, hm⟩
    obtain ⟨hindex, hd, hreferences⟩ := ofDeclarations_eq_ok_iff.mp hm
    refine ⟨exists_indexTypes_iff_typesDistinct.mp ⟨m.types, hindex⟩, ?_⟩
    simpa only [hd] using checkReferences_eq_ok_iff_inSlot.mp hreferences
  · rintro ⟨hdistinct, hlead⟩
    obtain ⟨types, hindex⟩ := exists_indexTypes_iff_typesDistinct.mpr hdistinct
    exact ⟨⟨declarations.toArray, types⟩,
      ofDeclarations_eq_ok_iff.mpr ⟨hindex, rfl, checkReferences_eq_ok_iff_inSlot.mpr hlead⟩⟩

/-- Declarations are refused for their names or, when these are in order, for a reference. -/
theorem ofDeclarations_eq_error_iff_or {declarations : List Declaration} {e : ModelError} :
    ofDeclarations declarations = .error e ↔
      indexTypes 0 ∅ declarations = .error e ∨
        ∃ types, indexTypes 0 ∅ declarations = .ok types ∧
          (⟨declarations.toArray, types⟩ : Model).checkReferences = .error e := by
  simp only [ofDeclarations, bind, Except.bind, pure, Except.pure]
  cases indexTypes 0 ∅ declarations with
  | error found => simp
  | ok types =>
    simp only [reduceCtorEq, Except.ok.injEq, exists_eq_left', false_or]
    cases (⟨declarations.toArray, types⟩ : Model).checkReferences <;> simp

/-- **Declarations that do not load are refused for their fault.** -/
theorem ofDeclarations_eq_error_iff {declarations : List Declaration} {e : ModelError} :
    ofDeclarations declarations = .error e ↔ Fault declarations e := by
  have hreferences : ∀ types, (⟨declarations.toArray, types⟩ : Model).checkReferences = .error e ↔
      ∃ before r after, referencesFrom 0 declarations = before ++ r :: after ∧
        (∀ earlier ∈ before, earlier.Leads declarations) ∧ r.Wrong declarations e := by
    intro types
    rw [checkReferences_eq_forM, forM_eq_error_iff]
    simp only [checkOne_eq_ok_iff, checkOne_eq_error_iff]
  rw [ofDeclarations_eq_error_iff_or, indexTypes_eq_error_iff]
  simp only [exists_indexTypes_iff_typesDistinct, mem_typeNames_iff, hreferences]
  constructor
  · rintro (⟨before, d, after, hsplit, hdistinct, ht, hname | ⟨id, hname⟩, rfl⟩ |
      ⟨types, hindex, before, r, after, hsplit, hlead, hwrong⟩)
    · cases hname
    · exact .repeatedName hsplit hdistinct (of_decide_eq_true ht) hname
    · exact .wrongReference (exists_indexTypes_iff_typesDistinct.mp ⟨types, hindex⟩) hsplit hlead
        hwrong
  · rintro (⟨hsplit, hdistinct, ht, hname⟩ | ⟨hdistinct, hsplit, hlead, hwrong⟩)
    · exact Or.inl ⟨_, _, _, hsplit, hdistinct, decide_eq_true ht, Or.inr ⟨_, hname⟩, rfl⟩
    · obtain ⟨types, hindex⟩ := exists_indexTypes_iff_typesDistinct.mpr hdistinct
      exact Or.inr ⟨types, hindex, _, _, _, hsplit, hlead, hwrong⟩

end Model

end AnnotationResolution
