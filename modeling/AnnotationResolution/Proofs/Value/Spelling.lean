import Mathlib.Data.List.Basic
import AnnotationResolution.Defaults
import AnnotationResolution.Proofs.Reading

/-!
# Two ways to write a value

What a compiled declaration holds as a host value, a source file has as an expression
(`HostValue.source`).  Both are read alike, at every depth and in every place, as long as no
constant of an enum stands in the value: a host value gives such a constant with its type, and in an
expression it is a name to be looked up.  The members of an annotation are expressions in either
form and may be anything.

* `Model.readWithin_source`: the two forms of a value have one reading.
* `Model.readWithin_literal`: that of a literal depends neither on the model nor on the member.
* `spelling_irrelevant`: so a compiled annotation type and one known from its source have the same
  defaults if they say the same.
-/

namespace AnnotationResolution

/-! ## Host values as expressions -/

mutual

/-- The expression for a value in a source file. -/
def HostValue.source : HostValue → Expr
  | .str s => .literal (.str s)
  | .int n => .literal (.int n)
  | .float x => .literal (.float x)
  | .bool b => .literal (.bool b)
  | .char c => .literal (.char c)
  | .classOf ty => .typeLiteral ty
  | .enumConstant typeName constant => .qualified typeName constant
  | .nested a => .nested a
  | .array items => .list (HostValue.sources items)

def HostValue.sources : List HostValue → List Expr
  | [] => []
  | host :: rest => host.source :: HostValue.sources rest

end

mutual

/-- A constant of an enum stands in the value, outside of annotations. -/
def HostValue.hasEnum : HostValue → Bool
  | .enumConstant _ _ => true
  | .array items => HostValue.anyHasEnum items
  | .str _ | .int _ | .float _ | .bool _ | .char _ | .classOf _ | .nested _ => false

def HostValue.anyHasEnum : List HostValue → Bool
  | [] => false
  | host :: rest => host.hasEnum || HostValue.anyHasEnum rest

end

namespace HostValue

theorem sources_eq_map (items : List HostValue) : sources items = items.map source := by
  induction items with
  | nil => rfl
  | cons host rest ih => rw [sources, ih, List.map_cons]

theorem anyHasEnum_eq_any (items : List HostValue) : anyHasEnum items = items.any hasEnum := by
  induction items with
  | nil => rfl
  | cons host rest ih => rw [anyHasEnum, ih, List.any_cons]

theorem hasEnum_of_source_eq_literal {host : HostValue} {constant : Literal}
    (h : host.source = .literal constant) : host.hasEnum = false := by
  cases host with
  | enumConstant typeName name => cases h
  | array items => cases h
  | _ => rfl

end HostValue

/-! ## How they are read -/

namespace Model

variable {m : Model}

theorem readWithin_value (levels : Nat) (member : Option DeclId) (inList : Bool)
    (host : HostValue) :
    m.readWithin levels member inList (.expr (.value host)) =
      m.readWithin levels member inList (.host host) := by
  cases levels <;> rfl

/-- **A host value and its source are read alike.**  By induction on the levels: one level down,
each item of an array is read as its source is. -/
theorem readWithin_source {host : HostValue} (hn : host.hasEnum = false) (levels : Nat)
    (member : Option DeclId) (inList : Bool) :
    m.readWithin levels member inList (.expr host.source) =
      m.readWithin levels member inList (.host host) := by
  induction levels generalizing member inList host with
  | zero => rfl
  | succ levels ih =>
    cases host with
    | array items =>
      rw [HostValue.hasEnum, HostValue.anyHasEnum_eq_any, List.any_eq_false] at hn
      have hitems :
          items.filterMap (fun host => m.readWithin levels member true (.expr host.source)) =
            items.filterMap fun host => m.readWithin levels member true (.host host) :=
        List.filterMap_congr fun host hh => ih (Bool.eq_false_iff.mpr (hn host hh)) member true
      rw [HostValue.source, HostValue.sources_eq_map, readWithin, readWithin]
      simp only [RawValue.shape, Expr.shape, HostValue.shape, List.filterMap_map, List.map_map,
        Function.comp_def, hitems]
    | enumConstant typeName constant => cases hn
    | _ => rfl

/-- A literal means the same everywhere. -/
theorem readWithin_literal (m' : Model) (levels : Nat) (member member' : Option DeclId)
    (inList : Bool) (constant : Literal) :
    m.readWithin levels member inList (.expr (.literal constant)) =
      m'.readWithin levels member' inList (.expr (.literal constant)) := by
  cases levels with
  | zero => rfl
  | succ levels => cases constant <;> rfl

end Model

/-! ## Defaults -/

/-- A compiled member and a body of one statement give the same default, or neither gives any. -/
inductive SameDefault : Option HostValue → List Statement → Prop
  | absent {body : List Statement} : literalBody? body = none → SameDefault none body
  | returned {host : HostValue} {constant : Literal} : host.source = .literal constant →
      SameDefault (some host) [.returned (some (.literal constant))]
  | expression {host : HostValue} {constant : Literal} : host.source = .literal constant →
      SameDefault (some host) [.expression (.literal constant)]

/-- Members of the same name with the same default, the first one of a compiled type. -/
def SameMember (m m' : Model) (member member' : DeclId) : Prop :=
  ∃ d d' info info', m.declaration? member = some d ∧ m'.declaration? member' = some d' ∧
    d.methodInfo? = some info ∧ d'.methodInfo? = some info' ∧ d.name = d'.name ∧
    SameDefault info.defaultValue info'.defaultBody

/-- A compiled annotation type and one known from its source, with the same members one by one. -/
def SameMembers (m m' : Model) (compiled fromSource : DeclId) : Prop :=
  ∃ info info', m.typeInfo? compiled = some info ∧ info.resolved = true ∧
    m'.typeInfo? fromSource = some info' ∧ info'.resolved = false ∧
    List.Forall₂ (SameMember m m') info.methods info'.methods

namespace Environment

variable {env env' : Environment}

theorem readValue_source (hc : env.config = env'.config) {host : HostValue} {constant : Literal}
    (h : host.source = .literal constant) (member member' : Option DeclId) :
    env.readValue member (.host host) = env'.readValue member' (.expr (.literal constant)) := by
  have hn := HostValue.hasEnum_of_source_eq_literal h
  calc env.readValue member (.host host)
      = env.readValue member (.expr host.source) := (Model.readWithin_source hn _ member false).symm
    _ = env.readValue member (.expr (.literal constant)) := by rw [h]
    _ = env'.readValue member' (.expr (.literal constant)) := by
      rw [readValue, readValue, hc]
      exact Model.readWithin_literal env'.model _ member member' false constant

theorem bind_readValue_eq_of_sameDefault (hc : env.config = env'.config)
    {defaultValue : Option HostValue} {body : List Statement} (h : SameDefault defaultValue body)
    (member member' : Option DeclId) :
    (defaultValue.map RawValue.host).bind (env.readValue member) =
      ((literalBody? body).map RawValue.expr).bind (env'.readValue member') := by
  cases h with
  | absent hb =>
    rw [hb]
    rfl
  | returned hs => exact readValue_source hc hs member member'
  | expression hs => exact readValue_source hc hs member member'

theorem memberDefault?_eq_of_sameDefault (hc : env.config = env'.config) {info info' : MethodInfo}
    (h : SameDefault info.defaultValue info'.defaultBody) (member member' : DeclId) :
    env.memberDefault? true member info = env'.memberDefault? false member' info' := by
  rw [memberDefault?, memberDefault?]
  exact congrArg _ (bind_readValue_eq_of_sameDefault hc h (some member) (some member'))

theorem filterMap_eq_of_forall₂ {α β γ : Type} {R : α → β → Prop} {f : α → Option γ}
    {g : β → Option γ} {xs : List α} {ys : List β} (h : List.Forall₂ R xs ys)
    (hfg : ∀ x y, R x y → f x = g y) : xs.filterMap f = ys.filterMap g := by
  induction h with
  | nil => rfl
  | cons hxy _ ih => rw [List.filterMap_cons, List.filterMap_cons, hfg _ _ hxy, ih]

theorem defaultValues_eq_of_sameMembers (hc : env.config = env'.config)
    {compiled fromSource : DeclId} (h : SameMembers env.model env'.model compiled fromSource) :
    env.defaultValues compiled = env'.defaultValues fromSource := by
  obtain ⟨info, info', hi, hresolved, hi', hsource, hmembers⟩ := h
  rw [defaultValues, defaultValues, hi, hi']
  refine congrArg Members.ofList (filterMap_eq_of_forall₂ hmembers fun member member' hsame => ?_)
  obtain ⟨d, d', method, method', hd, hd', hm, hm', hname, hdefault⟩ := hsame
  simp only [hd, hd', hm, hm', hresolved, hsource, hname, bind, Option.bind_some,
    memberDefault?_eq_of_sameDefault hc hdefault member member']

variable (env) in
/-- **How a value is spelled makes no difference.**  An expression that holds a host value, the
value itself and, without constants of enums, its source are converted to the same at every depth,
and it is what is read with the levels that are left.  So the defaults of a compiled annotation type
are those of a type known from its source that says the same. -/
theorem spelling_irrelevant :
    (∀ depth member inList host,
      (env.convert depth member inList (.value host)).value =
          (env.convertHost depth member inList host).value ∧
        (host.hasEnum = false → (env.convert depth member inList host.source).value =
          (env.convertHost depth member inList host).value) ∧
        (env.convertHost depth member inList host).value =
          env.model.readWithin (env.config.maxValueDepth - depth) member inList (.host host)) ∧
    ∀ (m : Model) compiled fromSource, SameMembers env.model m compiled fromSource →
      env.defaultValues compiled = (⟨m, env.config⟩ : Environment).defaultValues fromSource := by
  constructor
  · intro depth member inList host
    refine ⟨?_, fun hn => ?_, value_convertHost depth member inList host⟩
    · rw [value_convert, value_convertHost, Model.readWithin_value]
    · rw [value_convert, value_convertHost, Model.readWithin_source hn]
  · intro m compiled fromSource h
    have hc : env.config = (⟨m, env.config⟩ : Environment).config := rfl
    exact defaultValues_eq_of_sameMembers hc h

/-- Two annotation types that say the same, the second one known from its source. -/
def retryModel : Model :=
  { declarations := #[
      ⟨"a.Retry", none, [], .type
        { kind := .annotationType, methods := [⟨1⟩, ⟨2⟩], resolved := true }⟩,
      ⟨"attempts", some ⟨0⟩, [], .method { defaultValue := some (.int 3) }⟩,
      ⟨"on", some ⟨0⟩, [], .method {}⟩,
      ⟨"b.Retry", none, [], .type { kind := .annotationType, methods := [⟨4⟩, ⟨5⟩] }⟩,
      ⟨"attempts", some ⟨3⟩, [], .method { defaultBody := [.returned (some (.literal (.int 3)))] }⟩,
      ⟨"on", some ⟨3⟩, [], .method {}⟩]
    types := ⟨[("a.Retry", ⟨0⟩), ("b.Retry", ⟨3⟩)]⟩ }

theorem sameMembers_retryModel : SameMembers retryModel retryModel ⟨0⟩ ⟨3⟩ :=
  ⟨_, _, rfl, rfl, rfl, rfl, .cons ⟨_, _, _, _, rfl, rfl, rfl, rfl, rfl, .returned rfl⟩
    (.cons ⟨_, _, _, _, rfl, rfl, rfl, rfl, rfl, .absent rfl⟩ .nil)⟩

theorem spelling_irrelevant_retryModel :
    (HostValue.array [.int 1, .array [.classOf .void]]).hasEnum = false ∧
      ((⟨retryModel, {}⟩ : Environment).convert 31 none false
          (.list [.literal (.int 1), .list [.typeLiteral .void]])).value =
        ((⟨retryModel, {}⟩ : Environment).convertHost 31 none false
          (.array [.int 1, .array [.classOf .void]])).value ∧
      (⟨retryModel, {}⟩ : Environment).defaultValues ⟨0⟩ =
        (⟨retryModel, {}⟩ : Environment).defaultValues ⟨3⟩ := by
  refine ⟨by decide, ?_, ?_⟩
  · exact ((spelling_irrelevant ⟨retryModel, {}⟩).1 31 none false
      (.array [.int 1, .array [.classOf .void]])).2.1 (by decide)
  · exact (spelling_irrelevant ⟨retryModel, {}⟩).2 retryModel ⟨0⟩ ⟨3⟩ sameMembers_retryModel

end Environment

end AnnotationResolution
