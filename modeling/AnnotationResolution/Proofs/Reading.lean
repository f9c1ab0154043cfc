import AnnotationResolution.Reading

/-!
# How deep values are read

`readWithin` counts down the levels that are left.  Here an expression and a host value are converted
by two functions that call each other and count up the depth they have come to, and with the value
they give the depths at which they were called (`Conversion`).  A host value inside an expression is
converted at the depth of the expression; all other calls go one deeper.

`gives_convert` says that they give the value that is read with the levels that are left, and that no
call is deeper than the configuration allows.
-/

namespace AnnotationResolution

structure Conversion where
  value : Option Value
  /-- The depths at which something was converted, in order. -/
  depths : List Nat

namespace Conversion

/-- The result of a call that makes no other. -/
def only (depth : Nat) (value : Option Value) : Conversion := ⟨value, [depth]⟩

/-- The result of a call that passes on that of another one. -/
def under (depth : Nat) (inner : Conversion) : Conversion := ⟨inner.value, depth :: inner.depths⟩

/-- The conversion gives this value, and no call goes deeper than `limit`. -/
structure Gives (c : Conversion) (limit : Nat) (value : Option Value) : Prop where
  value_eq : c.value = value
  depth_le : ∀ depth ∈ c.depths, depth ≤ limit

variable {limit depth : Nat} {value : Option Value}

theorem gives_only (h : depth ≤ limit) (value : Option Value) : (only depth value).Gives limit value :=
  ⟨rfl, fun _ hd => List.mem_singleton.mp hd ▸ h⟩

theorem Gives.under {c : Conversion} (hc : c.Gives limit value) (h : depth ≤ limit) :
    (under depth c).Gives limit value :=
  ⟨hc.value_eq, List.forall_mem_cons.mpr ⟨h, hc.depth_le⟩⟩

end Conversion

namespace Environment

variable (env : Environment)

/-- The list of what the items are converted to. -/
def convertItems (depth : Nat) (member : Option DeclId) (items : List Conversion) : Conversion :=
  ⟨some (.list (env.model.listFor member (items.filterMap Conversion.value))),
    depth :: items.flatMap Conversion.depths⟩

/-- The annotation of what the members are converted to. -/
def convertAnnotation (convertMember : Option DeclId → Expr → Conversion) (depth : Nat)
    (member : Option DeclId) (inList : Bool) (a : AnnotationInstance) : Conversion :=
  let parts := a.members.entries.map fun (name, e) =>
    (name, convertMember (env.model.annotationMember? a.annotationType name) e)
  let nested : NestedAnnotation :=
    ⟨a.annotationType, Members.ofList (parts.filterMap fun (name, c) => c.value.map (name, ·))⟩
  ⟨some (env.model.wrapAnnotation member inList nested),
    depth :: parts.flatMap fun part => part.2.depths⟩

mutual

def convert (depth : Nat) (member : Option DeclId) (inList : Bool) (e : Expr) : Conversion :=
  if _h : env.config.maxValueDepth ≤ depth then .only depth none
  else
    match e with
    | .literal (.str s) => .only depth (some (.str s))
    | .literal (.int n) => .only depth (some (.int n))
    | .literal (.float x) => .only depth (some (.float x))
    | .literal (.bool b) => .only depth (some (.bool b))
    | .literal (.char c) => .only depth (some (.char c))
    | .literal .null => .only depth none
    | .nested a =>
      env.convertAnnotation (fun member e => convert (depth + 1) member false e) depth member inList a
    | .qualified owner name =>
      match env.model.constant? owner name with
      | none => .only depth none
      | some .enumName => .only depth (some (.str name))
      | some (.stored (.host host)) => .under depth (convertHost (depth + 1) none false host)
      | some (.stored (.expr e)) => .under depth (convert (depth + 1) none false e)
    | .typeLiteral ty => .only depth (some (.classRef ty.binaryName))
    | .list items =>
      env.convertItems depth member (items.map fun item => convert (depth + 1) member true item)
    | .variableRef _ none => .only depth none
    | .variableRef _ (some initializer) =>
      .under depth (convert (depth + 1) member inList initializer)
    | .value host => .under depth (convertHost depth member inList host)
    | .unsupported _ => .only depth none
termination_by (env.config.maxValueDepth - depth, 1)

def convertHost (depth : Nat) (member : Option DeclId) (inList : Bool) (host : HostValue) :
    Conversion :=
  if _h : env.config.maxValueDepth ≤ depth then .only depth none
  else
    match host with
    | .str s => .only depth (some (.str s))
    | .int n => .only depth (some (.int n))
    | .float x => .only depth (some (.float x))
    | .bool b => .only depth (some (.bool b))
    | .char c => .only depth (some (.char c))
    | .classOf ty => .only depth (some (.classRef ty.binaryName))
    | .enumConstant typeName constant => .only depth (some (.enumConstant typeName constant))
    | .nested a =>
      env.convertAnnotation (fun member e => convert (depth + 1) member false e) depth member inList a
    | .array items =>
      env.convertItems depth member (items.map fun item => convertHost (depth + 1) member true item)
termination_by (env.config.maxValueDepth - depth, 0)

end

/-! ## What is converted -/

variable {depth limit : Nat}

theorem gives_convertItems {α : Type} (member : Option DeclId) (h : depth ≤ limit) (items : List α)
    {c : α → Conversion} {read : α → Option Value} (hc : ∀ item, (c item).Gives limit (read item)) :
    (env.convertItems depth member (items.map c)).Gives limit
      (some (.list (env.model.listFor member (items.filterMap read)))) := by
  refine ⟨?_, List.forall_mem_cons.mpr ⟨h, fun d hd => ?_⟩⟩
  · rw [convertItems, List.filterMap_map]
    simp only [Function.comp_def, (hc _).value_eq]
  · obtain ⟨inner, hi, hd⟩ := List.mem_flatMap.mp hd
    obtain ⟨item, -, rfl⟩ := List.mem_map.mp hi
    exact (hc item).depth_le d hd

variable {env}

theorem gives_convertAnnotation (h : depth ≤ limit) {member : Option DeclId}
    {convertMember : Option DeclId → Expr → Conversion}
    {read : Option DeclId → RawValue → Option Value}
    (hc : ∀ member e, (convertMember member e).Gives limit (read member (.expr e)))
    (inList : Bool) (a : AnnotationInstance) :
    (env.convertAnnotation convertMember depth member inList a).Gives limit
      (some (env.model.wrapAnnotation member inList (env.model.nestedAnnotation read a))) := by
  refine ⟨?_, List.forall_mem_cons.mpr ⟨h, fun d hd => ?_⟩⟩
  · rw [Environment.convertAnnotation, Model.nestedAnnotation]
    dsimp only
    rw [List.filterMap_map]
    simp only [Function.comp_def, (hc _ _).value_eq]
  · obtain ⟨part, hp, hd⟩ := List.mem_flatMap.mp hd
    obtain ⟨⟨name, e⟩, -, rfl⟩ := List.mem_map.mp hp
    exact (hc _ e).depth_le d hd

/-- By induction on the levels that are left; a host value is converted before an expression that
holds it at the same depth. -/
theorem gives_convert {levels depth : Nat} (h : depth + levels = env.config.maxValueDepth) :
    (∀ member inList host, (env.convertHost depth member inList host).Gives
      env.config.maxValueDepth (env.model.readWithin levels member inList (.host host))) ∧
    ∀ member inList e, (env.convert depth member inList e).Gives
      env.config.maxValueDepth (env.model.readWithin levels member inList (.expr e)) := by
  induction levels generalizing depth with
  | zero =>
    have hle : env.config.maxValueDepth ≤ depth := by omega
    refine ⟨fun member inList host => ?_, fun member inList e => ?_⟩
    · rw [convertHost.eq_def, dif_pos hle]
      exact Conversion.gives_only (by omega) none
    · rw [convert.eq_def, dif_pos hle]
      exact Conversion.gives_only (by omega) none
  | succ levels ih =>
    have hlt : ¬ env.config.maxValueDepth ≤ depth := by omega
    have hle : depth ≤ env.config.maxValueDepth := by omega
    obtain ⟨ihHost, ihExpr⟩ := @ih (depth + 1) (by omega)
    have hhost : ∀ member inList host, (env.convertHost depth member inList host).Gives
        env.config.maxValueDepth (env.model.readWithin (levels + 1) member inList (.host host)) := by
      intro member inList host
      rw [convertHost.eq_def, dif_neg hlt, Model.readWithin]
      cases host with
      | nested a => exact gives_convertAnnotation hle (fun member e => ihExpr member false e) inList a
      | array items =>
        have hitems := gives_convertItems env member hle items
          fun item => ihHost member true item
        simp only [RawValue.shape, HostValue.shape, List.filterMap_map]
        exact hitems
      | str _ | int _ | float _ | bool _ | char _ | classOf _ | enumConstant _ _ =>
        exact Conversion.gives_only hle _
    refine ⟨hhost, fun member inList e => ?_⟩
    rw [convert.eq_def, dif_neg hlt]
    cases e with
    | value host => exact (hhost member inList host).under hle
    | literal constant => cases constant <;> exact Conversion.gives_only hle _
    | nested a => exact gives_convertAnnotation hle (fun member e => ihExpr member false e) inList a
    | list items =>
      have hitems := gives_convertItems env member hle items
        fun item => ihExpr member true item
      rw [Model.readWithin]
      simp only [RawValue.shape, Expr.shape, List.filterMap_map]
      exact hitems
    | variableRef name initializer =>
      cases initializer with
      | none => exact Conversion.gives_only hle _
      | some initializer => exact (ihExpr member inList initializer).under hle
    | qualified owner name =>
      rw [Model.readWithin]
      simp only [RawValue.shape, Expr.shape]
      cases env.model.constant? owner name with
      | none => exact Conversion.gives_only hle none
      | some constant =>
        cases constant with
        | enumName => exact Conversion.gives_only hle _
        | stored raw =>
          cases raw with
          | host host => exact (ihHost none false host).under hle
          | expr e => exact (ihExpr none false e).under hle
    | typeLiteral ty | unsupported source => exact Conversion.gives_only hle _

/-- At any depth an expression is read with the levels that are left there. -/
theorem value_convert (depth : Nat) (member : Option DeclId) (inList : Bool) (e : Expr) :
    (env.convert depth member inList e).value =
      env.model.readWithin (env.config.maxValueDepth - depth) member inList (.expr e) := by
  by_cases h : env.config.maxValueDepth ≤ depth
  · rw [convert.eq_def, dif_pos h, Nat.sub_eq_zero_of_le h]
    rfl
  · exact ((gives_convert (by omega)).2 member inList e).value_eq

theorem value_convertHost (depth : Nat) (member : Option DeclId) (inList : Bool)
    (host : HostValue) :
    (env.convertHost depth member inList host).value =
      env.model.readWithin (env.config.maxValueDepth - depth) member inList (.host host) := by
  by_cases h : env.config.maxValueDepth ≤ depth
  · rw [convertHost.eq_def, dif_pos h, Nat.sub_eq_zero_of_le h]
    rfl
  · exact ((gives_convert (by omega)).1 member inList host).value_eq

/-- **What is read is what these functions convert, and they never go past the configured depth.** -/
theorem gives_convert_zero (member : Option DeclId) (e : Expr) :
    (env.convert 0 member false e).Gives env.config.maxValueDepth
      (env.readValue member (.expr e)) :=
  (gives_convert (Nat.zero_add _)).2 member false e

theorem gives_convertHost_zero (member : Option DeclId) (host : HostValue) :
    (env.convertHost 0 member false host).Gives env.config.maxValueDepth
      (env.readValue member (.host host)) :=
  (gives_convert (Nat.zero_add _)).1 member false host

end Environment

end AnnotationResolution
