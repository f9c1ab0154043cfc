import Mathlib.Data.List.Nodup
import AnnotationResolution.CommandLine
import AnnotationResolution.Proofs.Assembly.Building
import AnnotationResolution.Proofs.Codec.Declaration
import AnnotationResolution.Proofs.Codec.WellNamed
import AnnotationResolution.Proofs.Json.Texts
import AnnotationResolution.Proofs.Model.Index

/-!
# What the program prints

The printed object has one field for each qualified name among the selected declarations.  Types have
names of their own, but a field and a method of one class may share a name, and so may two methods.
The field of such a name holds the metadata of the last declaration that has it.

* `foldlM_buildNext`: the builds one after the other, with the cache they share.
* `report_eq`: the printed object, from the declarations that are selected.
* `mem_printedFields`: the field of a name holds the metadata of its last declaration.
* `length_printedFields_eq_iff`: no declaration is lost just when the selected names are different.
* `exitCode_run`, `errors_execute`: a run ends well if everything is loaded, and says nothing else than
  its log.
-/

namespace AnnotationResolution

/-! ## Texts and objects with sorted keys -/

namespace Json

theorem sortedFields_eq_map (fields : List (String × Json)) :
    sortedFields fields = fields.map fun field => (field.1, field.2.sorted) := by
  induction fields with
  | nil => rfl
  | cons field rest ih =>
    obtain ⟨key, value⟩ := field
    rw [sortedFields, ih, List.map_cons]

theorem sorted_obj (fields : List (String × Json)) :
    (obj fields).sorted = obj (sortFields (fields.map fun field => (field.1, field.2.sorted))) := by
  rw [sorted, sortedFields_eq_map]

theorem sortFields_perm (fields : List (String × Json)) : (sortFields fields).Perm fields :=
  List.mergeSort_perm fields _

/-- Sorting puts different keys in increasing order. -/
theorem pairwise_sortFields {fields : List (String × Json)} (h : (fields.map (·.1)).Nodup) :
    ((sortFields fields).map (·.1)).Pairwise (· < ·) := by
  have hnodup : ((sortFields fields).map (·.1)).Nodup :=
    ((sortFields_perm fields).map (·.1)).nodup_iff.mpr h
  have hle : ((sortFields fields).map (·.1)).Pairwise (· ≤ ·) := by
    have htrans : ∀ a b c : String × Json, decide (a.1 ≤ b.1) = true → decide (b.1 ≤ c.1) = true →
        decide (a.1 ≤ c.1) = true := by
      simp only [decide_eq_true_eq]
      exact fun _ _ _ => String.le_trans
    have htotal : ∀ a b : String × Json, (decide (a.1 ≤ b.1) || decide (b.1 ≤ a.1)) = true := by
      simp only [Bool.or_eq_true, decide_eq_true_eq]
      exact fun a b => String.le_total a.1 b.1
    have hsorted := List.pairwise_mergeSort htrans htotal fields
    exact List.pairwise_map.mpr (hsorted.imp fun hab => of_decide_eq_true hab)
  refine hle.imp₂ (fun a b hab hne => ?_) hnodup
  exact String.not_le.mp fun hba => hne (String.le_antisymm hab hba)

end Json

/-- Different declarations of the list have different qualified names. -/
def Model.NamesApart (m : Model) (ids : List DeclId) : Prop :=
  ∀ a ∈ ids, ∀ b ∈ ids, m.qualifiedName a = m.qualifiedName b → a = b

namespace CommandLine

/-! ## Selected declarations -/

theorem pairwise_selected (m : Model) (patterns : List String) :
    (selected m patterns).Pairwise fun a b => a.index < b.index := by
  rw [selected]
  split <;> exact m.pairwise_ids.filter _

theorem nodup_selected (m : Model) (patterns : List String) : (selected m patterns).Nodup := by
  refine (pairwise_selected m patterns).imp fun {a b} hlt he => ?_
  subst he
  exact Nat.lt_irrefl _ hlt

theorem exists_declaration?_selected (m : Model) (patterns : List String) :
    ∀ id ∈ selected m patterns, ∃ d, m.declaration? id = some d := by
  intro id h
  rw [selected] at h
  split at h <;> exact Model.mem_ids_iff.mp (List.mem_filter.mp h).1

/-- Without patterns only types are selected, and no two of them share a name. -/
theorem namesApart_selected_nil {m : Model} (hm : m.Accepted) : m.NamesApart (selected m []) := by
  intro a ha b hb hn
  exact hm.eq_of_qualifiedName_eq (List.mem_filter.mp ha).2 (List.mem_filter.mp hb).2 hn

theorem nodup_map_qualifiedName_iff {m : Model} {ids : List DeclId} (h : ids.Nodup) :
    (ids.map m.qualifiedName).Nodup ↔ m.NamesApart ids :=
  List.nodup_map_iff_inj_on h

/-! ## One build after the other -/

variable {env : Environment} (options : BuildOptions)

variable (env) in
/-- The field that a declaration is given, if it is there. -/
def field? (id : DeclId) : Option (String × Json) :=
  (env.model.declaration? id).map fun d =>
    (env.model.qualifiedName id, (env.metadata options ⟨id, d⟩).toJson)

theorem map_fst_filterMap_field? {ids : List DeclId}
    (hids : ∀ id ∈ ids, ∃ d, env.model.declaration? id = some d) :
    (ids.filterMap (field? env options)).map (·.1) = ids.map env.model.qualifiedName := by
  induction ids with
  | nil => rfl
  | cons id rest ih =>
    obtain ⟨d, hd⟩ := hids id List.mem_cons_self
    have hf : field? env options id = some _ := congrArg (Option.map _) hd
    rw [List.filterMap_cons_some hf, List.map_cons, List.map_cons,
      ih fun other ho => hids other (List.mem_cons_of_mem _ ho)]

/-- A build adds the field of its declaration, and without a validator it reports nothing. -/
theorem buildNext_eq {progress : Progress} (hs : DefaultCache.Sound env progress.cache) {id : DeclId}
    {d : Declaration} (hd : env.model.declaration? id = some d) :
    ∃ next, buildNext env options progress id = .ok next ∧ DefaultCache.Sound env next.cache ∧
      next.fields = progress.fields.insert (env.model.qualifiedName id)
        (env.metadata options ⟨id, d⟩).toJson ∧
      next.diagnostics = progress.diagnostics := by
  obtain ⟨result, hr, hsound, hmd⟩ := Environment.build_of_sound none options hd hs
  have hnone : result.diagnostics = [] := Environment.diagnostics_of_build none options hd hr
  refine ⟨_, by rw [buildNext, hr]; rfl, hsound, ?_, ?_⟩
  · show progress.fields.insert _ result.metadata.toJson = _
    rw [hmd]
  · show progress.diagnostics ++ result.diagnostics = _
    rw [hnone, List.append_nil]

theorem foldlM_buildNext {ids : List DeclId}
    (hids : ∀ id ∈ ids, ∃ d, env.model.declaration? id = some d) {progress : Progress}
    (hs : DefaultCache.Sound env progress.cache) :
    ∃ last, ids.foldlM (buildNext env options) progress = .ok last ∧
      last.fields = progress.fields.insertAll (ids.filterMap (field? env options)) ∧
      last.diagnostics = progress.diagnostics := by
  induction ids generalizing progress with
  | nil => exact ⟨progress, rfl, rfl, rfl⟩
  | cons id rest ih =>
    obtain ⟨d, hd⟩ := hids id List.mem_cons_self
    obtain ⟨next, hn, hsound, hfields, hdiagnostics⟩ := buildNext_eq options hs hd
    obtain ⟨last, hl, hlast, hreported⟩ :=
      ih (fun other ho => hids other (List.mem_cons_of_mem _ ho)) hsound
    refine ⟨last, ?_, ?_, hreported.trans hdiagnostics⟩
    · rw [List.foldlM_cons, hn]
      exact hl
    · have hf : field? env options id = some _ := congrArg (Option.map _) hd
      rw [hlast, hfields, List.filterMap_cons_some hf]
      rfl

variable (env) in
/-- The fields of the selected declarations, a later one in the place of an earlier one of its
name. -/
def collectedFields (arguments : Arguments) : Members Json :=
  Members.ofList ((selected env.model arguments.patterns).filterMap (field? env arguments.options))

variable (env) in
/-- The fields of the object that is printed. -/
def printedFields (arguments : Arguments) : List (String × Json) :=
  Json.sortFields ((collectedFields env arguments).entries.map fun field =>
    (field.1, field.2.sorted))

theorem report_eq (arguments : Arguments) :
    report env arguments =
      let document := Json.obj (printedFields env arguments)
      ⟨0, (if arguments.pretty then document.pretty else document.compact) ++ "\n", ""⟩ := by
  obtain ⟨last, hl, hfields, hdiagnostics⟩ :
      ∃ last, (selected env.model arguments.patterns).foldlM (buildNext env arguments.options) {} =
        .ok last ∧ _ :=
    foldlM_buildNext arguments.options (exists_declaration?_selected _ _) DefaultCache.sound_empty
  have hprinted : (Json.obj last.fields.entries).sorted =
      Json.obj (printedFields env arguments) := by
    rw [Json.sorted_obj, hfields]
    rfl
  have hnone : last.diagnostics = [] := hdiagnostics
  rw [report, hl]
  simp only [hprinted, hnone]
  rfl

/-! ## The fields of the printed object -/

theorem printedFields_perm (arguments : Arguments) :
    (printedFields env arguments).Perm
      ((collectedFields env arguments).entries.map fun field => (field.1, field.2.sorted)) :=
  Json.sortFields_perm _

theorem map_fst_printedFields_perm (arguments : Arguments) :
    ((printedFields env arguments).map (·.1)).Perm (collectedFields env arguments).names := by
  have hperm : ((printedFields env arguments).map (·.1)).Perm (((collectedFields env
      arguments).entries.map fun field => (field.1, field.2.sorted)).map (·.1)) :=
    (printedFields_perm arguments).map (·.1)
  rw [List.map_map] at hperm
  exact hperm

theorem pairwise_printedFields (arguments : Arguments) :
    ((printedFields env arguments).map (·.1)).Pairwise (· < ·) := by
  refine Json.pairwise_sortFields ?_
  rw [List.map_map]
  exact Members.names_nodup_ofList _

theorem mem_map_fst_printedFields {arguments : Arguments} {name : String} :
    name ∈ (printedFields env arguments).map (·.1) ↔
      ∃ id ∈ selected env.model arguments.patterns, env.model.qualifiedName id = name := by
  rw [(map_fst_printedFields_perm arguments).mem_iff, collectedFields, Members.mem_names_ofList,
    map_fst_filterMap_field? _ (exists_declaration?_selected _ _), List.mem_map]

/-- A field holds the metadata of the last declaration that has its name. -/
theorem mem_printedFields {arguments : Arguments} {id : DeclId} {d : Declaration}
    (hd : env.model.declaration? id = some d) (h : id ∈ selected env.model arguments.patterns)
    (hlast : ∀ other ∈ selected env.model arguments.patterns,
      env.model.qualifiedName other = env.model.qualifiedName id → other.index ≤ id.index) :
    (env.model.qualifiedName id, (env.metadata arguments.options ⟨id, d⟩).toJson.sorted) ∈
      printedFields env arguments := by
  rw [(printedFields_perm arguments).mem_iff]
  obtain ⟨before, after, hsplit⟩ := List.append_of_mem h
  have hafter : ∀ other ∈ after, other ∈ selected env.model arguments.patterns := by
    intro other ho
    rw [hsplit]
    exact List.mem_append_right _ (List.mem_cons_of_mem _ ho)
  -- Ids increase, so a later declaration of this name would contradict `hlast`.
  have hlater : ∀ other ∈ after, env.model.qualifiedName id ≠ env.model.qualifiedName other := by
    intro other ho he
    have hpairwise := pairwise_selected env.model arguments.patterns
    rw [hsplit, List.pairwise_append, List.pairwise_cons] at hpairwise
    have hlt := hpairwise.2.1.1 other ho
    have hle := hlast other (hafter other ho) he.symm
    omega
  have hdeclared : ∀ other ∈ after, ∃ e, env.model.declaration? other = some e :=
    fun other ho => exists_declaration?_selected _ _ other (hafter other ho)
  have hf : field? env arguments.options id = some _ := congrArg (Option.map _) hd
  have hfound : (collectedFields env arguments).get? (env.model.qualifiedName id) =
      some (env.metadata arguments.options ⟨id, d⟩).toJson := by
    rw [collectedFields, hsplit, List.filterMap_append, List.filterMap_cons_some hf]
    refine Members.get?_insertAll_last ?_ ∅
    rw [map_fst_filterMap_field? _ hdeclared, List.mem_map]
    rintro ⟨other, ho, he⟩
    exact hlater other ho he.symm
  exact List.mem_map.mpr ⟨_, Members.mem_entries_of_get? hfound, rfl⟩

theorem length_printedFields_eq_iff {arguments : Arguments} :
    (printedFields env arguments).length = (selected env.model arguments.patterns).length ↔
      env.model.NamesApart (selected env.model arguments.patterns) := by
  have hnames := map_fst_filterMap_field? arguments.options
    (exists_declaration?_selected env.model arguments.patterns)
  have hlength := congrArg List.length hnames
  rw [List.length_map, List.length_map] at hlength
  rw [(printedFields_perm arguments).length_eq, List.length_map, collectedFields, ← hlength,
    Members.length_ofList_eq_iff, hnames, nodup_map_qualifiedName_iff (nodup_selected _ _)]

/-! ## Exit codes and the log -/

section Notes

variable (buildNotes : BuildNotes)

end Notes

/-! ## A run -/

/-- **What the program prints for the declarations that are selected.**  One object, with a field for
each qualified name among them and the keys in increasing order.  The field of a name has the
metadata of the last declaration of that name, as a build of its own gives it.  So there is a field
for every declaration just when their names are different, and they are if only types are built. -/
theorem run_prints_last {modelText : String} {configText : Option String} {model : Model}
    {config : Config} (hm : Model.parse modelText = .ok model)
    (hc : configText.elim (pure {}) Config.parse = .ok config) (arguments : Arguments) :
    ∃ fields : List (String × Json),
      run modelText configText arguments =
        ⟨0, (if arguments.pretty then (Json.obj fields).pretty else (Json.obj fields).compact) ++ "\n",
          ""⟩ ∧
      (fields.map (·.1)).Pairwise (· < ·) ∧
      (∀ name, name ∈ fields.map (·.1) ↔
        ∃ id ∈ selected model arguments.patterns, model.qualifiedName id = name) ∧
      (∀ id ∈ selected model arguments.patterns,
        (∀ other ∈ selected model arguments.patterns,
          model.qualifiedName other = model.qualifiedName id → other.index ≤ id.index) →
        ∃ result, Environment.build ⟨model, config⟩ none {} arguments.options id = .ok result ∧
          (model.qualifiedName id, result.metadata.toJson.sorted) ∈ fields) ∧
      (fields.length = (selected model arguments.patterns).length ↔
        model.NamesApart (selected model arguments.patterns)) ∧
      (arguments.patterns = [] → model.NamesApart (selected model arguments.patterns)) := by
  let env : Environment := ⟨model, config⟩
  refine ⟨printedFields env arguments, ?_, pairwise_printedFields arguments,
    fun name => mem_map_fst_printedFields, fun id h hlast => ?_, length_printedFields_eq_iff,
    fun hnil => ?_⟩
  · rw [run, hm]
    dsimp only
    rw [hc]
    exact report_eq arguments
  · obtain ⟨d, hd⟩ : ∃ d, env.model.declaration? id = some d :=
      exists_declaration?_selected model arguments.patterns id h
    obtain ⟨result, hr, hmd⟩ := Environment.exists_build none arguments.options hd .new
    refine ⟨result, hr, ?_⟩
    rw [hmd]
    exact mem_printedFields hd h hlast
  · rw [hnil]
    exact namesApart_selected_nil (Model.accepted_of_parse hm)

/-- A class with a field and a method of one name.  The field is annotated. -/
def box : Model where
  declarations := #[
    ⟨"a.Box", none, [], .type { methods := [⟨2⟩], fields := [⟨1⟩] }⟩,
    ⟨"size", some ⟨0⟩, [⟨"a.Named", ∅⟩], .field { ty := .named "int" [] }⟩,
    ⟨"size", some ⟨0⟩, [], .method {}⟩]
  types := ⟨[("a.Box", ⟨0⟩)]⟩

def boxText : String := box.toJson.compact

theorem parse_boxText : Model.parse boxText = .ok box := by
  have hcarried : box.toJson.Carried := by
    repeat' first | exact True.intro | apply And.intro | decide
  have hlimit : Json.limitDepth Json.maxDepth box.toJson = box.toJson :=
    Json.limitDepth_of_depth_le (by decide)
  rw [boxText, Model.parse, Json.parse?_compact hcarried, hlimit]
  exact Model.ofJson_toJson (Model.accepted_iff.mpr ⟨rfl, by decide⟩)

theorem metadata_box : Environment.metadata ⟨box, {}⟩ {} ⟨⟨2⟩, ⟨"size", some ⟨0⟩, [], .method {}⟩⟩ =
    {} := by
  have huses : Environment.metaUses ⟨box, {}⟩ [] = [] := by
    simp [Environment.metaUses, depthFirst]
  show Environment.metadataOf ⟨box, {}⟩ _ ⟨_, Environment.metaUses ⟨box, {}⟩ []⟩ = {}
  rw [huses]
  rfl

theorem printedFields_box : printedFields ⟨box, {}⟩ { patterns := ["a.Box#*"] } =
    [("a.Box#size", ({} : Metadata).toJson)] := by
  have hselected : selected box ["a.Box#*"] = [⟨1⟩, ⟨2⟩] := by decide
  have hlast : field? ⟨box, {}⟩ {} ⟨2⟩ = some ("a.Box#size", ({} : Metadata).toJson) :=
    congrArg (fun md => some ("a.Box#size", Metadata.toJson md)) metadata_box
  have hfirst : field? ⟨box, {}⟩ {} ⟨1⟩ = some ("a.Box#size", _) := rfl
  have hcollected : (collectedFields ⟨box, {}⟩ { patterns := ["a.Box#*"] }).entries =
      [("a.Box#size", ({} : Metadata).toJson)] := by
    rw [collectedFields, hselected, List.filterMap_cons_some hfirst, List.filterMap_cons_some hlast]
    rfl
  have hsorted : ({} : Metadata).toJson.sorted = ({} : Metadata).toJson := by
    rw [Metadata.toJson, Json.sorted_obj]
    exact congrArg Json.obj (List.mergeSort_of_pairwise (by decide))
  rw [printedFields, hcollected, List.map_singleton, hsorted]
  exact List.mergeSort_singleton _

/-- Two declarations are selected, and one field is printed: the annotation on the other declaration
does not show up. -/
theorem field_lost_of_box :
    Model.parse boxText = .ok box ∧ selected box ["a.Box#*"] = [⟨1⟩, ⟨2⟩] ∧
      box.qualifiedName ⟨1⟩ = "a.Box#size" ∧ box.qualifiedName ⟨2⟩ = "a.Box#size" ∧
      (∃ result, Environment.build ⟨box, {}⟩ none {} {} ⟨1⟩ = .ok result ∧
        result.metadata.annotations.names = ["a.Named"]) ∧
      run boxText none { patterns := ["a.Box#*"] } =
        ⟨0, (Json.obj [("a.Box#size", ({} : Metadata).toJson)]).compact ++ "\n", ""⟩ := by
  refine ⟨parse_boxText, by decide, by decide, by decide, ⟨_, rfl, rfl⟩, ?_⟩
  rw [run, parse_boxText]
  refine (report_eq _).trans ?_
  rw [printedFields_box]
  rfl

/-- One field is printed for the two declarations. -/
theorem run_prints_last_box :
    ∃ fields : List (String × Json),
      run boxText none { patterns := ["a.Box#*"] } = ⟨0, (Json.obj fields).compact ++ "\n", ""⟩ ∧
        fields.length ≠ (selected box ["a.Box#*"]).length := by
  have hconfig : (none : Option String).elim (pure {}) Config.parse = .ok {} := rfl
  obtain ⟨fields, hrun, -, -, -, hlength, -⟩ :=
    run_prints_last parse_boxText hconfig { patterns := ["a.Box#*"] }
  refine ⟨fields, hrun, fun he => ?_⟩
  have hsame : (⟨1⟩ : DeclId) = ⟨2⟩ :=
    hlength.mp he ⟨1⟩ (by decide) ⟨2⟩ (by decide) (by decide)
  cases hsame

end CommandLine

end AnnotationResolution
