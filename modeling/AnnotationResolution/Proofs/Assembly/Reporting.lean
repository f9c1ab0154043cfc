import AnnotationResolution.Assembly.Reporting
import AnnotationResolution.Proofs.Assembly.Building
import AnnotationResolution.Proofs.Assembly.MetaUses

/-!
# What reporting changes

A build that reports as it goes comes to the same as one that first puts everything together: it
returns the same metadata and the same cache, and adds the same diagnostics to the sink in the same
order (`tells_buildReporting`).  So neither the validator nor what is in the sink has any part in the
metadata.

`Reporter.Tells` says of an action what it returns, whatever is in the sink, and what it adds to the
sink.  The rules for it follow the way the actions are put together: nothing is told by `pure`, one
action after the other tells both (`Tells.bind`), and along a list the actions tell what has been taken
in so far (`tells_foldlM`).
-/

namespace AnnotationResolution

namespace Reporter

variable {σ α β γ : Type} {reporter : Reporter σ}

variable (reporter) in
/-- The action returns `value`, whatever is in the sink, and adds `told` to it. -/
def Tells (action : StateM σ α) (value : α) (told : List Diagnostic) : Prop :=
  ∀ s, action.run s = (value, told.foldl reporter.add s)

theorem tells_pure (value : α) : reporter.Tells (pure value) value [] := fun _ => rfl

theorem Tells.bind {first : StateM σ α} {next : α → StateM σ β} {a : α} {b : β}
    {told more : List Diagnostic} (hfirst : reporter.Tells first a told)
    (hnext : reporter.Tells (next a) b more) : reporter.Tells (first >>= next) b (told ++ more) := by
  intro s
  rw [StateT.run_bind, hfirst s, List.foldl_append]
  exact hnext _

/-- An action that only goes on with the value of another tells what that one tells. -/
theorem Tells.map {action : StateM σ α} {a : α} {told : List Diagnostic}
    (h : reporter.Tells action a told) (f : α → β) :
    reporter.Tells (action >>= fun x => pure (f x)) (f a) told := by
  have hpure : reporter.Tells (pure (f a)) (f a) [] := tells_pure (f a)
  rw [← List.append_nil told]
  exact h.bind hpure

theorem tells_inspect (m : Model) (r : Recorded) :
    reporter.Tells (reporter.inspect m r) () (reporter.diagnostics m r) := by
  rw [inspect]
  induction reporter.diagnostics m r with
  | nil => exact tells_pure ()
  | cons d rest ih =>
    have hone : reporter.Tells (modify (reporter.add · d)) () [d] := fun _ => rfl
    exact hone.bind ih

/-- What is told through a redirection arrives with the name of the type. -/
theorem Tells.of_redirected {target : DeclId} {via : String} {action : StateM σ α} {a : α}
    {told : List Diagnostic} (h : (reporter.redirected target via).Tells action a told) :
    reporter.Tells action a (told.map fun d =>
      ⟨target, d.severity, "stereotype " ++ via ++ ": " ++ d.message⟩) := by
  intro s
  rw [h s, List.foldl_map]
  rfl

/-- **Taking in a list step by step.**  If a step leads from the `view` of what has been taken in to
the `view` of that and one more, and tells what the `log` grows by, then the whole list leads to its
`view` and its `log` is told. -/
theorem tells_foldlM {step : γ → α → StateM σ γ} (view : List α → γ)
    (log : List α → List Diagnostic) (hnil : log [] = [])
    (hstep : ∀ done a, ∃ new, log (done ++ [a]) = log done ++ new ∧
      reporter.Tells (step (view done) a) (view (done ++ [a])) new) (l : List α) :
    reporter.Tells (l.foldlM step (view [])) (view l) (log l) := by
  have hrun : ∀ pending done, ∃ new, log (done ++ pending) = log done ++ new ∧
      reporter.Tells (pending.foldlM step (view done)) (view (done ++ pending)) new := by
    intro pending
    induction pending with
    | nil =>
      intro done
      rw [List.append_nil]
      exact ⟨[], (List.append_nil _).symm, tells_pure (view done)⟩
    | cons a rest ih =>
      intro done
      obtain ⟨new, hlog, hnew⟩ := hstep done a
      obtain ⟨more, hlogs, hmore⟩ := ih (done ++ [a])
      rw [List.append_assoc, List.singleton_append] at hlogs hmore
      refine ⟨new ++ more, by rw [hlogs, hlog, List.append_assoc], ?_⟩
      rw [List.foldlM_cons]
      exact hnew.bind hmore
  obtain ⟨new, hlog, htells⟩ := hrun l []
  rw [List.nil_append] at hlog htells
  rw [hlog, hnil]
  exact htells

end Reporter

/-- What has been taken in, the recorded values left aside. -/
def Collected.gathered (collected : Collected) : Gathered :=
  ⟨collected.annotations, collected.repeated⟩

namespace Environment

open Reporter

variable {σ : Type} {env : Environment} {reporter : Reporter σ}

/-! ## One annotation -/

/-- Only whether a member is present counts, not the order of those that are. -/
theorem record?_congr {present known : List String} (h : ∀ member, member ∈ present ↔ member ∈ known)
    (origin : DeclId) (annotationType : String) (method : Option DeclId) (member : String)
    (e : Expr) :
    env.record? present origin annotationType method member e =
      env.record? known origin annotationType method member e := by
  rw [record?, record?, if_congr (h member) rfl rfl]

theorem of_record? {present : List String} {origin : DeclId} {annotationType : String}
    {method : Option DeclId} {member : String} {e : Expr} {r : Recorded}
    (h : env.record? present origin annotationType method member e = some r) :
    r.member = member ∧ member ∉ present := by
  rw [record?] at h
  split at h
  · cases h
  · next hp =>
    obtain ⟨value, -, rfl⟩ := Option.map_eq_some_iff.mp h
    exact ⟨rfl, hp⟩

/-- The members are taken in one by one, just as they are recorded. -/
theorem tells_takeMembers (origin : DeclId) (annotationType : String) (source : ValueSource)
    (entries : List (String × Expr)) {present : List String} {values : Members SourcedValue}
    (h : ∀ member, member ∈ present ↔ member ∈ values.names) :
    reporter.Tells (entries.foldlM (env.takeMember reporter origin annotationType source) values)
      (addRecorded source values (env.recordMembers origin annotationType present entries))
      ((env.recordMembers origin annotationType present entries).flatMap
        (reporter.diagnostics env.model)) := by
  induction entries generalizing present values with
  | nil => exact tells_pure values
  | cons entry rest ih =>
    obtain ⟨member, e⟩ := entry
    rw [List.foldlM_cons, takeMember, recordMembers]
    dsimp only
    rw [← record?_congr h]
    cases hr : env.record? present origin annotationType
        (env.model.annotationMember? annotationType member) member e with
    | none => exact (tells_pure values).bind (ih h)
    | some r =>
      obtain ⟨hmember, -⟩ := of_record? hr
      refine ((tells_inspect env.model r).map _).bind (ih fun other => ?_)
      rw [Members.mem_names_insert, hmember, List.mem_cons, h, or_comm]

variable (env reporter) in
theorem tells_takeValues (origin : DeclId) (source : ValueSource) (values : Members SourcedValue)
    (a : AnnotationInstance) :
    reporter.Tells (env.takeValues reporter origin source values a)
      (addRecorded source values (env.recordAnnotation origin values.names a))
      ((env.recordAnnotation origin values.names a).flatMap (reporter.diagnostics env.model)) :=
  tells_takeMembers origin a.annotationType source a.members.entries fun _ => Iff.rfl

/-! ## The levels -/

theorem tells_takeOccurrence (collected : Collected) (o : Occurrence) :
    ∃ recorded, (env.collect collected o).recorded = collected.recorded ++ recorded ∧
      reporter.Tells (env.takeOccurrence reporter collected.gathered o)
        (env.collect collected o).gathered (recorded.flatMap (reporter.diagnostics env.model)) := by
  obtain ⟨level, source, applied, container⟩ := o
  cases container with
  | some container =>
    exact ⟨_, rfl, (tells_takeValues env reporter level source ∅ applied).map _⟩
  | none =>
    exact ⟨_, rfl, (tells_takeValues env reporter level source _ applied).map _⟩

variable (env reporter) in
theorem tells_takeOccurrences (occurrences : List Occurrence) :
    reporter.Tells (occurrences.foldlM (env.takeOccurrence reporter) {})
      (env.collectAll occurrences).gathered
      ((env.collectAll occurrences).recorded.flatMap (reporter.diagnostics env.model)) := by
  refine tells_foldlM (fun done => (env.collectAll done).gathered)
    (fun done => (env.collectAll done).recorded.flatMap (reporter.diagnostics env.model)) rfl
    (fun done o => ?_) occurrences
  obtain ⟨recorded, hrecorded, htells⟩ := tells_takeOccurrence (env.collectAll done) o
  refine ⟨recorded.flatMap (reporter.diagnostics env.model), ?_, ?_⟩
  · rw [collectAll_append_singleton, hrecorded, List.flatMap_append]
  · rw [collectAll_append_singleton]
    exact htells

/-! ## The stereotypes -/

theorem nodup_recordMembers (origin : DeclId) (annotationType : String)
    (entries : List (String × Expr)) (present : List String) :
    ((env.recordMembers origin annotationType present entries).map Recorded.member).Nodup ∧
      ∀ r ∈ env.recordMembers origin annotationType present entries, r.member ∉ present := by
  induction entries generalizing present with
  | nil => exact ⟨List.nodup_nil, fun r hr => nomatch hr⟩
  | cons entry rest ih =>
    obtain ⟨member, e⟩ := entry
    rw [recordMembers]
    cases hr : env.record? present origin annotationType
        (env.model.annotationMember? annotationType member) member e with
    | none => exact ih present
    | some first =>
      obtain ⟨hmember, hnew⟩ := of_record? hr
      obtain ⟨hnodup, hrest⟩ := ih (member :: present)
      refine ⟨List.nodup_cons.mpr ⟨fun hin => ?_, hnodup⟩, fun r hin => ?_⟩
      · obtain ⟨again, hagain, he⟩ := List.mem_map.mp hin
        exact hrest again hagain (by rw [he, hmember]; exact List.mem_cons_self)
      · rcases List.mem_cons.mp hin with rfl | hin
        · rwa [hmember]
        · exact fun hpresent => hrest r hin (List.mem_cons_of_mem member hpresent)

/-- What is kept of the values read for a use is what the recorded values give. -/
theorem keep_addRecorded (pending : PendingStereotype) (use : MetaUse) :
    pending.keep use.via (addRecorded .stereotype ∅ (env.recordUse use)) =
      pending.add use.via (env.recordUse use) := by
  have hnodup : ((env.recordUse use).map Recorded.member).Nodup :=
    (nodup_recordMembers use.carrier use.applied.annotationType use.applied.members.entries []).1
  have hentries : (addRecorded .stereotype ∅ (env.recordUse use)).entries =
      sourced .stereotype ((env.recordUse use).map Recorded.pair) := by
    rw [addRecorded_eq, Members.entries_insertAll]
    · rfl
    · rw [map_fst_sourced, List.map_map]
      exact hnodup
    · simp
  rw [PendingStereotype.keep, PendingStereotype.add, hentries, sourced, List.map_map,
    List.foldl_map]
  rfl

variable (env reporter) in
/-- What is found in a use is reported against the target. -/
def diagnosticsOfUse (target : DeclId) (use : MetaUse) : List Diagnostic :=
  ((env.recordUse use).flatMap (reporter.diagnostics env.model)).map fun d =>
    ⟨target, d.severity, "stereotype " ++ use.via ++ ": " ++ d.message⟩

theorem tells_takeUse (target : DeclId) (pending : Members PendingStereotype) (use : MetaUse) :
    reporter.Tells (env.takeUse reporter target pending use) (env.addUse pending use)
      (env.diagnosticsOfUse reporter target use) := by
  have hread := tells_takeValues env (reporter.redirected target use.via) use.carrier .stereotype ∅
    use.applied
  have hkept : env.addUse pending use = pending.upsert use.applied.annotationType fun present =>
      (present.getD {}).keep use.via (addRecorded .stereotype ∅ (env.recordUse use)) := by
    simp only [addUse, keep_addRecorded]
  rw [hkept]
  exact hread.of_redirected.map fun values =>
    pending.upsert use.applied.annotationType fun present => (present.getD {}).keep use.via values

variable (env reporter) in
theorem tells_takeUses (target : DeclId) (uses : List MetaUse) :
    reporter.Tells (uses.foldlM (env.takeUse reporter target) ∅) (env.pendingStereotypes uses)
      (uses.flatMap (env.diagnosticsOfUse reporter target)) := by
  refine tells_foldlM env.pendingStereotypes
    (fun done => done.flatMap (env.diagnosticsOfUse reporter target)) rfl
    (fun done use => ?_) uses
  refine ⟨env.diagnosticsOfUse reporter target use, ?_, ?_⟩
  · rw [List.flatMap_append, List.flatMap_singleton]
  · rw [pendingStereotypes_append_singleton]
    exact tells_takeUse target _ use

/-! ## A whole build -/

/-- A build tells what it reports when it is done. -/
theorem diagnostics_eq_told (target : DeclId) (assembly : Assembly) :
    reporter.validator.elim [] (env.diagnosticsOf · target assembly) =
      assembly.collected.recorded.flatMap (reporter.diagnostics env.model) ++
        assembly.uses.flatMap (env.diagnosticsOfUse reporter target) := by
  obtain ⟨validator, add⟩ := reporter
  cases validator with
  | none =>
    have hlevels : (⟨none, add⟩ : Reporter σ).diagnostics env.model = fun _ => [] := rfl
    have huses : env.diagnosticsOfUse ⟨none, add⟩ target = fun _ => [] := by
      funext use
      rw [diagnosticsOfUse, hlevels, List.flatMap_eq_nil_iff.mpr fun _ _ => rfl]
      rfl
    rw [hlevels, huses, List.flatMap_eq_nil_iff.mpr fun _ _ => rfl,
      List.flatMap_eq_nil_iff.mpr fun _ _ => rfl]
    rfl
  | some validate =>
    have hlevels : (⟨some validate, add⟩ : Reporter σ).diagnostics env.model =
        Recorded.diagnostics env.model validate := rfl
    have huses : env.diagnosticsOfUse ⟨some validate, add⟩ target = fun use =>
        (env.recordUse use).flatMap fun r => (r.faults env.model validate).map fun fault =>
          ⟨target, .error, "stereotype " ++ use.via ++ ": " ++ fault⟩ := by
      funext use
      rw [diagnosticsOfUse, hlevels, List.map_flatMap]
      simp only [Recorded.diagnostics, List.map_map]
      rfl
    rw [hlevels, huses]
    rfl

/-- Defaults that were looked up do not change when others are. -/
theorem defaultsOf_foldl_ensure_append {names more : List String} {name : String}
    (h : name ∈ names) (cache : DefaultCache) :
    ((names ++ more).foldl (DefaultCache.ensure env) cache).defaultsOf env name =
      (names.foldl (DefaultCache.ensure env) cache).defaultsOf env name := by
  rw [DefaultCache.defaultsOf, DefaultCache.defaultsOf]
  simp only [DefaultCache.get?_foldl_ensure, List.mem_append, h, true_or, if_pos]

variable (env) in
/-- It makes no difference to merged and repeated annotations that the defaults of the stereotypes
are looked up only after them. -/
theorem metadataOf_eq_of_lookedUp (cache : DefaultCache) (assembly : Assembly) :
    let names := assembly.collected.annotations.names ++ assembly.collected.repeated.names
    let pending := env.pendingStereotypes assembly.uses
    let lookedUp := names.foldl (DefaultCache.ensure env) cache
    let last := pending.names.foldl (DefaultCache.ensure env) lookedUp
    (env.neededDefaults assembly).foldl (DefaultCache.ensure env) cache = last ∧
      env.metadataOf (last.defaultsOf env) assembly =
        { annotations :=
            assembly.collected.annotations.mapNamed (env.entryOf (lookedUp.defaultsOf env))
          repeated := assembly.collected.repeated.mapNamed (env.repeatedOf (lookedUp.defaultsOf env))
          stereotypes := pending.mapNamed (env.stereotypeOf (last.defaultsOf env)) } := by
  intro names pending lookedUp last
  have hlast : (names ++ pending.names).foldl (DefaultCache.ensure env) cache = last :=
    List.foldl_append
  have hsame : ∀ name ∈ names, last.defaultsOf env name = lookedUp.defaultsOf env name := by
    intro name hn
    rw [← hlast]
    exact defaultsOf_foldl_ensure_append hn cache
  refine ⟨hlast, ?_⟩
  rw [metadataOf, Metadata.mk.injEq]
  refine ⟨Members.mapNamed_congr fun name hn entry => ?_,
    Members.mapNamed_congr fun name hn entry => ?_, rfl⟩
  · rw [entryOf, entryOf, hsame name (List.mem_append_left _ hn)]
  · rw [repeatedOf, repeatedOf, hsame name (List.mem_append_right _ hn)]

/-- **A build that reports as it goes comes to the same as one that reports in the end.** -/
theorem tells_buildReporting {id : DeclId} {d : Declaration}
    (hd : env.model.declaration? id = some d) (cache : DefaultCache) (options : BuildOptions)
    {result : BuildResult} (h : env.build reporter.validator cache options id = .ok result) :
    reporter.Tells (env.buildReporting reporter cache options id)
      (.ok (result.metadata, result.cache)) result.diagnostics := by
  obtain ⟨again, hagain, hcache, hmetadata⟩ := build_eq reporter.validator options hd cache
  obtain rfl : again = result := Except.ok.inj (hagain.symm.trans h)
  obtain ⟨hlast, hparts⟩ := metadataOf_eq_of_lookedUp env cache (env.assemble options ⟨id, d⟩)
  have hlevels := tells_takeOccurrences env reporter (env.occurrences options ⟨id, d⟩)
  have huses := tells_takeUses env reporter id (env.assemble options ⟨id, d⟩).uses
  rw [diagnostics_of_build _ _ hd h, diagnostics_eq_told, hmetadata, hcache, hlast, hparts,
    buildReporting, hd]
  exact hlevels.bind (huses.map _)

/-- **Neither the validator nor the sink has a part in the metadata.**  There is one answer, metadata
and cache, for a build with any validator or none; and a build that reports as it goes returns it
whatever kind of sink it has and whatever is in the sink, and adds to the sink what was found. -/
theorem build_independent_of_validator {id : DeclId} {d : Declaration}
    (hd : env.model.declaration? id = some d) (cache : DefaultCache) (options : BuildOptions) :
    ∃ metadata left, ∀ validator : Option Validator, ∃ told,
      env.build validator cache options id = .ok ⟨metadata, told, left⟩ ∧
        ∀ {σ : Type} (add : σ → Diagnostic → σ) (s : σ),
          (env.buildReporting ⟨validator, add⟩ cache options id).run s =
            (.ok (metadata, left), told.foldl add s) := by
  obtain ⟨silent, -, hcache, hmetadata⟩ := build_eq none options hd cache
  refine ⟨silent.metadata, silent.cache, fun validator => ?_⟩
  obtain ⟨result, hr, hcache', hmetadata'⟩ := build_eq validator options hd cache
  have hc : result.cache = silent.cache := hcache'.trans hcache.symm
  have hm : result.metadata = silent.metadata := by rw [hmetadata', hmetadata, hc]
  refine ⟨result.diagnostics, by rw [hr, ← hm, ← hc], fun add s => ?_⟩
  rw [← hm, ← hc]
  have htells : (⟨validator, add⟩ : Reporter _).Tells _ _ _ :=
    tells_buildReporting hd cache options hr
  exact htells s

/-- A validator that finds fault with every value of `a.Service`, and one that looks at none. -/
theorem build_independent_of_validator_service :
    let strict : Validator := fun d annotationType _ member _ =>
      [annotationType ++ "." ++ member ++ " on " ++ d.name]
    let earlier : Diagnostic := ⟨⟨0⟩, .warning, "earlier"⟩
    ∃ metadata left told,
      (service.buildReporting ⟨some strict, fun log d => log ++ [d]⟩ {} {} ⟨9⟩).run [earlier] =
        (.ok (metadata, left), earlier :: told) ∧
      (service.buildReporting ⟨none, fun count _ => count + 1⟩ {} {} ⟨9⟩).run 7 =
        (.ok (metadata, left), 7) ∧
      told.head? = some ⟨⟨9⟩, .error, "a.Named.order on a.Service"⟩ := by
  intro strict earlier
  have hd : service.model.declaration? ⟨9⟩ = some _ := rfl
  obtain ⟨metadata, left, hall⟩ := build_independent_of_validator hd {} {}
  obtain ⟨told, hb, hstrict⟩ := hall (some strict)
  obtain ⟨silence, hn, hsilent⟩ := hall none
  have hsilence : silence = [] := diagnostics_of_build none {} hd hn
  have htold := diagnostics_of_build (some strict) {} hd hb
  refine ⟨metadata, left, told, ?_, ?_, ?_⟩
  · rw [hstrict, List.foldl_append_eq_append, ← List.flatMap_def, List.flatMap_singleton']
    rfl
  · rw [hsilent, hsilence]
    rfl
  · rw [show told = _ from htold, Option.elim_some, diagnosticsOf, assemble, occurrences,
      levels_service]
    rfl

end Environment

end AnnotationResolution
