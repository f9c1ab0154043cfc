import AnnotationResolution.Assembly

/-!
# Reporting while building

A validator is shown each value right before the value is written, and what it finds is added to a
sink at once.  `Environment.buildReporting` is a build that does so: the sink is handed on from step to
step, through the merging of annotations, the applications of repeatable ones and the walk along the
annotation types.

A `Reporter` is the validator, if there is one, together with the sink.  The sink may be anything that
takes in one diagnostic after the other, such as a list of them or a log.
-/

namespace AnnotationResolution

/-- Who finds fault with values, and how the sink takes in what is found. -/
structure Reporter (σ : Type) where
  validator : Option Validator
  add : σ → Diagnostic → σ

namespace Reporter

variable {σ : Type} (reporter : Reporter σ)

/-- What is found on an annotation type goes to the target, with the name of the type. -/
def redirected (target : DeclId) (via : String) : Reporter σ where
  validator := reporter.validator
  add s d := reporter.add s ⟨target, d.severity, "stereotype " ++ via ++ ": " ++ d.message⟩

def diagnostics (m : Model) (r : Recorded) : List Diagnostic :=
  reporter.validator.elim [] (r.diagnostics m)

/-- Shows a value to the validator and reports what it finds. -/
def inspect (m : Model) (r : Recorded) : StateM σ Unit :=
  (reporter.diagnostics m r).forM fun d => modify (reporter.add · d)

end Reporter

/-- What has been taken in from the levels so far. -/
structure Gathered where
  annotations : Members PendingEntry := ∅
  repeated : Members PendingRepeated := ∅

/-- Keeps those of the values read for a use whose members have none yet. -/
def PendingStereotype.keep (pending : PendingStereotype) (via : String)
    (values : Members SourcedValue) : PendingStereotype where
  values := values.entries.foldl (fun kept entry => kept.insertIfNew entry.1 entry.2) pending.values
  parents := if via ∈ pending.parents then pending.parents else pending.parents ++ [via]

namespace Environment

variable {σ : Type} (env : Environment) (reporter : Reporter σ)

/-- Takes in the value of a member, if there is one and the member has none yet. -/
def takeMember (origin : DeclId) (annotationType : String) (source : ValueSource)
    (values : Members SourcedValue) (entry : String × Expr) : StateM σ (Members SourcedValue) :=
  match env.record? values.names origin annotationType
      (env.model.annotationMember? annotationType entry.1) entry.1 entry.2 with
  | none => pure values
  | some recorded => do
    reporter.inspect env.model recorded
    return values.insert recorded.member ⟨recorded.value, source⟩

def takeValues (origin : DeclId) (source : ValueSource) (values : Members SourcedValue)
    (a : AnnotationInstance) : StateM σ (Members SourcedValue) :=
  a.members.entries.foldlM (env.takeMember reporter origin a.annotationType source) values

/-- Takes in an occurrence, by itself if it is repeated and into the entry of its type if not. -/
def takeOccurrence (gathered : Gathered) (o : Occurrence) : StateM σ Gathered := do
  let name := o.applied.annotationType
  match o.container with
  | some container =>
    let values ← env.takeValues reporter o.level o.source ∅ o.applied
    let entry := (gathered.repeated.get? name).getD { container }
    let instances := entry.instances ++ [⟨o.source, values⟩]
    return { gathered with repeated := gathered.repeated.insert name { entry with instances } }
  | none =>
    let entry := (gathered.annotations.get? name).getD { source := o.source }
    let values ← env.takeValues reporter o.level o.source entry.values o.applied
    return { gathered with annotations := gathered.annotations.insert name { entry with values } }

/-- Takes in a use of a stereotype; its values are all read before some of them are kept. -/
def takeUse (target : DeclId) (pending : Members PendingStereotype) (use : MetaUse) :
    StateM σ (Members PendingStereotype) := do
  let values ← env.takeValues (reporter.redirected target use.via) use.carrier .stereotype ∅
    use.applied
  return pending.upsert use.applied.annotationType fun present =>
    (present.getD {}).keep use.via values

/-- **A build that reports as it goes.**  It returns the metadata and the cache; the defaults of what
is on the levels are looked up before the stereotypes are visited. -/
def buildReporting (cache : DefaultCache) (options : BuildOptions) (id : DeclId) :
    StateM σ (Except ModelError (Metadata × DefaultCache)) :=
  match env.model.declaration? id with
  | none => pure (.error (.unknownDeclaration id))
  | some declaration => do
    let gathered ← (env.occurrences options ⟨id, declaration⟩).foldlM (env.takeOccurrence reporter) {}
    let names := gathered.annotations.names ++ gathered.repeated.names
    let cache := names.foldl (DefaultCache.ensure env) cache
    let annotations := gathered.annotations.mapNamed (env.entryOf (cache.defaultsOf env))
    let repeated := gathered.repeated.mapNamed (env.repeatedOf (cache.defaultsOf env))
    let uses := if env.config.stereotypes then env.metaUses names else []
    let pending ← uses.foldlM (env.takeUse reporter id) ∅
    let cache := pending.names.foldl (DefaultCache.ensure env) cache
    let stereotypes := pending.mapNamed (env.stereotypeOf (cache.defaultsOf env))
    return .ok ({ annotations, repeated, stereotypes }, cache)

end Environment

end AnnotationResolution
