import AnnotationResolution.Assembly.Collected
import AnnotationResolution.Assembly.Stereotypes
import AnnotationResolution.Defaults

/-!
# Putting metadata together

`Environment.build` gives the metadata of a declaration, what a validator says about the recorded
values, and the cache with the defaults that were needed.  The metadata comes from the occurrences
on the levels, the stereotypes of the annotation types found there, and the defaults of members
without a value; the validator takes no part in it.
-/

namespace AnnotationResolution

structure BuildResult where
  metadata : Metadata
  diagnostics : List Diagnostic
  cache : DefaultCache

/-- Members without a value take their default. -/
def fillDefaults (defaults : Members Value) (values : Members SourcedValue) :
    Members SourcedValue :=
  defaults.entries.foldl
    (fun values entry => values.insertIfNew entry.1 ⟨entry.2, .default⟩) values

/-- What the members of all collected annotations are, before defaults are filled in. -/
structure Assembly where
  collected : Collected
  /-- The uses from which stereotypes are made, none if they are not collected. -/
  uses : List MetaUse

namespace Environment

variable (env : Environment)

def assemble (options : BuildOptions) (target : BuildTarget) : Assembly :=
  let collected := env.collectAll (env.occurrences options target)
  let names := collected.annotations.names ++ collected.repeated.names
  ⟨collected, if env.config.stereotypes then env.metaUses names else []⟩

/-- The annotation types whose defaults are needed. -/
def neededDefaults (assembly : Assembly) : List String :=
  assembly.collected.annotations.names ++ assembly.collected.repeated.names
    ++ (env.pendingStereotypes assembly.uses).names

def entryOf (defaults : String → Members Value) (name : String) (pending : PendingEntry) :
    AnnotationEntry :=
  ⟨name, pending.source, env.retention name, fillDefaults (defaults name) pending.values⟩

def repeatedOf (defaults : String → Members Value) (name : String) (pending : PendingRepeated) :
    RepeatedEntry :=
  ⟨name, pending.container, env.retention name, pending.instances.map fun use =>
    { use with values := fillDefaults (defaults name) use.values }⟩

def stereotypeOf (defaults : String → Members Value) (name : String)
    (pending : PendingStereotype) : StereotypeEntry :=
  ⟨⟨name, .stereotype, env.retention name, fillDefaults (defaults name) pending.values⟩,
    pending.parents⟩

def metadataOf (defaults : String → Members Value) (assembly : Assembly) : Metadata where
  annotations := assembly.collected.annotations.mapNamed (env.entryOf defaults)
  repeated := assembly.collected.repeated.mapNamed (env.repeatedOf defaults)
  stereotypes := (env.pendingStereotypes assembly.uses).mapNamed (env.stereotypeOf defaults)

/-- Faults of values on a level are reported there, those of values on an annotation type against
the target, with the name of the type. -/
def diagnosticsOf (validate : Validator) (target : DeclId) (assembly : Assembly) :
    List Diagnostic :=
  assembly.collected.recorded.flatMap (Recorded.diagnostics env.model validate) ++
  assembly.uses.flatMap fun use =>
    (env.recordUse use).flatMap fun r =>
      (r.faults env.model validate).map fun fault =>
        ⟨target, .error, "stereotype " ++ use.via ++ ": " ++ fault⟩

/-- **The metadata of a declaration.**  It fails only when there is no such declaration. -/
def build (validator : Option Validator) (cache : DefaultCache) (options : BuildOptions)
    (id : DeclId) : Except ModelError BuildResult :=
  match env.model.declaration? id with
  | none => throw (.unknownDeclaration id)
  | some declaration =>
    let assembly := env.assemble options ⟨id, declaration⟩
    let cache := (env.neededDefaults assembly).foldl (DefaultCache.ensure env) cache
    pure {
      metadata := env.metadataOf (cache.defaultsOf env) assembly
      diagnostics :=
        match validator with
        | some validate => env.diagnosticsOf validate id assembly
        | none => []
      cache }

end Environment

end AnnotationResolution
