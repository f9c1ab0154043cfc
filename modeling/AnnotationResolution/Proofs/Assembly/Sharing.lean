import AnnotationResolution.Proofs.Assembly.Building

/-!
# One cache for many builds

Builds for one model and configuration may share a cache.  A session serves requests one after the
other, each with the cache that the one before it left.  Here we show that the sharing cannot be
seen: every request is answered as by a builder of its own.

The cache is keyed by the name of an annotation type alone.  That this is enough rests on two facts.
A look-up changes nothing but what is stored under its name, and stores there what everyone else
would (`DefaultCache.get?_foldl_ensure`).  And a build looks up all names whose defaults it uses, so
that it finds every one of them in the cache (`serve_of_sound`).
-/

namespace AnnotationResolution

structure BuildRequest where
  validator : Option Validator
  options : BuildOptions
  id : DeclId

structure BuildAnswer where
  metadata : Metadata
  diagnostics : List Diagnostic

namespace Environment

variable (env : Environment)

/-- The answer to a request, and the cache that is left.  A build that fails has not touched it. -/
def serve (cache : DefaultCache) (request : BuildRequest) :
    Except ModelError BuildAnswer × DefaultCache :=
  match env.build request.validator cache request.options request.id with
  | .error e => (.error e, cache)
  | .ok result => (.ok ⟨result.metadata, result.diagnostics⟩, result.cache)

def serveAll : DefaultCache → List BuildRequest → List (Except ModelError BuildAnswer) × DefaultCache
  | cache, [] => ([], cache)
  | cache, request :: rest =>
    let served := env.serve cache request
    let others := serveAll served.2 rest
    (served.1 :: others.1, others.2)

def needs (request : BuildRequest) : List String :=
  match env.model.declaration? request.id with
  | none => []
  | some d => env.neededDefaults (env.assemble request.options ⟨request.id, d⟩)

/-- The answer with all defaults at hand.  What a validator says does not depend on them. -/
def answer (request : BuildRequest) : Except ModelError BuildAnswer :=
  match env.model.declaration? request.id with
  | none => .error (.unknownDeclaration request.id)
  | some d =>
    let target : BuildTarget := ⟨request.id, d⟩
    .ok {
      metadata := env.metadata request.options target
      diagnostics :=
        match request.validator with
        | some validate =>
          env.diagnosticsOf validate request.id (env.assemble request.options target)
        | none => [] }

variable {env} {cache : DefaultCache}

theorem serve_of_sound (h : DefaultCache.Sound env cache) (request : BuildRequest) :
    env.serve cache request =
      (env.answer request, (env.needs request).foldl (DefaultCache.ensure env) cache) := by
  rw [serve, answer, needs, build]
  cases hd : env.model.declaration? request.id with
  | none => rfl
  | some d =>
    -- Every name whose defaults the assembly uses has just been looked up.
    have hmetadata : ∀ assembly, env.metadataOf
        (((env.neededDefaults assembly).foldl (DefaultCache.ensure env) cache).defaultsOf env)
        assembly = env.metadataOf env.namedDefaults assembly := fun assembly =>
      metadataOf_congr fun name hn => DefaultCache.defaultsOf_foldl_ensure h hn
    show (Except.ok (BuildAnswer.mk (env.metadataOf _ _) _), _) = _
    rw [hmetadata]
    rfl

theorem serveAll_of_sound (h : DefaultCache.Sound env cache) (requests : List BuildRequest) :
    env.serveAll cache requests =
      (requests.map env.answer,
        (requests.flatMap env.needs).foldl (DefaultCache.ensure env) cache) := by
  induction requests generalizing cache with
  | nil => rfl
  | cons request rest ih =>
    have hnext := ih (h.foldl_ensure (env.needs request))
    rw [serveAll, serve_of_sound h, hnext, List.flatMap_cons, List.foldl_append]
    rfl

/-- **A shared cache cannot be seen.**  However many requests were served with it, and in whatever
order, each of them gets the answer that it gets with a fresh cache.  After any number of requests
the cache holds just the defaults that were needed, under the names of their types. -/
theorem serveAll_eq_map_serve (requests : List BuildRequest) :
    (env.serveAll {} requests).1 = requests.map (fun request => (env.serve {} request).1) ∧
      ∀ served name values,
        (env.serveAll {} (requests.take served)).2.get? name = some values ↔
          (∃ request ∈ requests.take served, name ∈ env.needs request) ∧
            ∃ ty, env.model.typeNamed? name = some ty ∧ env.defaultValues ty = values := by
  constructor
  · rw [serveAll_of_sound DefaultCache.sound_empty]
    refine List.map_congr_left fun request _ => ?_
    rw [serve_of_sound DefaultCache.sound_empty]
  · intro served name values
    rw [serveAll_of_sound DefaultCache.sound_empty]
    show ((((requests.take served).flatMap env.needs).foldl (DefaultCache.ensure env) {}).get?
      name = some values) ↔ _
    have hnew : ({} : DefaultCache).get? name = none := rfl
    rw [DefaultCache.get?_foldl_ensure, hnew, Option.none_or, ← List.mem_flatMap]
    split
    · next hn =>
      rw [Option.map_eq_some_iff, and_iff_right hn]
    · next hn => simp only [hn, false_and, reduceCtorEq]

end Environment

end AnnotationResolution
