import WorkflowPlatform.ReferenceChecking
import WorkflowPlatform.Registry

/-!
# The service references of a document

At compile time `validateServiceReferences` asks the registry for the entry of
each step's digest, once for each digest, and looks for the step's function in
it. At run time the placement of a step is looked up by digest and function
directly. The two agree on every name except `__proto__`: the entry is an object
literal, and assigning under that name makes no property of it.
-/
namespace WorkflowPlatform

/-- What follows the first `@`; the whole text when there is none. -/
def digestFromServiceRef (service : String) : String :=
  match service.toList.dropWhile (· ≠ '@') with
  | [] => service
  | _ :: digest => String.ofList digest

def stepCollector : NodeVisitor (List Step) where
  onStep step _ steps := steps ++ [step]

def collectAllSteps (spec : WorkflowSpec) : List Step :=
  walkNodes stepCollector spec.steps [] []

def unknownDigestError (step : Step) (digest : String) : CompileError where
  code := .unknown_service_digest
  path := step.id
  message := s!"Step \"{step.id}\" references service digest \"{digest}\", which is not registered in the service registry."

def unknownFunctionError (step : Step) (digest : String) : CompileError where
  code := .unknown_service_function
  path := step.id
  message := s!"Step \"{step.id}\" references function \"{step.function}\" on digest \"{digest}\", which declares no such function."

abbrev EntryCache := List (String × Option RegistryEntry)

def getEntryCached (db : RegistryDb) (entriesByDigest : EntryCache) (digest : String) :
    Option RegistryEntry × EntryCache :=
  let entriesByDigest :=
    if (entriesByDigest.lookup digest).isSome then entriesByDigest
    else entriesByDigest ++ [(digest, getEntry db digest)]
  ((entriesByDigest.lookup digest).getD none, entriesByDigest)

def entryErrors (step : Step) (digest : String) : Option RegistryEntry → List CompileError
  | none => [unknownDigestError step digest]
  | some entry =>
      if entry.functions.hasOwn step.function then [] else [unknownFunctionError step digest]

def checkStep (db : RegistryDb) (state : EntryCache × List CompileError) (step : Step) :
    EntryCache × List CompileError :=
  let digest := digestFromServiceRef step.service
  let (entry, entriesByDigest) := getEntryCached db state.1 digest
  (entriesByDigest, state.2 ++ entryErrors step digest entry)

def validateServiceReferences (db : RegistryDb) (spec : WorkflowSpec) : List CompileError :=
  ((collectAllSteps spec).foldl (checkStep db) ([], [])).2

/-! ### The steps of a document -/

/-- The step is in the document, at any depth. -/
def StepIn (spec : WorkflowSpec) (s : Step) : Prop :=
  ∃ path body above, Enclosing spec.steps path (body :: above) ∧ .step s ∈ body

def Visit.steps : Visit → List Step
  | .step s _ => [s]
  | _ => []

theorem stepCollector_foldl (vs : List Visit) (steps : List Step) :
    vs.foldl stepCollector.call steps = steps ++ vs.flatMap Visit.steps := by
  induction vs generalizing steps with
  | nil => simp
  | cons v rest ih =>
      rw [List.foldl_cons, ih, List.flatMap_cons, ← List.append_assoc]
      cases v <;> simp [NodeVisitor.call, stepCollector, Visit.steps]

theorem mem_collectAllSteps {spec : WorkflowSpec} {s : Step} :
    s ∈ collectAllSteps spec ↔ StepIn spec s := by
  rw [collectAllSteps, walkNodes_eq_foldl, stepCollector_foldl, List.nil_append, List.mem_flatMap]
  simp only [mem_visits_iff]
  constructor
  · intro ⟨v, hv, hs⟩
    cases hv with
    | step henc hmem =>
        rw [List.mem_singleton.mp hs]
        exact ⟨_, _, _, henc, hmem⟩
    | branch => simp [Visit.steps] at hs
    | caseWalked => simp [Visit.steps] at hs
    | map => simp [Visit.steps] at hs
    | bodyWalked => simp [Visit.steps] at hs
  · intro ⟨path, body, above, henc, hmem⟩
    exact ⟨_, .step henc hmem, List.mem_singleton_self s⟩

/-! ### The cache does not change a verdict -/

/-- Every entry of the cache is the one the registry has. -/
def CacheCorrect (db : RegistryDb) (cache : EntryCache) : Prop :=
  ∀ digest entry, cache.lookup digest = some entry → entry = getEntry db digest

theorem getEntryCached_correct {db : RegistryDb} {cache : EntryCache} (h : CacheCorrect db cache)
    (digest : String) :
    (getEntryCached db cache digest).1 = getEntry db digest ∧
      CacheCorrect db (getEntryCached db cache digest).2 := by
  unfold getEntryCached
  cases hc : cache.lookup digest with
  | some entry =>
      simp only [hc, Option.isSome_some, if_true, Option.getD_some]
      exact ⟨h digest entry hc, h⟩
  | none =>
      simp only [Option.isSome_none, Bool.false_eq_true, if_false, List.lookup_append, hc,
        AssocList.lookup_cons_ite, List.lookup_nil, Option.none_or, if_true, Option.getD_some,
        true_and]
      intro d entry hd
      rw [List.lookup_append, AssocList.lookup_cons_ite, List.lookup_nil] at hd
      cases hcd : cache.lookup d with
      | some found =>
          rw [hcd, Option.some_or, Option.some.injEq] at hd
          exact hd ▸ h d found hcd
      | none =>
          rw [hcd, Option.none_or] at hd
          split at hd
          · next heq =>
              cases hd
              rw [heq]
          · cases hd

def stepErrors (db : RegistryDb) (step : Step) : List CompileError :=
  entryErrors step (digestFromServiceRef step.service)
    (getEntry db (digestFromServiceRef step.service))

theorem checkStep_foldl {db : RegistryDb} (steps : List Step) {cache : EntryCache}
    (h : CacheCorrect db cache) (errors : List CompileError) :
    (steps.foldl (checkStep db) (cache, errors)).2 = errors ++ steps.flatMap (stepErrors db) := by
  induction steps generalizing cache errors with
  | nil => simp
  | cons s rest ih =>
      obtain ⟨hentry, hcache⟩ := getEntryCached_correct h (digestFromServiceRef s.service)
      rw [List.foldl_cons, checkStep, ih hcache, List.flatMap_cons, ← List.append_assoc, hentry]
      rfl

theorem validateServiceReferences_eq (db : RegistryDb) (spec : WorkflowSpec) :
    validateServiceReferences db spec = (collectAllSteps spec).flatMap (stepErrors db) := by
  have hempty : CacheCorrect db [] := fun _ _ h => by cases h
  exact checkStep_foldl _ hempty []

/-! ### The names on which the lookups agree -/

def Registered (db : RegistryDb) (s : Step) : Prop :=
  s.function ∈ (db.functionCapabilities (digestFromServiceRef s.service)).map Prod.fst

theorem stepErrors_eq_nil_iff {db : RegistryDb} (h : db.Valid) (s : Step) :
    stepErrors db s = [] ↔ Registered db s ∧ s.function ≠ "__proto__" := by
  unfold stepErrors Registered
  cases hentry : getEntry db (digestFromServiceRef s.service) with
  | none =>
      have himage := congrArg Option.isSome hentry
      rw [getEntry_isSome, Option.isSome_none] at himage
      have hempty : db.functionCapabilities (digestFromServiceRef s.service) = [] := by
        by_contra hne
        rw [h.digest_fkey _ hne] at himage
        cases himage
      simp [entryErrors, hempty]
  | some entry =>
      simp only [entryErrors, AssignedObject.hasOwn, getEntry_lookup h hentry]
      by_cases hp : s.function = "__proto__"
      · simp [hp]
      · simp only [hp, if_false, ne_eq, not_false_eq_true, and_true]
        rw [← AssocList.lookup_isSome_iff]
        cases (db.functionCapabilities (digestFromServiceRef s.service)).lookup s.function <;> simp

theorem placementFacts_isSome_iff {db : RegistryDb} (h : db.Valid) (s : Step) :
    getPlacementFacts db (digestFromServiceRef s.service) s.function ≠ none ↔
      Registered db s := by
  have hmap := getPlacementFacts_lookup h (digestFromServiceRef s.service) s.function
  unfold Registered
  rw [← Option.isSome_iff_ne_none, ← Option.isSome_map (f := (·.capability)), hmap,
    AssocList.lookup_isSome_iff]

/-- The verdict of the compiler is that of the placement lookup on every step,
and on an accepted document both report the same capability. -/
structure LookupsAgree (db : RegistryDb) (spec : WorkflowSpec) : Prop where
  verdict : validateServiceReferences db spec = [] ↔ ∀ s, StepIn spec s →
    getPlacementFacts db (digestFromServiceRef s.service) s.function ≠ none
  capability : validateServiceReferences db spec = [] → ∀ s, StepIn spec s →
    ∃ entry facts, getEntry db (digestFromServiceRef s.service) = some entry ∧
      getPlacementFacts db (digestFromServiceRef s.service) s.function = some facts ∧
        entry.functions.own.lookup s.function = some facts.capability

theorem validateServiceReferences_eq_nil_iff {db : RegistryDb} (h : db.Valid)
    (spec : WorkflowSpec) :
    validateServiceReferences db spec = [] ↔
      ∀ s, StepIn spec s → Registered db s ∧ s.function ≠ "__proto__" := by
  simp only [validateServiceReferences_eq, List.flatMap_eq_nil_iff, mem_collectAllSteps,
    stepErrors_eq_nil_iff h]

theorem agreeing_capability {db : RegistryDb} (h : db.Valid) {s : Step} (hreg : Registered db s)
    (hname : s.function ≠ "__proto__") :
    ∃ entry facts, getEntry db (digestFromServiceRef s.service) = some entry ∧
      getPlacementFacts db (digestFromServiceRef s.service) s.function = some facts ∧
        entry.functions.own.lookup s.function = some facts.capability := by
  obtain ⟨facts, hfacts⟩ := Option.ne_none_iff_exists'.mp ((placementFacts_isSome_iff h s).mpr hreg)
  have hcap := getPlacementFacts_lookup h (digestFromServiceRef s.service) s.function
  rw [hfacts, Option.map_some] at hcap
  have hne : db.functionCapabilities (digestFromServiceRef s.service) ≠ [] := by
    intro hnil
    rw [hnil] at hcap
    cases hcap
  have himage := h.digest_fkey _ hne
  rw [← getEntry_isSome, Option.isSome_iff_exists] at himage
  obtain ⟨entry, hentry⟩ := himage
  refine ⟨entry, facts, hentry, hfacts, ?_⟩
  rw [getEntry_lookup h hentry, if_neg hname, ← hcap]

/-- The two lookups agree on a document unless every step of it names a
registered function and one of them names `__proto__`. -/
theorem lookupsAgree_iff (calls : List RegisterImageInput) (spec : WorkflowSpec) :
    LookupsAgree (registryAfter calls) spec ↔
      ¬ ((∀ s, StepIn spec s → Registered (registryAfter calls) s) ∧
          ∃ s, StepIn spec s ∧ s.function = "__proto__") := by
  have h := registryAfter_valid calls
  have hverdict := validateServiceReferences_eq_nil_iff h spec
  constructor
  · intro hagree hbad
    obtain ⟨hreg, s, hs, hproto⟩ := hbad
    have hnil := hagree.verdict.mpr fun s hs => (placementFacts_isSome_iff h s).mpr (hreg s hs)
    exact (hverdict.mp hnil s hs).2 hproto
  · intro hgood
    constructor
    · constructor
      · intro hnil s hs
        exact (placementFacts_isSome_iff h s).mpr (hverdict.mp hnil s hs).1
      · intro hfacts
        have hreg : ∀ s, StepIn spec s → Registered (registryAfter calls) s := fun s hs =>
          (placementFacts_isSome_iff h s).mp (hfacts s hs)
        exact hverdict.mpr fun s hs => ⟨hreg s hs, fun hproto => hgood ⟨hreg, s, hs, hproto⟩⟩
    · intro hnil s hs
      obtain ⟨hreg, hname⟩ := hverdict.mp hnil s hs
      exact agreeing_capability h hreg hname

/-- A registration of one function, named `__proto__`. -/
def protoRegistration : RegisterImageInput where
  digest := some (.str "sha256:aa")
  ociRef := some (.str "registry.example/svc")
  openapiSpec := some (.obj [("paths", .obj [("/p", .obj [("post",
    .obj [("operationId", .str "__proto__")])])])])
  capabilityMetadata := some (.obj [("__proto__", .obj [("mutates", .bool false),
    ("materializationCostClass", .str "negligible"), ("cowSupport", .bool false),
    ("changeDetectionSupport", .bool false), ("invocationDescriptor", .arr []),
    ("stateReuse", .str "none"), ("additiveWarmUpdate", .bool false)])])

def protoStep : Step where
  id := "a"
  service := "registry.example/svc@sha256:aa"
  function := "__proto__"

def protoSpec : WorkflowSpec where
  workflowSpecVersion := 1
  name := "proto"
  steps := [.step protoStep]

theorem protoStep_registered : Registered (registryAfter [protoRegistration]) protoStep := by
  unfold Registered
  decide +kernel

theorem stepIn_protoSpec {s : Step} (h : StepIn protoSpec s) : s = protoStep :=
  List.mem_singleton.mp (mem_collectAllSteps.mpr h)

/-- The run-time lookup has the function, and the compiler says that there is no
such function. -/
theorem lookups_disagree_on_proto : ¬ LookupsAgree (registryAfter [protoRegistration]) protoSpec := by
  intro h
  have hvalid := registryAfter_valid [protoRegistration]
  have hin : StepIn protoSpec protoStep := mem_collectAllSteps.mp (List.mem_singleton_self _)
  have hnil := h.verdict.mpr fun s hs => by
    rw [stepIn_protoSpec hs]
    exact (placementFacts_isSome_iff hvalid protoStep).mpr protoStep_registered
  exact ((validateServiceReferences_eq_nil_iff hvalid protoSpec).mp hnil protoStep hin).2 rfl

end WorkflowPlatform
