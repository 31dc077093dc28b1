import WorkflowPlatform.ServiceReferences
import WorkflowPlatform.SpecSchema
import WorkflowPlatform.Submission

/-!
# Compiling a document

`compile` checks a document against the schema, checks the references in it and
asks the registry for its functions, and stops at the first of these stages that
finds errors. A document that passes is its own execution plan. On a document of
plain steps the reference stage asks that ids are distinct and that every
reference names a step; no stage looks at the order that dependencies impose.
-/
namespace WorkflowPlatform

structure ValidationError where
  path : String
  message : String

structure ValidationResult where
  valid : Bool
  errors : List ValidationError

/-- The schema stage; the texts of its errors are those of the validator. -/
def validate (validatorErrors : WorkflowSpec → List ValidationError) (spec : WorkflowSpec) :
    ValidationResult :=
  if spec.schemaValid then ⟨true, []⟩ else ⟨false, validatorErrors spec⟩

inductive CompileResult where
  | ok (executionPlan : WorkflowSpec)
  | failed (errors : List CompileError)

def CompileResult.isOk : CompileResult → Bool
  | .ok _ => true
  | .failed _ => false

def compile (validatorErrors : WorkflowSpec → List ValidationError) (registryPool : RegistryDb)
    (spec : WorkflowSpec) : CompileResult :=
  let schemaResult := validate validatorErrors spec
  if !schemaResult.valid then
    .failed (schemaResult.errors.map fun e => ⟨.schema_invalid, e.path, e.message⟩)
  else
    let semanticErrors := validateStepReferences spec
    if !semanticErrors.isEmpty then .failed semanticErrors
    else
      let registryErrors := validateServiceReferences registryPool spec
      if !registryErrors.isEmpty then .failed registryErrors
      else .ok spec

theorem compile_isOk_iff (validatorErrors : WorkflowSpec → List ValidationError)
    (db : RegistryDb) (spec : WorkflowSpec) :
    (compile validatorErrors db spec).isOk = true ↔
      spec.schemaValid = true ∧ validateStepReferences spec = [] ∧
        validateServiceReferences db spec = [] := by
  unfold compile validate
  by_cases hs : spec.schemaValid <;> by_cases hr : validateStepReferences spec = [] <;>
    by_cases hv : validateServiceReferences db spec = [] <;> simp [hs, hr, hv, CompileResult.isOk]

/-! ### Documents of plain steps -/

variable {spec : WorkflowSpec} {steps : List Step}

theorem visits_plain (steps : List Step) :
    visits (steps.map .step) [] = steps.map (Visit.step · []) := by
  induction steps with
  | nil => rfl
  | cons s rest ih => rw [List.map_cons, visits, visitsOf, ih]; rfl

theorem definitionsOf_plain (hplain : spec.steps = steps.map .step) :
    definitionsOf spec = steps.map fun s => (s.id, []) := by
  rw [definitionsOf, hplain, visits_plain, List.flatMap_map]
  exact List.map_eq_flatMap.symm

/-- Every reference of the outputs and of the session fallbacks. -/
def MentionedAtRoot (spec : WorkflowSpec) (id : String) : Prop :=
  (∃ outputs name b, spec.outputs = some outputs ∧ (name, b) ∈ outputs ∧ b.Mentions id) ∨
    ∃ decls key decl b, spec.sessionState = some decls ∧ (key, decl) ∈ decls ∧
      decl.fallback = some b ∧ b.Mentions id

theorem mem_documentReferences {id : String} :
    (∃ ref ∈ documentReferences spec, ref.targetId = id) ↔ MentionedAtRoot spec id := by
  unfold documentReferences MentionedAtRoot
  constructor
  · rintro ⟨ref, hmem, hid⟩
    subst hid
    rcases List.mem_append.mp hmem with hout | hfall
    · obtain ⟨-, -, outputs, name, b, ho, hname, hb⟩ := mem_stepRefsOfMap.mp hout
      exact .inl ⟨outputs, name, b, ho, hname, hb⟩
    · obtain ⟨⟨key, decl⟩, hdecl, href⟩ := List.mem_flatMap.mp hfall
      change ref ∈ stepRefsOf decl.fallback key [] at href
      cases hs : spec.sessionState with
      | none => simp [hs] at hdecl
      | some decls =>
          rw [hs, Option.getD_some] at hdecl
          cases hf : decl.fallback with
          | none => simp [hf, stepRefsOf] at href
          | some b =>
              rw [hf] at href
              exact .inr ⟨decls, key, decl, b, rfl, hdecl, hf, (mem_stepRefsOf.mp href).2.2⟩
  · intro h
    rcases h with ⟨outputs, name, b, ho, hname, hb⟩ | ⟨decls, key, decl, b, hs, hdecl, hf, hb⟩
    · have href : ⟨"", [], id⟩ ∈ stepRefsOfMap spec.outputs "" [] :=
        mem_stepRefsOfMap.mpr ⟨rfl, rfl, outputs, name, b, ho, hname, hb⟩
      exact ⟨_, List.mem_append_left _ href, rfl⟩
    · have href : ⟨key, [], id⟩ ∈ stepRefsOf decl.fallback key [] := by
        rw [hf]
        exact mem_stepRefsOf.mpr ⟨rfl, rfl, hb⟩
      have hfall : ⟨key, [], id⟩ ∈
          (spec.sessionState.getD []).flatMap fun d => stepRefsOf d.2.fallback d.1 [] :=
        List.mem_flatMap.mpr ⟨(key, decl), by rwa [hs], href⟩
      exact ⟨_, List.mem_append_right _ hfall, rfl⟩

theorem scope_nil_of_mem_documentReferences {ref : ReferenceSite}
    (h : ref ∈ documentReferences spec) : ref.siteScope = [] := by
  rcases List.mem_append.mp h with hout | hfall
  · exact (mem_stepRefsOfMap.mp hout).2.1
  · obtain ⟨⟨key, decl⟩, -, href⟩ := List.mem_flatMap.mp hfall
    change ref ∈ stepRefsOf decl.fallback key [] at href
    cases hf : decl.fallback with
    | none => simp [hf, stepRefsOf] at href
    | some b =>
        rw [hf] at href
        exact (mem_stepRefsOf.mp href).2.1

theorem referencesOf_plain (hplain : spec.steps = steps.map .step) :
    referencesOf spec = (steps.flatMap fun s =>
      (collectStepReferenceIds s).map (⟨s.id, [], ·⟩)) ++ documentReferences spec := by
  rw [referencesOf, hplain, visits_plain, List.flatMap_map]
  rfl

/-- Among plain steps everything that exists is visible. -/
theorem resolves_plain_iff (hplain : spec.steps = steps.map .step) {ref : ReferenceSite}
    (hscope : ref.siteScope = []) :
    (∃ scope, (ref.targetId, scope) ∈ definitionsOf spec ∧ scope <+: ref.siteScope) ↔
      ref.targetId ∈ steps.map (·.id) := by
  rw [definitionsOf_plain hplain, hscope]
  simp only [List.mem_map, Prod.mk.injEq]
  constructor
  · intro ⟨_, ⟨s, hs, hid, _⟩, _⟩
    exact ⟨s, hs, hid⟩
  · intro ⟨s, hs, hid⟩
    exact ⟨[], ⟨s, hs, hid, rfl⟩, List.nil_prefix⟩

theorem validateStepReferences_plain (hplain : spec.steps = steps.map .step) :
    validateStepReferences spec = [] ↔
      (steps.map (·.id)).Nodup ∧
        (∀ s ∈ steps, ∀ d ∈ computeStepDependencies s, d ∈ steps.map (·.id)) ∧
          ∀ id, MentionedAtRoot spec id → id ∈ steps.map (·.id) := by
  rw [validateStepReferences_eq_nil_iff]
  have hids : (definitionsOf spec).map Prod.fst = steps.map (·.id) := by
    rw [definitionsOf_plain hplain, List.map_map]
    rfl
  rw [hids]
  refine and_congr_right fun _ => ?_
  constructor
  · intro hrefs
    constructor
    · intro s hs d hd
      have hmem : ⟨s.id, [], d⟩ ∈ referencesOf spec := by
        rw [referencesOf_plain hplain]
        refine List.mem_append_left _ (List.mem_flatMap.mpr ⟨s, hs, ?_⟩)
        exact List.mem_map_of_mem (mem_computeStepDependencies.mp hd)
      exact (resolves_plain_iff hplain rfl).mp (hrefs _ hmem)
    · intro id hid
      obtain ⟨ref, hmem, rfl⟩ := mem_documentReferences.mpr hid
      have hscope := scope_nil_of_mem_documentReferences hmem
      exact (resolves_plain_iff hplain hscope).mp (hrefs ref (List.mem_append_right _ hmem))
  · intro ⟨hdeps, hroot⟩ ref hmem
    rw [referencesOf_plain hplain] at hmem
    rcases List.mem_append.mp hmem with hstep | hdoc
    · obtain ⟨s, hs, href⟩ := List.mem_flatMap.mp hstep
      obtain ⟨d, hd, rfl⟩ := List.mem_map.mp href
      exact (resolves_plain_iff hplain rfl).mpr (hdeps s hs d (mem_computeStepDependencies.mpr hd))
    · have hscope := scope_nil_of_mem_documentReferences hdoc
      exact (resolves_plain_iff hplain hscope).mpr
        (hroot _ (mem_documentReferences.mp ⟨ref, hdoc, rfl⟩))

theorem closed_iff (hnodup : (steps.map (·.id)).Nodup) :
    (dependencyGraph steps).Closed ↔
      ∀ s ∈ steps, ∀ d ∈ computeStepDependencies s, d ∈ steps.map (·.id) := by
  constructor
  · intro h s hs d hd
    rw [← dependencyGraph_deps hnodup hs] at hd
    exact h s.id (List.mem_map_of_mem hs) d hd
  · intro h id hid d hd
    obtain ⟨s, hs, rfl⟩ := List.mem_map.mp hid
    rw [dependencyGraph_deps hnodup hs] at hd
    exact h s hs d hd

/-- A document of plain steps compiles when it is schema-valid, its ids are
distinct, every dependency and every reference of the document itself names a
step, and the registry has its functions. Cycles are not looked for. -/
theorem compile_plain_iff (validatorErrors : WorkflowSpec → List ValidationError)
    (db : RegistryDb) (hplain : spec.steps = steps.map .step) :
    (compile validatorErrors db spec).isOk = true ↔
      spec.schemaValid = true ∧ (steps.map (·.id)).Nodup ∧ (dependencyGraph steps).Closed ∧
        (∀ id, MentionedAtRoot spec id → id ∈ steps.map (·.id)) ∧
          validateServiceReferences db spec = [] := by
  rw [compile_isOk_iff, validateStepReferences_plain hplain]
  constructor
  · intro ⟨hschema, ⟨hnodup, hdeps, hroot⟩, hservices⟩
    exact ⟨hschema, hnodup, (closed_iff hnodup).mpr hdeps, hroot, hservices⟩
  · intro ⟨hschema, hnodup, hclosed, hroot, hservices⟩
    exact ⟨hschema, ⟨hnodup, (closed_iff hnodup).mp hclosed, hroot⟩, hservices⟩

/-- A registration of the tool that the cyclic document uses. -/
def toolRegistration : RegisterImageInput where
  digest := some (.str "sha256:aa")
  ociRef := some (.str "tool")
  openapiSpec := some (.obj [("paths", .obj [("/run", .obj [("post",
    .obj [("operationId", .str "run")])])])])
  capabilityMetadata := some (.obj [("run", .obj [("mutates", .bool false),
    ("materializationCostClass", .str "negligible"), ("cowSupport", .bool false),
    ("changeDetectionSupport", .bool false), ("invocationDescriptor", .arr []),
    ("stateReuse", .str "none"), ("additiveWarmUpdate", .bool false)])])

theorem compile_plain_iff_cyclicSpec :
    (compile (fun _ => []) (registryAfter [toolRegistration]) cyclicSpec).isOk = true ↔
      cyclicSpec.schemaValid = true ∧ (cyclicSteps.map (·.id)).Nodup ∧
        (dependencyGraph cyclicSteps).Closed ∧
          (∀ id, MentionedAtRoot cyclicSpec id → id ∈ cyclicSteps.map (·.id)) ∧
            validateServiceReferences (registryAfter [toolRegistration]) cyclicSpec = [] :=
  compile_plain_iff _ _ rfl

theorem cyclicSteps_cycle : Relation.TransGen (dependencyGraph cyclicSteps).Edge "a" "a" := by
  have hab : (dependencyGraph cyclicSteps).Edge "a" "b" := ⟨by decide, by decide, by decide⟩
  have hba : (dependencyGraph cyclicSteps).Edge "b" "a" := ⟨by decide, by decide, by decide⟩
  exact .tail (.single hab) hba

/-- Two steps that depend on each other compile. -/
theorem compile_admits_cycle :
    ¬ ∀ (db : RegistryDb) (spec : WorkflowSpec) (steps : List Step),
      spec.steps = steps.map .step → (compile (fun _ => []) db spec).isOk = true →
        (dependencyGraph steps).Acyclic := by
  intro h
  have hok : (compile (fun _ => []) (registryAfter [toolRegistration]) cyclicSpec).isOk = true := by
    decide +kernel
  exact h _ cyclicSpec cyclicSteps rfl hok "a" cyclicSteps_cycle

end WorkflowPlatform
