import WorkflowPlatform.Compile
import WorkflowPlatform.SpecDecoding

/-!
# Validating documents

`validate` on a document: the schema decides, unless the document is nested too
deep for the stack. Short of that it accepts the documents of the specifications
with a version of at least 1 whose texts and lists are as the schema wants them.
A binding in an accepted document, wherever it stands, is accepted by exactly one
alternative, and is never a reference to a secret; a node is accepted by exactly
one alternative as well.
-/
namespace WorkflowPlatform
open Json (Image)
open Schema (check oracle Accepts)

/-- `validate(doc)`; the texts of the errors are those of the validator. -/
def validateDocument (stack : ℕ) (validatorErrors : Json → List ValidationError) (doc : Json) :
    ValidationResult :=
  match validateFn stack doc with
  | some true => ⟨true, []⟩
  | some false => ⟨false, validatorErrors doc⟩
  | none => ⟨false, [⟨"", "workflow-spec.validate.max_nesting_depth_exceeded: " ++
      "document exceeds the maximum supported binding-nesting depth"⟩]⟩

/-- What the schema wants of the texts and lists in a specification. -/
def WorkflowSpec.lexicallyValid (spec : WorkflowSpec) : Bool :=
  isNonEmpty spec.name &&
    (spec.inputParameters.getD []).all flatName && (spec.inputParameters.getD []).Nodup &&
    (spec.sessionState.getD []).all (fun d => d.2.fallback.all Binding.schemaValid) &&
    nodesValid spec.steps && bindingMapValid (spec.outputs.getD [])

theorem schemaValid_iff_lexicallyValid {spec : WorkflowSpec} : spec.schemaValid = true ↔
    1 ≤ spec.workflowSpecVersion ∧ spec.lexicallyValid = true := by
  simp only [WorkflowSpec.schemaValid, WorkflowSpec.lexicallyValid, Bool.and_eq_true,
    decide_eq_true_iff, and_assoc]

/-- How many references to one value may follow on a reference to the definition. -/
def SpecDefinition.rank : SpecDefinition → ℕ
  | .binding => 1
  | .node => 1
  | _ => 0

theorem SpecDefinition.rank_le (name : SpecDefinition) : name.rank ≤ 1 := by
  cases name <;> simp [rank]

theorem rank_reference (name : SpecDefinition) :
    ∀ other ∈ (workflowSpecSchema name).references, other.rank < name.rank := by
  cases name <;> decide

section
variable {j x : Json} {own : JsonObject} {key : String} {name : SpecDefinition} {stack : ℕ}

/-- The stack that a document needs grows with its nesting only. -/
theorem validateFn_isSome (h : 2 * j.depth < stack) : (validateFn stack j).isSome :=
  Schema.run_isSome SpecDefinition.rank_le rank_reference h

theorem accepts_iff (hj : j.namesDistinct = true) :
    Accepts workflowSpecSchema name j ↔ specLanguage name j :=
  workflowSpecSchema_describes.accepts_iff SpecDefinition.rank_le rank_reference hj

theorem validateDocument_valid {errors : Json → List ValidationError}
    (hj : j.namesDistinct = true) (hstack : (validateFn stack j).isSome) :
    (validateDocument stack errors j).valid = true ↔ specLanguage .workflowSpec j := by
  obtain ⟨r, hr⟩ := Option.isSome_iff_exists.mp hstack
  rw [← workflowSpecSchema_describes.run_eq_true hj hr, validateDocument, hr]
  cases r <;> simp

/-! ### Where bindings and nodes stand -/

inductive NodeAt (doc : Json) : Json → Prop
  | step {own : JsonObject} {steps : List Json} {node : Json} : doc = .obj own →
      own.lookup "steps" = some (.arr steps) → node ∈ steps → NodeAt doc node
  | body {own : JsonObject} {body : List Json} {node : Json} : NodeAt doc (.obj own) →
      own.lookup "body" = some (.arr body) → node ∈ body → NodeAt doc node
  | case {own cases case : JsonObject} {key : String} {steps : List Json} {node : Json} :
      NodeAt doc (.obj own) → own.lookup "cases" = some (.obj cases) → (key, .obj case) ∈ cases →
      case.lookup "steps" = some (.arr steps) → node ∈ steps → NodeAt doc node

inductive BindingAt (doc : Json) : Json → Prop
  | output {own outputs : JsonObject} {key : String} {b : Json} : doc = .obj own →
      own.lookup "outputs" = some (.obj outputs) → (key, b) ∈ outputs → BindingAt doc b
  | fallback {own declarations d : JsonObject} {key : String} {b : Json} : doc = .obj own →
      own.lookup "sessionState" = some (.obj declarations) → (key, .obj d) ∈ declarations →
      d.lookup "fallback" = some b → BindingAt doc b
  | read {own reads : JsonObject} {key : String} {b : Json} : NodeAt doc (.obj own) →
      own.lookup "reads" = some (.obj reads) → (key, b) ∈ reads → BindingAt doc b
  | selector {own : JsonObject} {b : Json} : NodeAt doc (.obj own) →
      own.lookup "selector" = some b → BindingAt doc b
  | source {own : JsonObject} {b : Json} : NodeAt doc (.obj own) →
      own.lookup "source" = some b → BindingAt doc b
  | yield {own yields : JsonObject} {key : String} {b : Json} : NodeAt doc (.obj own) →
      own.lookup "yields" = some (.obj yields) → (key, b) ∈ yields → BindingAt doc b
  | caseYield {own cases case yields : JsonObject} {key name : String} {b : Json} :
      NodeAt doc (.obj own) → own.lookup "cases" = some (.obj cases) → (key, .obj case) ∈ cases →
      case.lookup "yields" = some (.obj yields) → (name, b) ∈ yields → BindingAt doc b
  | input {own bindings : JsonObject} {key : String} {b : Json} : BindingAt doc (.obj own) →
      own.lookup "using" = some (.obj bindings) → (key, b) ∈ bindings → BindingAt doc b
  | itemId {own : JsonObject} {b : Json} : BindingAt doc (.obj own) →
      own.lookup "itemId" = some b → BindingAt doc b

/-- A value that the schema of a definition accepts, without two fields of one name. -/
structure Fits (name : SpecDefinition) (j : Json) : Prop where
  distinct : j.namesDistinct = true
  language : specLanguage name j

theorem Fits.alternative (h : Fits .node j) : ∃ name ∈ nodeAlternatives, Fits name j := by
  obtain ⟨n, hn, hsame⟩ := h.language
  exact ⟨n.definition, n.definition_mem, h.distinct,
    (nodeAlternative_iff n.definition_mem).mpr ⟨n, ⟨hn, rfl⟩, hsame⟩⟩

theorem Fits.bindingAlternative (h : Fits .binding j) :
    ∃ name ∈ bindingAlternatives, Fits name j := by
  obtain ⟨b, hb, hsame⟩ := h.language
  exact ⟨b.definition, b.definition_mem, h.distinct,
    (bindingAlternative_iff b.definition_mem).mpr ⟨b, ⟨hb, rfl⟩, hsame⟩⟩

/-- Whether the definition is one of a closed object. -/
def IsClosed (name : SpecDefinition) : Prop :=
  ∃ required, workflowSpecSchema name = .closed required (workflowSpecSchema name).declared

theorem nodeAlternatives_closed : ∀ name ∈ nodeAlternatives, IsClosed name := by
  simp only [nodeAlternatives, List.forall_mem_cons, List.not_mem_nil, false_implies, implies_true,
    and_true]
  exact ⟨⟨_, rfl⟩, ⟨_, rfl⟩, ⟨_, rfl⟩⟩

theorem bindingAlternatives_closed : ∀ name ∈ bindingAlternatives, IsClosed name := by
  simp only [bindingAlternatives, List.forall_mem_cons, List.not_mem_nil, false_implies,
    implies_true, and_true]
  exact ⟨⟨_, rfl⟩, ⟨_, rfl⟩, ⟨_, rfl⟩, ⟨_, rfl⟩, ⟨_, rfl⟩, ⟨_, rfl⟩, ⟨_, rfl⟩, ⟨_, rfl⟩⟩

/-- The schemas that the definitions give the property. -/
def declaredSchemas (names : List SpecDefinition) (key : String) : List (Schema SpecDefinition) :=
  names.filterMap fun name => (workflowSpecSchema name).declared.lookup key

/-- The value of a property is accepted by the one schema that is declared for it. -/
theorem fits_property {names : List SpecDefinition} (h : ∃ name ∈ names, Fits name (.obj own))
    (hclosed : ∀ name ∈ names, IsClosed name) (hx : own.lookup key = some x)
    {schema : Schema SpecDefinition} (hkey : declaredSchemas names key = [schema]) :
    x.namesDistinct = true ∧ check (oracle specLanguage) schema x = some true := by
  obtain ⟨name, hname, hfits⟩ := h
  obtain ⟨required, hschema⟩ := hclosed name hname
  refine ⟨lookup_distinct hfits.distinct hx, ?_⟩
  have hcheck := (workflowSpecSchema_describes name _ hfits.distinct).mpr hfits.language
  rw [hschema] at hcheck
  obtain ⟨schema', hlookup, hvalue⟩ := Schema.check_closed_property hcheck hfits.distinct hx
  have hmem : schema' ∈ declaredSchemas names key := List.mem_filterMap.mpr ⟨name, hname, hlookup⟩
  rw [hkey, List.mem_singleton] at hmem
  exact hmem ▸ hvalue

theorem fits_elements {keywords : List (Schema SpecDefinition)} {elements : List Json}
    (h : (Json.arr elements).namesDistinct = true ∧
      check (oracle specLanguage) (.all keywords) (.arr elements) = some true)
    (hmem : .items (.ref name) ∈ keywords) : ∀ y ∈ elements, Fits name y := by
  intro y hy
  have hitems := Schema.check_all.mp h.2 _ hmem
  rw [check, Schema.every_eq_true] at hitems
  exact ⟨Json.namesDistinct_arr.mp h.1 y hy, Schema.check_ref.mp (hitems y hy)⟩

theorem fits_members {keywords : List (Schema SpecDefinition)}
    (h : (Json.obj own).namesDistinct = true ∧
      check (oracle specLanguage) (.all keywords) (.obj own) = some true)
    (hmem : .properties [] (.ref name) ∈ keywords) : ∀ p ∈ own, Fits name p.2 := by
  intro p hp
  have hmembers := Schema.check_all.mp h.2 _ hmem
  rw [check, Schema.every_eq_true] at hmembers
  exact ⟨(Json.namesDistinct_obj.mp h.1).2 p hp, Schema.check_ref.mp (hmembers p hp)⟩

theorem fits_ref (h : x.namesDistinct = true ∧
    check (oracle specLanguage) (.ref name) x = some true) : Fits name x :=
  ⟨h.1, Schema.check_ref.mp h.2⟩

theorem Fits.self (h : Fits name j) : ∃ other ∈ [name], Fits other j :=
  ⟨name, List.mem_singleton_self name, h⟩

theorem closed_singleton (h : IsClosed name) : ∀ other ∈ [name], IsClosed other := by
  simpa using h

/-- A node in an accepted document is an accepted node. -/
theorem NodeAt.fits {doc : Json} (hdoc : Fits .workflowSpec doc) (h : NodeAt doc j) :
    Fits .node j := by
  induction h with
  | step hobj hsteps hmem =>
      subst hobj
      exact fits_elements (fits_property hdoc.self (closed_singleton ⟨_, rfl⟩) hsteps rfl)
        (by simp) _ hmem
  | body hnode hbody hmem ih =>
      exact fits_elements (fits_property ih.alternative nodeAlternatives_closed hbody rfl)
        (by simp) _ hmem
  | case hnode hcases hcase hsteps hmem ih =>
      have hbody : Fits .caseBody _ := fits_members (fits_property ih.alternative nodeAlternatives_closed hcases rfl)
        (by simp) _ hcase
      exact fits_elements (fits_property hbody.self (closed_singleton ⟨_, rfl⟩) hsteps rfl)
        (by simp) _ hmem

/-- A binding in an accepted document is an accepted binding. -/
theorem BindingAt.fits {doc : Json} (hdoc : Fits .workflowSpec doc) (h : BindingAt doc j) :
    Fits .binding j := by
  induction h with
  | output hobj houtputs hmem =>
      subst hobj
      exact fits_members (fits_property hdoc.self (closed_singleton ⟨_, rfl⟩) houtputs rfl)
        (by simp) _ hmem
  | fallback hobj hstate hmem hfallback =>
      subst hobj
      have hd : Fits .sessionStateDecl _ := fits_members
        (fits_property hdoc.self (closed_singleton ⟨_, rfl⟩) hstate rfl) (by simp) _ hmem
      exact fits_ref (fits_property hd.self (closed_singleton ⟨_, rfl⟩) hfallback rfl)
  | read hnode hreads hmem =>
      exact fits_members
        (fits_property (hnode.fits hdoc).alternative nodeAlternatives_closed hreads rfl)
        (by simp) _ hmem
  | selector hnode hb =>
      exact fits_ref (fits_property (hnode.fits hdoc).alternative nodeAlternatives_closed hb rfl)
  | source hnode hb =>
      exact fits_ref (fits_property (hnode.fits hdoc).alternative nodeAlternatives_closed hb rfl)
  | yield hnode hyields hmem =>
      exact fits_members
        (fits_property (hnode.fits hdoc).alternative nodeAlternatives_closed hyields rfl)
        (by simp) _ hmem
  | caseYield hnode hcases hcase hyields hmem =>
      have hbody : Fits .caseBody _ := fits_members
        (fits_property (hnode.fits hdoc).alternative nodeAlternatives_closed hcases rfl)
        (by simp) _ hcase
      exact fits_members (fits_property hbody.self (closed_singleton ⟨_, rfl⟩) hyields rfl)
        (by simp) _ hmem
  | input _ husing hmem ih =>
      exact fits_members
        (fits_property ih.bindingAlternative bindingAlternatives_closed husing rfl)
        (by simp) _ hmem
  | itemId _ hb ih =>
      exact fits_ref (fits_property ih.bindingAlternative bindingAlternatives_closed hb rfl)

/-! ### What the schema accepts -/

/-- Exactly one alternative accepts a binding. -/
theorem Fits.binding_unique (h : Fits .binding j) :
    ∃! name, name ∈ bindingAlternatives ∧ Accepts workflowSpecSchema name j := by
  obtain ⟨name, hname, hfits⟩ := h.bindingAlternative
  refine ⟨name, ⟨hname, (accepts_iff h.distinct).mpr hfits.language⟩, ?_⟩
  intro other ⟨hother, haccepts⟩
  exact bindingAlternatives_disjoint hother hname ((accepts_iff h.distinct).mp haccepts)
    hfits.language

theorem Fits.node_unique (h : Fits .node j) :
    ∃! name, name ∈ nodeAlternatives ∧ Accepts workflowSpecSchema name j := by
  obtain ⟨name, hname, hfits⟩ := h.alternative
  refine ⟨name, ⟨hname, (accepts_iff h.distinct).mpr hfits.language⟩, ?_⟩
  intro other ⟨hother, haccepts⟩
  exact nodeAlternatives_disjoint hother hname ((accepts_iff h.distinct).mp haccepts)
    hfits.language

/-- No alternative for bindings declares a scope, and every reference to a secret has
one. -/
theorem Fits.not_secret (h : Fits .binding j) (r : SecretRef) :
    (encodeSecretRef r).same j = false := by
  rw [Bool.eq_false_iff]
  intro hsame
  rw [encodeSecretRef] at hsame
  obtain ⟨own, rfl⟩ := object_same hsame
  obtain ⟨x, hx, -⟩ := Json.matches_some.mp (Json.lookup_of_same (by simp) hsame "scope")
  obtain ⟨name, hname, hfits⟩ := h.bindingAlternative
  obtain ⟨required, hschema⟩ := bindingAlternatives_closed name hname
  have hcheck := (workflowSpecSchema_describes name _ hfits.distinct).mpr hfits.language
  rw [hschema] at hcheck
  obtain ⟨schema, hlookup, -⟩ := Schema.check_closed_property hcheck hfits.distinct hx
  have hnone : declaredSchemas bindingAlternatives "scope" = [] := rfl
  have hmem : schema ∈ declaredSchemas bindingAlternatives "scope" :=
    List.mem_filterMap.mpr ⟨name, hname, hlookup⟩
  rw [hnone] at hmem
  cases hmem

/-- Short of the end of the stack, `validate` accepts the documents of the
specifications with a version of at least 1 and valid texts and lists; the document
is then read as such a specification, which has this document; and each binding and
each node in it is accepted by exactly one alternative, and no binding is a reference
to a secret. The alternatives are disjoint. -/
theorem validate_accepts_specifications (errors : Json → List ValidationError)
    (doc : JsonDocument) (hstack : (validateFn stack doc.value).isSome) :
    ((validateDocument stack errors doc.value).valid = true ↔ ∃ spec : WorkflowSpec,
      (1 ≤ spec.workflowSpecVersion ∧ spec.lexicallyValid = true) ∧
        (encodeWorkflowSpec spec).same doc.value = true) ∧
    ((validateDocument stack errors doc.value).valid = true →
      (∃ spec, decodeWorkflowSpec doc.value = some spec ∧ spec.schemaValid = true ∧
        (encodeWorkflowSpec spec).same doc.value = true) ∧
      (∀ b, BindingAt doc.value b →
        (∃! name, name ∈ bindingAlternatives ∧ Accepts workflowSpecSchema name b) ∧
          ∀ r : SecretRef, (encodeSecretRef r).same b = false) ∧
      ∀ node, NodeAt doc.value node →
        ∃! name, name ∈ nodeAlternatives ∧ Accepts workflowSpecSchema name node) ∧
    (∀ (j : JsonDocument) (name other : SpecDefinition),
      (name ∈ bindingAlternatives ∧ other ∈ bindingAlternatives ∨
        name ∈ nodeAlternatives ∧ other ∈ nodeAlternatives) →
      Accepts workflowSpecSchema name j.value → Accepts workflowSpecSchema other j.value →
        name = other) := by
  have hvalid : (validateDocument stack errors doc.value).valid = true ↔
      specLanguage .workflowSpec doc.value := validateDocument_valid doc.distinct hstack
  refine ⟨?_, ?_, ?_⟩
  · rw [hvalid, specLanguage]
    simp only [Image, schemaValid_iff_lexicallyValid]
  · intro haccepted
    have hdoc : Fits .workflowSpec doc.value := ⟨doc.distinct, hvalid.mp haccepted⟩
    refine ⟨decodes_workflowSpec doc.distinct hdoc.language, ?_, ?_⟩
    · intro b hb
      have hfits := hb.fits hdoc
      exact ⟨hfits.binding_unique, hfits.not_secret⟩
    · intro node hnode
      exact (hnode.fits hdoc).node_unique
  · intro j name other halternatives hname hother
    rw [accepts_iff j.distinct] at hname hother
    rcases halternatives with ⟨h, h'⟩ | ⟨h, h'⟩
    · exact bindingAlternatives_disjoint h h' hname hother
    · exact nodeAlternatives_disjoint h h' hname hother

end

/-- A step that reads a parameter. -/
def greetingSpec : WorkflowSpec where
  workflowSpecVersion := 1
  name := "greeting"
  steps := [.step {
    id := "greet", service := "r@sha256:aa", function := "greet",
    reads := some [("name", .request "name")] }]
  outputs := some [("text", .step "greet" "text")]

def greetingDocument : JsonDocument where
  value := encodeWorkflowSpec greetingSpec
  distinct := by decide

theorem validate_accepts_greeting :
    (validateFn 20 greetingDocument.value).isSome = true ∧
      (validateDocument 20 (fun _ => []) greetingDocument.value).valid = true := by
  have hstack : (validateFn 20 greetingDocument.value).isSome = true :=
    validateFn_isSome (by decide)
  refine ⟨hstack, ?_⟩
  apply (validate_accepts_specifications (fun _ => []) greetingDocument hstack).1.mpr
  exact ⟨greetingSpec, by decide +kernel, Json.same_refl _ greetingDocument.distinct⟩

def versionZero : JsonDocument where
  value := encodeWorkflowSpec { workflowSpecVersion := 0, name := "a", steps := [] }
  distinct := by decide

/-- A specification of version 0 has valid texts and lists, and its document is refused. -/
theorem version_zero_refused :
    ¬ ∀ (stack : ℕ) (errors : Json → List ValidationError) (doc : JsonDocument),
      (validateFn stack doc.value).isSome → ((validateDocument stack errors doc.value).valid = true ↔
        ∃ spec : WorkflowSpec, spec.lexicallyValid = true ∧
          (encodeWorkflowSpec spec).same doc.value = true) := by
  intro h
  have hstack : (validateFn 20 versionZero.value).isSome = true := validateFn_isSome (by decide)
  have hrefused : (validateDocument 20 (fun _ => []) versionZero.value).valid = false := by decide
  have haccepted := (h 20 (fun _ => []) versionZero hstack).mpr
    ⟨{ workflowSpecVersion := 0, name := "a", steps := [] }, by decide,
      Json.same_refl _ versionZero.distinct⟩
  rw [hrefused] at haccepted
  cases haccepted

end WorkflowPlatform
