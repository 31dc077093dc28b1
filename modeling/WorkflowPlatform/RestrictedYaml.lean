import WorkflowPlatform.DocumentValidation

/-!
# The restricted profile

The text of a document is parsed as YAML, from which the profile takes out
anchors, aliases, tags and merge keys again. What is left should be JSON and more;
but a merge key is told by its text alone, which a name in a JSON document may
have as well. The parser itself is a parameter: all that is used of it is what it
does to the text of a JSON document.
-/
namespace WorkflowPlatform

/-- A node of the syntax tree; a value may be missing from a pair. -/
inductive YamlNode where
  | alias (source : String)
  | scalar (value : Json) (anchor tag : Option String)
  | map (items : List (YamlNode × Option YamlNode)) (anchor tag : Option String)
  | seq (items : List YamlNode) (anchor tag : Option String)

namespace YamlNode

def anchor : YamlNode → Option String
  | .alias _ => none
  | .scalar _ anchor _ => anchor
  | .map _ anchor _ => anchor
  | .seq _ anchor _ => anchor

def tag : YamlNode → Option String
  | .alias _ => none
  | .scalar _ _ tag => tag
  | .map _ _ tag => tag
  | .seq _ _ tag => tag

mutual

/-- The node and all nodes in it. -/
def nodes : YamlNode → List YamlNode
  | .map items anchor tag => .map items anchor tag :: pairsNodes items
  | .seq items anchor tag => .seq items anchor tag :: itemsNodes items
  | node => [node]

def pairsNodes : List (YamlNode × Option YamlNode) → List YamlNode
  | [] => []
  | (key, none) :: rest => nodes key ++ pairsNodes rest
  | (key, some value) :: rest => nodes key ++ nodes value ++ pairsNodes rest

def itemsNodes : List YamlNode → List YamlNode
  | [] => []
  | node :: rest => nodes node ++ itemsNodes rest

end

end YamlNode

structure YamlDocument where
  errors : List String
  contents : Option YamlNode

/-- The functions of the parser's package. -/
structure YamlPackage where
  parseDocument : String → YamlDocument
  /-- The nodes that a visitor is called with, in order. -/
  visit : YamlDocument → List YamlNode
  toJS : YamlDocument → Json

def YAML_MERGE_KEY : String := "<<"

def restrictedYamlError (message : String) : CompileError where
  code := .restricted_yaml_violation
  path := ""
  message := message

def anchorError (anchor : String) : CompileError :=
  restrictedYamlError s!"Restricted-YAML profile violation: anchor \"&{anchor}\" is not allowed (D8a)."

def aliasError (source : String) : CompileError :=
  restrictedYamlError s!"Restricted-YAML profile violation: alias \"*{source}\" is not allowed (D8a)."

def tagError (tag : String) : CompileError :=
  restrictedYamlError s!"Restricted-YAML profile violation: custom tag \"{tag}\" is not allowed (D8a)."

def mergeKeyError : CompileError :=
  restrictedYamlError
    s!"Restricted-YAML profile violation: merge key \"{YAML_MERGE_KEY}\" is not allowed (D8a)."

/-- `"anchor" in node && node.anchor`: an empty text counts as none. -/
def present (text : Option String) : Option String := text.filter (· ≠ "")

def YamlNode.isMergeKey : YamlNode → Bool
  | .scalar (.str s) _ _ => s = YAML_MERGE_KEY
  | _ => false

/-- What the visitor finds in one node. -/
def nodeViolations (node : YamlNode) : List CompileError :=
  (present node.anchor).toList.map anchorError ++
    (match node with
      | .alias source => [aliasError source]
      | _ => []) ++
    (present node.tag).toList.map tagError ++
    (match node with
      | .map items _ _ => (items.filter (·.1.isMergeKey)).map fun _ => mergeKeyError
      | _ => [])

def findRestrictedProfileViolations (yaml : YamlPackage) (doc : YamlDocument) :
    List CompileError := (yaml.visit doc).flatMap nodeViolations

/-- A document, or the errors in the text. -/
abbrev ParsedYamlResult := Except (List CompileError) Json

def parseRestrictedYaml (yaml : YamlPackage) (source : String) : ParsedYamlResult :=
  let doc := yaml.parseDocument source
  if !doc.errors.isEmpty then
    .error (doc.errors.map fun message => restrictedYamlError s!"YAML parse error: {message}")
  else
    let violations := findRestrictedProfileViolations yaml doc
    if !violations.isEmpty then .error violations else .ok (yaml.toJS doc)

/-! ### Both ways into the compiler -/

inductive DocumentResult where
  | ok (executionPlan : Json)
  | failed (errors : List CompileError)

def DocumentResult.isOk : DocumentResult → Bool
  | .ok _ => true
  | .failed _ => false

section
variable (yaml : YamlPackage) (stack : ℕ) (validatorErrors : Json → List ValidationError)
variable (registryPool : RegistryDb)

/-- The stages after parsing. The document that has passed them is the plan. -/
def compileDocument (doc : Json) : DocumentResult :=
  let schemaResult := validateDocument stack validatorErrors doc
  if !schemaResult.valid then
    .failed (schemaResult.errors.map fun e => ⟨.schema_invalid, e.path, e.message⟩)
  else match decodeWorkflowSpec doc with
    | none => .failed [] -- A valid document is one of a specification.
    | some spec =>
        let semanticErrors := validateStepReferences spec
        if !semanticErrors.isEmpty then .failed semanticErrors
        else
          let registryErrors := validateServiceReferences registryPool spec
          if !registryErrors.isEmpty then .failed registryErrors
          else .ok doc

/-- `compile(input)`: a string is parsed first. -/
def compileInput : Json → DocumentResult
  | .str source => match parseRestrictedYaml yaml source with
      | .error errors => .failed errors
      | .ok doc => compileDocument stack validatorErrors registryPool doc
  | doc => compileDocument stack validatorErrors registryPool doc

end

/-- The plan of a document that the schema accepts is that of the specification it
is read as. -/
theorem compileDocument_eq_compile {stack : ℕ} {validatorErrors : Json → List ValidationError}
    {registryPool : RegistryDb} (doc : JsonDocument)
    (hvalid : (validateDocument stack validatorErrors doc.value).valid = true)
    (specErrors : WorkflowSpec → List ValidationError) :
    ∃ spec, decodeWorkflowSpec doc.value = some spec ∧
      compileDocument stack validatorErrors registryPool doc.value =
        match compile specErrors registryPool spec with
        | .ok _ => .ok doc.value
        | .failed errors => .failed errors := by
  have hstack : (validateFn stack doc.value).isSome := by
    cases hrun : validateFn stack doc.value with
    | none => simp [validateDocument, hrun] at hvalid
    | some accepted => rfl
  obtain ⟨spec, hdecode, hschema, -⟩ := decodes_workflowSpec doc.distinct
    ((validateDocument_valid doc.distinct hstack).mp hvalid)
  refine ⟨spec, hdecode, ?_⟩
  simp only [compileDocument, hvalid, hdecode, compile, validate, hschema, Bool.not_true,
    Bool.false_eq_true, if_false, if_true]
  split_ifs <;> rfl

/-! ### The syntax tree of a JSON document -/

namespace Json

mutual

/-- The tree of a JSON text, without any of the constructs that JSON lacks. -/
def yamlTree : Json → YamlNode
  | .arr items => .seq (itemTrees items) none none
  | .obj fields => .map (fieldTrees fields) none none
  | j => .scalar j none none

def itemTrees : List Json → List YamlNode
  | [] => []
  | j :: rest => yamlTree j :: itemTrees rest

def fieldTrees : List (String × Json) → List (YamlNode × Option YamlNode)
  | [] => []
  | (key, j) :: rest => (.scalar (.str key) none none, some (yamlTree j)) :: fieldTrees rest

end

mutual

/-- Some object of the document, at any depth, has a field of this name. -/
def hasName (name : String) : Json → Bool
  | .arr items => itemsHaveName name items
  | .obj fields => fieldsHaveName name fields
  | _ => false

def itemsHaveName (name : String) : List Json → Bool
  | [] => false
  | j :: rest => hasName name j || itemsHaveName name rest

def fieldsHaveName (name : String) : List (String × Json) → Bool
  | [] => false
  | (key, j) :: rest => key = name || hasName name j || fieldsHaveName name rest

end

end Json

/-- What the package does to the text of a JSON document: it is parsed without
errors into the tree of the document, a visitor gets to every node of it, and it
is converted back to the document. -/
structure YamlPackage.ReadsJson (yaml : YamlPackage) (doc : Json) : Prop where
  parses : yaml.parseDocument doc.stringify = ⟨[], some doc.yamlTree⟩
  visits : ∀ node, node ∈ yaml.visit ⟨[], some doc.yamlTree⟩ ↔ node ∈ doc.yamlTree.nodes
  converts : yaml.toJS ⟨[], some doc.yamlTree⟩ = doc

theorem isMergeKey_name (name : String) :
    (YamlNode.scalar (.str name) none none).isMergeKey = decide (name = YAML_MERGE_KEY) := rfl

theorem nodeViolations_scalar (j : Json) : nodeViolations (.scalar j none none) = [] := rfl

theorem nodeViolations_seq (items : List YamlNode) : nodeViolations (.seq items none none) = [] :=
  rfl

theorem nodeViolations_map (fields : List (String × Json)) :
    nodeViolations (.map (Json.fieldTrees fields) none none) = [] ↔
      ∀ p ∈ fields, p.1 ≠ YAML_MERGE_KEY := by
  change ((Json.fieldTrees fields).filter (·.1.isMergeKey)).map (fun _ => mergeKeyError) = [] ↔ _
  rw [List.map_eq_nil_iff, List.filter_eq_nil_iff]
  induction fields with
  | nil => simp [Json.fieldTrees]
  | cons p rest ih =>
      obtain ⟨name, j⟩ := p
      rw [Json.fieldTrees, List.forall_mem_cons, List.forall_mem_cons, ih, isMergeKey_name]
      simp

mutual

/-- In the tree of a JSON document only names can be found fault with. -/
theorem tree_clean_iff : (j : Json) → ((∀ node ∈ j.yamlTree.nodes, nodeViolations node = []) ↔
    j.hasName YAML_MERGE_KEY = false)
  | .null => by simp [Json.yamlTree, YamlNode.nodes, Json.hasName, nodeViolations_scalar]
  | .bool b => by simp [Json.yamlTree, YamlNode.nodes, Json.hasName, nodeViolations_scalar]
  | .num n => by simp [Json.yamlTree, YamlNode.nodes, Json.hasName, nodeViolations_scalar]
  | .str s => by simp [Json.yamlTree, YamlNode.nodes, Json.hasName, nodeViolations_scalar]
  | .arr items => by
      rw [Json.yamlTree, YamlNode.nodes, List.forall_mem_cons, itemTrees_clean_iff items,
        Json.hasName]
      exact and_iff_right (nodeViolations_seq _)
  | .obj fields => by
      rw [Json.yamlTree, YamlNode.nodes, List.forall_mem_cons, nodeViolations_map, Json.hasName]
      exact fieldTrees_clean_iff fields

theorem itemTrees_clean_iff : (items : List Json) →
    ((∀ node ∈ YamlNode.itemsNodes (Json.itemTrees items), nodeViolations node = []) ↔
      Json.itemsHaveName YAML_MERGE_KEY items = false)
  | [] => by simp [Json.itemTrees, YamlNode.itemsNodes, Json.itemsHaveName]
  | j :: rest => by
      rw [Json.itemTrees, YamlNode.itemsNodes, List.forall_mem_append, tree_clean_iff j,
        itemTrees_clean_iff rest, Json.itemsHaveName, Bool.or_eq_false_iff]

theorem fieldTrees_clean_iff : (fields : List (String × Json)) →
    ((∀ p ∈ fields, p.1 ≠ YAML_MERGE_KEY) ∧
        (∀ node ∈ YamlNode.pairsNodes (Json.fieldTrees fields), nodeViolations node = []) ↔
      Json.fieldsHaveName YAML_MERGE_KEY fields = false)
  | [] => by simp [Json.fieldTrees, YamlNode.pairsNodes, Json.fieldsHaveName]
  | (name, j) :: rest => by
      have hj := tree_clean_iff j
      have hrest := fieldTrees_clean_iff rest
      rw [Json.fieldTrees, YamlNode.pairsNodes, Json.fieldsHaveName, List.forall_mem_cons,
        List.forall_mem_append, List.forall_mem_append, Bool.or_eq_false_iff, Bool.or_eq_false_iff,
        ← hj, ← hrest, decide_eq_false_iff_not]
      have hkey : ∀ node ∈ (YamlNode.scalar (.str name) none none).nodes,
          nodeViolations node = [] := by
        simp [YamlNode.nodes, nodeViolations_scalar]
      tauto

end

/-! ### What the compiler itself reports -/

/-- The errors of the reference stage are its own. -/
theorem validateStepReferences_code {spec : WorkflowSpec} {e : CompileError}
    (h : e ∈ validateStepReferences spec) : e.code ≠ .restricted_yaml_violation := by
  rcases List.mem_append.mp h with hduplicate | hreference
  · obtain ⟨id, -, rfl⟩ := List.mem_map.mp hduplicate
    exact fun hcode => by cases hcode
  · obtain ⟨ref, -, he⟩ := List.mem_flatMap.mp hreference
    unfold referenceErrors at he
    split at he
    · rw [List.mem_singleton.mp he]
      exact fun hcode => by cases hcode
    · split_ifs at he
      · cases he
      · rw [List.mem_singleton.mp he]
        exact fun hcode => by cases hcode

theorem validateServiceReferences_code {db : RegistryDb} {spec : WorkflowSpec} {e : CompileError}
    (h : e ∈ validateServiceReferences db spec) : e.code ≠ .restricted_yaml_violation := by
  rw [validateServiceReferences_eq] at h
  obtain ⟨step, -, he⟩ := List.mem_flatMap.mp h
  unfold stepErrors entryErrors at he
  split at he
  · rw [List.mem_singleton.mp he]
    exact fun hcode => by cases hcode
  · split_ifs at he
    · cases he
    · rw [List.mem_singleton.mp he]
      exact fun hcode => by cases hcode

section
variable {yaml : YamlPackage} {stack : ℕ} {validatorErrors : Json → List ValidationError}
variable {registryPool : RegistryDb} {doc : Json} {errors : List CompileError}

theorem compileDocument_code (h : compileDocument stack validatorErrors registryPool doc =
    .failed errors) {e : CompileError} (he : e ∈ errors) : e.code ≠ .restricted_yaml_violation := by
  simp only [compileDocument] at h
  split_ifs at h
  · cases h
    obtain ⟨error, -, rfl⟩ := List.mem_map.mp he
    exact fun hcode => by cases hcode
  · split at h
    · cases h
      cases he
    · split_ifs at h
      · cases h
        exact validateStepReferences_code he
      · cases h
        exact validateServiceReferences_code he

/-- The violations that the profile finds in the text of a JSON document. -/
theorem violations_eq_nil_iff (h : yaml.ReadsJson doc) :
    findRestrictedProfileViolations yaml ⟨[], some doc.yamlTree⟩ = [] ↔
      doc.hasName YAML_MERGE_KEY = false := by
  rw [findRestrictedProfileViolations, List.flatMap_eq_nil_iff, ← tree_clean_iff]
  exact forall_congr' fun node => imp_congr_left (h.visits node)

theorem nodeViolations_code {node : YamlNode} {e : CompileError} (h : e ∈ nodeViolations node) :
    e.code = .restricted_yaml_violation := by
  simp only [nodeViolations, List.mem_append, List.mem_map] at h
  rcases h with ((⟨anchor, -, rfl⟩ | halias) | ⟨tag, -, rfl⟩) | hmerge
  · rfl
  · split at halias
    · rw [List.mem_singleton.mp halias]
      rfl
    · cases halias
  · rfl
  · split at hmerge
    · obtain ⟨pair, -, rfl⟩ := List.mem_map.mp hmerge
      rfl
    · cases hmerge

/-- The text of a JSON document is read as the document itself, unless it has a
name that is taken for a merge key. -/
theorem parseRestrictedYaml_stringify (h : yaml.ReadsJson doc) :
    (doc.hasName YAML_MERGE_KEY = false ∧ parseRestrictedYaml yaml doc.stringify = .ok doc) ∨
    (doc.hasName YAML_MERGE_KEY = true ∧ ∃ e errors,
      parseRestrictedYaml yaml doc.stringify = .error (e :: errors) ∧
        e.code = .restricted_yaml_violation) := by
  have hclean := violations_eq_nil_iff h
  simp only [parseRestrictedYaml, h.parses, List.isEmpty_nil, Bool.not_true, Bool.false_eq_true,
    if_false]
  cases hviolations : findRestrictedProfileViolations yaml ⟨[], some doc.yamlTree⟩ with
  | nil =>
      rw [List.isEmpty_nil, Bool.not_true, if_neg Bool.false_ne_true, h.converts]
      exact .inl ⟨hclean.mp hviolations, rfl⟩
  | cons e errors =>
      have hname : doc.hasName YAML_MERGE_KEY = true := by
        by_contra hnot
        rw [hclean.mpr (by simpa using hnot)] at hviolations
        cases hviolations
      have hmem : e ∈ findRestrictedProfileViolations yaml ⟨[], some doc.yamlTree⟩ := by
        rw [hviolations]
        exact List.mem_cons_self
      obtain ⟨node, -, he⟩ := List.mem_flatMap.mp hmem
      exact .inr ⟨hname, e, errors, rfl, nodeViolations_code he⟩

theorem compileInput_document (hdoc : ∀ s, doc ≠ .str s) :
    compileInput yaml stack validatorErrors registryPool doc =
      compileDocument stack validatorErrors registryPool doc := by
  cases doc with
  | str s => exact absurd rfl (hdoc s)
  | _ => rfl

end

/-- The compiler gives the same result for the text of a JSON document and for the
document itself exactly if no object in it has a field `<<`. -/
theorem input_paths_agree_iff (yaml : YamlPackage) (stack : ℕ)
    (validatorErrors : Json → List ValidationError) (registryPool : RegistryDb) (doc : JsonDocument)
    (hdoc : ∀ s, doc.value ≠ .str s) (hreads : yaml.ReadsJson doc.value) :
    compileInput yaml stack validatorErrors registryPool (.str doc.value.stringify) =
        compileInput yaml stack validatorErrors registryPool doc.value ↔
      doc.value.hasName YAML_MERGE_KEY = false := by
  rw [compileInput_document hdoc, compileInput]
  rcases parseRestrictedYaml_stringify hreads with ⟨hname, hparsed⟩ | ⟨hname, e, errors, hparsed, he⟩
  · rw [hparsed]
    exact iff_of_true rfl hname
  · rw [hparsed]
    refine iff_of_false (fun h => ?_) (by simp [hname])
    exact compileDocument_code h.symm List.mem_cons_self he

/-- The package, of which only the text of this document is known. -/
def packageReading (doc : Json) : YamlPackage where
  parseDocument source :=
    if source = doc.stringify then ⟨[], some doc.yamlTree⟩ else ⟨["unknown text"], none⟩
  visit parsed := match parsed.contents with
    | some node => node.nodes
    | none => []
  toJS _ := doc

theorem packageReading_reads (doc : Json) : (packageReading doc).ReadsJson doc where
  parses := if_pos rfl
  visits := fun _ => Iff.rfl
  converts := rfl

theorem input_paths_agree_greeting :
    compileInput (packageReading greetingDocument.value) 20 (fun _ => []) .empty
        (.str greetingDocument.value.stringify) =
      compileInput (packageReading greetingDocument.value) 20 (fun _ => []) .empty
        greetingDocument.value :=
  (input_paths_agree_iff _ 20 (fun _ => []) .empty greetingDocument
    (fun s h => by simp [greetingDocument, encodeWorkflowSpec, Json.object] at h)
    (packageReading_reads _)).mpr (by decide)

/-- A document with an output that is called `<<`. -/
def mergeNamed : JsonDocument where
  value := encodeWorkflowSpec
    { workflowSpecVersion := 1, name := "a", steps := [], outputs := some [("<<", .request "x")] }
  distinct := by decide

/-- The compiler accepts the document and refuses its text. -/
theorem merge_name_refused :
    (packageReading mergeNamed.value).ReadsJson mergeNamed.value ∧
    (compileInput (packageReading mergeNamed.value) 20 (fun _ => []) .empty
      (.str mergeNamed.value.stringify)).isOk = false ∧
    (compileInput (packageReading mergeNamed.value) 20 (fun _ => []) .empty
      mergeNamed.value).isOk = true :=
  ⟨packageReading_reads _, by decide +kernel, by decide +kernel⟩

end WorkflowPlatform
