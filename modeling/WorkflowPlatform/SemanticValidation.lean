import WorkflowPlatform.AssocList
import WorkflowPlatform.NodeWalk

/-!
# The references of a document

`validateStepReferences` walks a document once, recording the scope of every id
and every reference to a step with the scope it is made from. It then reports
the ids used twice, the references to an id that does not exist, and those that
reach into a case or a body from outside it, which it finds by comparing scope
paths.
-/
namespace WorkflowPlatform

inductive CompileErrorCode where
  | restricted_yaml_violation
  | schema_invalid
  | duplicate_step_id
  | unresolved_step_reference
  | internal_step_id_referenced_externally
  | unknown_service_digest
  | unknown_service_function
deriving DecidableEq

structure CompileError where
  code : CompileErrorCode
  path : String
  message : String
deriving DecidableEq

structure ReferenceSite where
  siteId : String
  siteScope : ScopePath
  targetId : String
deriving DecidableEq

/-- The target's scope is the site's own scope or one around it. -/
def isVisible (targetScope siteScope : ScopePath) : Bool :=
  if targetScope.length > siteScope.length then false
  else targetScope.zipIdx.all fun (segment, i) => siteScope[i]? == some segment

def stepRefsOf (binding : Option Binding) (siteId : String) (siteScope : ScopePath) :
    List ReferenceSite :=
  match binding with
  | none => []
  | some binding => (collectStepBindingIds binding).map (⟨siteId, siteScope, ·⟩)

def stepRefsOfMap (bindings : Option (List (String × Binding))) (siteId : String)
    (siteScope : ScopePath) : List ReferenceSite :=
  match bindings with
  | none => []
  | some bindings => bindings.flatMap fun (_, binding) => stepRefsOf (some binding) siteId siteScope

structure WalkResult where
  /-- The first scope each id was seen in. -/
  idToScope : List (String × ScopePath) := []
  duplicateIds : List String := []
  references : List ReferenceSite := []

def recordId (id : String) (scope : ScopePath) (result : WalkResult) : WalkResult :=
  if (result.idToScope.lookup id).isSome then
    { result with duplicateIds := result.duplicateIds.insert id }
  else { result with idToScope := result.idToScope ++ [(id, scope)] }

def WalkResult.addReferences (result : WalkResult) (sites : List ReferenceSite) : WalkResult :=
  { result with references := result.references ++ sites }

def referenceVisitor : NodeVisitor WalkResult where
  onStep step scope result :=
    (recordId step.id scope result).addReferences
      ((collectStepReferenceIds step).map (⟨step.id, scope, ·⟩))
  onBranch id selector scope result :=
    (recordId id scope result).addReferences (stepRefsOf (some selector) id scope)
  onCaseWalked id _ caseBody caseScope result :=
    match caseBody with
    | .mk _ yields => result.addReferences (stepRefsOfMap yields id caseScope)
  onMap id source scope result :=
    (recordId id scope result).addReferences (stepRefsOf (some source) id scope)
  onBodyWalked id yields bodyScope result :=
    result.addReferences (stepRefsOfMap yields id bodyScope)

/-- The references of the document itself: its outputs, and the fallbacks of its
session state, which must not reach into a case or a body either. -/
def documentReferences (spec : WorkflowSpec) : List ReferenceSite :=
  stepRefsOfMap spec.outputs "" [] ++
    (spec.sessionState.getD []).flatMap fun (key, decl) => stepRefsOf decl.fallback key []

def walkDocument (spec : WorkflowSpec) : WalkResult :=
  (walkNodes referenceVisitor spec.steps [] {}).addReferences (documentReferences spec)

def duplicateIdError (id : String) : CompileError where
  code := .duplicate_step_id
  path := id
  message := s!"Step id \"{id}\" is used more than once in this document - step ids share one flat, document-wide namespace (D8c)."

def unresolvedReferenceError (ref : ReferenceSite) : CompileError where
  code := .unresolved_step_reference
  path := ref.siteId
  message := s!"References step id \"{ref.targetId}\", which does not exist anywhere in this document."

def internalReferenceError (ref : ReferenceSite) : CompileError where
  code := .internal_step_id_referenced_externally
  path := ref.siteId
  message := s!"References step id \"{ref.targetId}\", which is internal to a branch case/map body this reference site is not part of (D8c)."

def referenceErrors (idToScope : List (String × ScopePath)) (ref : ReferenceSite) :
    List CompileError :=
  match idToScope.lookup ref.targetId with
  | none => [unresolvedReferenceError ref]
  | some targetScope =>
      if isVisible targetScope ref.siteScope then [] else [internalReferenceError ref]

def validateStepReferences (spec : WorkflowSpec) : List CompileError :=
  let result := walkDocument spec
  result.duplicateIds.map duplicateIdError ++
    result.references.flatMap (referenceErrors result.idToScope)

theorem isVisible_iff {targetScope siteScope : ScopePath} :
    isVisible targetScope siteScope = true ↔ targetScope <+: siteScope := by
  unfold isVisible
  split
  · next h =>
      simp only [Bool.false_eq_true, false_iff]
      intro hpre
      have := hpre.length_le
      omega
  · rw [List.prefix_iff_getElem?, List.all_eq_true]
    constructor
    · intro h i hi
      have := h (targetScope[i], i) (List.mem_zipIdx_iff_getElem?.mpr (by simp [hi]))
      simpa using this
    · intro h ⟨segment, i⟩ hmem
      have hseg := List.mem_zipIdx_iff_getElem?.mp hmem
      obtain ⟨hi, hget⟩ := List.getElem?_eq_some_iff.mp hseg
      simpa [hget] using h i hi

/-- What a visit defines. -/
def Visit.definitions : Visit → List (String × ScopePath)
  | .step s scope => [(s.id, scope)]
  | .branch id _ scope => [(id, scope)]
  | .caseWalked .. => []
  | .map id _ scope => [(id, scope)]
  | .bodyWalked .. => []

/-- What a visit refers to. -/
def Visit.references : Visit → List ReferenceSite
  | .step s scope => (collectStepReferenceIds s).map (⟨s.id, scope, ·⟩)
  | .branch id selector scope => stepRefsOf (some selector) id scope
  | .caseWalked id _ (.mk _ yields) scope => stepRefsOfMap yields id scope
  | .map id source scope => stepRefsOf (some source) id scope
  | .bodyWalked id yields scope => stepRefsOfMap yields id scope

def recordAll (definitions : List (String × ScopePath)) (result : WalkResult) : WalkResult :=
  definitions.foldl (fun r d => recordId d.1 d.2 r) result

theorem recordId_addReferences (id : String) (scope : ScopePath) (r : WalkResult)
    (sites : List ReferenceSite) :
    recordId id scope (r.addReferences sites) = (recordId id scope r).addReferences sites := by
  unfold recordId WalkResult.addReferences
  by_cases h : (r.idToScope.lookup id).isSome <;> simp [h]

theorem recordAll_addReferences (definitions : List (String × ScopePath)) (r : WalkResult)
    (sites : List ReferenceSite) :
    recordAll definitions (r.addReferences sites) =
      (recordAll definitions r).addReferences sites := by
  induction definitions generalizing r with
  | nil => rfl
  | cons d rest ih => simp only [recordAll, List.foldl_cons] at ih ⊢; rw [recordId_addReferences, ih]

theorem addReferences_append (r : WalkResult) (xs ys : List ReferenceSite) :
    (r.addReferences xs).addReferences ys = r.addReferences (xs ++ ys) := by
  simp [WalkResult.addReferences]

/-- One callback records what its visit defines and adds what it refers to. -/
theorem referenceVisitor_call (r : WalkResult) (v : Visit) :
    referenceVisitor.call r v = (recordAll v.definitions r).addReferences v.references := by
  cases v with
  | caseWalked id key caseBody scope => cases caseBody with | mk steps yields => rfl
  | bodyWalked => rfl
  | _ => rfl

theorem foldl_call (r : WalkResult) (vs : List Visit) :
    vs.foldl referenceVisitor.call r =
      (recordAll (vs.flatMap Visit.definitions) r).addReferences (vs.flatMap Visit.references) := by
  induction vs generalizing r with
  | nil => simp [recordAll, WalkResult.addReferences]
  | cons v rest ih =>
      rw [List.foldl_cons, ih, referenceVisitor_call, recordAll_addReferences, addReferences_append,
        List.flatMap_cons, List.flatMap_cons]
      simp only [recordAll, List.foldl_append]

def definitionsOf (spec : WorkflowSpec) : List (String × ScopePath) :=
  (visits spec.steps []).flatMap Visit.definitions

def referencesOf (spec : WorkflowSpec) : List ReferenceSite :=
  (visits spec.steps []).flatMap Visit.references ++ documentReferences spec

theorem walkDocument_eq (spec : WorkflowSpec) :
    walkDocument spec = (recordAll (definitionsOf spec) {}).addReferences (referencesOf spec) := by
  rw [walkDocument, walkNodes_eq_foldl, foldl_call, addReferences_append]
  rfl

theorem recordId_lookup (id : String) (scope : ScopePath) (r : WalkResult) (t : String) :
    (recordId id scope r).idToScope.lookup t =
      (r.idToScope.lookup t).or (if t = id then some scope else none) := by
  unfold recordId
  split
  · next h =>
      by_cases ht : t = id
      · subst ht
        obtain ⟨found, hfound⟩ := Option.isSome_iff_exists.mp h
        simp [hfound]
      · simp [ht]
  · rw [List.lookup_append, AssocList.lookup_cons_ite, List.lookup_nil]

/-- The first definition of an id is the one that stays. -/
theorem recordAll_lookup (definitions : List (String × ScopePath)) (r : WalkResult) (t : String) :
    (recordAll definitions r).idToScope.lookup t =
      (r.idToScope.lookup t).or (definitions.lookup t) := by
  induction definitions generalizing r with
  | nil => simp [recordAll]
  | cons d rest ih =>
      obtain ⟨id, scope⟩ := d
      have h := ih (recordId id scope r)
      simp only [recordAll, List.foldl_cons] at h ⊢
      rw [h, recordId_lookup, Option.or_assoc, AssocList.lookup_cons_ite]
      by_cases ht : t = id <;> simp [ht]

theorem recordId_duplicateIds (id : String) (scope : ScopePath) (r : WalkResult) :
    (recordId id scope r).duplicateIds = [] ↔
      r.duplicateIds = [] ∧ r.idToScope.lookup id = none := by
  unfold recordId
  split
  · next h =>
      have hne : r.duplicateIds.insert id ≠ [] :=
        List.ne_nil_of_mem (List.mem_insert_self)
      simp [hne, Option.isSome_iff_ne_none.mp h]
  · next h =>
      have hnone : r.idToScope.lookup id = none := by
        simpa only [Option.isSome_iff_ne_none, ne_eq, not_not] using h
      simp only [hnone, and_true]

/-- No id is reported as a duplicate when the recorded ones are distinct. -/
theorem recordAll_duplicateIds (definitions : List (String × ScopePath)) (r : WalkResult) :
    (recordAll definitions r).duplicateIds = [] ↔
      r.duplicateIds = [] ∧ (definitions.map Prod.fst).Nodup ∧
        ∀ id ∈ definitions.map Prod.fst, r.idToScope.lookup id = none := by
  induction definitions generalizing r with
  | nil => simp [recordAll]
  | cons d rest ih =>
      obtain ⟨id, scope⟩ := d
      have h := ih (recordId id scope r)
      simp only [recordAll, List.foldl_cons] at h ⊢
      rw [h, recordId_duplicateIds]
      simp only [recordId_lookup, List.map_cons, List.nodup_cons, List.forall_mem_cons,
        Option.or_eq_none_iff, ite_eq_right_iff, reduceCtorEq, imp_false]
      constructor
      · intro ⟨⟨hdup, hid⟩, hnodup, hrest⟩
        exact ⟨hdup, ⟨fun hmem => (hrest id hmem).2 rfl, hnodup⟩, hid, fun x hx => (hrest x hx).1⟩
      · intro ⟨hdup, ⟨hfresh, hnodup⟩, hid, hrest⟩
        exact ⟨⟨hdup, hid⟩, hnodup, fun x hx => ⟨hrest x hx, fun heq => hfresh (heq ▸ hx)⟩⟩

theorem recordAll_references (definitions : List (String × ScopePath)) (r : WalkResult) :
    (recordAll definitions r).references = r.references := by
  induction definitions generalizing r with
  | nil => rfl
  | cons d rest ih =>
      have h : (recordId d.1 d.2 r).references = r.references := by
        unfold recordId
        split <;> rfl
      exact (ih _).trans h

theorem referenceErrors_eq_nil_iff {idToScope : List (String × ScopePath)} {ref : ReferenceSite} :
    referenceErrors idToScope ref = [] ↔
      ∃ scope, idToScope.lookup ref.targetId = some scope ∧ scope <+: ref.siteScope := by
  unfold referenceErrors
  cases h : idToScope.lookup ref.targetId with
  | none => simp
  | some scope => simp [← isVisible_iff]

/-- The check passes a document whose ids are distinct and whose references
each name an id defined in the scope of the reference or around it. -/
theorem validateStepReferences_eq_nil_iff (spec : WorkflowSpec) :
    validateStepReferences spec = [] ↔
      ((definitionsOf spec).map Prod.fst).Nodup ∧
        ∀ ref ∈ referencesOf spec,
          ∃ scope, (ref.targetId, scope) ∈ definitionsOf spec ∧ scope <+: ref.siteScope := by
  have hdup := recordAll_duplicateIds (definitionsOf spec) {}
  have hlookup := recordAll_lookup (definitionsOf spec) {}
  rw [validateStepReferences, walkDocument_eq]
  simp only [WalkResult.addReferences, List.append_eq_nil_iff, List.map_eq_nil_iff, hdup,
    List.flatMap_eq_nil_iff, referenceErrors_eq_nil_iff, hlookup, List.lookup_nil,
    implies_true, and_true, true_and, Option.none_or]
  refine and_congr_right fun hnodup => ?_
  simp only [AssocList.lookup_eq_some_iff_mem hnodup]
  rw [recordAll_references, List.nil_append]

end WorkflowPlatform
