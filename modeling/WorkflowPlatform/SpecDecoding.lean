import WorkflowPlatform.JsonDecoding
import WorkflowPlatform.SpecLanguage

/-!
# Reading specifications

What the cast of a document to `WorkflowSpec` takes for granted: a binding is told
by `from` and, where that is absent, by `literal`; a node by `kind`; and each
property is read under its name. On every document that the schema accepts the
reader finds a specification, whose document is the one it has read. The number
that a reader is given bounds the nesting it goes into.
-/
namespace WorkflowPlatform
open Json (Decodes Image Matches decodeString decodeObject decodeList decodeMap encodeList encodeMap
  readField readOptional)

def decodeBinding : ℕ → Json → Option Binding
  | n + 1, .obj own =>
      match own.lookup "from" with
      | some (.str "static") => (readField own "ref" decodeString).map .static
      | some (.str "session") => (readField own "key" decodeString).map .session
      | some (.str "request") => (readField own "param" decodeString).map .request
      | some (.str "step") => do
          let id ← readField own "id" decodeString
          let output ← readField own "output" decodeString
          return .step id output
      | some (.str "item") => some .item
      | some (.str "itemResource") => do
          let itemId ← readField own "itemId" (decodeBinding n)
          let path ← readField own "path" decodeString
          return .itemResource itemId path
      | some _ => none
      | none =>
          match own.lookup "literal" with
          | some value => some (.literal value)
          | none => do
              let expression ← readField own "compute" decodeObject
              let bindings ← readOptional own "using" (decodeMap (decodeBinding n))
              return .compute expression bindings
  | _, _ => none

def decodeInteractivity : Json → Option Interactivity
  | .str "interactive" => some .interactive
  | .str "batch" => some .batch
  | _ => none

def decodeSessionStateDeclaration (n : ℕ) : Json → Option SessionStateDeclaration
  | .obj own => do
      let interactivity ← readField own "interactivity" decodeInteractivity
      let fallback ← readOptional own "fallback" (decodeBinding n)
      return ⟨interactivity, fallback⟩
  | _ => none

def decodeSessionWriteTarget : Json → Option SessionWriteTarget
  | .obj own => (readField own "key" decodeString).map .mk
  | _ => none

def decodeScope : Json → Option SecretScope
  | .str "writer" => some .writer
  | .str "user" => some .user
  | _ => none

def decodeSecretRef : Json → Option SecretRef
  | .obj own => do
      let scope ← readField own "scope" decodeScope
      let name ← readField own "name" decodeString
      return ⟨scope, name⟩
  | _ => none

def decodeStep (n : ℕ) (own : JsonObject) : Option Step := do
  let id ← readField own "id" decodeString
  let service ← readField own "service" decodeString
  let function ← readField own "function" decodeString
  let dependsOn ← readOptional own "dependsOn" (decodeList decodeString)
  let reads ← readOptional own "reads" (decodeMap (decodeBinding n))
  let writes ← readOptional own "writes" (decodeMap decodeSessionWriteTarget)
  let secrets ← readOptional own "secrets" (decodeMap decodeSecretRef)
  return ⟨id, service, function, dependsOn, reads, writes, secrets⟩

def decodeCaseBody (n : ℕ) (decodeNode : Json → Option Node) : Json → Option CaseBody
  | .obj own => do
      let steps ← readField own "steps" (decodeList decodeNode)
      let yields ← readOptional own "yields" (decodeMap (decodeBinding n))
      return .mk steps yields
  | _ => none

def decodeNode : ℕ → Json → Option Node
  | n + 1, .obj own =>
      match own.lookup "kind" with
      | none => (decodeStep n own).map .step
      | some (.str "branch") => do
          let id ← readField own "id" decodeString
          let selector ← readField own "selector" (decodeBinding n)
          let cases ← readField own "cases" (decodeMap (decodeCaseBody n (decodeNode n)))
          return .branch id selector cases
      | some (.str "map") => do
          let id ← readField own "id" decodeString
          let source ← readField own "source" (decodeBinding n)
          let body ← readField own "body" (decodeList (decodeNode n))
          let yields ← readOptional own "yields" (decodeMap (decodeBinding n))
          return .map id source body yields
      | some _ => none
  | _, _ => none

def decodeVersion : Json → Option ℤ
  | .num n => some n.toInt
  | _ => none

/-- `doc as WorkflowSpec` -/
def decodeWorkflowSpec (doc : Json) : Option WorkflowSpec :=
  match doc with
  | .obj own => do
      let version ← readField own "workflowSpecVersion" decodeVersion
      let name ← readField own "name" decodeString
      let description ← readOptional own "description" decodeString
      let inputParameters ← readOptional own "inputParameters" (decodeList decodeString)
      let sessionState ← readOptional own "sessionState"
        (decodeMap (decodeSessionStateDeclaration doc.depth))
      let steps ← readField own "steps" (decodeList (decodeNode doc.depth))
      let outputs ← readOptional own "outputs" (decodeMap (decodeBinding doc.depth))
      return ⟨version, name, description, inputParameters, sessionState, steps, outputs⟩
  | _ => none

section
variable {j x : Json} {own : JsonObject} {key : String} {n : ℕ}

def CaseBody.steps : CaseBody → List Node
  | .mk steps _ => steps

def CaseBody.yields : CaseBody → Option (List (String × Binding))
  | .mk _ yields => yields

theorem lookup_depth (h : own.lookup key = some x) : x.depth < (Json.obj own).depth := by
  have hmem : (key, x) ∈ own := by
    rw [List.lookup_eq_some_iff] at h
    obtain ⟨l, l', rfl, -⟩ := h
    simp
  exact Json.depth_field_lt hmem

theorem decodes_bindings (hj : j.namesDistinct = true) (h : ∀ x, x.namesDistinct = true →
    x.depth < j.depth → Decodes (decodeBinding n) encodeBinding (fun b => b.schemaValid = true) x) :
    Decodes (decodeMap (decodeBinding n)) (encodeMap encodeBinding)
      (fun m => ∀ p ∈ m, p.2.schemaValid = true) j := by
  apply @Json.decodes_map _ (decodeBinding n) encodeBinding (fun b => b.schemaValid = true) _ hj
  rintro own rfl p hp
  exact h p.2 ((Json.namesDistinct_obj.mp hj).2 p hp) (Json.depth_field_lt hp)

theorem read_str {s : String} (h : own.lookup key = some (.str s)) :
    readField own key decodeString = some s := by
  rw [readField, h, Option.bind_some, decodeString]

theorem decodes_itemResource {itemId : Binding} {path : String}
    (hparts : ∀ {key x}, own.lookup key = some x →
      Decodes (decodeBinding n) encodeBinding (fun b => b.schemaValid = true) x)
    (hb : (Binding.itemResource itemId path).schemaValid = true)
    (hsame : (encodeBinding (.itemResource itemId path)).same (.obj own) = true) :
    ∃ b, decodeBinding (n + 1) (.obj own) = some b ∧ b.schemaValid = true ∧
      (encodeBinding b).same (.obj own) = true := by
  have hfrom := (binding_source hsame).1
  rw [encodeBinding, Json.same_object_obj (by simp)] at hsame
  simp only [List.forall_mem_cons, List.not_mem_nil, false_implies, implies_true, and_true] at hsame
  obtain ⟨⟨hmatchFrom, hmatchItem, hmatchPath⟩, hown⟩ := hsame
  rw [Binding.schemaValid, Bool.and_eq_true] at hb
  obtain ⟨itemId', hitem, hvalid, hmatchItem'⟩ :=
    Json.readField_decodes (fun _ hx => hparts hx) hb.1 hmatchItem
  have hpath := read_str (Json.matches_str.mp hmatchPath)
  refine ⟨.itemResource itemId' path, ?_, ?_, ?_⟩
  · simp [decodeBinding, hfrom, Binding.source, hitem, hpath]
  · simp only [Binding.schemaValid, hvalid, hb.2, Bool.and_self]
  · rw [encodeBinding, Json.same_object_obj (by simp)]
    simp only [List.forall_mem_cons, List.not_mem_nil, false_implies, implies_true, and_true]
    exact ⟨⟨hmatchFrom, hmatchItem', hmatchPath⟩, hown⟩

/-- The literal that is read is the document's own value. -/
theorem decodes_literal {value : Json} (hj : (Json.obj own).namesDistinct = true)
    (hsame : (encodeBinding (.literal value)).same (.obj own) = true) :
    ∃ b, decodeBinding (n + 1) (.obj own) = some b ∧ b.schemaValid = true ∧
      (encodeBinding b).same (.obj own) = true := by
  have hfrom := (binding_source hsame).1
  rw [encodeBinding, Json.same_object_obj (by simp)] at hsame
  obtain ⟨hmatches, hown⟩ := hsame
  obtain ⟨y, hy, -⟩ := Json.matches_some.mp (hmatches _ List.mem_cons_self)
  refine ⟨.literal y, ?_, rfl, ?_⟩
  · simp [decodeBinding, hfrom, Binding.source, hy]
  · rw [encodeBinding, Json.same_object_obj (by simp)]
    have hyy := Json.same_refl y (lookup_distinct hj hy)
    exact ⟨by simpa [hy] using Json.matches_some.mpr ⟨y, rfl, hyy⟩, hown⟩

theorem decodes_compute {expression : JsonObject} {bindings : Option (List (String × Binding))}
    (hj : (Json.obj own).namesDistinct = true)
    (hbindings : ∀ {key x}, own.lookup key = some x →
      Decodes (decodeMap (decodeBinding n)) (encodeMap encodeBinding)
        (fun m => ∀ p ∈ m, p.2.schemaValid = true) x)
    (hb : (Binding.compute expression bindings).schemaValid = true)
    (hsame : (encodeBinding (.compute expression bindings)).same (.obj own) = true) :
    ∃ b, decodeBinding (n + 1) (.obj own) = some b ∧ b.schemaValid = true ∧
      (encodeBinding b).same (.obj own) = true := by
  obtain ⟨hfrom, hliteral⟩ := binding_source hsame
  have hnone : own.lookup "literal" = none := by
    have hnot := mt hliteral.mp (by simp [Binding.definition])
    rwa [Option.isSome_iff_ne_none, not_not] at hnot
  rw [encodeBinding_compute, Json.same_object_obj (by simp)] at hsame
  simp only [List.forall_mem_cons, List.not_mem_nil, false_implies, implies_true, and_true] at hsame
  obtain ⟨⟨hmatchCompute, hmatchUsing⟩, hown⟩ := hsame
  obtain ⟨y, hy, hsameExpression⟩ := Json.matches_some.mp hmatchCompute
  obtain ⟨expression', rfl, -⟩ := Json.same_obj.mp hsameExpression
  obtain ⟨bindings', husing, hvalid, hmatchUsing'⟩ := Json.readOptional_decodes
    (fun _ hx => hbindings hx) (compute_valid_iff.mp hb) hmatchUsing
  refine ⟨.compute expression' bindings', ?_, compute_valid_iff.mpr hvalid, ?_⟩
  · simp only [decodeBinding, hfrom, Binding.source, Option.map_none, hnone, readField, hy,
      Option.bind_some, decodeObject, husing]
    rfl
  · rw [encodeBinding_compute, Json.same_object_obj (by simp)]
    simp only [List.forall_mem_cons, List.not_mem_nil, false_implies, implies_true, and_true]
    have hyy := Json.same_refl _ (lookup_distinct hj hy)
    exact ⟨⟨Json.matches_some.mpr ⟨_, hy, hyy⟩, hmatchUsing'⟩, hown⟩

theorem decodes_binding (hj : j.namesDistinct = true) (hdepth : j.depth < n) :
    Decodes (decodeBinding n) encodeBinding (fun b => b.schemaValid = true) j := by
  induction n generalizing j with
  | zero => omega
  | succ n ih =>
      intro ⟨b, hb, hsame⟩
      obtain ⟨own, rfl⟩ := binding_object hsame
      have hparts : ∀ {key x}, own.lookup key = some x →
          Decodes (decodeBinding n) encodeBinding (fun b => b.schemaValid = true) x := by
        intro key x hx
        have hlt := lookup_depth hx
        exact ih (lookup_distinct hj hx) (by omega)
      have hbindings : ∀ {key x}, own.lookup key = some x →
          Decodes (decodeMap (decodeBinding n)) (encodeMap encodeBinding)
            (fun m => ∀ p ∈ m, p.2.schemaValid = true) x := by
        intro key x hx
        refine decodes_bindings (lookup_distinct hj hx) fun y hy hlt => ?_
        have hltx := lookup_depth hx
        exact ih hy (by omega)
      have hfrom := (binding_source hsame).1
      have hread := hsame
      cases b with
      | itemResource itemId path => exact decodes_itemResource hparts hb hsame
      | literal value => exact decodes_literal hj hsame
      | compute expression bindings => exact decodes_compute hj hbindings hb hsame
      | static ref =>
          rw [encodeBinding] at hread
          have href := read_str (Json.matches_str.mp (Json.lookup_of_same (by simp) hread "ref"))
          exact ⟨_, by simp [decodeBinding, hfrom, Binding.source, href], hb, hsame⟩
      | session key =>
          rw [encodeBinding] at hread
          have hkey := read_str (Json.matches_str.mp (Json.lookup_of_same (by simp) hread "key"))
          exact ⟨_, by simp [decodeBinding, hfrom, Binding.source, hkey], hb, hsame⟩
      | request param =>
          rw [encodeBinding] at hread
          have hparam :=
            read_str (Json.matches_str.mp (Json.lookup_of_same (by simp) hread "param"))
          exact ⟨_, by simp [decodeBinding, hfrom, Binding.source, hparam], hb, hsame⟩
      | step id output =>
          rw [encodeBinding] at hread
          have hid := read_str (Json.matches_str.mp (Json.lookup_of_same (by simp) hread "id"))
          have houtput :=
            read_str (Json.matches_str.mp (Json.lookup_of_same (by simp) hread "output"))
          exact ⟨_, by simp [decodeBinding, hfrom, Binding.source, hid, houtput], hb, hsame⟩
      | item => exact ⟨.item, by simp [decodeBinding, hfrom, Binding.source], hb, hsame⟩

theorem decodes_bindingMap (hj : j.namesDistinct = true) (hdepth : j.depth < n) :
    Decodes (decodeMap (decodeBinding n)) (encodeMap encodeBinding)
      (fun m => ∀ p ∈ m, p.2.schemaValid = true) j :=
  decodes_bindings hj fun _ hx hlt => decodes_binding hx (by omega)

theorem decodes_sessionStateDeclaration (hj : j.namesDistinct = true) (hdepth : j.depth < n) :
    Decodes (decodeSessionStateDeclaration n) encodeSessionStateDeclaration
      (fun d => d.schemaValid = true) j := by
  refine Json.decodes_object _ ["interactivity", "fallback"] (fun _ => rfl) (fun _ => rfl) (by decide) ?_
  rintro own rfl d hd hmatches
  simp only [List.forall_mem_cons, List.not_mem_nil, false_implies, implies_true, and_true]
    at hmatches ⊢
  obtain ⟨hmatchInteractivity, hmatchFallback⟩ := hmatches
  have hfallback : ∀ b ∈ d.fallback, b.schemaValid = true := by
    intro b hb
    rw [SessionStateDeclaration.schemaValid, hb] at hd
    exact hd
  obtain ⟨fallback, hread, hvalid, hmatchFallback'⟩ := Json.readOptional_decodes
    (fun x hx => decodes_binding (lookup_distinct hj hx) ((lookup_depth hx).trans hdepth))
    hfallback hmatchFallback
  have hinteractivity : readField own "interactivity" decodeInteractivity = some d.interactivity := by
    rw [readField, Json.matches_str.mp hmatchInteractivity, Option.bind_some]
    cases d.interactivity <;> rfl
  refine ⟨⟨d.interactivity, fallback⟩, ?_, ?_, hmatchInteractivity, hmatchFallback'⟩
  · simp [decodeSessionStateDeclaration, hinteractivity, hread]
  · cases fallback with
    | none => rfl
    | some b => exact hvalid b rfl

theorem decodes_sessionWriteTarget :
    Decodes decodeSessionWriteTarget encodeSessionWriteTarget (fun w => isNonEmpty w.key = true)
      j := by
  refine Json.decodes_object _ ["to", "key"] (fun _ => rfl) (fun _ => rfl) (by decide) ?_
  rintro own rfl w hw hmatches
  refine ⟨w, ?_, hw, hmatches⟩
  simp only [List.forall_mem_cons, List.not_mem_nil, false_implies, implies_true, and_true]
    at hmatches
  rw [decodeSessionWriteTarget, read_str (Json.matches_str.mp hmatches.2), Option.map_some]

theorem decodes_secretRef :
    Decodes decodeSecretRef encodeSecretRef (fun r => isNonEmpty r.name = true) j := by
  refine Json.decodes_object _ ["scope", "name"] (fun _ => rfl) (fun _ => rfl) (by decide) ?_
  rintro own rfl r hr hmatches
  refine ⟨r, ?_, hr, hmatches⟩
  simp only [List.forall_mem_cons, List.not_mem_nil, false_implies, implies_true, and_true]
    at hmatches
  have hscope : readField own "scope" decodeScope = some r.scope := by
    rw [readField, Json.matches_str.mp hmatches.1, Option.bind_some]
    cases r.scope <;> rfl
  simp [decodeSecretRef, hscope, read_str (Json.matches_str.mp hmatches.2)]

theorem decodes_writes (hj : j.namesDistinct = true) :
    Decodes (decodeMap decodeSessionWriteTarget) (encodeMap encodeSessionWriteTarget)
      (fun m => ∀ p ∈ m, isNonEmpty p.2.key = true) j :=
  @Json.decodes_map _ _ _ (fun w : SessionWriteTarget => isNonEmpty w.key = true) _ hj
    fun _ _ _ _ => decodes_sessionWriteTarget

theorem decodes_secrets (hj : j.namesDistinct = true) :
    Decodes (decodeMap decodeSecretRef) (encodeMap encodeSecretRef)
      (fun m => ∀ p ∈ m, isNonEmpty p.2.name = true) j :=
  @Json.decodes_map _ _ _ (fun r : SecretRef => isNonEmpty r.name = true) _ hj
    fun _ _ _ _ => decodes_secretRef

theorem decodes_step (hj : (Json.obj own).namesDistinct = true) (hdepth : (Json.obj own).depth ≤ n)
    {s : Step} (hs : s.schemaValid = true) (hsame : (encodeStep s).same (.obj own) = true) :
    ∃ s', decodeStep n own = some s' ∧ s'.schemaValid = true ∧
      (encodeStep s').same (.obj own) = true := by
  rw [encodeStep, Json.same_object_obj (by simp)] at hsame
  simp only [List.forall_mem_cons, List.not_mem_nil, false_implies, implies_true, and_true] at hsame
  obtain ⟨⟨hmatchId, hkind, hmatchService, hmatchFunction, hmatchDeps, hmatchReads, hmatchWrites,
    hmatchSecrets⟩, hown⟩ := hsame
  obtain ⟨hid, hservice, hfunction, hdeps, hreads, hwrites, hsecrets⟩ := step_valid_iff.mp hs
  obtain ⟨dependsOn, readDeps, hdeps', hmatchDeps'⟩ := Json.readOptional_decodes
    (fun x _ => Json.decodes_list fun _ _ _ _ => Json.decodes_string) hdeps hmatchDeps
  obtain ⟨reads, readReads, hreads', hmatchReads'⟩ := Json.readOptional_decodes
    (fun x hx => decodes_bindingMap (lookup_distinct hj hx) ((lookup_depth hx).trans_le hdepth))
    hreads hmatchReads
  obtain ⟨writes, readWrites, hwrites', hmatchWrites'⟩ := Json.readOptional_decodes
    (fun x hx => decodes_writes (lookup_distinct hj hx)) hwrites hmatchWrites
  obtain ⟨secrets, readSecrets, hsecrets', hmatchSecrets'⟩ := Json.readOptional_decodes
    (fun x hx => decodes_secrets (lookup_distinct hj hx)) hsecrets hmatchSecrets
  refine ⟨⟨s.id, s.service, s.function, dependsOn, reads, writes, secrets⟩, ?_,
    step_valid_iff.mpr ⟨hid, hservice, hfunction, hdeps', hreads', hwrites', hsecrets'⟩, ?_⟩
  · simp [decodeStep, read_str (Json.matches_str.mp hmatchId),
      read_str (Json.matches_str.mp hmatchService), read_str (Json.matches_str.mp hmatchFunction),
      readDeps, readReads, readWrites, readSecrets]
  · rw [encodeStep, Json.same_object_obj (by simp)]
    simp only [List.forall_mem_cons, List.not_mem_nil, false_implies, implies_true, and_true]
    exact ⟨⟨hmatchId, hkind, hmatchService, hmatchFunction, hmatchDeps', hmatchReads',
      hmatchWrites', hmatchSecrets'⟩, hown⟩

theorem decodes_nodes {decode : Json → Option Node} (h : ∀ x, x.namesDistinct = true →
    x.depth < j.depth → Decodes decode encodeNode (fun n => nodeValid n = true) x)
    (hj : j.namesDistinct = true) :
    Decodes (decodeList decode) (encodeList encodeNode) (fun l => ∀ n ∈ l, nodeValid n = true) j := by
  apply Json.decodes_list
  rintro elements rfl x hx
  exact h x (Json.namesDistinct_arr.mp hj x hx) (Json.depth_item_lt hx)

/-- A nonempty list stays nonempty: the two lists have the document of one array. -/
theorem nodes_ne_nil {l l' : List Node} {o : Option Json} (hne : l ≠ [])
    (h : Matches (some (encodeList encodeNode l)) o)
    (h' : Matches (some (encodeList encodeNode l')) o) : l' ≠ [] := by
  obtain ⟨y, rfl, hsame⟩ := Json.matches_some.mp h
  obtain ⟨y', heq, hsame'⟩ := Json.matches_some.mp h'
  cases heq
  exact fun hnil => hne ((Json.encodeList_same hsame).mp ((Json.encodeList_same hsame').mpr hnil))

theorem cases_ne_nil {m m' : List (String × CaseBody)} {o : Option Json} (hne : m ≠ [])
    (h : Matches (some (encodeMap encodeCaseBody m)) o)
    (h' : Matches (some (encodeMap encodeCaseBody m')) o) : m' ≠ [] := by
  obtain ⟨y, rfl, hsame⟩ := Json.matches_some.mp h
  obtain ⟨y', heq, hsame'⟩ := Json.matches_some.mp h'
  cases heq
  exact fun hnil => hne ((Json.encodeMap_same hsame).mp ((Json.encodeMap_same hsame').mpr hnil))

theorem caseBody_valid_iff {steps : List Node} {yields : Option (List (String × Binding))} :
    (CaseBody.mk steps yields).schemaValid = true ↔
      ((∀ n ∈ steps, nodeValid n = true) ∧ steps ≠ []) ∧
        ∀ m ∈ yields, ∀ p ∈ m, p.2.schemaValid = true := by
  simp only [CaseBody.schemaValid, Bool.and_eq_true, nodesValid_iff, bindingMapValid_iff,
    forall_getD, Bool.not_eq_true', List.isEmpty_eq_false_iff]
  rw [and_comm (a := steps ≠ [])]

theorem decodes_caseBody {decode : Json → Option Node} (hj : j.namesDistinct = true)
    (hdepth : j.depth < n) (h : ∀ x, x.namesDistinct = true → x.depth < j.depth →
      Decodes decode encodeNode (fun n => nodeValid n = true) x) :
    Decodes (decodeCaseBody n decode) encodeCaseBody (fun c => c.schemaValid = true) j := by
  refine Json.decodes_object (fun c => [("steps", some (encodeList encodeNode c.steps)),
    ("yields", c.yields.map (encodeMap encodeBinding))]) ["steps", "yields"] ?_ (fun _ => rfl)
    (by decide) ?_
  · rintro ⟨steps, yields⟩
    rw [encodeCaseBody, arr_encodeNodes]
    rfl
  rintro own rfl ⟨steps, yields⟩ hvalid hmatches
  simp only [List.forall_mem_cons, List.not_mem_nil, false_implies, implies_true, and_true]
    at hmatches ⊢
  obtain ⟨hmatchSteps, hmatchYields⟩ := hmatches
  obtain ⟨⟨hsteps, hne⟩, hyields⟩ := caseBody_valid_iff.mp hvalid
  obtain ⟨steps', readSteps, hsteps', hmatchSteps'⟩ := Json.readField_decodes
    (fun x hx => decodes_nodes (fun y hy hlt => h y hy (hlt.trans (lookup_depth hx)))
      (lookup_distinct hj hx)) hsteps hmatchSteps
  obtain ⟨yields', readYields, hyields', hmatchYields'⟩ := Json.readOptional_decodes
    (fun x hx => decodes_bindingMap (lookup_distinct hj hx) ((lookup_depth hx).trans hdepth))
    hyields hmatchYields
  refine ⟨.mk steps' yields', ?_, caseBody_valid_iff.mpr
    ⟨⟨hsteps', nodes_ne_nil hne hmatchSteps hmatchSteps'⟩, hyields'⟩, hmatchSteps', hmatchYields'⟩
  simp [decodeCaseBody, readSteps, readYields]

theorem decodes_cases {decode : Json → Option Node} (hj : j.namesDistinct = true)
    (hdepth : j.depth < n) (h : ∀ x, x.namesDistinct = true → x.depth < j.depth →
      Decodes decode encodeNode (fun n => nodeValid n = true) x) :
    Decodes (decodeMap (decodeCaseBody n decode)) (encodeMap encodeCaseBody)
      (fun m => ∀ p ∈ m, p.2.schemaValid = true) j := by
  apply @Json.decodes_map _ (decodeCaseBody n decode) encodeCaseBody
    (fun c => c.schemaValid = true) _ hj
  rintro own rfl p hp
  have hlt := Json.depth_field_lt hp
  exact decodes_caseBody ((Json.namesDistinct_obj.mp hj).2 p hp) (hlt.trans hdepth)
    fun x hx hltx => h x hx (hltx.trans hlt)

theorem branch_valid_iff {id : String} {selector : Binding} {cases : List (String × CaseBody)} :
    nodeValid (.branch id selector cases) = true ↔
      ((isNonEmpty id = true ∧ selector.schemaValid = true) ∧ cases ≠ []) ∧
        ∀ p ∈ cases, p.2.schemaValid = true := by
  simp only [nodeValid, Bool.and_eq_true, casesValid_iff, Bool.not_eq_true',
    List.isEmpty_eq_false_iff]

theorem map_valid_iff {id : String} {source : Binding} {body : List Node}
    {yields : Option (List (String × Binding))} :
    nodeValid (.map id source body yields) = true ↔
      (((isNonEmpty id = true ∧ source.schemaValid = true) ∧ body ≠ []) ∧
        ∀ n ∈ body, nodeValid n = true) ∧ ∀ m ∈ yields, ∀ p ∈ m, p.2.schemaValid = true := by
  simp only [nodeValid, Bool.and_eq_true, nodesValid_iff, bindingMapValid_iff, forall_getD,
    Bool.not_eq_true', List.isEmpty_eq_false_iff]

/-- The parts of a node are read with less nesting left. -/
theorem decodes_branchNode {id : String} {selector : Binding} {cases : List (String × CaseBody)}
    (hj : (Json.obj own).namesDistinct = true) (hdepth : (Json.obj own).depth ≤ n)
    (hparts : ∀ x, x.namesDistinct = true → x.depth < n →
      Decodes (decodeNode n) encodeNode (fun m => nodeValid m = true) x)
    (hnode : nodeValid (.branch id selector cases) = true)
    (hsame : (encodeNode (.branch id selector cases)).same (.obj own) = true) :
    ∃ node, decodeNode (n + 1) (.obj own) = some node ∧ nodeValid node = true ∧
      (encodeNode node).same (.obj own) = true := by
  have hkind := node_kind hsame
  obtain ⟨⟨⟨hid, hselector⟩, hne⟩, hcases⟩ := branch_valid_iff.mp hnode
  rw [encodeNode, obj_encodeCases, Json.same_object_obj (by simp)] at hsame
  simp only [List.forall_mem_cons, List.not_mem_nil, false_implies, implies_true, and_true] at hsame
  obtain ⟨⟨hmatchId, hmatchKind, hmatchSelector, hmatchCases⟩, hown⟩ := hsame
  obtain ⟨selector', readSelector, hselector', hmatchSelector'⟩ := Json.readField_decodes
    (fun x hx => decodes_binding (lookup_distinct hj hx) ((lookup_depth hx).trans_le hdepth))
    hselector hmatchSelector
  obtain ⟨cases', readCases, hcases', hmatchCases'⟩ := Json.readField_decodes
    (fun x hx => decodes_cases (lookup_distinct hj hx) ((lookup_depth hx).trans_le hdepth)
      fun y hy hlt => hparts y hy (hlt.trans ((lookup_depth hx).trans_le hdepth)))
    hcases hmatchCases
  have readId := read_str (Json.matches_str.mp hmatchId)
  refine ⟨.branch id selector' cases', ?_, branch_valid_iff.mpr
    ⟨⟨⟨hid, hselector'⟩, cases_ne_nil hne hmatchCases hmatchCases'⟩, hcases'⟩, ?_⟩
  · simp [decodeNode, hkind, Node.kind, readId, readSelector, readCases]
  · rw [encodeNode, obj_encodeCases, Json.same_object_obj (by simp)]
    simp only [List.forall_mem_cons, List.not_mem_nil, false_implies, implies_true, and_true]
    exact ⟨⟨hmatchId, hmatchKind, hmatchSelector', hmatchCases'⟩, hown⟩

theorem decodes_mapNode {id : String} {source : Binding} {body : List Node}
    {yields : Option (List (String × Binding))}
    (hj : (Json.obj own).namesDistinct = true) (hdepth : (Json.obj own).depth ≤ n)
    (hparts : ∀ x, x.namesDistinct = true → x.depth < n →
      Decodes (decodeNode n) encodeNode (fun m => nodeValid m = true) x)
    (hnode : nodeValid (.map id source body yields) = true)
    (hsame : (encodeNode (.map id source body yields)).same (.obj own) = true) :
    ∃ node, decodeNode (n + 1) (.obj own) = some node ∧ nodeValid node = true ∧
      (encodeNode node).same (.obj own) = true := by
  have hkind := node_kind hsame
  obtain ⟨⟨⟨⟨hid, hsource⟩, hne⟩, hbody⟩, hvalidYields⟩ := map_valid_iff.mp hnode
  rw [encodeNode, arr_encodeNodes, Json.same_object_obj (by simp)] at hsame
  simp only [List.forall_mem_cons, List.not_mem_nil, false_implies, implies_true, and_true] at hsame
  obtain ⟨⟨hmatchId, hmatchKind, hmatchSource, hmatchBody, hmatchYields⟩, hown⟩ := hsame
  obtain ⟨source', readSource, hsource', hmatchSource'⟩ := Json.readField_decodes
    (fun x hx => decodes_binding (lookup_distinct hj hx) ((lookup_depth hx).trans_le hdepth))
    hsource hmatchSource
  obtain ⟨body', readBody, hbody', hmatchBody'⟩ := Json.readField_decodes
    (fun x hx => decodes_nodes
      (fun y hy hlt => hparts y hy (hlt.trans ((lookup_depth hx).trans_le hdepth)))
      (lookup_distinct hj hx)) hbody hmatchBody
  obtain ⟨yields', readYields, hyields', hmatchYields'⟩ := Json.readOptional_decodes
    (fun x hx => decodes_bindingMap (lookup_distinct hj hx) ((lookup_depth hx).trans_le hdepth))
    hvalidYields hmatchYields
  have readId := read_str (Json.matches_str.mp hmatchId)
  refine ⟨.map id source' body' yields', ?_, map_valid_iff.mpr
    ⟨⟨⟨⟨hid, hsource'⟩, nodes_ne_nil hne hmatchBody hmatchBody'⟩, hbody'⟩, hyields'⟩, ?_⟩
  · simp [decodeNode, hkind, Node.kind, readId, readSource, readBody, readYields]
  · rw [encodeNode, arr_encodeNodes, Json.same_object_obj (by simp)]
    simp only [List.forall_mem_cons, List.not_mem_nil, false_implies, implies_true, and_true]
    exact ⟨⟨hmatchId, hmatchKind, hmatchSource', hmatchBody', hmatchYields'⟩, hown⟩

theorem decodes_node (hj : j.namesDistinct = true) (hdepth : j.depth < n) :
    Decodes (decodeNode n) encodeNode (fun node => nodeValid node = true) j := by
  induction n generalizing j with
  | zero => omega
  | succ n ih =>
      intro ⟨node, hnode, hsame⟩
      obtain ⟨own, rfl⟩ := node_object hsame
      have hle : (Json.obj own).depth ≤ n := by omega
      cases node with
      | step s =>
          obtain ⟨s', hread, hs', hsame'⟩ := decodes_step hj hle hnode hsame
          refine ⟨.step s', ?_, hs', hsame'⟩
          simp only [decodeNode, node_kind hsame, Node.kind, Option.map_none, hread,
            Option.map_some]
      | branch id selector cases =>
          exact decodes_branchNode hj hle (fun _ hx hlt => ih hx hlt) hnode hsame
      | map id source body yields =>
          exact decodes_mapNode hj hle (fun _ hx hlt => ih hx hlt) hnode hsame

theorem decodes_inputParameters :
    Decodes (decodeList decodeString) (encodeList .str)
      (fun l => (∀ s ∈ l, flatName s = true) ∧ l.Nodup) j := by
  rintro ⟨l, ⟨hflat, hnodup⟩, hsame⟩
  have hdecodes : Decodes (decodeList decodeString) (encodeList .str)
      (fun l => ∀ s ∈ l, flatName s = true) j :=
    Json.decodes_list fun _ _ _ _ => Json.decodes_string
  obtain ⟨l', hread, hflat', hsame'⟩ := hdecodes ⟨l, hflat, hsame⟩
  have heq : encodeList Json.str l = encodeList Json.str l' :=
    (encodeList_str_same.mp hsame).symm.trans (encodeList_str_same.mp hsame')
  have hl : l = l' := List.map_injective_iff.mpr (fun _ _ => Json.str.inj) (Json.arr.inj heq)
  exact ⟨l', hread, ⟨hflat', hl ▸ hnodup⟩, hsame'⟩

theorem decodes_sessionState (hj : j.namesDistinct = true) (hdepth : j.depth < n) :
    Decodes (decodeMap (decodeSessionStateDeclaration n)) (encodeMap encodeSessionStateDeclaration)
      (fun m => ∀ p ∈ m, p.2.schemaValid = true) j := by
  apply @Json.decodes_map _ (decodeSessionStateDeclaration n) encodeSessionStateDeclaration
    (fun d => d.schemaValid = true) _ hj
  rintro own rfl p hp
  exact decodes_sessionStateDeclaration ((Json.namesDistinct_obj.mp hj).2 p hp)
    ((Json.depth_field_lt hp).trans hdepth)

/-- Every document of a valid specification is read, as a valid specification with that
document. -/
theorem decodes_workflowSpec (hj : j.namesDistinct = true) :
    Decodes decodeWorkflowSpec encodeWorkflowSpec (fun spec => spec.schemaValid = true) j := by
  refine Json.decodes_object _ ["workflowSpecVersion", "name", "description", "inputParameters",
    "sessionState", "steps", "outputs"] (fun _ => rfl) (fun _ => rfl) (by decide) ?_
  rintro own rfl spec hvalid hmatches
  simp only [List.forall_mem_cons, List.not_mem_nil, false_implies, implies_true, and_true]
    at hmatches ⊢
  obtain ⟨hmatchVersion, hmatchName, hmatchDescription, hmatchParameters, hmatchState, hmatchSteps,
    hmatchOutputs⟩ := hmatches
  obtain ⟨hversion, hname, hparameters, hstate, hsteps, houtputs⟩ := spec_valid_iff.mp hvalid
  have readVersion : readField own "workflowSpecVersion" decodeVersion =
      some spec.workflowSpecVersion := by
    obtain ⟨y, hy, hsame⟩ := Json.matches_some.mp hmatchVersion
    rw [readField, hy, Option.bind_some, Json.same_num.mp hsame, decodeVersion,
      JsNumber.toInt_ofInt]
  have hstring : ∀ x, Decodes decodeString .str (fun _ => True) x := fun _ => Json.decodes_string
  obtain ⟨description, readDescription, -, hmatchDescription'⟩ :=
    Json.readOptional_decodes (fun x _ => hstring x) (fun _ _ => trivial) hmatchDescription
  obtain ⟨inputParameters, readParameters, hparameters', hmatchParameters'⟩ :=
    Json.readOptional_decodes (fun _ _ => decodes_inputParameters) hparameters hmatchParameters
  obtain ⟨sessionState, readState, hstate', hmatchState'⟩ := Json.readOptional_decodes
    (fun x hx => decodes_sessionState (lookup_distinct hj hx) (lookup_depth hx)) hstate hmatchState
  obtain ⟨steps, readSteps, hsteps', hmatchSteps'⟩ := Json.readField_decodes
    (fun x hx => decodes_nodes (fun y hy hlt => decodes_node hy (hlt.trans (lookup_depth hx)))
      (lookup_distinct hj hx)) hsteps hmatchSteps
  obtain ⟨outputs, readOutputs, houtputs', hmatchOutputs'⟩ := Json.readOptional_decodes
    (fun x hx => decodes_bindingMap (lookup_distinct hj hx) (lookup_depth hx))
    houtputs hmatchOutputs
  have readName := read_str (Json.matches_str.mp hmatchName)
  refine ⟨⟨spec.workflowSpecVersion, spec.name, description, inputParameters, sessionState, steps,
      outputs⟩, ?_, spec_valid_iff.mpr
    ⟨hversion, hname, hparameters', hstate', hsteps', houtputs'⟩, hmatchVersion, hmatchName,
    hmatchDescription', hmatchParameters', hmatchState', hmatchSteps', hmatchOutputs'⟩
  simp [decodeWorkflowSpec, readVersion, readName, readDescription, readParameters, readState,
    readSteps, readOutputs]

end
end WorkflowPlatform
