import WorkflowPlatform.JsNumbers
import WorkflowPlatform.JsonSchema
import WorkflowPlatform.SpecSchema

/-!
# Specifications as documents

The schema of workflow specifications, definition by definition, and the document
of a specification: the fields of each type under their names, an optional field
only where it is set.
-/
namespace WorkflowPlatform
open Json (object encodeList encodeMap)

/-- The definitions of the schema, the document itself first. -/
inductive SpecDefinition where
  | workflowSpec
  | flatName
  | datasetUrn
  | ociDigestRef
  | jsonPointer
  | sessionStateDecl
  | sessionWriteTarget
  | secretRef
  | binding
  | bindingStatic
  | bindingSession
  | bindingRequest
  | bindingStep
  | bindingItem
  | bindingLiteral
  | bindingCompute
  | bindingItemResource
  | node
  | step
  | branchNode
  | caseBody
  | mapNode
deriving DecidableEq

/-- `{ "type": "string", "minLength": 1 }` -/
def nonEmptyString : Schema SpecDefinition := .all [.type .string, .minLength 1]

def bindingAlternatives : List SpecDefinition :=
  [.bindingStatic, .bindingSession, .bindingRequest, .bindingStep, .bindingItem, .bindingLiteral,
    .bindingCompute, .bindingItemResource]

def nodeAlternatives : List SpecDefinition := [.step, .branchNode, .mapNode]

/-- `workflow-spec.schema.json` -/
def workflowSpecSchema : SpecDefinition → Schema SpecDefinition
  | .workflowSpec => .closed ["workflowSpecVersion", "name", "steps"]
      [("workflowSpecVersion", .all [.type .integer, .minimum 1]),
        ("name", nonEmptyString),
        ("description", .type .string),
        ("inputParameters", .all [.type .array, .items (.ref .flatName), .uniqueItems]),
        ("sessionState", .mapOf (.ref .sessionStateDecl)),
        ("steps", .arrayOf (.ref .node)),
        ("outputs", .mapOf (.ref .binding))]
  | .flatName => .all [.type .string, .minLength 1, .pattern flatNamePattern]
  | .datasetUrn => .all [.type .string, .pattern datasetUrnPattern]
  | .ociDigestRef => .all [.type .string, .pattern ociDigestRefPattern]
  | .jsonPointer => .all [.type .string, .pattern jsonPointerPattern]
  | .sessionStateDecl => .closed ["interactivity"]
      [("interactivity", .all [.type .string, .enum ["interactive", "batch"]]),
        ("fallback", .ref .binding)]
  | .sessionWriteTarget => .closed ["to", "key"]
      [("to", .const "session"), ("key", nonEmptyString)]
  | .secretRef => .closed ["scope", "name"]
      [("scope", .all [.type .string, .enum ["writer", "user"]]), ("name", nonEmptyString)]
  | .binding => .all [.type .object, .oneOf (bindingAlternatives.map .ref)]
  | .bindingStatic => .closed ["from", "ref"]
      [("from", .const "static"), ("ref", .ref .datasetUrn)]
  | .bindingSession => .closed ["from", "key"]
      [("from", .const "session"), ("key", nonEmptyString)]
  | .bindingRequest => .closed ["from", "param"]
      [("from", .const "request"), ("param", .ref .flatName)]
  | .bindingStep => .closed ["from", "id", "output"]
      [("from", .const "step"), ("id", nonEmptyString), ("output", nonEmptyString)]
  | .bindingItem => .closed ["from"] [("from", .const "item")]
  | .bindingLiteral => .closed ["literal"] [("literal", .bool true)]
  | .bindingCompute => .closed ["compute"]
      [("compute", .type .object), ("using", .mapOf (.ref .binding))]
  | .bindingItemResource => .closed ["from", "itemId", "path"]
      [("from", .const "itemResource"), ("itemId", .ref .binding), ("path", .ref .jsonPointer)]
  | .node => .all [.type .object, .oneOf (nodeAlternatives.map .ref)]
  | .step => .closed ["id", "service", "function"]
      [("id", nonEmptyString),
        ("kind", .bool false),
        ("service", .ref .ociDigestRef),
        ("function", nonEmptyString),
        ("dependsOn", .arrayOf nonEmptyString),
        ("reads", .mapOf (.ref .binding)),
        ("writes", .mapOf (.ref .sessionWriteTarget)),
        ("secrets", .mapOf (.ref .secretRef))]
  | .branchNode => .closed ["id", "kind", "selector", "cases"]
      [("id", nonEmptyString),
        ("kind", .const "branch"),
        ("selector", .ref .binding),
        ("cases", .all [.type .object, .minProperties 1, .properties [] (.ref .caseBody)])]
  | .caseBody => .closed ["steps"]
      [("steps", .all [.type .array, .minItems 1, .items (.ref .node)]),
        ("yields", .mapOf (.ref .binding))]
  | .mapNode => .closed ["id", "kind", "source", "body"]
      [("id", nonEmptyString),
        ("kind", .const "map"),
        ("source", .ref .binding),
        ("body", .all [.type .array, .minItems 1, .items (.ref .node)]),
        ("yields", .mapOf (.ref .binding))]

/-- The function that ajv compiles from the schema, with a stack of the given depth. -/
def validateFn (stack : ℕ) (doc : Json) : Option Bool :=
  Schema.run workflowSpecSchema stack .workflowSpec doc

/-! ### The document of a specification -/

mutual

def encodeBinding : Binding → Json
  | .static ref => object [("from", some (.str "static")), ("ref", some (.str ref))]
  | .session key => object [("from", some (.str "session")), ("key", some (.str key))]
  | .request param => object [("from", some (.str "request")), ("param", some (.str param))]
  | .step id output =>
      object [("from", some (.str "step")), ("id", some (.str id)), ("output", some (.str output))]
  | .item => object [("from", some (.str "item"))]
  | .literal value => object [("literal", some value)]
  | .compute expression none => object [("compute", some (.obj expression)), ("using", none)]
  | .compute expression (some bindings) =>
      object [("compute", some (.obj expression)), ("using", some (.obj (encodeBindings bindings)))]
  | .itemResource itemId path =>
      object [("from", some (.str "itemResource")), ("itemId", some (encodeBinding itemId)),
        ("path", some (.str path))]

def encodeBindings : List (String × Binding) → JsonObject
  | [] => []
  | (key, b) :: rest => (key, encodeBinding b) :: encodeBindings rest

end

def encodeSessionStateDeclaration (d : SessionStateDeclaration) : Json :=
  object [("interactivity", some (.str (match d.interactivity with
      | .interactive => "interactive"
      | .batch => "batch"))),
    ("fallback", d.fallback.map encodeBinding)]

def encodeSessionWriteTarget (w : SessionWriteTarget) : Json :=
  object [("to", some (.str "session")), ("key", some (.str w.key))]

def encodeSecretRef (r : SecretRef) : Json :=
  object [("scope", some (.str (match r.scope with
      | .writer => "writer"
      | .user => "user"))),
    ("name", some (.str r.name))]

def encodeStep (s : Step) : Json :=
  object [("id", some (.str s.id)),
    ("kind", none),
    ("service", some (.str s.service)),
    ("function", some (.str s.function)),
    ("dependsOn", s.dependsOn.map (encodeList .str)),
    ("reads", s.reads.map (encodeMap encodeBinding)),
    ("writes", s.writes.map (encodeMap encodeSessionWriteTarget)),
    ("secrets", s.secrets.map (encodeMap encodeSecretRef))]

mutual

def encodeNode : Node → Json
  | .step s => encodeStep s
  | .branch id selector cases =>
      object [("id", some (.str id)),
        ("kind", some (.str "branch")),
        ("selector", some (encodeBinding selector)),
        ("cases", some (.obj (encodeCases cases)))]
  | .map id source body yields =>
      object [("id", some (.str id)),
        ("kind", some (.str "map")),
        ("source", some (encodeBinding source)),
        ("body", some (.arr (encodeNodes body))),
        ("yields", yields.map (encodeMap encodeBinding))]

def encodeNodes : List Node → List Json
  | [] => []
  | node :: rest => encodeNode node :: encodeNodes rest

def encodeCases : List (String × CaseBody) → JsonObject
  | [] => []
  | (key, .mk steps yields) :: rest =>
      (key, object [("steps", some (.arr (encodeNodes steps))),
        ("yields", yields.map (encodeMap encodeBinding))]) :: encodeCases rest

end

def encodeCaseBody : CaseBody → Json
  | .mk steps yields => object [("steps", some (.arr (encodeNodes steps))),
      ("yields", yields.map (encodeMap encodeBinding))]

def encodeWorkflowSpec (spec : WorkflowSpec) : Json :=
  object [("workflowSpecVersion", some (.num (.ofInt spec.workflowSpecVersion))),
    ("name", some (.str spec.name)),
    ("description", spec.description.map .str),
    ("inputParameters", spec.inputParameters.map (encodeList .str)),
    ("sessionState", spec.sessionState.map (encodeMap encodeSessionStateDeclaration)),
    ("steps", some (encodeList encodeNode spec.steps)),
    ("outputs", spec.outputs.map (encodeMap encodeBinding))]

theorem obj_encodeBindings (bindings : List (String × Binding)) :
    Json.obj (encodeBindings bindings) = encodeMap encodeBinding bindings := by
  rw [encodeMap, Json.obj.injEq]
  induction bindings with
  | nil => rfl
  | cons p rest ih =>
      obtain ⟨key, b⟩ := p
      rw [encodeBindings, ih, List.map_cons]

theorem arr_encodeNodes (nodes : List Node) :
    Json.arr (encodeNodes nodes) = encodeList encodeNode nodes := by
  rw [encodeList, Json.arr.injEq]
  induction nodes with
  | nil => rfl
  | cons node rest ih => rw [encodeNodes, ih, List.map_cons]

theorem obj_encodeCases (cases : List (String × CaseBody)) :
    Json.obj (encodeCases cases) = encodeMap encodeCaseBody cases := by
  rw [encodeMap, Json.obj.injEq]
  induction cases with
  | nil => rfl
  | cons p rest ih =>
      obtain ⟨key, steps, yields⟩ := p
      rw [encodeCases, ih, List.map_cons, encodeCaseBody]

end WorkflowPlatform
