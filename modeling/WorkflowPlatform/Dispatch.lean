import Mathlib.Data.List.Sort
import WorkflowPlatform.Repositories
import WorkflowPlatform.WorkflowSpec

/-!
# Dispatching one step to the agent

A step's resolved inputs become the arguments of one request. What comes back is
sorted into three: an output, a failure that the agent reports, and an error.
Only an error of class `RetryableError` says that nothing definite came back.
-/
namespace WorkflowPlatform

def AGENT_INVOKE_PATH : String := "/invoke"

def AGENT_FETCH_TIMEOUT_MARGIN_MS : ℕ := 5000

inductive InvocationStyle where
  | flag
  | positional
  | stdin
deriving DecidableEq

structure InvocationDescriptorEntry where
  param : String
  style : InvocationStyle
  flagName : Option String := none
  positionIndex : Option ℕ := none

inductive StateReuse where
  | none
  | stateIdKeyed
deriving DecidableEq

structure DispatchCapability where
  invocationDescriptor : List InvocationDescriptorEntry := []
  stateReuse : StateReuse := .none

/-- `/^[a-zA-Z][a-zA-Z0-9-]*$/` -/
def validArgFlagName (key : String) : Bool :=
  match key.toList with
  | [] => false
  | c :: rest => c.isAlpha && rest.all fun d => d.isAlphanum || d = '-'

def assertValidArgFlagName (key : String) : Except Failure Unit :=
  if validArgFlagName key then .ok ()
  else .error (.fatal .WORKER_INVALID_ARG_FLAG_NAME [("key", ErrorContext.ofString key)])

/-- The text of an argument; a function has none. -/
def stringifyArgValue : JsValue → Option String
  | .json (.str s) => some s
  | value => value.stringify

/-- A text that starts with a dash is refused, and `undefined` has no
`startsWith`. -/
def assertSafeArgValue (key : String) : Option String → Except Failure String
  | none => .error .typeError
  | some value =>
      if value.toList.head? = some '-' then
        .error (.fatal .WORKER_UNSAFE_ARG_VALUE [("key", ErrorContext.ofString key)])
      else .ok value

def translateArgs (heavyParams : List String) :
    List (String × JsValue) → Except Failure (List (String × String))
  | [] => .ok []
  | (key, value) :: rest =>
      match value with
      | .undefined => translateArgs heavyParams rest
      | value =>
          if key ∈ heavyParams then translateArgs heavyParams rest
          else do
            assertValidArgFlagName key
            let stringified ← assertSafeArgValue key (stringifyArgValue value)
            let args ← translateArgs heavyParams rest
            .ok ((key, stringified) :: args)

def translateArgsToInvokeArgs (resolvedInput : List (String × JsValue))
    (invocationDescriptor : List InvocationDescriptorEntry) :
    Except Failure (List (String × String)) :=
  translateArgs (invocationDescriptor.map (·.param)) resolvedInput

/-- `value.split(/[/\\]/).includes("..")` -/
def hasParentSegment (value : String) : Bool :=
  (value.toList.splitOnP fun c => c = '/' || c = '\\').any (· = ['.', '.'])

def assertHeavyBindingIsPath (param : String) (value : JsValue) : Except Failure String :=
  match value with
  | .json (.str s) =>
      if s = "" then
        .error (.fatal .WORKER_INVALID_HEAVY_BINDING_VALUE
          [("param", ErrorContext.ofString param), ("value", .value value)])
      else do
        let path ← assertSafeArgValue param (some s)
        if hasParentSegment path then
          .error (.fatal .WORKER_UNSAFE_ARG_VALUE
            [("key", ErrorContext.ofString param), ("value", .value value)])
        else .ok path
  | _ => .error (.fatal .WORKER_INVALID_HEAVY_BINDING_VALUE
      [("param", ErrorContext.ofString param), ("value", .value value)])

/-- `resolvedInput[param]` -/
def resolvedValue (resolvedInput : List (String × JsValue)) (param : String) : JsValue :=
  match resolvedInput.lookup param with
  | some value => value
  | none => JsValue.inherited .object param

structure RenderedHeavyBindings where
  dataFiles : List AgentDataFile := []
  positionalByIndex : List (ℕ × String) := []

def renderEntries (resolvedInput : List (String × JsValue)) (stateId : Option String) :
    List InvocationDescriptorEntry → RenderedHeavyBindings →
      Except Failure RenderedHeavyBindings
  | [], rendered => .ok rendered
  | entry :: rest, rendered =>
      match resolvedValue resolvedInput entry.param with
      | .undefined => renderEntries resolvedInput stateId rest rendered
      | value => do
          let path ← assertHeavyBindingIsPath entry.param value
          match entry.style with
          | .flag =>
              renderEntries resolvedInput stateId rest { rendered with
                dataFiles := rendered.dataFiles ++ [{ flag := entry.flagName, path, stateId }] }
          | .positional =>
              let index := entry.positionIndex.getD 0
              if (rendered.positionalByIndex.lookup index).isSome then
                .error (.fatal .WORKER_INVALID_HEAVY_BINDING_VALUE
                  [("param", ErrorContext.ofString entry.param),
                   ("positionIndex", ErrorContext.ofNat index),
                   ("reason", ErrorContext.ofString "duplicate positionIndex")])
              else
                renderEntries resolvedInput stateId rest { rendered with
                  positionalByIndex := rendered.positionalByIndex ++ [(index, path)] }
          | .stdin =>
              renderEntries resolvedInput stateId rest { rendered with
                dataFiles := rendered.dataFiles ++ [{ path, stateId, stdinFromPath := true }] }

/-- The data files in descriptor order and the positional paths by index. -/
def renderHeavyBindings (resolvedInput : List (String × JsValue))
    (capability : DispatchCapability) (contentHash : Option String) :
    Except Failure (List AgentDataFile × List String) := do
  let stateId :=
    if capability.stateReuse = .stateIdKeyed ∧ contentHash ≠ some "" then contentHash else none
  let rendered ← renderEntries resolvedInput stateId capability.invocationDescriptor {}
  .ok (rendered.dataFiles,
    (rendered.positionalByIndex.insertionSort fun a b => a.1 ≤ b.1).map Prod.snd)

structure BuildInvokeRequestParams where
  executionId : ℕ
  step : Step
  resolvedInput : List (String × JsValue)
  timeoutMs : ℕ
  capability : DispatchCapability := {}
  contentHash : Option String := none

def buildInvokeRequest (params : BuildInvokeRequestParams) : Except Failure InvokeRequest := do
  let (dataFiles, positionalArgs) ←
    renderHeavyBindings params.resolvedInput params.capability params.contentHash
  let args ← translateArgsToInvokeArgs params.resolvedInput params.capability.invocationDescriptor
  .ok
    { executionId := Nat.repr params.executionId
      stepId := params.step.id
      function := params.step.function
      args
      positionalArgs := if 0 < positionalArgs.length then some positionalArgs else none
      dataFiles := if 0 < dataFiles.length then some dataFiles else none
      timeoutMs := params.timeoutMs }

/-- The text `response.text().catch(() => "")` gives. -/
def ResponseBody.textOrEmpty : ResponseBody → String
  | .complete text _ => text
  | .broken => ""

def agentUnreachable (context : ErrorContext) : Failure :=
  .retryable .WORKER_AGENT_UNREACHABLE context

/-- What a request comes to. The body of a 2xx response is read outside the
`try` that turns a failed exchange into a `RetryableError`. -/
def readResponse (url : String) : FetchOutcome → Except Failure ParsedJson
  | .rejected => .error (agentUnreachable [("url", ErrorContext.ofString url)])
  | .response status body =>
      if 400 ≤ status ∧ status < 500 then
        .error (.fatal .WORKER_INVOKE_REQUEST_REJECTED
          [("url", ErrorContext.ofString url), ("status", ErrorContext.ofNat status),
           ("body", ErrorContext.ofString body.textOrEmpty)])
      else if ¬ (200 ≤ status ∧ status < 300) then
        .error (agentUnreachable
          [("url", ErrorContext.ofString url), ("status", ErrorContext.ofNat status)])
      else match body with
        | .complete _ (some value) => .ok value
        | .complete _ none => .error .syntaxError
        | .broken => .error .bodyUnreadable

def postJson (url : String) (body : InvokeRequest) (timeoutMs : ℕ)
    (authToken : Option String) : Tx ParsedJson := do
  let authorization := (authToken.filter (· ≠ "")).map ("Bearer " ++ ·)
  let outcome ← query
    (.fetch url authorization body (timeoutMs + AGENT_FETCH_TIMEOUT_MARGIN_MS))
  Script.lift (readResponse url outcome)

def invoke (baseUrl : String) (request : InvokeRequest) (authToken : Option String) :
    Tx ParsedJson :=
  postJson (baseUrl ++ AGENT_INVOKE_PATH) request request.timeoutMs authToken

inductive DispatchResult where
  | ok (output : ParsedObject)
  | failed (response : ParsedJson)

/-- An absent output is the empty object; one that is present has to be an
object. -/
def parseInvokeOutput : Option ParsedJson → Except Failure ParsedObject
  | none => .ok []
  | some .null => .ok []
  | some (.obj fields) => .ok fields
  | some output => .error (.fatal .WORKER_MALFORMED_INVOKE_OUTPUT [("output", .parsed output)])

/-- `response.status === "ok"` -/
def isOkStatus : Option ParsedJson → Bool
  | some (.str s) => s = .text "ok"
  | _ => false

def readDispatch (response : ParsedJson) : Except Failure DispatchResult :=
  match response.property "status", response.property "output" with
  | some status, some output =>
      if isOkStatus status then (parseInvokeOutput output).map .ok else .ok (.failed response)
  | _, _ => .error .typeError

def dispatchStep (agentBaseUrl : String) (params : BuildInvokeRequestParams)
    (authToken : Option String) : Tx DispatchResult := do
  let request ← Script.lift (buildInvokeRequest params)
  let response ← invoke agentBaseUrl request authToken
  Script.lift (readDispatch response)

end WorkflowPlatform
