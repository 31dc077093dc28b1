import WorkflowPlatform.Dispatch

/-!
# Validating a registration

The checks a registration passes before it reaches the database. They read an
arbitrary JSON payload and collect a message for everything wrong with it. A
value that a message quotes with `String(value)` can make the check throw: an
object with a property `toString` of its own has no text.
-/
namespace WorkflowPlatform

inductive MaterializationCostClass where
  | negligible
  | heavy
deriving DecidableEq

def MATERIALIZATION_COST_CLASSES : List String := ["negligible", "heavy"]

def NESTING_TRANSPORTS : List String := ["sdk", "http", "cli", "mcp"]

def INVOCATION_STYLES : List String := ["flag", "positional", "stdin"]

def STATE_REUSE_KINDS : List String := ["none", "stateIdKeyed"]

def INVOCATION_FLAG_NAME_PATTERN : String := "/^--[a-zA-Z][a-zA-Z0-9-]*$/"

def matchesFlagNamePattern (flagName : String) : Bool :=
  match flagName.toList with
  | '-' :: '-' :: name => validArgFlagName (String.ofList name)
  | _ => false

namespace Json

/-- A property of an object or an array that no prototype has. -/
def property (value : Json) (key : String) : Option Json :=
  match value with
  | .obj fields => fields.lookup key
  | _ => none

/-- `typeof value === "object"` for a value that is not null. -/
def isObject : Json → Bool
  | .arr _ => true
  | .obj _ => true
  | _ => false

/-- `Object.values(value)` -/
def values : Json → List Json
  | .arr items => items
  | .obj fields => fields.map Prod.snd
  | _ => []

def isBoolean : Option Json → Bool
  | some (.bool _) => true
  | _ => false

/-- `names.includes(value)` -/
def isOneOf (names : List String) : Option Json → Bool
  | some (.str s) => s ∈ names
  | _ => false

mutual

/-- `String(value)`. An object with a `toString` of its own has no text: that
property is not a function, and `valueOf` gives the object back. -/
def toText : Json → Option String
  | .null => some "null"
  | .bool b => some (if b then "true" else "false")
  | .num n => some n.toString
  | .str s => some s
  | .arr items => (elementTexts items).map (",".intercalate ·)
  | .obj fields =>
      if (fields.lookup "toString").isNone then some "[object Object]" else none

/-- The elements as `join` writes them. -/
def elementTexts : List Json → Option (List String)
  | [] => some []
  | .null :: rest => (elementTexts rest).map ("" :: ·)
  | item :: rest => do
      let text ← toText item
      let texts ← elementTexts rest
      some (text :: texts)

end

end Json

/-- `String(value)` in a message. -/
def textOf : Option Json → Except Failure String
  | none => .ok "undefined"
  | some value =>
      match value.toText with
      | some text => .ok text
      | none => .error .typeError

/-- `names.join("|")` -/
def choices (names : List String) : String := "|".intercalate names

/-- `JSON.stringify(value)` in a message. -/
def stringifyIn : Option Json → String
  | none => "undefined"
  | some value => value.stringify

def operationIdOf (op : Json) : Option String :=
  match op.property "operationId" with
  | some (.str id) => some id
  | _ => none

/-- The operation names that an OpenAPI spec declares, each once. -/
def operationIdsFromOpenApi (openapiSpec : Json) : List String :=
  match openapiSpec.property "paths" with
  | none => []
  | some paths =>
      (paths.values.flatMap fun pathItem => pathItem.values.filterMap operationIdOf).eraseDups

abbrev Messages := Except Failure (List String)

def complain (bad : Bool) (message : String) : List String := if bad then [message] else []

def validateNestingDeclaration (nesting : Option Json) (fnName : String) : List String :=
  match nesting with
  | none => []
  | some .null => []
  | some (.obj fields) =>
      let via := fields.lookup "via"
      let targetsOk := match fields.lookup "targets" with
        | some (.str s) => s = "open"
        | some (.arr items) => items.all fun item => match item with
          | .str _ => true
          | _ => false
        | _ => false
      complain (!Json.isOneOf NESTING_TRANSPORTS via)
          s!"function \"{fnName}\": nestingDeclaration.via must be one of {choices NESTING_TRANSPORTS} (got {stringifyIn via})" ++
        complain (!targetsOk)
          s!"function \"{fnName}\": nestingDeclaration.targets must be the string \"open\" or an array of strings"
  | some _ => [s!"function \"{fnName}\": nestingDeclaration must be an object or null"]

/-- What the loop over the entries of a descriptor has seen. -/
structure DescriptorScan where
  seenParams : List String := []
  seenPositionIndexes : List JsNumber := []
  stdinEntryCount : ℕ := 0
  errors : List String := []

namespace DescriptorScan

def complain (scan : DescriptorScan) (message : String) : DescriptorScan :=
  { scan with errors := scan.errors ++ [message] }

def readParam (fnName : String) (param : Option Json) (scan : DescriptorScan) : DescriptorScan :=
  match param with
  | some (.str p) =>
      if p = "" then
        scan.complain s!"function \"{fnName}\": invocationDescriptor entry.param must be a non-empty string"
      else if p ∈ scan.seenParams then
        scan.complain s!"function \"{fnName}\": invocationDescriptor has a duplicate entry for param \"{p}\""
      else { scan with seenParams := scan.seenParams ++ [p] }
  | _ =>
      scan.complain s!"function \"{fnName}\": invocationDescriptor entry.param must be a non-empty string"

def readFlag (fnName : String) (param flagName : Option Json) (scan : DescriptorScan) :
    Except Failure DescriptorScan :=
  match flagName with
  | some (.str name) =>
      if name = "" then do
        let text ← textOf param
        .ok (scan.complain s!"function \"{fnName}\": invocationDescriptor entry for param \"{text}\" has style \"flag\" and requires a non-empty flagName")
      else if matchesFlagNamePattern name then .ok scan
      else do
        let text ← textOf param
        .ok (scan.complain s!"function \"{fnName}\": invocationDescriptor entry for param \"{text}\" has flagName {Json.quote name}, which does not match {INVOCATION_FLAG_NAME_PATTERN} (must be \"--\" followed by letters/digits/hyphens, starting with a letter - the exact shape agent/'s execrunner requires)")
  | _ => do
      let text ← textOf param
      .ok (scan.complain s!"function \"{fnName}\": invocationDescriptor entry for param \"{text}\" has style \"flag\" and requires a non-empty flagName")

/-- `Number.isInteger(n) && n >= 0` -/
def isPositionIndex (n : JsNumber) : Bool := 0 ≤ n.exponent && 0 ≤ n.mantissa

def readPositional (fnName : String) (param positionIndex : Option Json) (scan : DescriptorScan) :
    Except Failure DescriptorScan :=
  match positionIndex with
  | some (.num n) =>
      if !isPositionIndex n then do
        let text ← textOf param
        .ok (scan.complain s!"function \"{fnName}\": invocationDescriptor entry for param \"{text}\" has style \"positional\" and requires a non-negative integer positionIndex")
      else if n ∈ scan.seenPositionIndexes then do
        let text ← textOf param
        .ok (scan.complain s!"function \"{fnName}\": invocationDescriptor has more than one \"positional\" entry at positionIndex {n.toString} (param \"{text}\") - each positional slot must be unique")
      else .ok { scan with seenPositionIndexes := scan.seenPositionIndexes ++ [n] }
  | _ => do
      let text ← textOf param
      .ok (scan.complain s!"function \"{fnName}\": invocationDescriptor entry for param \"{text}\" has style \"positional\" and requires a non-negative integer positionIndex")

def readStyle (fnName : String) (entry : Json) (scan : DescriptorScan) :
    Except Failure DescriptorScan :=
  match entry.property "style" with
  | some (.str "flag") => scan.readFlag fnName (entry.property "param") (entry.property "flagName")
  | some (.str "positional") =>
      scan.readPositional fnName (entry.property "param") (entry.property "positionIndex")
  | some (.str "stdin") => .ok { scan with stdinEntryCount := scan.stdinEntryCount + 1 }
  | style => do
      let text ← textOf (entry.property "param")
      .ok (scan.complain s!"function \"{fnName}\": invocationDescriptor entry for param \"{text}\" has an invalid style (must be one of {choices INVOCATION_STYLES}, got {stringifyIn style})")

def readEntry (fnName : String) (scan : DescriptorScan) (entry : Json) :
    Except Failure DescriptorScan :=
  match entry with
  | .obj _ => (scan.readParam fnName (entry.property "param")).readStyle fnName entry
  | _ => .ok (scan.complain s!"function \"{fnName}\": every invocationDescriptor entry must be an object")

end DescriptorScan

def validateInvocationDescriptor (descriptor : Option Json) (fnName : String) : Messages :=
  match descriptor with
  | some (.arr entries) => do
      let scan ← entries.foldlM (DescriptorScan.readEntry fnName) {}
      .ok (scan.errors ++ complain (1 < scan.stdinEntryCount)
        s!"function \"{fnName}\": invocationDescriptor declares {scan.stdinEntryCount} \"stdin\"-style entries - agent/'s exec-agent only ever delivers the FIRST to the subprocess's stdin, silently dropping the rest; at most one \"stdin\" entry is allowed")
  | _ => .ok [s!"function \"{fnName}\": invocationDescriptor must be an array"]

def isStateIdKeyed (cap : Json) : Bool :=
  Json.isOneOf ["stateIdKeyed"] (cap.property "stateReuse")

def validateAdditiveWarmUpdate (fnName : String) (cap : Json) : List String :=
  match cap.property "additiveWarmUpdate" with
  | some (.bool additive) =>
      complain (additive && !isStateIdKeyed cap)
        s!"function \"{fnName}\": additiveWarmUpdate is only meaningful when stateReuse is \"stateIdKeyed\""
  | _ => [s!"function \"{fnName}\": additiveWarmUpdate must be a boolean"]

/-- The params of the positional entries, as `join` writes them. -/
def positionalParams (entries : List Json) : List (Option Json) :=
  (entries.filter fun entry => Json.isOneOf ["positional"] (entry.property "style")).map
    (·.property "param")

def joinParams (params : List (Option Json)) : Except Failure String := do
  let texts ← params.mapM fun param => match param with
    | none => .ok ""
    | some .null => .ok ""
    | param => textOf param
  .ok (", ".intercalate texts)

/-- A function that reuses state must have a binding to key it by, and none that
is passed by position, since no state id travels with a positional argument. -/
def validateStateReuse (fnName : String) (cap : Json) : Messages :=
  match cap.property "invocationDescriptor" with
  | some (.arr entries) =>
      if !isStateIdKeyed cap then .ok []
      else if entries.isEmpty then
        .ok [s!"function \"{fnName}\": stateReuse \"stateIdKeyed\" requires at least one invocationDescriptor entry"]
      else if (positionalParams entries).isEmpty then .ok []
      else do
        let params ← joinParams (positionalParams entries)
        .ok [s!"function \"{fnName}\": stateReuse \"stateIdKeyed\" is not supported for \"positional\"-style invocationDescriptor entries ({params}) - no wire channel carries a state-id for a positional argument; use \"flag\" or \"stdin\" instead"]
  | _ => .ok []

def requireBoolean (fnName key : String) (cap : Json) : List String :=
  complain (!Json.isBoolean (cap.property key)) s!"function \"{fnName}\": {key} must be a boolean"

def requireOneOf (fnName key : String) (names : List String) (cap : Json) : List String :=
  complain (!Json.isOneOf names (cap.property key))
    s!"function \"{fnName}\": {key} must be one of {choices names} (got {stringifyIn (cap.property key)})"

def validateCapability (fnName : String) (cap : Json) : Messages :=
  let nameErrors := complain (fnName = "") "capability metadata has an empty/invalid function name"
  if !cap.isObject then
    .ok (nameErrors ++ [s!"function \"{fnName}\": capability metadata must be an object"])
  else do
    let descriptorErrors ← validateInvocationDescriptor (cap.property "invocationDescriptor") fnName
    let stateErrors ← validateStateReuse fnName cap
    .ok (nameErrors ++ requireBoolean fnName "mutates" cap ++
      requireOneOf fnName "materializationCostClass" MATERIALIZATION_COST_CLASSES cap ++
      requireBoolean fnName "cowSupport" cap ++ requireBoolean fnName "changeDetectionSupport" cap ++
      validateNestingDeclaration (cap.property "nestingDeclaration") fnName ++ descriptorErrors ++
      requireOneOf fnName "stateReuse" STATE_REUSE_KINDS cap ++
      validateAdditiveWarmUpdate fnName cap ++ stateErrors)

structure RegistrationPayload where
  digest : Option Json := none
  ociRef : Option Json := none
  openapiSpec : Option Json := none
  capabilityMetadata : Option Json := none
  hardwareRequirements : Option Json := none

def requireNonEmptyString (name : String) (value : Option Json) : List String :=
  complain (match value with
    | some (.str s) => s = ""
    | _ => true) s!"{name} is required and must be a non-empty string"

def validateHardwareRequirements : Option Json → List String
  | none => []
  | some (.obj _) => []
  | some _ => ["hardwareRequirements must be an object when provided"]

/-- Every function must be an operation of the spec. -/
def undeclaredErrors (openapiSpec : Option Json) (fnNames : List String) : List String :=
  match openapiSpec with
  | none => []
  | some spec =>
      if !spec.isObject then []
      else
        let declared := operationIdsFromOpenApi spec
        let joined := ", ".intercalate declared
        let listed := if joined = "" then "<none>" else joined
        fnNames.flatMap fun fnName => complain (fnName ∉ declared)
          s!"capability metadata references function \"{fnName}\", which is not declared as an operationId in openapiSpec (declared: {listed})"

def validateRegistration (payload : RegistrationPayload) : Messages :=
  let own := requireNonEmptyString "digest" payload.digest ++
    requireNonEmptyString "ociRef" payload.ociRef ++
    complain (!(payload.openapiSpec.any Json.isObject)) "openapiSpec is required and must be an object" ++
    validateHardwareRequirements payload.hardwareRequirements
  match payload.capabilityMetadata with
  | some (.obj capabilities) => do
      let perFunction ← capabilities.mapM fun (fnName, cap) => validateCapability fnName cap
      .ok (own ++ perFunction.flatten ++
        undeclaredErrors payload.openapiSpec (capabilities.map Prod.fst))
  | _ => .ok (own ++ ["capabilityMetadata is required and must be an object keyed by function name"])

end WorkflowPlatform
