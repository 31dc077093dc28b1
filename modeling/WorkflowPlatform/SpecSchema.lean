import WorkflowPlatform.Pattern
import WorkflowPlatform.WorkflowSpec

/-!
# What the schema asks of a specification

The JSON schema of a document says which shapes it may have, which are the
constructors of `WorkflowSpec`, and constrains the texts, numbers and list
lengths in them. `schemaValid` is that second part, definition by definition.
-/
namespace WorkflowPlatform

def isLetterOrDigit (c : Char) : Bool := c.isAlphanum

def isHexDigit (c : Char) : Bool :=
  c.isDigit || ('a' ≤ c && c ≤ 'f') || ('A' ≤ c && c ≤ 'F')

/-- The class `\s` of JavaScript. -/
def isWhiteSpace (c : Char) : Bool :=
  c.toNat ∈ [9, 10, 11, 12, 13, 32, 0xA0, 0x1680, 0x2028, 0x2029, 0x202F, 0x205F, 0x3000, 0xFEFF] ||
    (0x2000 ≤ c.toNat && c.toNat ≤ 0x200A)

def literalText (s : String) : Pattern Char := .word s.toList

/-- `/^[^.]+$/` -/
def flatNamePattern : Pattern Char := .plus (.one (· ≠ '.'))

/-- `/^urn:P:P:N\/N(?::N|@[A-Za-z0-9]+:[A-Za-z0-9]+)?$/` with `P` for
`[A-Za-z0-9][A-Za-z0-9-]*` and `N` for `[A-Za-z0-9._-]+` -/
def datasetUrnPattern : Pattern Char :=
  let part : Pattern Char :=
    .seq (.one isLetterOrDigit) (.star (.one fun c => isLetterOrDigit c || c = '-'))
  let name : Pattern Char :=
    .plus (.one fun c => isLetterOrDigit c || c = '.' || c = '_' || c = '-')
  let alphanumeric : Pattern Char := .plus (.one isLetterOrDigit)
  let version : Pattern Char :=
    .alt (.seq (literalText ":") name)
      (.seq (literalText "@") (.seq alphanumeric (.seq (literalText ":") alphanumeric)))
  .seq (literalText "urn:") (.seq part (.seq (literalText ":") (.seq part (.seq (literalText ":")
    (.seq name (.seq (literalText "/") (.seq name (.optional version))))))))

/-- `/^[^@\s]+@[A-Za-z0-9]+:[A-Fa-f0-9]+$/` -/
def ociDigestRefPattern : Pattern Char :=
  .seq (.plus (.one fun c => c ≠ '@' && !isWhiteSpace c)) (.seq (literalText "@")
    (.seq (.plus (.one isLetterOrDigit)) (.seq (literalText ":") (.plus (.one isHexDigit)))))

/-- `/^$|^(\/[^/~]*(~[01][^/~]*)*)*$/` -/
def jsonPointerPattern : Pattern Char :=
  let plain : Pattern Char := .star (.one fun c => c ≠ '/' && c ≠ '~')
  let escaped : Pattern Char := .seq (literalText "~") (.seq (.oneOf ['0', '1']) plain)
  .alt .empty (.star (.seq (literalText "/") (.seq plain (.star escaped))))

def matchesPattern (p : Pattern Char) (s : String) : Bool := p.accepts s.toList

/-- `minLength: 1` -/
def isNonEmpty (s : String) : Bool := s ≠ ""

def flatName (s : String) : Bool := isNonEmpty s && matchesPattern flatNamePattern s

mutual

def Binding.schemaValid : Binding → Bool
  | .static ref => matchesPattern datasetUrnPattern ref
  | .session key => isNonEmpty key
  | .request param => flatName param
  | .step id output => isNonEmpty id && isNonEmpty output
  | .item => true
  | .literal _ => true
  | .compute _ none => true
  | .compute _ (some bindings) => bindingMapValid bindings
  | .itemResource itemId path => itemId.schemaValid && matchesPattern jsonPointerPattern path

def bindingMapValid : List (String × Binding) → Bool
  | [] => true
  | (_, b) :: rest => b.schemaValid && bindingMapValid rest

end

def Step.schemaValid (s : Step) : Bool :=
  isNonEmpty s.id && matchesPattern ociDigestRefPattern s.service && isNonEmpty s.function &&
    (s.dependsOn.getD []).all isNonEmpty && bindingMapValid (s.reads.getD []) &&
    (s.writes.getD []).all (fun w => isNonEmpty w.2.key) &&
    (s.secrets.getD []).all (fun r => isNonEmpty r.2.name)

mutual

def nodesValid : List Node → Bool
  | [] => true
  | node :: rest => nodeValid node && nodesValid rest

def nodeValid : Node → Bool
  | .step s => s.schemaValid
  | .branch id selector cases =>
      isNonEmpty id && selector.schemaValid && !cases.isEmpty && casesValid cases
  | .map id source body yields =>
      isNonEmpty id && source.schemaValid && !body.isEmpty && nodesValid body &&
        bindingMapValid (yields.getD [])

def casesValid : List (String × CaseBody) → Bool
  | [] => true
  | (_, .mk steps yields) :: rest =>
      !steps.isEmpty && nodesValid steps && bindingMapValid (yields.getD []) && casesValid rest

end

def WorkflowSpec.schemaValid (spec : WorkflowSpec) : Bool :=
  1 ≤ spec.workflowSpecVersion && isNonEmpty spec.name &&
    (spec.inputParameters.getD []).all flatName && (spec.inputParameters.getD []).Nodup &&
    (spec.sessionState.getD []).all (fun d => d.2.fallback.all Binding.schemaValid) &&
    nodesValid spec.steps && bindingMapValid (spec.outputs.getD [])

end WorkflowPlatform
