import WorkflowPlatform.ParsedJson

/-!
# Errors

The ids of the platform's own errors and the values that code throws.
-/
namespace WorkflowPlatform

inductive ErrorId where
  | CORE_ENQUEUE_NO_ROW_RETURNED
  | CORE_CHECKPOINT_CONFLICT_NOT_FOUND
  | CORE_WORKFLOW_RUN_NO_ROW_RETURNED
  | CORE_WORKFLOW_RUN_NOT_FOUND
  | CORE_RUN_NODE_OUTPUT_NO_ROW_RETURNED
  | ENGINE_UNSUPPORTED_NODE_KIND
  | ENGINE_DUPLICATE_NODE_ID
  | ENGINE_RUN_NOT_FOUND
  | ENGINE_NODE_NOT_FOUND
  | ENGINE_BINDING_KIND_NOT_SUPPORTED
  | ENGINE_NODE_OUTPUT_MISSING
  | WORKER_AGENT_UNREACHABLE
  | WORKER_INVOKE_REQUEST_REJECTED
  | WORKER_INVALID_ARG_FLAG_NAME
  | WORKER_UNSAFE_ARG_VALUE
  | WORKER_MALFORMED_INVOKE_OUTPUT
  | WORKER_EXECUTION_MISSING_RUN
  | WORKER_INVALID_HEAVY_BINDING_VALUE
  | SESSION_REWIND_TARGET_OUT_OF_RANGE
  | CORE_SESSION_LOG_NO_ROW_RETURNED
  | CORE_SESSION_POINTER_NO_ROW_RETURNED
  | CORE_WAIT_KEY_TOO_LONG
  | CORE_WAIT_NO_ROW_RETURNED
  | REGISTRY_VALIDATION_FAILED
  | REGISTRY_SERVICE_IMAGE_UPSERT_NO_ROW_RETURNED
  | REGISTRY_TRUST_TIER_INVALID
  | REGISTRY_TRUST_TIER_UNKNOWN_DIGEST
  | CORE_PLACEMENT_UPSERT_NO_ROW_RETURNED
  | CORE_PLACEMENT_SET_PINNED_NOT_FOUND
deriving DecidableEq

/-- A value that an error takes along: one of the program, or one out of a response. -/
inductive ContextValue where
  | value (v : JsValue)
  | parsed (v : ParsedJson)

abbrev ErrorContext := List (String × ContextValue)

/-- What the code throws: its own two error classes, and the errors of the
language, of a broken response body and of the database driver. -/
inductive Failure where
  | retryable (id : ErrorId) (context : ErrorContext)
  | fatal (id : ErrorId) (context : ErrorContext)
  | typeError
  | syntaxError
  | bodyUnreadable
  | database

def Failure.isRetryable : Failure → Bool
  | .retryable .. => true
  | _ => false

/-- `ENGINE_NODE_OUTPUT_MISSING`, whichever output was missing. -/
def Failure.isOutputMissing : Failure → Bool
  | .fatal id _ => id = .ENGINE_NODE_OUTPUT_MISSING
  | _ => false

def ErrorContext.ofNat (n : ℕ) : ContextValue := .value (.json (.num (JsValue.natNumber n)))

def ErrorContext.ofString (s : String) : ContextValue := .value (.json (.str s))

theorem bind_eq_ok {ε α β : Type} {r : Except ε α} {f : α → Except ε β} {b : β} :
    (r >>= f) = .ok b ↔ ∃ a, r = .ok a ∧ f a = .ok b := by
  cases r with
  | ok a =>
      constructor
      · exact fun h => ⟨a, rfl, h⟩
      · rintro ⟨_, ⟨⟩, hb⟩
        exact hb
  | error e =>
      constructor
      · intro h
        cases h
      · rintro ⟨_, ⟨⟩, -⟩

theorem mapError_eq_ok {ε ε' α : Type} {r : Except ε α} {f : ε → ε'} {a : α} :
    r.mapError f = .ok a ↔ r = .ok a := by
  cases r <;> simp [Except.mapError]

end WorkflowPlatform
