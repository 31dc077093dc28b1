import Mathlib.Algebra.Group.Int.Defs
import Mathlib.Algebra.Group.Nat.Defs
import Mathlib.Data.Int.Notation
import Mathlib.Tactic.Common

/-!
# The contract of the agent

The bodies of a request and of a response, the configuration, and the checks a
request passes before anything is done for it. Durations are nanoseconds.
-/
namespace WorkflowPlatform.Agent

structure DataFile where
  flag : String := ""
  path : String
  stateId : String := ""
  stdinFromPath : Bool := false

structure Secret where
  name : String
  value : String

structure InvokeRequest where
  executionId : String
  stepId : String
  function : String
  /-- A map, in the order in which the loop over it happens to go. -/
  args : List (String × String) := []
  positionalArgs : List String := []
  dataFiles : List DataFile := []
  secrets : List Secret := []
  stdin : List UInt8 := []
  timeoutMs : ℤ

structure Config where
  dedupTTL : ℤ := 30 * 1000000000
  maxInvokeTimeout : ℤ := 5 * 60 * 1000000000

/-- `Duration.Milliseconds()` -/
def milliseconds (duration : ℤ) : ℤ := duration.tdiv 1000000

/-- `time.Duration(TimeoutMs) * time.Millisecond`, a product of 64 bits. -/
def timeout (req : InvokeRequest) : ℤ := (req.timeoutMs * 1000000).bmod (2 ^ 64)

def statusBadRequest : ℕ := 400

structure HttpError where
  text : String
  status : ℕ
deriving DecidableEq

/-- What `invokeHandler` checks of a decoded request. -/
def checkRequest (cfg : Config) (req : InvokeRequest) : Except HttpError Unit :=
  if req.executionId = "" ∨ req.stepId = "" ∨ req.function = "" then
    .error ⟨"executionId, stepId, and function are required", statusBadRequest⟩
  else if req.timeoutMs ≤ 0 then
    .error ⟨"timeoutMs must be a positive number of milliseconds", statusBadRequest⟩
  else
    let maxMs := milliseconds cfg.maxInvokeTimeout
    if 0 < maxMs ∧ maxMs < req.timeoutMs then
      .error ⟨s!"timeoutMs {req.timeoutMs} exceeds this agent's max-invoke-timeout ({maxMs}ms)",
        statusBadRequest⟩
    else .ok ()

theorem milliseconds_of_nonneg {d : ℤ} (h : 0 ≤ d) : milliseconds d = d / 1000000 :=
  Int.tdiv_eq_ediv_of_nonneg h

theorem milliseconds_of_nonpos {d : ℤ} (h : d ≤ 0) : milliseconds d ≤ 0 := by
  have hquot : 0 ≤ (-d).tdiv 1000000 := Int.tdiv_nonneg (by omega) (by decide)
  rw [Int.neg_tdiv] at hquot
  rw [milliseconds]
  omega

theorem milliseconds_pos_iff (d : ℤ) : 0 < milliseconds d ↔ 1000000 ≤ d := by
  rcases Int.le_total 0 d with hd | hd
  · rw [milliseconds_of_nonneg hd]
    omega
  · have hquot := milliseconds_of_nonpos hd
    omega

theorem milliseconds_le {d : ℤ} (h : d < 2 ^ 63) : milliseconds d ≤ 9223372036854 := by
  rcases Int.le_total 0 d with hd | hd
  · rw [milliseconds_of_nonneg hd]
    omega
  · have hquot := milliseconds_of_nonpos hd
    omega

theorem checkRequest_ok {cfg : Config} {req : InvokeRequest} (h : checkRequest cfg req = .ok ()) :
    0 < req.timeoutMs ∧
      (0 < milliseconds cfg.maxInvokeTimeout → req.timeoutMs ≤ milliseconds cfg.maxInvokeTimeout) := by
  simp only [checkRequest] at h
  split_ifs at h with hid hpos hmax
  constructor
  · omega
  · intro hcap
    by_contra hlt
    exact hmax ⟨hcap, by omega⟩

theorem timeout_eq_iff {req : InvokeRequest} (h : 0 < req.timeoutMs) :
    timeout req = req.timeoutMs * 1000000 ↔ req.timeoutMs ≤ 9223372036854 := by
  constructor
  · intro hexact
    have hlt := Int.bmod_lt (x := req.timeoutMs * 1000000) (m := 2 ^ 64) (by decide)
    rw [timeout] at hexact
    omega
  · intro hle
    exact Int.bmod_eq_of_le (by omega) (by omega)

end WorkflowPlatform.Agent
