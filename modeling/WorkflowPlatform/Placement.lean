import WorkflowPlatform.Doubles
import WorkflowPlatform.Errors
import WorkflowPlatform.Transaction

/-!
# Placement

One row for each content hash: where its state is resident, whether it is
pinned, and what is known of its use and its cost; and one row for each access.
An access upserts the row of its hash, adds its own row and deletes the rows of
the hash that are past a horizon. Promoting, demoting and evicting set whether a
hash is pinned. Decisions only read.

Times are microseconds, as the database keeps them. A JavaScript number is read
as the rational number it denotes; only the sizes, which a table can hold beyond
2^53, are rounded when they are read and when they are added. All statements of a
transaction see the time at which it started as `now()`.
-/
namespace WorkflowPlatform

inductive PlacementInteractivity where
  | interactive
  | batch
deriving DecidableEq

inductive DeclaredCostClass where
  | trivial
  | cheap
  | moderate
  | expensive
deriving DecidableEq

structure Placement where
  contentHash : String
  replicaId : Option String
  sessionId : Option String
  pinned : Bool
  pinnedAt : Option ℤ
  interactivity : PlacementInteractivity
  accessCount : ℕ
  firstAccessedAt : Option ℤ
  lastAccessedAt : Option ℤ
  declaredCostClass : Option DeclaredCostClass
  observedRehydrationMs : Option ℚ
  observedSampleCount : ℕ
  sizeBytes : ℤ

structure PlacementConfig where
  frequencyThreshold : ℚ
  frequencyWindowMs : ℚ
  rehydrationCostThresholdMs : ℚ
  idleThresholdMs : ℚ
  pinnedBudgetBytes : ℚ
  observedMinSamples : ℚ
  classPriorsMs : DeclaredCostClass → ℚ

def DEFAULT_PLACEMENT_CONFIG : PlacementConfig where
  frequencyThreshold := 3
  frequencyWindowMs := 420000
  rehydrationCostThresholdMs := 250
  idleThresholdMs := 1200000
  pinnedBudgetBytes := 1073741824
  observedMinSamples := 5
  classPriorsMs
    | .trivial => 10
    | .cheap => 50
    | .moderate => 300
    | .expensive => 2000

structure PlacementAccess where
  contentHash : String
  accessedAt : ℤ

structure PlacementDb where
  /-- The hashes of the rows of `placement`, in the order of their insertion. -/
  hashes : List String
  placement : String → Option Placement
  placementAccess : List PlacementAccess

def PlacementDb.empty : PlacementDb := ⟨[], fun _ => none, []⟩

/-! ### The statements -/

structure UpsertPlacementAccessInput where
  contentHash : String
  replicaId : Option String := none
  sessionId : Option String := none
  interactivity : Option PlacementInteractivity := none
  sizeBytes : Option ℤ := none
  declaredCostClass : Option DeclaredCostClass := none
  observedRehydrationMs : Option ℚ := none
  /-- `at` -/
  accessedAt : Option ℤ := none

/-- The row that `SQL_UPSERT_PLACEMENT_ACCESS` inserts. -/
def firstPlacement (now : ℤ) (input : UpsertPlacementAccessInput) : Placement where
  contentHash := input.contentHash
  replicaId := input.replicaId
  sessionId := input.sessionId
  pinned := false
  pinnedAt := none
  interactivity := input.interactivity.getD .batch
  accessCount := 1
  firstAccessedAt := some (input.accessedAt.getD now)
  lastAccessedAt := some (input.accessedAt.getD now)
  declaredCostClass := input.declaredCostClass
  observedRehydrationMs := input.observedRehydrationMs
  observedSampleCount := if input.observedRehydrationMs.isNone then 0 else 1
  sizeBytes := input.sizeBytes.getD 0

/-- The rolling mean of the observed timings. -/
def Placement.foldObserved (p : Placement) : Option ℚ → Option ℚ
  | none => p.observedRehydrationMs
  | some sample => match p.observedRehydrationMs with
      | none => some sample
      | some mean => some ((mean * p.observedSampleCount + sample) / (p.observedSampleCount + 1))

/-- `ON CONFLICT (content_hash) DO UPDATE` -/
def Placement.foldAccess (now : ℤ) (input : UpsertPlacementAccessInput) (p : Placement) :
    Placement :=
  { p with
    replicaId := input.replicaId.or p.replicaId
    sessionId := input.sessionId.or p.sessionId
    interactivity := input.interactivity.getD p.interactivity
    accessCount := p.accessCount + 1
    lastAccessedAt := some (input.accessedAt.getD now)
    declaredCostClass := input.declaredCostClass.or p.declaredCostClass
    sizeBytes := input.sizeBytes.getD p.sizeBytes
    observedRehydrationMs := p.foldObserved input.observedRehydrationMs
    observedSampleCount :=
      p.observedSampleCount + if input.observedRehydrationMs.isNone then 0 else 1 }

def upsertedPlacement (now : ℤ) (input : UpsertPlacementAccessInput) :
    Option Placement → Placement
  | none => firstPlacement now input
  | some p => p.foldAccess now input

/-- `SQL_SET_PLACEMENT_PINNED` -/
def Placement.withPinned (now : ℤ) (pinned : Bool) (p : Placement) : Placement :=
  { p with pinned, pinnedAt := if pinned then some now else none }

/-- `ms / 1000 * interval '1 second'`, which has whole microseconds. -/
def interval (ms : ℚ) : ℤ := Doubles.roundEven (ms * 1000)

/-- `ORDER BY last_accessed_at ASC`, rows without a time last. `rank` is the order
in which the sort leaves rows of one time. -/
def lruLe (rank : String → ℕ) (p q : Placement) : Bool :=
  match p.lastAccessedAt, q.lastAccessedAt with
  | some a, some b => a < b || (a = b && rank p.contentHash ≤ rank q.contentHash)
  | some _, none => true
  | none, some _ => false
  | none, none => rank p.contentHash ≤ rank q.contentHash

namespace PlacementDb

def pinnedOrderedByLru (rank : String → ℕ) (db : PlacementDb) : List Placement :=
  ((db.hashes.filterMap db.placement).filter (·.pinned)).mergeSort (lruLe rank)

def countWithinWindow (contentHash : String) (since : ℤ) (db : PlacementDb) : ℕ :=
  db.placementAccess.countP fun a => a.contentHash = contentHash && since ≤ a.accessedAt

end PlacementDb

inductive PlacementOp where
  /-- The time at which the transaction started. -/
  | startTime
  | findByContentHash (contentHash : String)
  | upsertAccess (now : ℤ) (input : UpsertPlacementAccessInput)
  | setPinned (now : ℤ) (contentHash : String) (pinned : Bool)
  | listPinnedOrderedByLru
  | record (contentHash : String) (accessedAt : ℤ)
  | countWithinWindow (contentHash : String) (since : ℤ)
  | pruneOlderThan (contentHash : String) (horizon : ℤ)

/-- The rows a statement returns. -/
@[reducible] def PlacementOp.Resp : PlacementOp → Type
  | .startTime => ℤ
  | .findByContentHash _ => Option Placement
  | .upsertAccess .. => Option Placement
  | .setPinned .. => Option Placement
  | .listPinnedOrderedByLru => List Placement
  | .record .. => Unit
  | .countWithinWindow .. => ℕ
  | .pruneOlderThan .. => Unit

inductive PlacementWrite where
  | putPlacement (contentHash : String) (p : Placement)
  | insertAccess (a : PlacementAccess)
  | deleteAccesses (contentHash : String) (horizon : ℤ)

namespace PlacementWrite

def contentHash : PlacementWrite → String
  | putPlacement h _ => h
  | insertAccess a => a.contentHash
  | deleteAccesses h _ => h

def apply (db : PlacementDb) : PlacementWrite → PlacementDb
  | putPlacement h p => { db with
      hashes := if h ∈ db.hashes then db.hashes else db.hashes ++ [h]
      placement := Function.update db.placement h (some p) }
  | insertAccess a => { db with placementAccess := db.placementAccess ++ [a] }
  | deleteAccesses h horizon => { db with
      placementAccess :=
        db.placementAccess.filter fun a => !(a.contentHash = h && a.accessedAt < horizon) }

end PlacementWrite

/-- What the database does not determine: the clock, and the order in which a
sort leaves rows of one time. -/
structure PlacementChoice where
  now : ℤ
  rank : String → ℕ := fun _ => 0

/-- The placement row that a statement waits for. The access rows of a hash are
written by the transaction that holds its placement row. -/
def placementNeeds (db : PlacementDb) : PlacementOp → List String
  | .upsertAccess _ input => [input.contentHash]
  | .setPinned _ h _ => if (db.placement h).isSome then [h] else []
  | .record h _ => [h]
  | .pruneOlderThan h _ => [h]
  | _ => []

def placementRespond (c : PlacementChoice) (db : PlacementDb) :
    (op : PlacementOp) → op.Resp × List PlacementWrite
  | .startTime => (c.now, [])
  | .findByContentHash h => (db.placement h, [])
  | .upsertAccess now input =>
      let p := upsertedPlacement now input (db.placement input.contentHash)
      (some p, [.putPlacement input.contentHash p])
  | .setPinned now h pinned => match db.placement h with
      | some p => (some (p.withPinned now pinned), [.putPlacement h (p.withPinned now pinned)])
      | none => (none, [])
  | .listPinnedOrderedByLru => (db.pinnedOrderedByLru c.rank, [])
  | .record h accessedAt => ((), [.insertAccess ⟨h, accessedAt⟩])
  | .countWithinWindow h since => (db.countWithinWindow h since, [])
  | .pruneOlderThan h horizon => ((), [.deleteAccesses h horizon])

def placementStore : Store PlacementDb PlacementOp PlacementWrite String PlacementChoice Failure
    PlacementOp.Resp where
  write := PlacementWrite.apply
  row := PlacementWrite.contentHash
  external op := match op with
    | .startTime => true
    | _ => false
  needs := placementNeeds
  refused := .database
  respond c db _ op := some (placementRespond c db op)

abbrev PlacementTx (α : Type) := Script PlacementOp PlacementOp.Resp Failure α

/-! ### The repositories and the operations over them -/

/-- One statement. -/
@[reducible] def placementQuery (op : PlacementOp) : PlacementTx op.Resp := Script.perform op

def upsertAccess (now : ℤ) (input : UpsertPlacementAccessInput) : PlacementTx Placement := do
  match ← placementQuery (.upsertAccess now input) with
  | some p => pure p
  | none => Script.throw (.fatal .CORE_PLACEMENT_UPSERT_NO_ROW_RETURNED
      [("contentHash", ErrorContext.ofString input.contentHash)])

def setPinned (now : ℤ) (contentHash : String) (pinned : Bool) : PlacementTx Placement := do
  match ← placementQuery (.setPinned now contentHash pinned) with
  | some p => pure p
  | none => Script.throw (.fatal .CORE_PLACEMENT_SET_PINNED_NOT_FOUND
      [("contentHash", ErrorContext.ofString contentHash), ("pinned", .value (.json (.bool pinned)))])

inductive ResolutionReason where
  | noPlacement
  | warmReplica
  | coldFact
deriving DecidableEq

structure PlacementResolution where
  found : Bool
  warm : Bool
  contentHash : String
  reason : ResolutionReason
  placement : Option Placement := none

def resolvePlacement (contentHash : String) : PlacementTx PlacementResolution := do
  match ← placementQuery (.findByContentHash contentHash) with
  | none => pure { found := false, warm := false, contentHash, reason := .noPlacement }
  | some placement => pure {
      found := true
      warm := placement.replicaId.isSome
      contentHash
      reason := if placement.replicaId.isSome then .warmReplica else .coldFact
      placement := some placement }

structure RecordAccessOptions where
  replicaId : Option String := none
  sessionId : Option String := none
  interactivity : Option PlacementInteractivity := none
  sizeBytes : Option ℤ := none
  declaredCostClass : Option DeclaredCostClass := none
  observedRehydrationMs : Option ℚ := none
  /-- `at` -/
  accessedAt : Option ℤ := none
  config : Option PlacementConfig := none

namespace RecordAccessOptions

def upsertInput (opts : RecordAccessOptions) (contentHash : String) :
    UpsertPlacementAccessInput where
  contentHash := contentHash
  replicaId := opts.replicaId
  sessionId := opts.sessionId
  interactivity := opts.interactivity
  sizeBytes := opts.sizeBytes
  declaredCostClass := opts.declaredCostClass
  observedRehydrationMs := opts.observedRehydrationMs
  accessedAt := opts.accessedAt

def pruneHorizonMs (opts : RecordAccessOptions) : ℚ :=
  let config := opts.config.getD DEFAULT_PLACEMENT_CONFIG
  max config.frequencyWindowMs config.idleThresholdMs

end RecordAccessOptions

def recordAccess (now : ℤ) (contentHash : String) (opts : RecordAccessOptions) :
    PlacementTx Placement := do
  let placement ← upsertAccess now (opts.upsertInput contentHash)
  let _ ← placementQuery (.record contentHash (opts.accessedAt.getD now))
  let _ ← placementQuery (.pruneOlderThan contentHash (now - interval opts.pruneHorizonMs))
  pure placement

inductive CostSource where
  | observed
  | declaredPrior
  | unknown
deriving DecidableEq

def effectiveRehydrationCostMs (p : Placement) (config : PlacementConfig) :
    Option ℚ × CostSource :=
  match p.observedRehydrationMs with
  | some ms =>
      if config.observedMinSamples ≤ p.observedSampleCount then (some ms, .observed) else prior
  | none => prior
where
  prior : Option ℚ × CostSource := match p.declaredCostClass with
    | some costClass => (some (config.classPriorsMs costClass), .declaredPrior)
    | none => (none, .unknown)

inductive PromotionReason where
  | noPlacement
  | alreadyPinned
  | notInteractive
  | costBelowThreshold
  | frequencyBelowThreshold
  | qualifies
deriving DecidableEq

structure PromotionDetail where
  interactivity : PlacementInteractivity
  interactiveOk : Bool
  costMs : Option ℚ
  costSource : CostSource
  costThresholdMs : ℚ
  costOk : Bool
  windowedAccessCount : ℕ
  frequencyThreshold : ℚ
  freqOk : Bool

structure PromotionDecision where
  promote : Bool
  reason : PromotionReason
  detail : Option PromotionDetail := none

/-- The decision on an unpinned placement, from the number of its recent accesses. -/
def promotionDecision (p : Placement) (config : PlacementConfig) (windowedAccessCount : ℕ) :
    PromotionDecision :=
  let interactiveOk := p.interactivity = .interactive
  let (costMs, costSource) := effectiveRehydrationCostMs p config
  let costOk := costMs.any (config.rehydrationCostThresholdMs < ·)
  let freqOk := config.frequencyThreshold ≤ windowedAccessCount
  { promote := interactiveOk && costOk && freqOk
    reason :=
      if interactiveOk && costOk && freqOk then .qualifies
      else if !interactiveOk then .notInteractive
      else if !costOk then .costBelowThreshold
      else .frequencyBelowThreshold
    detail := some {
      interactivity := p.interactivity
      interactiveOk, costMs, costSource
      costThresholdMs := config.rehydrationCostThresholdMs
      costOk, windowedAccessCount
      frequencyThreshold := config.frequencyThreshold
      freqOk } }

def evaluatePromotion (now : ℤ) (contentHash : String) (config : PlacementConfig) :
    PlacementTx PromotionDecision := do
  match ← placementQuery (.findByContentHash contentHash) with
  | none => pure { promote := false, reason := .noPlacement }
  | some placement =>
      if placement.pinned then pure { promote := false, reason := .alreadyPinned }
      else do
        let windowedAccessCount ← placementQuery
          (.countWithinWindow contentHash (now - interval config.frequencyWindowMs))
        pure (promotionDecision placement config windowedAccessCount)

inductive DemotionReason where
  | noPlacement
  | notPinned
  | idlePastThreshold
  | stillWithinIdleThreshold
deriving DecidableEq

structure DemotionDetail where
  /-- The idle time; a row that was never accessed is idle forever. -/
  idleMs : Option ℤ
  idleThresholdMs : ℚ

structure DemotionDecision where
  demote : Bool
  reason : DemotionReason
  detail : Option DemotionDetail := none

/-- `dateNow` is the clock of the process, in milliseconds; a `Date` drops the
microseconds of its column. -/
def evaluateDemotion (dateNow : ℤ) (contentHash : String) (config : PlacementConfig) :
    PlacementTx DemotionDecision := do
  match ← placementQuery (.findByContentHash contentHash) with
  | none => pure { demote := false, reason := .noPlacement }
  | some placement =>
      if !placement.pinned then pure { demote := false, reason := .notPinned }
      else
        let idleMs := placement.lastAccessedAt.map fun accessedAt => dateNow - accessedAt / 1000
        let demote := idleMs.all fun ms => config.idleThresholdMs < ms
        pure { demote
               reason := if demote then .idlePastThreshold else .stillWithinIdleThreshold
               detail := some ⟨idleMs, config.idleThresholdMs⟩ }

def promote (now : ℤ) (contentHash : String) : PlacementTx Placement :=
  setPinned now contentHash true

def demote (now : ℤ) (contentHash : String) : PlacementTx Placement :=
  setPinned now contentHash false

/-- `Number(row.size_bytes)`, which the mapper makes of the column. -/
def Placement.mappedSize (p : Placement) : ℤ := Doubles.nearest p.sizeBytes

/-- The total of the sizes, one after another. -/
def sizeSum (pinned : List Placement) : ℤ :=
  pinned.foldl (fun sum p => Doubles.nearest (sum + p.mappedSize)) 0

/-- Demote from the front until the total is within the budget. A placement
without a size is passed over. -/
def evictUntilWithin (now : ℤ) (budget : ℚ) : List Placement → ℤ → PlacementTx (List String)
  | [], _ => pure []
  | placement :: rest, total =>
      if (total : ℚ) ≤ budget then pure []
      else if placement.mappedSize ≤ 0 then evictUntilWithin now budget rest total
      else do
        let _ ← demote now placement.contentHash
        let evicted ← evictUntilWithin now budget rest
          (Doubles.nearest (total - placement.mappedSize))
        pure (placement.contentHash :: evicted)

def evictLRUIfOverCapacity (now : ℤ) (config : PlacementConfig) : PlacementTx (List String) := do
  let pinned ← placementQuery .listPinnedOrderedByLru
  evictUntilWithin now config.pinnedBudgetBytes pinned (sizeSum pinned)

end WorkflowPlatform
