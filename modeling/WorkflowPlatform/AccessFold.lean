import Mathlib.Algebra.BigOperators.Group.List.Basic
import Mathlib.Data.List.Induction
import Mathlib.Tactic.FieldSimp
import Mathlib.Tactic.Ring
import WorkflowPlatform.PlacementCalls

/-!
# The row of a hash as a fold of its accesses

Every column of a placement row is determined by the accesses that were recorded
for its hash and by the last call that pinned or unpinned it. The insert and the
update of one statement compute the same fold: a first access is the fold of one.
-/
namespace WorkflowPlatform

/-- The calls that write a placement row, each in a transaction of its own. -/
inductive RowCall where
  | upsertAccess (input : UpsertPlacementAccessInput)
  | promote (contentHash : String)
  | demote (contentHash : String)

def RowCall.script : RowCall → PlacementTx Unit
  | upsertAccess input => do
      let now ← placementQuery .startTime
      let _ ← WorkflowPlatform.upsertAccess now input
      pure ()
  | promote h => do
      let now ← placementQuery .startTime
      let _ ← WorkflowPlatform.promote now h
      pure ()
  | demote h => do
      let now ← placementQuery .startTime
      let _ ← WorkflowPlatform.demote now h
      pure ()

structure RowEvent where
  choice : PlacementChoice
  call : RowCall

namespace PlacementDb

def afterRow (db : PlacementDb) (e : RowEvent) : PlacementDb := (db.transact e.choice e.call.script).2

def afterRows (db : PlacementDb) (history : List RowEvent) : PlacementDb := history.foldl afterRow db

end PlacementDb

/-! ### The fold -/

/-- An access: what it supplies, and when it was. -/
structure RowAccess where
  accessedAt : ℤ
  input : UpsertPlacementAccessInput

namespace RowEvent

/-- The access of a hash that a call records. -/
def accessOf (h : String) (e : RowEvent) : Option RowAccess :=
  match e.call with
  | .upsertAccess input =>
      if input.contentHash = h then some ⟨input.accessedAt.getD e.choice.now, input⟩ else none
  | _ => none

/-- What a call makes of the pin of a hash: the time since which it is pinned, if
it is. -/
def pinOf (h : String) (e : RowEvent) : Option (Option ℤ) :=
  match e.call with
  | .upsertAccess _ => none
  | .promote k => if k = h then some (some e.choice.now) else none
  | .demote k => if k = h then some none else none

end RowEvent

/-- The last value that was supplied for a field. -/
def lastSupplied {α : Type} (field : UpsertPlacementAccessInput → Option α)
    (accesses : List RowAccess) : Option α := (accesses.filterMap fun a => field a.input).getLast?

def samplesOf (accesses : List RowAccess) : List ℚ :=
  accesses.filterMap (·.input.observedRehydrationMs)

/-- The arithmetic mean, if there is a sample. -/
def mean (samples : List ℚ) : Option ℚ :=
  if samples = [] then none else some (samples.sum / samples.length)

/-- The row that a history of accesses and pins of a hash leaves. -/
def foldedPlacement (h : String) (accesses : List RowAccess) (pins : List (Option ℤ)) :
    Placement where
  contentHash := h
  replicaId := lastSupplied (·.replicaId) accesses
  sessionId := lastSupplied (·.sessionId) accesses
  pinned := (pins.getLast?.getD none).isSome
  pinnedAt := pins.getLast?.getD none
  interactivity := (lastSupplied (·.interactivity) accesses).getD .batch
  accessCount := accesses.length
  firstAccessedAt := accesses.head?.map (·.accessedAt)
  lastAccessedAt := accesses.getLast?.map (·.accessedAt)
  declaredCostClass := lastSupplied (·.declaredCostClass) accesses
  observedRehydrationMs := mean (samplesOf accesses)
  observedSampleCount := (samplesOf accesses).length
  sizeBytes := (lastSupplied (·.sizeBytes) accesses).getD 0

theorem lastSupplied_singleton {α : Type} (field : UpsertPlacementAccessInput → Option α)
    (a : RowAccess) : lastSupplied field [a] = field a.input := by
  unfold lastSupplied
  cases hf : field a.input <;> simp [hf]

theorem lastSupplied_concat {α : Type} (field : UpsertPlacementAccessInput → Option α)
    (accesses : List RowAccess) (a : RowAccess) :
    lastSupplied field (accesses ++ [a]) = (field a.input).or (lastSupplied field accesses) := by
  rw [← lastSupplied_singleton field a]
  unfold lastSupplied
  rw [List.filterMap_append, List.getLast?_append]

theorem samplesOf_concat (accesses : List RowAccess) (a : RowAccess) :
    samplesOf (accesses ++ [a]) = samplesOf accesses ++ a.input.observedRehydrationMs.toList := by
  unfold samplesOf
  rw [List.filterMap_append]
  cases hs : a.input.observedRehydrationMs <;> simp [hs]

theorem mean_toList (sample : Option ℚ) : mean sample.toList = sample := by
  cases sample <;> simp [mean]

/-- The incremental mean is the mean. -/
theorem mean_concat (samples : List ℚ) (sample : ℚ) :
    mean (samples ++ [sample]) = match mean samples with
      | none => some sample
      | some m => some ((m * samples.length + sample) / (samples.length + 1)) := by
  unfold mean
  by_cases hs : samples = []
  · simp [hs]
  · have hlength : (samples.length : ℚ) ≠ 0 := by
      simpa using hs
    rw [if_neg hs, if_neg (by simp), List.sum_append, List.length_append, List.sum_singleton,
      List.length_singleton]
    dsimp only
    rw [div_mul_cancel₀ _ hlength]
    push_cast
    rfl

/-- One access: the insert is the fold of one access, the update adds to the fold
of those before it. -/
theorem foldAccess_folded {h : String} {now : ℤ} {input : UpsertPlacementAccessInput}
    {accesses : List RowAccess} {pins : List (Option ℤ)} (haccesses : accesses ≠ []) :
    (foldedPlacement h accesses pins).foldAccess now input =
      foldedPlacement h (accesses ++ [⟨input.accessedAt.getD now, input⟩]) pins := by
  have hobserved : (foldedPlacement h accesses pins).foldObserved input.observedRehydrationMs =
      mean (samplesOf (accesses ++ [⟨input.accessedAt.getD now, input⟩])) := by
    rw [samplesOf_concat]
    cases hsample : input.observedRehydrationMs with
    | none =>
        simp only [Option.toList_none, List.append_nil]
        rfl
    | some sample =>
        simp only [Option.toList_some]
        rw [mean_concat]
        rfl
  have hcount : (samplesOf accesses).length + (if input.observedRehydrationMs.isNone then 0 else 1) =
      (samplesOf (accesses ++ [⟨input.accessedAt.getD now, input⟩])).length := by
    rw [samplesOf_concat]
    cases input.observedRehydrationMs <;> simp
  have hhead : ∀ a : RowAccess, (accesses ++ [a]).head? = accesses.head? := fun a =>
    List.head?_append_of_ne_nil _ haccesses
  unfold Placement.foldAccess
  rw [hobserved]
  simp only [foldedPlacement, lastSupplied_concat, hcount, hhead, List.length_append,
    List.getLast?_concat, Option.map_some, List.length_singleton]
  congr 1
  · cases input.interactivity <;> rfl
  · cases input.sizeBytes <;> rfl

theorem firstPlacement_folded {now : ℤ} {input : UpsertPlacementAccessInput} :
    firstPlacement now input =
      foldedPlacement input.contentHash [⟨input.accessedAt.getD now, input⟩] [] := by
  have hsamples : samplesOf [⟨input.accessedAt.getD now, input⟩] =
      input.observedRehydrationMs.toList := samplesOf_concat [] _
  unfold firstPlacement foldedPlacement
  simp only [lastSupplied_singleton, hsamples, mean_toList]
  congr 1
  cases input.observedRehydrationMs <;> rfl

theorem withPinned_folded {h : String} {now : ℤ} {pinned : Bool} {accesses : List RowAccess}
    {pins : List (Option ℤ)} :
    (foldedPlacement h accesses pins).withPinned now pinned =
      foldedPlacement h accesses (pins ++ [if pinned then some now else none]) := by
  unfold Placement.withPinned foldedPlacement
  rw [List.getLast?_concat]
  cases pinned <;> rfl

/-! ### Histories -/

namespace PlacementDb
variable {db : PlacementDb} {h : String}

theorem afterRow_upsertAccess (db : PlacementDb) (c : PlacementChoice)
    (input : UpsertPlacementAccessInput) (h : String) :
    (db.afterRow ⟨c, .upsertAccess input⟩).placement h =
      if h = input.contentHash then
        some (upsertedPlacement c.now input (db.placement input.contentHash))
      else db.placement h := put_placement db input.contentHash _ h

/-- Pinning a hash that has no row throws. -/
theorem setPinned_transact (db : PlacementDb) (c : PlacementChoice) (k : String) (pinned : Bool)
    (h : String) :
    (db.transact c do
      let now ← placementQuery .startTime
      let _ ← setPinned now k pinned
      pure ()).2.placement h =
      if h = k then (db.placement k).map (·.withPinned c.now pinned) else db.placement h := by
  cases hp : db.placement k with
  | none =>
      have hthrows : (db.transact c do
          let now ← placementQuery .startTime
          let _ ← setPinned now k pinned
          pure ()).2 = db := by
        simp [transact, Store.transact, setPinned, Script.run_call, Store.handle, placementStore,
          placementRespond, hp]
      rw [hthrows]
      split
      · next hk => rw [hk, hp]; rfl
      · rfl
  | some p =>
      have hsets : (db.transact c do
          let now ← placementQuery .startTime
          let _ ← setPinned now k pinned
          pure ()).2 = PlacementWrite.apply db (.putPlacement k (p.withPinned c.now pinned)) := by
        simp [transact, Store.transact, setPinned, Script.run_call, Store.handle, placementStore,
          placementRespond, hp, Store.view]
      rw [hsets, put_placement]
      rfl

theorem setPinned_folded {accesses : List RowAccess} {pins : List (Option ℤ)} (db : PlacementDb)
    (c : PlacementChoice) (k : String) (pinned : Bool)
    (hrow : db.placement h = some (foldedPlacement h accesses pins)) :
    (db.transact c do
      let now ← placementQuery .startTime
      let _ ← setPinned now k pinned
      pure ()).2.placement h = some (foldedPlacement h accesses
        (pins ++ if k = h then [if pinned then some c.now else none] else [])) := by
  rw [setPinned_transact]
  by_cases hh : h = k
  · subst hh
    rw [if_pos rfl, if_pos rfl, hrow, Option.map_some, withPinned_folded]
  · rw [if_neg hh, if_neg (Ne.symm hh), hrow, List.append_nil]

/-- What one call does to a row that is a fold: it extends the fold. -/
theorem afterRow_folded {accesses : List RowAccess} {pins : List (Option ℤ)} (e : RowEvent)
    (haccesses : accesses ≠ []) (hrow : db.placement h = some (foldedPlacement h accesses pins)) :
    (db.afterRow e).placement h = some (foldedPlacement h
      (accesses ++ (e.accessOf h).toList) (pins ++ (e.pinOf h).toList)) := by
  obtain ⟨c, call⟩ := e
  cases call with
  | upsertAccess input =>
      rw [afterRow_upsertAccess]
      by_cases hh : h = input.contentHash
      · subst hh
        rw [if_pos rfl, hrow]
        simp only [RowEvent.accessOf, RowEvent.pinOf, if_true, Option.toList_some,
          Option.toList_none, List.append_nil]
        exact congrArg some (foldAccess_folded haccesses)
      · rw [if_neg hh, hrow]
        simp [RowEvent.accessOf, RowEvent.pinOf, Ne.symm hh]
  | promote k =>
      have hpinned := setPinned_folded db c k true hrow
      rw [show (accesses ++ (RowEvent.accessOf h ⟨c, .promote k⟩).toList) = accesses from
        List.append_nil _]
      refine hpinned.trans ?_
      by_cases hh : k = h <;> simp [RowEvent.pinOf, hh]
  | demote k =>
      have hpinned := setPinned_folded db c k false hrow
      rw [show (accesses ++ (RowEvent.accessOf h ⟨c, .demote k⟩).toList) = accesses from
        List.append_nil _]
      refine hpinned.trans ?_
      by_cases hh : k = h <;> simp [RowEvent.pinOf, hh]

theorem afterRows_folded {accesses : List RowAccess} {pins : List (Option ℤ)}
    (history : List RowEvent) (haccesses : accesses ≠ [])
    (hrow : db.placement h = some (foldedPlacement h accesses pins)) :
    (db.afterRows history).placement h = some (foldedPlacement h
      (accesses ++ history.filterMap (·.accessOf h)) (pins ++ history.filterMap (·.pinOf h))) := by
  induction history generalizing db accesses pins with
  | nil => simpa [afterRows] using hrow
  | cons e rest ih =>
      have hstep := afterRow_folded e haccesses hrow
      have hrest := ih (by simp [haccesses]) hstep
      have hsplit : ∀ {α : Type} (f : RowEvent → Option α),
          (e :: rest).filterMap f = (f e).toList ++ rest.filterMap f := by
        intro α f
        cases hf : f e <;> simp [hf]
      rw [hsplit, hsplit, ← List.append_assoc, ← List.append_assoc]
      exact hrest

end PlacementDb

/-- When the cost of a row is reported as observed, and what is then reported. -/
theorem effectiveRehydrationCostMs_observed (p : Placement) (config : PlacementConfig) :
    ((effectiveRehydrationCostMs p config).2 = .observed ↔
      p.observedRehydrationMs ≠ none ∧ config.observedMinSamples ≤ p.observedSampleCount) ∧
    ((effectiveRehydrationCostMs p config).2 = .observed →
      (effectiveRehydrationCostMs p config).1 = p.observedRehydrationMs) := by
  have hprior : (effectiveRehydrationCostMs.prior p config).2 ≠ .observed := by
    unfold effectiveRehydrationCostMs.prior
    split <;> simp
  unfold effectiveRehydrationCostMs
  cases hms : p.observedRehydrationMs with
  | none => exact ⟨iff_of_false hprior fun h => h.1 rfl, fun h => absurd h hprior⟩
  | some ms =>
      dsimp only
      split_ifs with hmin
      · exact ⟨iff_of_true rfl ⟨by simp, hmin⟩, fun _ => rfl⟩
      · exact ⟨iff_of_false hprior fun h => hmin h.2, fun h => absurd h hprior⟩

theorem effectiveRehydrationCostMs_folded (h : String) (accesses : List RowAccess)
    (pins : List (Option ℤ)) (config : PlacementConfig) :
    ((effectiveRehydrationCostMs (foldedPlacement h accesses pins) config).2 = .observed ↔
      samplesOf accesses ≠ [] ∧ config.observedMinSamples ≤ (samplesOf accesses).length) ∧
    ((effectiveRehydrationCostMs (foldedPlacement h accesses pins) config).2 = .observed →
      (effectiveRehydrationCostMs (foldedPlacement h accesses pins) config).1 =
        some ((samplesOf accesses).sum / (samplesOf accesses).length)) := by
  obtain ⟨hiff, hcost⟩ :=
    effectiveRehydrationCostMs_observed (foldedPlacement h accesses pins) config
  have hmean : (foldedPlacement h accesses pins).observedRehydrationMs = mean (samplesOf accesses) :=
    rfl
  have hsome : mean (samplesOf accesses) ≠ none ↔ samplesOf accesses ≠ [] := by
    simp [mean]
  rw [hmean, hsome] at hiff
  refine ⟨hiff, fun hobserved => ?_⟩
  rw [hcost hobserved, hmean, mean, if_neg (hiff.mp hobserved).1]

/-- The row of a hash after any history that first records an access of it. It is
the fold of the accesses and pins of the history, and the observed cost that is
reported is the exact mean of the samples, as soon as there are enough of them. -/
theorem placement_row_folds_history (db : PlacementDb) (first : UpsertPlacementAccessInput)
    (hnew : db.placement first.contentHash = none) (c : PlacementChoice) (rest : List RowEvent) :
    let history := ⟨c, .upsertAccess first⟩ :: rest
    let accesses := history.filterMap (·.accessOf first.contentHash)
    let p := foldedPlacement first.contentHash accesses
      (rest.filterMap (·.pinOf first.contentHash))
    (db.afterRows history).placement first.contentHash = some p ∧
      ∀ config, ((effectiveRehydrationCostMs p config).2 = .observed ↔
          samplesOf accesses ≠ [] ∧ config.observedMinSamples ≤ (samplesOf accesses).length) ∧
        ((effectiveRehydrationCostMs p config).2 = .observed →
          (effectiveRehydrationCostMs p config).1 =
            some ((samplesOf accesses).sum / (samplesOf accesses).length)) := by
  refine ⟨?_, fun config => effectiveRehydrationCostMs_folded ..⟩
  have hfirst : (db.afterRow ⟨c, .upsertAccess first⟩).placement first.contentHash =
      some (foldedPlacement first.contentHash [⟨first.accessedAt.getD c.now, first⟩] []) := by
    rw [PlacementDb.afterRow_upsertAccess, if_pos rfl, hnew, ← firstPlacement_folded]
    rfl
  have hrest := PlacementDb.afterRows_folded rest (List.cons_ne_nil _ _) hfirst
  rw [List.filterMap_cons_some (show RowEvent.accessOf first.contentHash ⟨c, .upsertAccess first⟩ =
    some ⟨first.accessedAt.getD c.now, first⟩ from if_pos rfl)]
  exact hrest

/-- Two samples, a size and a pin: the mean of the samples is reported. -/
theorem placement_row_folds_history_two :
    ∃ p : Placement,
      (PlacementDb.empty.afterRows [
        ⟨⟨0, fun _ => 0⟩, .upsertAccess { contentHash := "h", observedRehydrationMs := some 100 }⟩,
        ⟨⟨1, fun _ => 0⟩, .promote "h"⟩,
        ⟨⟨2, fun _ => 0⟩, .upsertAccess
          { contentHash := "h", sizeBytes := some 7, observedRehydrationMs := some 300 }⟩]).placement
        "h" = some p ∧ p.accessCount = 2 ∧ p.sizeBytes = 7 ∧ p.pinnedAt = some 1 ∧
      effectiveRehydrationCostMs p { DEFAULT_PLACEMENT_CONFIG with observedMinSamples := 2 } =
        (some 200, .observed) := by
  obtain ⟨hrow, hcost⟩ := placement_row_folds_history PlacementDb.empty
    { contentHash := "h", observedRehydrationMs := some 100 } rfl ⟨0, fun _ => 0⟩
    [⟨⟨1, fun _ => 0⟩, .promote "h"⟩, ⟨⟨2, fun _ => 0⟩, .upsertAccess
      { contentHash := "h", sizeBytes := some 7, observedRehydrationMs := some 300 }⟩]
  obtain ⟨hiff, hmean⟩ := hcost { DEFAULT_PLACEMENT_CONFIG with observedMinSamples := 2 }
  have hobserved := hiff.mpr ⟨by decide +kernel, by decide +kernel⟩
  refine ⟨_, hrow, rfl, rfl, rfl, Prod.ext ((hmean hobserved).trans ?_) hobserved⟩
  decide +kernel

end WorkflowPlatform
