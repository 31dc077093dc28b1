import WorkflowPlatform.Placement

/-!
# Histories of placement calls

A call is one transaction. A history is the calls that have been made, each with
what the database chose for it; what a call throws leaves the rows as they were.
-/
namespace WorkflowPlatform

inductive PlacementCall where
  | recordAccess (contentHash : String) (opts : RecordAccessOptions)
  | promote (contentHash : String)
  | demote (contentHash : String)
  | evictLRUIfOverCapacity (config : PlacementConfig)

namespace PlacementCall

/-- The transaction of a call. Its result is the hashes it has demoted. -/
def script : PlacementCall → PlacementTx (List String)
  | recordAccess h opts => do
      let now ← placementQuery .startTime
      let _ ← WorkflowPlatform.recordAccess now h opts
      pure []
  | promote h => do
      let now ← placementQuery .startTime
      let _ ← WorkflowPlatform.promote now h
      pure []
  | demote h => do
      let now ← placementQuery .startTime
      let _ ← WorkflowPlatform.demote now h
      pure [h]
  | evictLRUIfOverCapacity config => do
      let now ← placementQuery .startTime
      WorkflowPlatform.evictLRUIfOverCapacity now config

/-- The call records an access of this hash and says where its replica is. -/
def SuppliesReplica (h : String) : PlacementCall → Prop
  | recordAccess h' opts => h' = h ∧ opts.replicaId.isSome
  | _ => False

/-- The call may make the hash resident again. -/
def Revives (h : String) (call : PlacementCall) : Prop :=
  call = promote h ∨ call.SuppliesReplica h

end PlacementCall

structure PlacementEvent where
  choice : PlacementChoice
  call : PlacementCall

namespace PlacementDb

/-- A transaction that nobody interferes with. -/
def transact {α : Type} (db : PlacementDb) (c : PlacementChoice) (m : PlacementTx α) :
    Except Failure α × PlacementDb :=
  placementStore.transact c (fun _ => false) m db

def after (db : PlacementDb) (e : PlacementEvent) : PlacementDb :=
  (db.transact e.choice e.call.script).2

/-- The hashes that a call demotes. -/
def demoted (db : PlacementDb) (e : PlacementEvent) : List String :=
  match (db.transact e.choice e.call.script).1 with
  | .ok hashes => hashes
  | .error _ => []

def afterAll (db : PlacementDb) (history : List PlacementEvent) : PlacementDb :=
  history.foldl after db

theorem afterAll_append (db : PlacementDb) (history history' : List PlacementEvent) :
    db.afterAll (history ++ history') = (db.afterAll history).afterAll history' :=
  List.foldl_append

/-- The rows are found under their own hash. -/
def Keyed (db : PlacementDb) : Prop := ∀ h p, db.placement h = some p → p.contentHash = h

theorem empty_keyed : PlacementDb.empty.Keyed := fun h p hp => by cases hp

end PlacementDb

@[simp] theorem upsertedPlacement_contentHash {now : ℤ} {input : UpsertPlacementAccessInput}
    {row : Option Placement} (h : ∀ p, row = some p → p.contentHash = input.contentHash) :
    (upsertedPlacement now input row).contentHash = input.contentHash := by
  cases row with
  | none => rfl
  | some p => exact h p rfl

theorem upsertedPlacement_replicaId (now : ℤ) (input : UpsertPlacementAccessInput)
    (row : Option Placement) :
    (upsertedPlacement now input row).replicaId = input.replicaId.or (row.bind (·.replicaId)) := by
  cases row with
  | none => simp [upsertedPlacement, firstPlacement]
  | some p => rfl

/-! ### What one statement does to the rows -/

namespace PlacementDb
variable {db : PlacementDb} {c : PlacementChoice} {op : PlacementOp}

/-- What a statement does to the row of one hash. -/
inductive RowChange (db db' : PlacementDb) (h : String) : PlacementOp → Prop
  | same {op : PlacementOp} : db'.placement h = db.placement h → RowChange db db' h op
  | upserted (now : ℤ) (input : UpsertPlacementAccessInput) : input.contentHash = h →
      db'.placement h = some (upsertedPlacement now input (db.placement h)) →
      RowChange db db' h (.upsertAccess now input)
  | pinned (now : ℤ) (pinned : Bool) (p : Placement) : db.placement h = some p →
      db'.placement h = some (p.withPinned now pinned) →
      RowChange db db' h (.setPinned now h pinned)

theorem put_placement (db : PlacementDb) (k : String) (p : Placement) (h : String) :
    (PlacementWrite.apply db (.putPlacement k p)).placement h =
      if h = k then some p else db.placement h := by
  by_cases hh : h = k
  · simp [PlacementWrite.apply, hh]
  · simp [PlacementWrite.apply, hh]

theorem respond_change (db : PlacementDb) (c : PlacementChoice) (op : PlacementOp) (h : String) :
    RowChange db (placementStore.view db (placementRespond c db op).2) h op := by
  cases op with
  | upsertAccess now input =>
      have hview := put_placement db input.contentHash
        (upsertedPlacement now input (db.placement input.contentHash)) h
      by_cases hh : h = input.contentHash
      · subst hh
        rw [if_pos rfl] at hview
        exact .upserted now input rfl hview
      · rw [if_neg hh] at hview
        exact .same hview
  | setPinned now k pinned =>
      cases hp : db.placement k with
      | none =>
          simp only [placementRespond, hp]
          exact .same rfl
      | some p =>
          have hview := put_placement db k (p.withPinned now pinned) h
          simp only [placementRespond, hp]
          by_cases hh : h = k
          · subst hh
            rw [if_pos rfl] at hview
            exact .pinned now pinned p hp hview
          · rw [if_neg hh] at hview
            exact .same hview
  | _ => exact .same rfl

theorem respond_keyed (hdb : db.Keyed) :
    (placementStore.view db (placementRespond c db op).2).Keyed := by
  intro h p hp
  cases respond_change db c op h with
  | same hsame => exact hdb h p (hsame ▸ hp)
  | upserted now input hh hrow =>
      rw [hrow] at hp
      cases hp
      subst hh
      exact upsertedPlacement_contentHash (hdb _)
  | pinned now pinned q hq hrow =>
      rw [hrow] at hp
      cases hp
      exact hdb h q hq

theorem respond_eq {r : op.Resp} {ws : List PlacementWrite} {lock : String → Bool}
    (h : placementStore.respond c db lock op = some (r, ws)) :
    ws = (placementRespond c db op).2 := (congrArg Prod.snd (Option.some.inj h)).symm

theorem transact_keyed {α : Type} (m : PlacementTx α) (hdb : db.Keyed) :
    (db.transact c m).2.Keyed := by
  apply placementStore.transact_keeps _ hdb
  apply Script.all_of_forall
  intro op V r ws hV hr
  rw [respond_eq hr]
  exact respond_keyed hV

theorem afterAll_keyed (history : List PlacementEvent) (hdb : db.Keyed) :
    (db.afterAll history).Keyed := by
  induction history generalizing db with
  | nil => exact hdb
  | cons e rest ih => exact ih (transact_keyed _ hdb)

end PlacementDb
end WorkflowPlatform
