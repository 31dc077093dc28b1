import Mathlib.Data.List.Induction
import WorkflowPlatform.PlacementCalls

/-!
# Demotion and the replica of a hash

Resolving a hash asks whether its row has a replica. Only an access that supplies
one writes that column, and nothing clears it: a demotion unpins. So a demoted
hash resolves as cold exactly when no access before its demotion had supplied a
replica for it.
-/
namespace WorkflowPlatform

namespace PlacementDb
variable {db : PlacementDb} {h : String}

/-- The row of the hash has this replica. -/
def HasReplica (h : String) (replica : Option String) (db : PlacementDb) : Prop :=
  ∃ p, db.placement h = some p ∧ p.replicaId = replica

/-- The statement cannot give the hash a replica. -/
def LeavesReplica (h : String) : PlacementOp → Prop
  | .upsertAccess _ input => input.contentHash = h → input.replicaId = none
  | _ => True

theorem respond_replica {c : PlacementChoice} {op : PlacementOp} {replica : Option String}
    (hop : LeavesReplica h op) (hrow : db.HasReplica h replica) :
    (placementStore.view db (placementRespond c db op).2).HasReplica h replica := by
  obtain ⟨p, hp, hreplica⟩ := hrow
  cases respond_change db c op h with
  | same hsame => exact ⟨p, hsame.trans hp, hreplica⟩
  | upserted now input hh hput =>
      refine ⟨_, hput, ?_⟩
      rw [upsertedPlacement_replicaId, hop hh, hp]
      exact hreplica
  | pinned now pinned q hq hput =>
      rw [hp] at hq
      cases hq
      exact ⟨_, hput, hreplica⟩

/-- A transaction whose statements leave the replica of a hash alone. -/
theorem transact_replica {α : Type} {c : PlacementChoice} {m : PlacementTx α}
    {replica : Option String} (hm : m.All (LeavesReplica h)) (hrow : db.HasReplica h replica) :
    (db.transact c m).2.HasReplica h replica := by
  apply placementStore.transact_keeps (P := HasReplica h replica) _ hrow
  apply hm.mono
  intro op hop V r ws hV hr
  rw [respond_eq hr]
  exact respond_replica hop hV

/-- A transaction none of whose statements writes the row of a hash. -/
theorem transact_none {α : Type} {c : PlacementChoice} {m : PlacementTx α}
    (hm : m.All fun op => ∀ now input, op = .upsertAccess now input → input.contentHash ≠ h)
    (hrow : db.placement h = none) : (db.transact c m).2.placement h = none := by
  apply placementStore.transact_keeps (P := fun d => d.placement h = none) _ hrow
  apply hm.mono
  intro op hop V r ws hV hr
  rw [respond_eq hr]
  cases respond_change V c op h with
  | same hsame => exact hsame.trans hV
  | upserted now input hh _ => exact absurd hh (hop now input rfl)
  | pinned now pinned q hq _ =>
      rw [hV] at hq
      cases hq

end PlacementDb

/-! ### What the calls issue -/

theorem setPinned_all {P : PlacementOp → Prop} {now : ℤ} {h : String} {pinned : Bool}
    (hP : P (.setPinned now h pinned)) : (setPinned now h pinned).All P := by
  refine ⟨hP, fun r => ?_⟩
  cases r with
  | error e => trivial
  | ok row => cases row <;> trivial

theorem evictUntilWithin_all {P : PlacementOp → Prop} {now : ℤ} {budget : ℚ}
    (hP : ∀ h, P (.setPinned now h false)) (pinned : List Placement) (total : ℤ) :
    (evictUntilWithin now budget pinned total).All P := by
  induction pinned generalizing total with
  | nil => trivial
  | cons p rest ih =>
      unfold evictUntilWithin
      split_ifs
      · trivial
      · exact ih total
      · apply Script.all_bind (setPinned_all (hP p.contentHash))
        intro _
        exact Script.all_bind (ih _) fun _ => trivial

theorem evictLRUIfOverCapacity_all {P : PlacementOp → Prop} {now : ℤ} {config : PlacementConfig}
    (hlist : P .listPinnedOrderedByLru) (hP : ∀ h, P (.setPinned now h false)) :
    (evictLRUIfOverCapacity now config).All P := by
  apply Script.all_bind ((Script.all_perform ..).mpr hlist)
  intro pinned
  exact evictUntilWithin_all hP pinned _

namespace PlacementCall
variable {h : String}

/-- The call records an access of this hash. -/
def Accesses (h : String) : PlacementCall → Prop
  | recordAccess h' _ => h' = h
  | _ => False

/-- What the transaction of a call can issue. -/
theorem script_all {P : PlacementOp → Prop} {call : PlacementCall} (hstart : P .startTime)
    (hlist : P .listPinnedOrderedByLru) (hpinned : ∀ now k pinned, P (.setPinned now k pinned))
    (haccess : ∀ k opts now, call = recordAccess k opts → P (.upsertAccess now (opts.upsertInput k)) ∧
      ∀ t, P (.record k t) ∧ P (.pruneOlderThan k t)) : call.script.All P := by
  have hnow : (placementQuery .startTime : PlacementTx ℤ).All P :=
    (Script.all_perform ..).mpr hstart
  cases call with
  | recordAccess k opts =>
      apply Script.all_bind hnow
      intro now
      obtain ⟨hupsert, hlog⟩ := haccess k opts now rfl
      refine Script.all_bind ?_ fun _ => trivial
      apply Script.all_bind
      · refine ⟨hupsert, fun r => ?_⟩
        cases r with
        | error e => trivial
        | ok row => cases row <;> trivial
      · intro placement
        apply Script.all_bind ((Script.all_perform ..).mpr (hlog _).1)
        intro _
        exact Script.all_bind ((Script.all_perform ..).mpr (hlog _).2) fun _ => trivial
  | promote k =>
      apply Script.all_bind hnow
      intro now
      exact Script.all_bind (setPinned_all (hpinned now k true)) fun _ => trivial
  | demote k =>
      apply Script.all_bind hnow
      intro now
      exact Script.all_bind (setPinned_all (hpinned now k false)) fun _ => trivial
  | evictLRUIfOverCapacity config =>
      apply Script.all_bind hnow
      intro now
      exact evictLRUIfOverCapacity_all hlist fun k => hpinned now k false

end PlacementCall

namespace PlacementDb
variable {db : PlacementDb} {h : String} {e : PlacementEvent}

theorem after_replica {replica : Option String}
    (he : ¬ e.call.SuppliesReplica h) (hrow : db.HasReplica h replica) :
    (db.after e).HasReplica h replica := by
  apply transact_replica _ hrow
  refine PlacementCall.script_all trivial trivial (fun _ _ _ => trivial) fun k opts now hcall => ?_
  refine ⟨fun hk => ?_, fun t => ⟨trivial, trivial⟩⟩
  rw [hcall] at he
  by_contra hsome
  exact he ⟨hk, Option.isSome_iff_ne_none.mpr hsome⟩

/-- A call that does not access the hash never writes a row for it. -/
theorem script_upserts_no (he : ¬ e.call.Accesses h) : e.call.script.All fun op =>
    ∀ now input, op = .upsertAccess now input → input.contentHash ≠ h := by
  apply PlacementCall.script_all
  · intro _ _ heq
    cases heq
  · intro _ _ heq
    cases heq
  · intro _ _ _ _ _ heq
    cases heq
  · intro k opts now hcall
    constructor
    · intro now' input heq hk
      cases heq
      rw [hcall] at he
      exact he hk
    · intro t
      constructor <;> intro _ _ heq <;> cases heq

theorem after_none (he : ¬ e.call.Accesses h) (hrow : db.placement h = none) :
    (db.after e).placement h = none := transact_none (script_upserts_no he) hrow

/-- An access keeps the replica of its hash unless it supplies one. -/
theorem after_recordAccess_replica {opts : RecordAccessOptions}
    (he : e.call = .recordAccess h opts) :
    (db.after e).HasReplica h (opts.replicaId.or ((db.placement h).bind (·.replicaId))) := by
  obtain ⟨c, call⟩ := e
  cases he
  have hput := put_placement db h
    (upsertedPlacement c.now (opts.upsertInput h) (db.placement h)) h
  rw [if_pos rfl] at hput
  exact ⟨_, hput, upsertedPlacement_replicaId ..⟩

/-- The row of a hash after a history: there is none, or its replica is known
exactly when an access has supplied one. -/
def TracksReplica (h : String) (supplied : Prop) (db : PlacementDb) : Prop :=
  db.placement h = none ∧ ¬ supplied ∨
    ∃ replica, db.HasReplica h replica ∧ (replica.isSome = true ↔ supplied)

theorem TracksReplica.after {supplied : Prop}
    (htracks : TracksReplica h supplied db) :
    TracksReplica h (supplied ∨ e.call.SuppliesReplica h) (db.after e) := by
  by_cases haccess : e.call.Accesses h
  · cases hcall : e.call with
    | recordAccess k opts =>
        rw [hcall] at haccess
        obtain rfl : k = h := haccess
        refine .inr ⟨_, after_recordAccess_replica hcall, ?_⟩
        have hbefore : ((db.placement k).bind (·.replicaId)).isSome = true ↔ supplied := by
          rcases htracks with ⟨hnone, hsupplied⟩ | ⟨replica, ⟨p, hp, rfl⟩, hiff⟩
          · simp [hnone, hsupplied]
          · simpa [hp] using hiff
        rw [Option.isSome_or, Bool.or_eq_true, hbefore]
        simp [PlacementCall.SuppliesReplica, or_comm]
    | promote k => simp [hcall, PlacementCall.Accesses] at haccess
    | demote k => simp [hcall, PlacementCall.Accesses] at haccess
    | evictLRUIfOverCapacity config => simp [hcall, PlacementCall.Accesses] at haccess
  · have hnot : ¬ e.call.SuppliesReplica h := by
      intro hsupplies
      cases hcall : e.call with
      | recordAccess k opts =>
          rw [hcall] at hsupplies haccess
          exact haccess hsupplies.1
      | _ =>
          rw [hcall] at hsupplies
          exact hsupplies
    rcases htracks with ⟨hnone, hsupplied⟩ | ⟨replica, hrow, hiff⟩
    · exact .inl ⟨after_none haccess hnone, fun hor => hor.elim hsupplied hnot⟩
    · exact .inr ⟨replica, after_replica hnot hrow, by simp [hnot, hiff]⟩

theorem tracksReplica_afterAll (history : List PlacementEvent) :
    TracksReplica h (∃ e ∈ history, e.call.SuppliesReplica h) (empty.afterAll history) := by
  induction history using List.reverseRecOn with
  | nil => exact .inl ⟨rfl, by simp⟩
  | append_singleton history e ih =>
      have hstep := ih.after (e := e)
      have hsupplied : (∃ e' ∈ history ++ [e], e'.call.SuppliesReplica h) ↔
          (∃ e' ∈ history, e'.call.SuppliesReplica h) ∨ e.call.SuppliesReplica h := by
        simp [or_comm, List.mem_append, exists_or, or_and_right]
      rw [afterAll_append, hsupplied]
      exact hstep

theorem afterAll_replica {replica : Option String} (history : List PlacementEvent)
    (hhistory : ∀ e ∈ history, ¬ e.call.SuppliesReplica h)
    (hrow : db.HasReplica h replica) : (db.afterAll history).HasReplica h replica := by
  induction history generalizing db with
  | nil => exact hrow
  | cons e rest ih =>
      apply ih (fun e' he' => hhistory e' (List.mem_cons_of_mem _ he'))
      exact after_replica (hhistory e List.mem_cons_self) hrow

/-! ### Only a hash with a row is demoted -/

theorem evictUntilWithin_demotes {handle : (op : PlacementOp) → Session PlacementWrite →
      Except Failure op.Resp × Session PlacementWrite} {now : ℤ} {budget : ℚ}
    {pinned : List Placement} {total : ℤ} {s : Session PlacementWrite} {hashes : List String}
    (hrun : ((evictUntilWithin now budget pinned total).run handle s).1 = .ok hashes)
    (hmem : h ∈ hashes) : ∃ p ∈ pinned, p.contentHash = h := by
  induction pinned generalizing total s hashes with
  | nil =>
      cases hrun
      cases hmem
  | cons p rest ih =>
      unfold evictUntilWithin at hrun
      split_ifs at hrun
      · cases hrun
        cases hmem
      · obtain ⟨q, hq, hhash⟩ := ih hrun hmem
        exact ⟨q, List.mem_cons_of_mem _ hq, hhash⟩
      · rw [Script.run_bind] at hrun
        split at hrun
        · rw [Script.run_bind] at hrun
          split at hrun
          · next evicted s' hrest =>
              cases hrun
              rcases List.mem_cons.mp hmem with rfl | hmem
              · exact ⟨p, List.mem_cons_self, rfl⟩
              · obtain ⟨q, hq, hhash⟩ := ih (congrArg Prod.fst hrest) hmem
                exact ⟨q, List.mem_cons_of_mem _ hq, hhash⟩
          · cases hrun
        · cases hrun

theorem mem_pinnedOrderedByLru {rank : String → ℕ} {p : Placement} (hdb : db.Keyed)
    (hp : p ∈ db.pinnedOrderedByLru rank) : db.placement p.contentHash = some p := by
  simp only [pinnedOrderedByLru, List.mem_mergeSort, List.mem_filter, List.mem_filterMap] at hp
  obtain ⟨⟨k, -, hk⟩, -⟩ := hp
  rw [hdb k p hk]
  exact hk

theorem demoted_eq (db : PlacementDb) (e : PlacementEvent) :
    db.demoted e = match (e.call.script.run
      (placementStore.handle e.choice (fun _ => false) db) {}).1 with
      | .ok hashes => hashes
      | .error _ => [] :=
  congrArg (fun r : Except Failure (List String) => match r with
    | .ok hashes => hashes
    | .error _ => []) (placementStore.transact_fst e.choice (fun _ => false) e.call.script db)

theorem demoted_row (hdb : db.Keyed) (hdemoted : h ∈ db.demoted e) :
    ∃ p, db.placement h = some p := by
  obtain ⟨c, call⟩ := e
  rw [demoted_eq] at hdemoted
  cases call with
  | recordAccess k opts => cases hdemoted
  | promote k =>
      exfalso
      dsimp only [PlacementCall.script] at hdemoted
      split at hdemoted
      · next hashes hrun =>
          rw [Script.run_bind] at hrun
          split at hrun
          · rw [Script.run_bind] at hrun
            split at hrun
            · cases hrun
              cases hdemoted
            · cases hrun
          · cases hrun
      · cases hdemoted
  | demote k =>
      cases hrow : db.placement k with
      | none =>
          simp [PlacementCall.script, WorkflowPlatform.demote, setPinned, Script.run_call,
            Store.handle, placementStore, placementRespond, hrow] at hdemoted
      | some p =>
          simp [PlacementCall.script, WorkflowPlatform.demote, setPinned, Script.run_call,
            Store.handle, placementStore, placementRespond, hrow] at hdemoted
          exact ⟨p, hdemoted ▸ hrow⟩
  | evictLRUIfOverCapacity config =>
      split at hdemoted
      · next hashes hrun =>
          -- the listing is the one of the rows as they were when the call started
          have hevict : ((evictUntilWithin c.now config.pinnedBudgetBytes
              (db.pinnedOrderedByLru c.rank) (sizeSum (db.pinnedOrderedByLru c.rank))).run
              (placementStore.handle c (fun _ => false) db) {}).1 = .ok hashes := hrun
          obtain ⟨p, hp, rfl⟩ := evictUntilWithin_demotes hevict hdemoted
          exact ⟨p, mem_pinnedOrderedByLru hdb hp⟩
      · cases hdemoted

/-- What a hash resolves to. -/
def resolve (db : PlacementDb) (c : PlacementChoice) (h : String) :
    Except Failure PlacementResolution := (db.transact c (resolvePlacement h)).1

def ResolvesCold (db : PlacementDb) (c : PlacementChoice) (h : String) : Prop :=
  ∃ p, db.resolve c h = .ok
    { found := true, warm := false, contentHash := h, reason := .coldFact, placement := some p }

theorem HasReplica.resolvesCold_iff {replica : Option String} {c : PlacementChoice}
    (hrow : db.HasReplica h replica) : db.ResolvesCold c h ↔ replica = none := by
  obtain ⟨p, hp, rfl⟩ := hrow
  have hresolve : db.resolve c h = .ok {
      found := true, warm := p.replicaId.isSome, contentHash := h
      reason := if p.replicaId.isSome then .warmReplica else .coldFact
      placement := some p } := by
    simp [resolve, transact, Store.transact_fst, resolvePlacement, Script.run_call, Store.handle,
      placementStore, placementRespond, hp]
  unfold ResolvesCold
  rw [hresolve]
  cases p.replicaId <;> simp

/-- After a demotion, and as long as no access supplies a replica and no call
promotes the hash, it resolves as a cold fact exactly when no access before the
demotion had supplied a replica for it. -/
theorem demoted_resolves_cold_iff (before after : List PlacementEvent) (e : PlacementEvent)
    (h : String) (hdemoted : h ∈ (empty.afterAll before).demoted e)
    (hafter : ∀ e' ∈ after, ¬ e'.call.Revives h) (c : PlacementChoice) :
    (empty.afterAll (before ++ e :: after)).ResolvesCold c h ↔
      ∀ e' ∈ before, ¬ e'.call.SuppliesReplica h := by
  have hkeyed : (empty.afterAll before).Keyed := afterAll_keyed before empty_keyed
  obtain ⟨p, hp⟩ := demoted_row hkeyed hdemoted
  have hdemotion : ¬ e.call.SuppliesReplica h := by
    intro hsupplies
    cases hcall : e.call with
    | recordAccess k opts =>
        obtain ⟨choice, call⟩ := e
        cases hcall
        cases hdemoted
    | _ =>
        rw [hcall] at hsupplies
        exact hsupplies
  have hrow : (empty.afterAll (before ++ e :: after)).HasReplica h p.replicaId := by
    rw [afterAll_append]
    apply afterAll_replica after
      (fun e' he' hsupplies => hafter e' he' (.inr hsupplies))
    exact after_replica hdemotion ⟨p, hp, rfl⟩
  have htracks : p.replicaId.isSome = true ↔ ∃ e' ∈ before, e'.call.SuppliesReplica h := by
    rcases tracksReplica_afterAll (h := h) before with ⟨hnone, -⟩ | ⟨replica, ⟨q, hq, rfl⟩, hiff⟩
    · rw [hp] at hnone
      cases hnone
    · rw [hp] at hq
      cases hq
      exact hiff
  rw [hrow.resolvesCold_iff, ← Option.not_isSome_iff_eq_none, htracks]
  simp

theorem demoted_resolves_cold_unplaced :
    (empty.afterAll ([⟨⟨0, fun _ => 0⟩, .recordAccess "h" {}⟩] ++
      ⟨⟨1, fun _ => 0⟩, .demote "h"⟩ :: [])).ResolvesCold ⟨2, fun _ => 0⟩ "h" :=
  (demoted_resolves_cold_iff _ _ _ "h" (by decide +kernel) (fun _ he' => by cases he') _).mpr
    fun e' he' hsupplies => by
      cases List.mem_singleton.mp he'
      exact absurd hsupplies.2 (by decide)

/-- A hash with a replica still resolves to it after its demotion. -/
theorem demoted_stays_warm :
    "h" ∈ (empty.afterAll [⟨⟨0, fun _ => 0⟩,
        .recordAccess "h" { replicaId := some "replica-1" }⟩]).demoted
          ⟨⟨1, fun _ => 0⟩, .demote "h"⟩ ∧
      ¬ (empty.afterAll [⟨⟨0, fun _ => 0⟩, .recordAccess "h" { replicaId := some "replica-1" }⟩,
          ⟨⟨1, fun _ => 0⟩, .demote "h"⟩]).ResolvesCold ⟨2, fun _ => 0⟩ "h" := by
  constructor
  · decide +kernel
  · rintro ⟨p, hp⟩
    have hwarm : ((empty.afterAll [⟨⟨0, fun _ => 0⟩,
        .recordAccess "h" { replicaId := some "replica-1" }⟩,
        ⟨⟨1, fun _ => 0⟩, .demote "h"⟩]).resolve ⟨2, fun _ => 0⟩ "h").toOption.map (·.warm) =
          some true := by decide +kernel
    rw [hp] at hwarm
    cases hwarm

end PlacementDb
end WorkflowPlatform
