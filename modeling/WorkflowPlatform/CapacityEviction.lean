import WorkflowPlatform.PlacementResidency
import WorkflowPlatform.ShortestPrefix

/-!
# Eviction over capacity

Eviction goes through the pinned rows from the least recently used one and
demotes those that have a size, until the total is within the budget. Sizes are
integers of either sign: a row without a positive size cannot help and is passed
over, so the demoted rows are the shortest prefix of the others that is enough, if
the total is the one of the sizes. It is a sum of doubles. What it comes to is the
same as long as rounding moves no total across the budget, and that is so up to a
total of 2^53.
-/
namespace WorkflowPlatform
open ShortestPrefix

namespace PlacementDb
variable {db : PlacementDb} {c : PlacementChoice} {op : PlacementOp}

/-- Rows as a table can hold them: each is there once, under its own hash. -/
structure Tabular (db : PlacementDb) : Prop where
  nodup : db.hashes.Nodup
  listed : ∀ h, h ∈ db.hashes ↔ (db.placement h).isSome
  keyed : db.Keyed

theorem empty_tabular : empty.Tabular where
  nodup := List.nodup_nil
  listed h := by simp [empty]
  keyed := empty_keyed

theorem Tabular.put {p : Placement} {h : String} (hdb : db.Tabular) (hp : p.contentHash = h) :
    (PlacementWrite.apply db (.putPlacement h p)).Tabular where
  nodup := by
    dsimp only [PlacementWrite.apply]
    split
    · exact hdb.nodup
    · next hnew =>
        rw [List.nodup_append]
        refine ⟨hdb.nodup, List.nodup_singleton h, ?_⟩
        intro k hk k' hk' heq
        rw [List.mem_singleton] at hk'
        exact hnew (hk' ▸ heq ▸ hk)
  listed k := by
    rw [put_placement]
    dsimp only [PlacementWrite.apply]
    by_cases hk : k = h
    · subst hk
      by_cases hmem : k ∈ db.hashes <;> simp [hmem]
    · rw [if_neg hk, ← hdb.listed k]
      split <;> simp [hk]
  keyed k q hq := by
    rw [put_placement] at hq
    split at hq
    · next hk =>
        cases hq
        rw [hk, hp]
    · exact hdb.keyed k q hq

/-- Every statement keeps a table a table. -/
theorem respond_tabular (hdb : db.Tabular) :
    (placementStore.view db (placementRespond c db op).2).Tabular := by
  cases op with
  | upsertAccess now input =>
      exact hdb.put (upsertedPlacement_contentHash (hdb.keyed input.contentHash))
  | setPinned now h pinned =>
      cases hp : db.placement h with
      | none =>
          simp only [placementRespond, hp]
          exact hdb
      | some p =>
          simp only [placementRespond, hp]
          exact hdb.put (hdb.keyed h p hp)
  | record h t => exact ⟨hdb.nodup, hdb.listed, hdb.keyed⟩
  | pruneOlderThan h t => exact ⟨hdb.nodup, hdb.listed, hdb.keyed⟩
  | _ => exact hdb

theorem transact_tabular {α : Type} (m : PlacementTx α) (hdb : db.Tabular) :
    (db.transact c m).2.Tabular := by
  apply placementStore.transact_keeps _ hdb
  apply Script.all_of_forall
  intro op V r ws hV hr
  rw [respond_eq hr]
  exact respond_tabular hV

end PlacementDb

structure PlacementTable where
  rows : PlacementDb
  tabular : rows.Tabular

def PlacementTable.empty : PlacementTable := ⟨.empty, PlacementDb.empty_tabular⟩

/-- The table after a call. -/
def PlacementTable.call (table : PlacementTable) (e : PlacementEvent) : PlacementTable :=
  ⟨table.rows.after e, PlacementDb.transact_tabular _ table.tabular⟩

/-! ### The loop over the pinned rows -/

/-- The total is within the budget. -/
def WithinBudget (budget : ℚ) (total : ℤ) : Prop := (total : ℚ) ≤ budget

instance (budget : ℚ) : DecidablePred (WithinBudget budget) := fun total =>
  inferInstanceAs (Decidable ((total : ℚ) ≤ budget))

/-- The row can help to come within the budget. -/
def Placement.hasSize (p : Placement) : Bool := 0 < p.sizeBytes

/-- What the loop has left of its total after a row. -/
def totalWithout (total : ℤ) (p : Placement) : ℤ := Doubles.nearest (total - p.mappedSize)

/-- The rows that the loop of `evictLRUIfOverCapacity` demotes. -/
def evictedRows (budget : ℚ) (rows : List Placement) (total : ℤ) : List Placement :=
  takeUntil (WithinBudget budget) totalWithout total (rows.filter Placement.hasSize)

theorem mappedSize_nonpos_iff {p : Placement} : p.mappedSize ≤ 0 ↔ p.hasSize = false := by
  rw [Placement.mappedSize, Doubles.nearest_nonpos_iff]
  simp [Placement.hasSize]

/-- Rows without a positive size do not add to the total of those that have one. -/
theorem sum_le_sum_hasSize (rows : List Placement) :
    (rows.map (·.sizeBytes)).sum ≤ ((rows.filter Placement.hasSize).map (·.sizeBytes)).sum := by
  induction rows with
  | nil => exact le_rfl
  | cons p rest ih =>
      by_cases hsize : p.hasSize = true
      · rw [List.filter_cons_of_pos hsize]
        simpa using ih
      · rw [List.filter_cons_of_neg hsize]
        have hnonpos : p.sizeBytes ≤ 0 := by simpa [Placement.hasSize] using hsize
        simp only [List.map_cons, List.sum_cons]
        omega

namespace PlacementDb
variable {db : PlacementDb} {c : PlacementChoice}

/-- The write of a demotion. -/
def demotionWrite (now : ℤ) (p : Placement) : PlacementWrite :=
  .putPlacement p.contentHash (p.withPinned now false)

/-- The rows after a list of demotions. -/
theorem demotions_placement (now : ℤ) (rows : List Placement) (db : PlacementDb)
    (hnodup : (rows.map (·.contentHash)).Nodup)
    (hrows : ∀ p ∈ rows, db.placement p.contentHash = some p) (h : String) :
    (placementStore.view db (rows.map (demotionWrite now))).placement h =
      if h ∈ rows.map (·.contentHash) then (db.placement h).map (·.withPinned now false)
      else db.placement h := by
  induction rows generalizing db with
  | nil => rfl
  | cons p rest ih =>
      rw [List.map_cons, List.nodup_cons] at hnodup
      have hput : ∀ k, (PlacementWrite.apply db (demotionWrite now p)).placement k =
          if k = p.contentHash then some (p.withPinned now false) else db.placement k :=
        put_placement db p.contentHash _
      have hp : db.placement p.contentHash = some p := hrows p List.mem_cons_self
      change (placementStore.view (PlacementWrite.apply db (demotionWrite now p))
        (rest.map (demotionWrite now))).placement h = _
      rw [ih _ hnodup.2]
      · by_cases hh : h = p.contentHash
        · subst hh
          rw [if_neg hnodup.1, hput, if_pos rfl, if_pos (by simp), hp]
          rfl
        · simp [hput, hh]
      · intro q hq
        rw [hput, if_neg]
        · exact hrows q (List.mem_cons_of_mem _ hq)
        · intro heq
          exact hnodup.1 (heq ▸ List.mem_map_of_mem hq)

theorem demotions_hashes (now : ℤ) (rows : List Placement) (db : PlacementDb)
    (hrows : ∀ p ∈ rows, p.contentHash ∈ db.hashes) :
    (placementStore.view db (rows.map (demotionWrite now))).hashes = db.hashes := by
  induction rows generalizing db with
  | nil => rfl
  | cons p rest ih =>
      have hsame : (PlacementWrite.apply db (demotionWrite now p)).hashes = db.hashes :=
        if_pos (hrows p List.mem_cons_self)
      change (placementStore.view (PlacementWrite.apply db (demotionWrite now p))
        (rest.map (demotionWrite now))).hashes = _
      rw [ih, hsame]
      intro q hq
      rw [hsame]
      exact hrows q (List.mem_cons_of_mem _ hq)

theorem demotions_placementAccess (now : ℤ) (rows : List Placement) (db : PlacementDb) :
    (placementStore.view db (rows.map (demotionWrite now))).placementAccess = db.placementAccess := by
  induction rows generalizing db with
  | nil => rfl
  | cons p rest ih => exact ih _

theorem demote_run {now : ℤ} {p : Placement} {ws : List PlacementWrite}
    (hp : (placementStore.view db ws).placement p.contentHash = some p) :
    (demote now p.contentHash).run (placementStore.handle c (fun _ => false) db) ⟨ws, false⟩ =
      (.ok (p.withPinned now false), ⟨ws ++ [demotionWrite now p], false⟩) := by
  have hrespond : placementStore.respond c (placementStore.view db ws) (fun _ => false)
      (.setPinned now p.contentHash false) =
        some (some (p.withPinned now false), [demotionWrite now p]) := by
    change some (placementRespond c (placementStore.view db ws) (.setPinned now p.contentHash false)) = _
    simp only [placementRespond, hp]
    rfl
  unfold demote setPinned
  rw [Script.perform_bind, Script.run_call, placementStore.handle_of_some hrespond]
  rfl

/-- The loop demotes the rows it should, each of which it finds as it was listed. -/
theorem evictUntilWithin_run {now : ℤ} {budget : ℚ} {rows : List Placement} {total : ℤ}
    {ws : List PlacementWrite} (hnodup : (rows.map (·.contentHash)).Nodup)
    (hrows : ∀ p ∈ rows, (placementStore.view db ws).placement p.contentHash = some p) :
    (evictUntilWithin now budget rows total).run (placementStore.handle c (fun _ => false) db)
        ⟨ws, false⟩ =
      (.ok ((evictedRows budget rows total).map (·.contentHash)),
        ⟨ws ++ (evictedRows budget rows total).map (demotionWrite now), false⟩) := by
  induction rows generalizing total ws with
  | nil => simp [evictUntilWithin, evictedRows, takeUntil]
  | cons p rest ih =>
      rw [List.map_cons, List.nodup_cons] at hnodup
      unfold evictUntilWithin
      split_ifs with hwithin hsize
      · have hnone : evictedRows budget (p :: rest) total = [] :=
          takeUntil_eq_nil.mpr (.inl hwithin)
        simp [hnone]
      · have hskip : evictedRows budget (p :: rest) total = evictedRows budget rest total := by
          rw [evictedRows, List.filter_cons_of_neg (by simp [mappedSize_nonpos_iff.mp hsize])]
          rfl
        rw [hskip]
        exact ih hnodup.2 fun q hq => hrows q (List.mem_cons_of_mem _ hq)
      · have htake : evictedRows budget (p :: rest) total =
            p :: evictedRows budget rest (totalWithout total p) := by
          have hp : p.hasSize = true := by simpa [mappedSize_nonpos_iff] using hsize
          have hover : ¬ WithinBudget budget total := hwithin
          rw [evictedRows, List.filter_cons_of_pos hp, takeUntil, if_neg hover]
          rfl
        rw [htake]
        have hfound : ∀ q ∈ rest, (placementStore.view db (ws ++ [demotionWrite now p])).placement
            q.contentHash = some q := by
          intro q hq
          rw [placementStore.view_append]
          change (PlacementWrite.apply (placementStore.view db ws) (demotionWrite now p)).placement
            q.contentHash = some q
          rw [demotionWrite, put_placement, if_neg]
          · exact hrows q (List.mem_cons_of_mem _ hq)
          · intro heq
            exact hnodup.1 (heq ▸ List.mem_map_of_mem hq)
        rw [Script.run_bind, demote_run (hrows p List.mem_cons_self)]
        dsimp only
        rw [Script.run_bind, ih hnodup.2 hfound]
        simp [totalWithout]

/-! ### The pinned rows -/

def pinnedRows (db : PlacementDb) : List Placement :=
  (db.hashes.filterMap db.placement).filter (·.pinned)

def pinnedTotal (db : PlacementDb) : ℤ := (db.pinnedRows.map (·.sizeBytes)).sum

theorem rows_sublist (hdb : db.Keyed) (hashes : List String) :
    ((hashes.filterMap db.placement).map (·.contentHash)).Sublist hashes := by
  induction hashes with
  | nil => exact List.Sublist.slnil
  | cons h rest ih =>
      cases hp : db.placement h with
      | none =>
          rw [List.filterMap_cons_none hp]
          exact ih.cons h
      | some p =>
          rw [List.filterMap_cons_some hp, List.map_cons, hdb h p hp]
          exact ih.cons_cons h

theorem Tabular.pinnedRows_nodup (hdb : db.Tabular) :
    (db.pinnedRows.map (·.contentHash)).Nodup := by
  apply List.Nodup.sublist _ hdb.nodup
  exact (List.filter_sublist.map _).trans (rows_sublist hdb.keyed db.hashes)

theorem Tabular.mem_pinnedRows (hdb : db.Tabular) {p : Placement} :
    p ∈ db.pinnedRows ↔ db.placement p.contentHash = some p ∧ p.pinned = true := by
  rw [pinnedRows, List.mem_filter, List.mem_filterMap]
  constructor
  · rintro ⟨⟨h, -, hp⟩, hpinned⟩
    rw [hdb.keyed h p hp]
    exact ⟨hp, hpinned⟩
  · rintro ⟨hp, hpinned⟩
    exact ⟨⟨p.contentHash, (hdb.listed _).mpr (by rw [hp]; rfl), hp⟩, hpinned⟩

/-- The least recently used one first, those never used last. -/
def AccessedFirst (p q : Placement) : Prop :=
  match p.lastAccessedAt, q.lastAccessedAt with
  | some a, some b => a ≤ b
  | none, some _ => False
  | _, none => True

theorem lruLe_trans (rank : String → ℕ) (p q r : Placement) (hpq : lruLe rank p q = true)
    (hqr : lruLe rank q r = true) : lruLe rank p r = true := by
  unfold lruLe at *
  cases hp : p.lastAccessedAt <;> cases hq : q.lastAccessedAt <;> cases hr : r.lastAccessedAt <;>
    simp_all <;> omega

theorem lruLe_total (rank : String → ℕ) (p q : Placement) :
    (lruLe rank p q || lruLe rank q p) = true := by
  unfold lruLe
  cases hp : p.lastAccessedAt <;> cases hq : q.lastAccessedAt <;> simp <;> omega

theorem accessedFirst_of_lruLe {rank : String → ℕ} {p q : Placement}
    (h : lruLe rank p q = true) : AccessedFirst p q := by
  unfold lruLe at h
  unfold AccessedFirst
  cases hp : p.lastAccessedAt <;> cases hq : q.lastAccessedAt <;> simp_all
  omega

theorem pinnedOrderedByLru_perm (rank : String → ℕ) (db : PlacementDb) :
    (db.pinnedOrderedByLru rank).Perm db.pinnedRows := List.mergeSort_perm _ _

theorem pinnedOrderedByLru_sorted (rank : String → ℕ) (db : PlacementDb) :
    (db.pinnedOrderedByLru rank).Pairwise AccessedFirst :=
  (List.pairwise_mergeSort (lruLe_trans rank) (lruLe_total rank) _).imp accessedFirst_of_lruLe

/-! ### Eviction as a whole -/

/-- Exactly the rows of these hashes have become unpinned, and nothing else has
changed. -/
structure Evicts (before after : PlacementDb) (evicted : List String) : Prop where
  hashes : after.hashes = before.hashes
  accesses : after.placementAccess = before.placementAccess
  unpinned : ∀ h ∈ evicted, ∃ p, before.placement h = some p ∧ p.pinned = true ∧
    after.placement h = some { p with pinned := false, pinnedAt := none }
  others : ∀ h, h ∉ evicted → after.placement h = before.placement h

theorem demotions_evicts (now : ℤ) {rows : List Placement} (hdb : db.Tabular)
    (hnodup : (rows.map (·.contentHash)).Nodup) (hrows : ∀ p ∈ rows, p ∈ db.pinnedRows) :
    db.Evicts (placementStore.view db (rows.map (demotionWrite now))) (rows.map (·.contentHash)) := by
  have hrow : ∀ p ∈ rows, db.placement p.contentHash = some p ∧ p.pinned = true :=
    fun p hp => hdb.mem_pinnedRows.mp (hrows p hp)
  have hplacement := demotions_placement now rows db hnodup fun p hp => (hrow p hp).1
  constructor
  · apply demotions_hashes
    intro p hp
    rw [hdb.listed, (hrow p hp).1]
    rfl
  · exact demotions_placementAccess ..
  · intro h hmem
    obtain ⟨p, hp, rfl⟩ := List.mem_map.mp hmem
    refine ⟨p, (hrow p hp).1, (hrow p hp).2, ?_⟩
    rw [hplacement, if_pos hmem, (hrow p hp).1]
    rfl
  · intro h hnot
    rw [hplacement, if_neg hnot]

/-- The pinned rows afterwards are those that were not evicted. -/
theorem Evicts.pinnedRows {after : PlacementDb} {evicted : List String}
    (h : Evicts db after evicted) (hdb : db.Keyed) :
    after.pinnedRows = db.pinnedRows.filter fun p => p.contentHash ∉ evicted := by
  have hrows : ∀ hashes : List String, (hashes.filterMap after.placement).filter (·.pinned) =
      ((hashes.filterMap db.placement).filter (·.pinned)).filter
        fun p => p.contentHash ∉ evicted := by
    intro hashes
    induction hashes with
    | nil => rfl
    | cons k rest ih =>
        by_cases hk : k ∈ evicted
        · obtain ⟨p, hp, hpinned, hafter⟩ := h.unpinned k hk
          have hhash : p.contentHash = k := hdb k p hp
          rw [List.filterMap_cons_some hp, List.filterMap_cons_some hafter,
            List.filter_cons_of_pos hpinned, List.filter_cons_of_neg (by simp),
            List.filter_cons_of_neg (by simpa [hhash] using hk)]
          exact ih
        · cases hp : db.placement k with
          | none =>
              rw [List.filterMap_cons_none hp,
                List.filterMap_cons_none ((h.others k hk).trans hp)]
              exact ih
          | some p =>
              have hhash : p.contentHash = k := hdb k p hp
              rw [List.filterMap_cons_some hp,
                List.filterMap_cons_some ((h.others k hk).trans hp)]
              cases hpinned : p.pinned with
              | true =>
                  rw [List.filter_cons_of_pos hpinned, List.filter_cons_of_pos hpinned,
                    List.filter_cons_of_pos (by simpa [hhash] using hk), ih]
              | false =>
                  rw [List.filter_cons_of_neg (by simp [hpinned]),
                    List.filter_cons_of_neg (by simp [hpinned])]
                  exact ih
  unfold PlacementDb.pinnedRows
  rw [h.hashes]
  exact hrows db.hashes

/-- What eviction takes from the total. -/
theorem Evicts.pinnedTotal {after : PlacementDb} {evicted : List Placement}
    (h : Evicts db after (evicted.map (·.contentHash))) (hdb : db.Tabular)
    (hsub : ∀ p ∈ evicted, p ∈ db.pinnedRows) (hnodup : evicted.Nodup) :
    after.pinnedTotal = db.pinnedTotal - (evicted.map (·.sizeBytes)).sum := by
  have hevicted : (db.pinnedRows.filter
      fun p => p.contentHash ∈ evicted.map (·.contentHash)).Perm evicted := by
    rw [List.perm_ext_iff_of_nodup (hdb.pinnedRows_nodup.of_map.filter _) hnodup]
    intro p
    rw [List.mem_filter, decide_eq_true_iff]
    constructor
    · rintro ⟨hp, hmem⟩
      obtain ⟨q, hq, hhash⟩ := List.mem_map.mp hmem
      have hrow := (hdb.mem_pinnedRows.mp (hsub q hq)).1
      rw [hhash, (hdb.mem_pinnedRows.mp hp).1] at hrow
      exact Option.some.inj hrow ▸ hq
    · intro hp
      exact ⟨hsub p hp, List.mem_map_of_mem hp⟩
  have hsplit := ((List.filter_append_perm
    (fun p : Placement => decide (p.contentHash ∈ evicted.map (·.contentHash)))
    db.pinnedRows).map (·.sizeBytes)).sum_eq
  rw [List.map_append, List.sum_append, (hevicted.map _).sum_eq] at hsplit
  have hrest : (db.pinnedRows.filter fun p =>
      !decide (p.contentHash ∈ evicted.map (·.contentHash))) = after.pinnedRows := by
    rw [h.pinnedRows hdb.keyed]
    apply List.filter_congr
    intro p _
    exact decide_not.symm
  rw [hrest] at hsplit
  unfold PlacementDb.pinnedTotal
  omega

/-- `evictLRUIfOverCapacity` by itself. -/
def evict (db : PlacementDb) (c : PlacementChoice) (config : PlacementConfig) :
    Except Failure (List String) × PlacementDb :=
  db.transact c (PlacementCall.evictLRUIfOverCapacity config).script

/-- The rows it demotes. -/
def evictedBy (db : PlacementDb) (c : PlacementChoice) (budget : ℚ) : List Placement :=
  evictedRows budget (db.pinnedOrderedByLru c.rank) (sizeSum (db.pinnedOrderedByLru c.rank))

theorem evict_eq (hdb : db.Tabular) (config : PlacementConfig) :
    db.evict c config =
      (.ok ((db.evictedBy c config.pinnedBudgetBytes).map (·.contentHash)),
        placementStore.view db
          ((db.evictedBy c config.pinnedBudgetBytes).map (demotionWrite c.now))) := by
  have hperm := pinnedOrderedByLru_perm c.rank db
  apply placementStore.transact_of_run
  exact @evictUntilWithin_run db c c.now config.pinnedBudgetBytes
    (db.pinnedOrderedByLru c.rank) (sizeSum (db.pinnedOrderedByLru c.rank)) []
    ((hperm.map _).nodup_iff.mpr hdb.pinnedRows_nodup)
    (fun p hp => (hdb.mem_pinnedRows.mp (hperm.mem_iff.mp hp)).1)

theorem isPrefix_evictedBy {budget : ℚ} : db.evictedBy c budget <+:
    (db.pinnedOrderedByLru c.rank).filter Placement.hasSize := isPrefix_takeUntil

/-- A list of pinned rows is known by its hashes. -/
theorem Tabular.rows_eq_of_hashes {rows rows' : List Placement} (hdb : db.Tabular)
    (hrows : ∀ p ∈ rows, p ∈ db.pinnedRows) (hrows' : ∀ p ∈ rows', p ∈ db.pinnedRows)
    (h : rows.map (·.contentHash) = rows'.map (·.contentHash)) : rows = rows' := by
  have hfound : ∀ list : List Placement, (∀ p ∈ list, p ∈ db.pinnedRows) →
      (list.map (·.contentHash)).map db.placement = list.map some := by
    intro list hlist
    rw [List.map_map]
    exact List.map_congr_left fun p hp => (hdb.mem_pinnedRows.mp (hlist p hp)).1
  apply List.map_injective_iff.mpr (Option.some_injective Placement)
  rw [← hfound rows hrows, ← hfound rows' hrows', h]

/-- The shortest prefix that is enough, in the order of the query. -/
def neededRows (db : PlacementDb) (c : PlacementChoice) (budget : ℚ) : List Placement :=
  takeUntil (WithinBudget budget) (fun total p => total - p.sizeBytes) db.pinnedTotal
    ((db.pinnedOrderedByLru c.rank).filter Placement.hasSize)

/-- The pinned rows that are left without them, in the order of a query. -/
def leftRows (db : PlacementDb) (c : PlacementChoice) (budget : ℚ) (rank : String → ℕ) :
    List Placement :=
  (db.pinnedRows.filter fun p => p.contentHash ∉ (db.neededRows c budget).map (·.contentHash))
    |>.mergeSort (lruLe rank)

/-- Rounding moves no total across the budget: neither one that the loop compares
with it while more has to go, nor the total of the rows that are left. -/
structure RoundingHarmless (db : PlacementDb) (c : PlacementChoice) (budget : ℚ) : Prop where
  loop : Agree (WithinBudget budget) totalWithout (·.sizeBytes)
    (sizeSum (db.pinnedOrderedByLru c.rank)) db.pinnedTotal
    ((db.pinnedOrderedByLru c.rank).filter Placement.hasSize)
  left : ∀ rank, WithinBudget budget (sizeSum (db.leftRows c budget rank)) ∨
    (db.leftRows c budget rank).filter Placement.hasSize = []

theorem neededRows_shortest {budget : ℚ} (hbudget : 0 ≤ budget) :
    Shortest (·.sizeBytes) (WithinBudget budget)
      ((db.pinnedOrderedByLru c.rank).filter Placement.hasSize) db.pinnedTotal
      (db.neededRows c budget) := by
  apply shortest_takeUntil
  have hle := sum_le_sum_hasSize (db.pinnedOrderedByLru c.rank)
  rw [((pinnedOrderedByLru_perm c.rank db).map _).sum_eq] at hle
  apply le_trans _ hbudget
  exact_mod_cast sub_nonpos.mpr hle

theorem evictedBy_eq_iff {budget : ℚ} : db.evictedBy c budget = db.neededRows c budget ↔
    Agree (WithinBudget budget) totalWithout (·.sizeBytes)
      (sizeSum (db.pinnedOrderedByLru c.rank)) db.pinnedTotal
      ((db.pinnedOrderedByLru c.rank).filter Placement.hasSize) := takeUntil_eq_iff

theorem Evicts.leftRows {after : PlacementDb} {budget : ℚ} (hdb : db.Keyed)
    (h : db.Evicts after ((db.neededRows c budget).map (·.contentHash))) (rank : String → ℕ) :
    after.pinnedOrderedByLru rank = db.leftRows c budget rank := by
  change after.pinnedRows.mergeSort (lruLe rank) = _
  rw [h.pinnedRows hdb]
  rfl

theorem neededRows_pinned {budget : ℚ} {p : Placement} (hp : p ∈ db.neededRows c budget) :
    p ∈ db.pinnedRows :=
  (pinnedOrderedByLru_perm c.rank db).mem_iff.mp
    (List.mem_of_mem_filter (isPrefix_takeUntil.subset hp))

theorem Tabular.neededRows_nodup {budget : ℚ} (hdb : db.Tabular) :
    ((db.neededRows c budget).map (·.contentHash)).Nodup := by
  have hperm := pinnedOrderedByLru_perm c.rank db
  apply List.Nodup.sublist _ ((hperm.map _).nodup_iff.mpr hdb.pinnedRows_nodup)
  exact (isPrefix_takeUntil.sublist.trans List.filter_sublist).map _

/-- Without these rows the total is within the budget. -/
theorem Evicts.within {after : PlacementDb} {budget : ℚ} (hdb : db.Tabular) (hbudget : 0 ≤ budget)
    (h : db.Evicts after ((db.neededRows c budget).map (·.contentHash))) :
    WithinBudget budget after.pinnedTotal := by
  rw [h.pinnedTotal hdb (fun _ hp => neededRows_pinned hp) hdb.neededRows_nodup.of_map]
  exact (neededRows_shortest hbudget).within

theorem evict_eq_nil_iff (hdb : db.Tabular) (config : PlacementConfig) :
    db.evict c config = (.ok [], db) ↔
      WithinBudget config.pinnedBudgetBytes (sizeSum (db.pinnedOrderedByLru c.rank)) ∨
        (db.pinnedOrderedByLru c.rank).filter Placement.hasSize = [] := by
  have hnone : db.evictedBy c config.pinnedBudgetBytes = [] ↔ _ := takeUntil_eq_nil
  rw [evict_eq hdb, ← hnone]
  constructor
  · intro h
    exact List.map_eq_nil_iff.mp (Except.ok.inj (congrArg Prod.fst h))
  · intro h
    rw [h]
    rfl

/-! ### Sums that are not rounded -/

/-- The sizes of these rows add up to at most 2^53, signs left out. -/
def SmallSizes (rows : List Placement) : Prop := (rows.map fun p => |p.sizeBytes|).sum ≤ 2 ^ 53

theorem mappedSize_eq {p : Placement} (h : |p.sizeBytes| ≤ 2 ^ 53) :
    p.mappedSize = p.sizeBytes := Doubles.nearest_of_abs_le h

theorem abs_sizes_nonneg (rows : List Placement) : 0 ≤ (rows.map fun p => |p.sizeBytes|).sum := by
  apply List.sum_nonneg
  intro size hsize
  obtain ⟨p, -, rfl⟩ := List.mem_map.mp hsize
  exact abs_nonneg p.sizeBytes

theorem sizeSum_from {rows : List Placement} {sum : ℤ}
    (h : |sum| + (rows.map fun p => |p.sizeBytes|).sum ≤ 2 ^ 53) :
    rows.foldl (fun sum p => Doubles.nearest (sum + p.mappedSize)) sum =
      sum + (rows.map (·.sizeBytes)).sum := by
  induction rows generalizing sum with
  | nil => simp
  | cons p rest ih =>
      rw [List.map_cons, List.sum_cons] at h ⊢
      have hrest := abs_sizes_nonneg rest
      have hsum := abs_add_le sum p.sizeBytes
      have hsize : |p.sizeBytes| ≤ 2 ^ 53 := by
        have := abs_nonneg sum
        omega
      rw [List.foldl_cons, mappedSize_eq hsize, Doubles.nearest_of_abs_le (by omega),
        ih (by omega)]
      ring

theorem SmallSizes.sizeSum {rows : List Placement} (h : SmallSizes rows) :
    sizeSum rows = (rows.map (·.sizeBytes)).sum := by
  have hsum : WorkflowPlatform.sizeSum rows = 0 + (rows.map (·.sizeBytes)).sum :=
    sizeSum_from (by simpa [SmallSizes] using h)
  rw [zero_add] at hsum
  exact hsum

theorem SmallSizes.perm {rows rows' : List Placement} (h : SmallSizes rows)
    (hperm : rows'.Perm rows) : SmallSizes rows' := by
  unfold SmallSizes
  rw [(hperm.map _).sum_eq]
  exact h

theorem SmallSizes.sublist {rows rows' : List Placement} (h : SmallSizes rows)
    (hsub : rows'.Sublist rows) : SmallSizes rows' := by
  refine le_trans ?_ h
  apply (hsub.map _).sum_le_sum
  intro size hsize
  obtain ⟨p, -, rfl⟩ := List.mem_map.mp hsize
  exact abs_nonneg p.sizeBytes

/-- A total is not rounded as long as it stays between these bounds. -/
theorem agree_of_bounded {budget : ℚ} {rows : List Placement} {total : ℤ}
    (hpos : ∀ p ∈ rows, p.hasSize = true) (hupper : total ≤ 2 ^ 53)
    (hlower : -2 ^ 53 ≤ total - (rows.map (·.sizeBytes)).sum)
    (hsizes : ∀ p ∈ rows, |p.sizeBytes| ≤ 2 ^ 53) :
    Agree (WithinBudget budget) totalWithout (·.sizeBytes) total total rows := by
  induction rows generalizing total with
  | nil => trivial
  | cons p rest ih =>
      refine ⟨Iff.rfl, fun _ => ?_⟩
      rw [List.map_cons, List.sum_cons] at hlower
      have hp : 0 < p.sizeBytes := of_decide_eq_true (hpos p List.mem_cons_self)
      have hrest : 0 ≤ (rest.map (·.sizeBytes)).sum := by
        apply List.sum_nonneg
        intro size hsize
        obtain ⟨q, hq, rfl⟩ := List.mem_map.mp hsize
        exact le_of_lt (of_decide_eq_true (hpos q (List.mem_cons_of_mem p hq)))
      have hnext : totalWithout total p = total - p.sizeBytes := by
        rw [totalWithout, mappedSize_eq (hsizes p List.mem_cons_self)]
        exact Doubles.nearest_of_abs_le (abs_le.mpr ⟨by omega, by omega⟩)
      rw [hnext]
      exact ih (fun q hq => hpos q (List.mem_cons_of_mem p hq)) (by omega) (by omega)
        fun q hq => hsizes q (List.mem_cons_of_mem p hq)

/-- What rows without a positive size take from the total is bounded by their sizes. -/
theorem sum_bounds (rows : List Placement) :
    (rows.map (·.sizeBytes)).sum ≤ (rows.map fun p => |p.sizeBytes|).sum ∧
      -(rows.map fun p => |p.sizeBytes|).sum ≤ (rows.map (·.sizeBytes)).sum -
        ((rows.filter Placement.hasSize).map (·.sizeBytes)).sum := by
  induction rows with
  | nil => simp
  | cons p rest ih =>
      have hupper := le_abs_self p.sizeBytes
      have hlower := neg_abs_le p.sizeBytes
      by_cases hsize : p.hasSize = true
      · rw [List.filter_cons_of_pos hsize]
        simp only [List.map_cons, List.sum_cons]
        have := abs_nonneg p.sizeBytes
        omega
      · rw [List.filter_cons_of_neg hsize]
        simp only [List.map_cons, List.sum_cons]
        omega

theorem SmallSizes.abs_le {rows : List Placement} (h : SmallSizes rows) {p : Placement}
    (hp : p ∈ rows) : |p.sizeBytes| ≤ 2 ^ 53 := by
  refine le_trans ?_ h
  apply List.single_le_sum _ _ (List.mem_map_of_mem hp)
  intro size hsize
  obtain ⟨q, -, rfl⟩ := List.mem_map.mp hsize
  exact abs_nonneg q.sizeBytes

theorem SmallSizes.harmless {budget : ℚ} (hdb : db.Tabular) (hbudget : 0 ≤ budget)
    (h : SmallSizes db.pinnedRows) : db.RoundingHarmless c budget where
  loop := by
    have hperm := pinnedOrderedByLru_perm c.rank db
    have horder := h.perm hperm
    obtain ⟨hupper, hlower⟩ := sum_bounds (db.pinnedOrderedByLru c.rank)
    unfold SmallSizes at horder
    rw [SmallSizes.sizeSum horder, pinnedTotal, ← (hperm.map _).sum_eq]
    apply agree_of_bounded fun p hp => (List.mem_filter.mp hp).2
    · omega
    · omega
    · exact fun p hp => SmallSizes.abs_le horder (List.mem_of_mem_filter hp)
  left rank := by
    left
    have hleft : SmallSizes (db.leftRows c budget rank) :=
      (h.sublist List.filter_sublist).perm (List.mergeSort_perm _ _)
    have hevicts := demotions_evicts 0 hdb hdb.neededRows_nodup fun p (hp : p ∈
      db.neededRows c budget) => neededRows_pinned hp
    have hwithin := hevicts.within hdb hbudget
    rw [pinnedTotal, ← ((pinnedOrderedByLru_perm rank _).map _).sum_eq,
      hevicts.leftRows hdb.keyed rank] at hwithin
    rw [hleft.sizeSum]
    exact hwithin

end PlacementDb

/-- What eviction is to do. The pinned total ends within the budget; the demoted rows
are, in the order of their last use, the shortest prefix of those with a positive
size that is enough for it; nothing else changes; and evicting once more does
nothing. -/
def EvictsExactly (table : PlacementTable) (c : PlacementChoice) (config : PlacementConfig) :
    Prop :=
  ∃ (order evicted : List Placement) (after : PlacementTable),
    order.Perm table.rows.pinnedRows ∧ order.Pairwise PlacementDb.AccessedFirst ∧
    Shortest (·.sizeBytes) (WithinBudget config.pinnedBudgetBytes)
      (order.filter Placement.hasSize) table.rows.pinnedTotal evicted ∧
    table.rows.evict c config = (.ok (evicted.map (·.contentHash)), after.rows) ∧
    table.rows.Evicts after.rows (evicted.map (·.contentHash)) ∧
    WithinBudget config.pinnedBudgetBytes after.rows.pinnedTotal ∧
    ∀ c', after.rows.evict c' config = (.ok [], after.rows)

section
variable {table : PlacementTable} {c : PlacementChoice} {config : PlacementConfig}

theorem EvictsExactly.harmless (hbudget : 0 ≤ config.pinnedBudgetBytes)
    (h : EvictsExactly table c config) :
    table.rows.RoundingHarmless c config.pinnedBudgetBytes := by
  obtain ⟨order, evicted, after, hperm, -, hshortest, hevict, hevicts, -, hagain⟩ := h
  have hdb := table.tabular
  have hquery := PlacementDb.pinnedOrderedByLru_perm c.rank table.rows
  rw [PlacementDb.evict_eq hdb] at hevict
  have hhashes := Except.ok.inj (Prod.mk.inj hevict).1
  have hrows : table.rows.evictedBy c config.pinnedBudgetBytes = evicted := by
    refine hdb.rows_eq_of_hashes ?_ ?_ hhashes
    · intro p hp
      exact hquery.mem_iff.mp (List.mem_of_mem_filter (PlacementDb.isPrefix_evictedBy.subset hp))
    · intro p hp
      exact hperm.mem_iff.mp (List.mem_of_mem_filter (hshortest.isPrefix.subset hp))
  have hneeded : evicted = table.rows.neededRows c config.pinnedBudgetBytes := by
    have hprefix : evicted <+: (table.rows.pinnedOrderedByLru c.rank).filter Placement.hasSize := by
      rw [← hrows]
      exact PlacementDb.isPrefix_evictedBy
    exact (hshortest.of_prefix hprefix).unique (PlacementDb.neededRows_shortest hbudget)
  constructor
  · exact PlacementDb.evictedBy_eq_iff.mp (hrows.trans hneeded)
  · intro rank
    rw [hneeded] at hevicts
    have hnone := (PlacementDb.evict_eq_nil_iff after.tabular config).mp (hagain ⟨0, rank⟩)
    rw [hevicts.leftRows hdb.keyed rank] at hnone
    exact hnone

theorem PlacementDb.RoundingHarmless.evictsExactly (hbudget : 0 ≤ config.pinnedBudgetBytes)
    (h : table.rows.RoundingHarmless c config.pinnedBudgetBytes) :
    EvictsExactly table c config := by
  have hdb := table.tabular
  have hevict := PlacementDb.evict_eq (c := c) hdb config
  rw [PlacementDb.evictedBy_eq_iff.mpr h.loop] at hevict
  have hafter : (table.call ⟨c, .evictLRUIfOverCapacity config⟩).rows = placementStore.view
      table.rows ((table.rows.neededRows c config.pinnedBudgetBytes).map
        (PlacementDb.demotionWrite c.now)) := congrArg Prod.snd hevict
  have hevicts : table.rows.Evicts (table.call ⟨c, .evictLRUIfOverCapacity config⟩).rows
      ((table.rows.neededRows c config.pinnedBudgetBytes).map (·.contentHash)) := by
    rw [hafter]
    exact PlacementDb.demotions_evicts c.now hdb hdb.neededRows_nodup
      fun _ hp => PlacementDb.neededRows_pinned hp
  refine ⟨table.rows.pinnedOrderedByLru c.rank, table.rows.neededRows c config.pinnedBudgetBytes,
    table.call ⟨c, .evictLRUIfOverCapacity config⟩,
    PlacementDb.pinnedOrderedByLru_perm c.rank table.rows,
    PlacementDb.pinnedOrderedByLru_sorted .., PlacementDb.neededRows_shortest hbudget, ?_, hevicts,
    hevicts.within hdb hbudget, fun c' => ?_⟩
  · rw [hevict, hafter]
  · rw [PlacementDb.evict_eq_nil_iff (table.call ⟨c, .evictLRUIfOverCapacity config⟩).tabular,
      hevicts.leftRows hdb.keyed c'.rank]
    exact h.left c'.rank

/-- Eviction of any table, with any budget that is not negative, is exact if and only
if rounding is harmless; it is as long as the sizes of the pinned rows add up to at
most 2^53, signs left out. -/
theorem capacity_eviction (table : PlacementTable) (c : PlacementChoice) (config : PlacementConfig)
    (hbudget : 0 ≤ config.pinnedBudgetBytes) :
    (EvictsExactly table c config ↔ table.rows.RoundingHarmless c config.pinnedBudgetBytes) ∧
      ((table.rows.pinnedRows.map fun p => |p.sizeBytes|).sum ≤ 2 ^ 53 →
        EvictsExactly table c config) :=
  ⟨⟨EvictsExactly.harmless hbudget, PlacementDb.RoundingHarmless.evictsExactly hbudget⟩,
    fun hsmall => PlacementDb.RoundingHarmless.evictsExactly hbudget
      (PlacementDb.SmallSizes.harmless table.tabular hbudget hsmall)⟩

end

/-- Rows of these sizes, all of them pinned. -/
def pinnedTable (sizes : List (String × ℤ)) : PlacementTable :=
  sizes.foldl (fun table row =>
    (table.call ⟨⟨0, fun _ => 0⟩, .recordAccess row.1 { sizeBytes := some row.2 }⟩).call
      ⟨⟨0, fun _ => 0⟩, .promote row.1⟩) .empty

/-- Three pinned rows, one of them of negative size, and a budget that the last of
the others fits. -/
theorem capacity_eviction_three :
    EvictsExactly (pinnedTable [("a", 7), ("b", -2), ("c", 9)]) ⟨4, fun _ => 0⟩
      { DEFAULT_PLACEMENT_CONFIG with pinnedBudgetBytes := 10 } :=
  (capacity_eviction _ ⟨4, fun _ => 0⟩ _ (by decide +kernel)).2 (by decide +kernel)

/-- A row of 2^53 bytes and one of a single byte: the sum is rounded down to the
budget, and the total stays one byte above it. -/
theorem rounded_total_exceeds :
    let table := pinnedTable [("a", 2 ^ 53), ("b", 1)]
    let config := { DEFAULT_PLACEMENT_CONFIG with pinnedBudgetBytes := 2 ^ 53 }
    table.rows.pinnedTotal = 2 ^ 53 + 1 ∧
      table.rows.evict ⟨1, fun _ => 0⟩ config = (.ok [], table.rows) ∧
      ¬ EvictsExactly table ⟨1, fun _ => 0⟩ config := by
  intro table config
  have htotal : table.rows.pinnedTotal = 2 ^ 53 + 1 := by decide +kernel
  have hsum : sizeSum (table.rows.pinnedOrderedByLru fun _ => 0) = 2 ^ 53 := by
    rw [PlacementDb.pinnedOrderedByLru, List.mergeSort_of_pairwise (by decide +kernel)]
    decide +kernel
  have hnone : table.rows.evict ⟨1, fun _ => 0⟩ config = (.ok [], table.rows) := by
    rw [PlacementDb.evict_eq_nil_iff table.tabular, hsum]
    left
    unfold WithinBudget
    decide +kernel
  refine ⟨htotal, hnone, ?_⟩
  rintro ⟨order, evicted, after, -, -, -, hevict, -, hwithin, -⟩
  rw [hnone] at hevict
  rw [← (Prod.mk.inj hevict).2, htotal] at hwithin
  exact absurd hwithin (by unfold WithinBudget; decide +kernel)

end WorkflowPlatform
