import WorkflowPlatform.PlacementResidency

/-!
# The windowed frequency

An access adds a row, and deletes the rows of its hash that are past the horizon
of its own configuration. A later count has a window of its own. The count is the
number of accesses recorded in the window exactly when none of them has been
deleted, that is, when none was past the horizon of a later access.
-/
namespace WorkflowPlatform

namespace PlacementEvent

/-- The time of the access of a hash that the call records. -/
def recordedAt (e : PlacementEvent) (h : String) : Option ℤ :=
  match e.call with
  | .recordAccess k opts => if k = h then some (opts.accessedAt.getD e.choice.now) else none
  | _ => none

/-- The call deletes the accesses of the hash from this time. -/
def prunes (e : PlacementEvent) (h : String) (t : ℤ) : Bool :=
  match e.call with
  | .recordAccess k opts => k = h && t < e.choice.now - interval opts.pruneHorizonMs
  | _ => false

/-- The call records an access of the hash within a window. -/
def recordedWithin (e : PlacementEvent) (h : String) (since : ℤ) : Bool :=
  (e.recordedAt h).any (since ≤ ·)

end PlacementEvent

namespace PlacementDb
variable {db : PlacementDb} {h : String} {e : PlacementEvent} {since : ℤ}

/-- The times of the accesses of a hash that are in the log. -/
def accessTimes (h : String) (db : PlacementDb) : List ℤ :=
  (db.placementAccess.filter (·.contentHash = h)).map (·.accessedAt)

theorem countWithinWindow_eq (h : String) (since : ℤ) (db : PlacementDb) :
    db.countWithinWindow h since = (db.accessTimes h).countP (since ≤ ·) := by
  unfold countWithinWindow accessTimes
  rw [List.countP_map, List.countP_filter]
  apply List.countP_congr
  intro a _
  simp [and_comm]

/-- The statement does not write the log. -/
def LeavesLog : PlacementOp → Prop
  | .record .. => False
  | .pruneOlderThan .. => False
  | _ => True

theorem respond_placementAccess {c : PlacementChoice} {op : PlacementOp} (hop : LeavesLog op) :
    (placementStore.view db (placementRespond c db op).2).placementAccess = db.placementAccess := by
  cases op with
  | record k t => cases hop
  | pruneOlderThan k t => cases hop
  | setPinned now k pinned =>
      simp only [placementRespond]
      split <;> rfl
  | _ => rfl

/-- Of the calls, only an access writes the log. -/
theorem after_placementAccess (he : ∀ k opts, e.call ≠ .recordAccess k opts) :
    (db.after e).placementAccess = db.placementAccess := by
  apply placementStore.transact_keeps (P := fun d => d.placementAccess = db.placementAccess) _ rfl
  have hall : e.call.script.All LeavesLog := by
    apply PlacementCall.script_all trivial trivial fun _ _ _ => trivial
    exact fun k opts now hcall => absurd hcall (he k opts)
  apply hall.mono
  intro op hop V r ws hV hr
  rw [respond_eq hr, respond_placementAccess hop]
  exact hV

theorem filter_deleted (log : List PlacementAccess) (k h : String) (horizon : ℤ) :
    ((log.filter fun a => !(a.contentHash = k && a.accessedAt < horizon)).filter
      (·.contentHash = h)).map (·.accessedAt) =
      ((log.filter (·.contentHash = h)).map (·.accessedAt)).filter
        fun t => !(k = h && t < horizon) := by
  rw [List.filter_map, List.filter_filter, List.filter_filter]
  congr 1
  apply List.filter_congr
  intro a _
  by_cases hh : a.contentHash = h
  · subst hh
    simp [eq_comm]
  · simp [hh]

/-- What a call does to the accesses of one hash: it adds its own and deletes
those past its horizon. -/
theorem after_accessTimes (db : PlacementDb) (e : PlacementEvent) (h : String) :
    (db.after e).accessTimes h =
      (db.accessTimes h ++ (e.recordedAt h).toList).filter fun t => !e.prunes h t := by
  obtain ⟨c, call⟩ := e
  cases call with
  | recordAccess k opts =>
      have hlog : (db.after ⟨c, .recordAccess k opts⟩).placementAccess =
          (db.placementAccess ++ [PlacementAccess.mk k (opts.accessedAt.getD c.now)]).filter fun a =>
            !(a.contentHash = k && a.accessedAt < c.now - interval opts.pruneHorizonMs) := rfl
      rw [accessTimes, hlog, filter_deleted, List.filter_append, List.map_append]
      by_cases hk : k = h
      · simp [PlacementEvent.recordedAt, PlacementEvent.prunes, accessTimes, hk]
      · simp [PlacementEvent.recordedAt, PlacementEvent.prunes, accessTimes, hk]
  | _ =>
      rw [accessTimes, after_placementAccess (by simp)]
      simp [PlacementEvent.recordedAt, PlacementEvent.prunes, accessTimes]

/-- The accesses there were are kept as far as no call deletes them; the others
are those of the history by itself. -/
theorem afterAll_accessTimes (db : PlacementDb) (history : List PlacementEvent) (h : String) :
    (db.afterAll history).accessTimes h =
      ((db.accessTimes h).filter fun t => history.all fun e => !e.prunes h t) ++
        (empty.afterAll history).accessTimes h := by
  induction history generalizing db with
  | nil => simp [afterAll, accessTimes, empty]
  | cons e rest ih =>
      change ((db.after e).afterAll rest).accessTimes h =
        _ ++ ((empty.after e).afterAll rest).accessTimes h
      rw [ih (db.after e), ih (empty.after e), after_accessTimes, after_accessTimes]
      simp only [List.filter_append, List.filter_filter, List.all_cons, List.append_assoc]
      have hempty : empty.accessTimes h = [] := rfl
      rw [hempty]
      congr 1
      apply List.filter_congr
      intro t _
      exact Bool.and_comm _ _

/-- The accesses of a window that the log still has. -/
def survivingWithin (history : List PlacementEvent) (h : String) (since : ℤ) : ℕ :=
  (empty.afterAll history).countWithinWindow h since

/-- The access that a call records is in the window and no later call deletes it. -/
def Survives (e : PlacementEvent) (rest : List PlacementEvent) (h : String) (since : ℤ) : Bool :=
  (e.recordedAt h).any fun t => since ≤ t && (e :: rest).all fun e' => !e'.prunes h t

theorem survivingWithin_cons (e : PlacementEvent) (rest : List PlacementEvent) (h : String)
    (since : ℤ) : survivingWithin (e :: rest) h since =
      (Survives e rest h since).toNat + survivingWithin rest h since := by
  unfold survivingWithin
  change ((empty.after e).afterAll rest).countWithinWindow h since = _
  rw [countWithinWindow_eq, afterAll_accessTimes, List.countP_append, countWithinWindow_eq,
    after_accessTimes]
  congr 1
  rw [List.filter_filter]
  cases hrecorded : e.recordedAt h with
  | none => simp [Survives, hrecorded, accessTimes, empty]
  | some t =>
      have hempty : empty.accessTimes h = [] := rfl
      rw [hempty]
      simp only [Survives, hrecorded, List.nil_append, Option.toList_some, Option.any_some,
        List.all_cons, List.countP_filter, List.countP_singleton]
      by_cases hs : since ≤ t <;> cases e.prunes h t <;> simp [hs, Bool.toNat]

/-- No access of the window is past the horizon of the call that records it or of
a later one. -/
def NeverPruned (history : List PlacementEvent) (h : String) (since : ℤ) : Prop :=
  ∀ before e after t, history = before ++ e :: after → e.recordedAt h = some t → since ≤ t →
    ∀ e' ∈ e :: after, e'.prunes h t = false

theorem neverPruned_cons {e : PlacementEvent} {rest : List PlacementEvent} :
    NeverPruned (e :: rest) h since ↔
      (e.recordedWithin h since = true → Survives e rest h since = true) ∧
        NeverPruned rest h since := by
  constructor
  · intro hkept
    constructor
    · intro hwithin
      cases hrecorded : e.recordedAt h with
      | none => simp [PlacementEvent.recordedWithin, hrecorded] at hwithin
      | some t =>
          have hsince : since ≤ t := by
            simpa [PlacementEvent.recordedWithin, hrecorded] using hwithin
          have hall := hkept [] e rest t rfl hrecorded hsince
          simpa [Survives, hrecorded, hsince] using hall
    · intro before e' after t heq
      exact hkept (e :: before) e' after t (by rw [heq]; rfl)
  · rintro ⟨hhead, hrest⟩ before e' after t heq hrecorded hsince
    cases before with
    | nil =>
        cases heq
        have hsurvives := hhead (by simp [PlacementEvent.recordedWithin, hrecorded, hsince])
        simpa [Survives, hrecorded, hsince] using hsurvives
    | cons b before =>
        cases heq
        exact hrest before e' after t rfl hrecorded hsince

theorem Survives.recordedWithin {e : PlacementEvent} {rest : List PlacementEvent}
    (hsurvives : Survives e rest h since = true) : e.recordedWithin h since = true := by
  unfold Survives at hsurvives
  unfold PlacementEvent.recordedWithin
  cases hrecorded : e.recordedAt h with
  | none => simp [hrecorded] at hsurvives
  | some t =>
      simp only [hrecorded, Option.any_some, Bool.and_eq_true] at hsurvives
      exact hsurvives.1

/-- The log never has more accesses of a window than were recorded, and it has
all of them exactly when none has been pruned. -/
theorem survivingWithin_eq_iff (history : List PlacementEvent) :
    survivingWithin history h since ≤ history.countP (·.recordedWithin h since) ∧
      (survivingWithin history h since = history.countP (·.recordedWithin h since) ↔
        NeverPruned history h since) := by
  induction history with
  | nil =>
      refine ⟨le_rfl, iff_of_true rfl ?_⟩
      intro before e after t heq
      simp at heq
  | cons e rest ih =>
      obtain ⟨hle, hiff⟩ := ih
      rw [survivingWithin_cons, List.countP_cons, neverPruned_cons, ← hiff]
      cases hs : Survives e rest h since with
      | true =>
          rw [if_pos (Survives.recordedWithin hs)]
          simp only [Bool.toNat_true, implies_true, true_and]
          omega
      | false =>
          by_cases hw : e.recordedWithin h since = true
          · rw [if_pos hw]
            simp only [Bool.toNat_false, hw, Bool.false_eq_true, imp_false, not_true_eq_false,
              false_and, iff_false]
            omega
          · rw [if_neg hw]
            simp only [Bool.not_eq_true] at hw
            simp only [Bool.toNat_false, hw, Bool.false_eq_true, false_imp_iff, true_and]
            omega

/-- A decision about promotion, taken in a transaction of its own. -/
def promotion (db : PlacementDb) (c : PlacementChoice) (h : String) (config : PlacementConfig) :
    Except Failure PromotionDecision :=
  (db.transact c do
    let now ← placementQuery .startTime
    evaluatePromotion now h config).1

theorem promotion_count {c : PlacementChoice} {config : PlacementConfig}
    {decision : PromotionDecision} {detail : PromotionDetail}
    (hdecision : db.promotion c h config = .ok decision) (hdetail : decision.detail = some detail) :
    detail.windowedAccessCount =
      db.countWithinWindow h (c.now - interval config.frequencyWindowMs) := by
  rw [promotion, transact, Store.transact_fst] at hdecision
  cases hrow : db.placement h with
  | none =>
      simp [evaluatePromotion, Script.run_call, Store.handle, placementStore, placementRespond,
        hrow] at hdecision
      rw [← hdecision] at hdetail
      cases hdetail
  | some p =>
      cases hpinned : p.pinned with
      | true =>
          simp [evaluatePromotion, Script.run_call, Store.handle, placementStore, placementRespond,
            hrow, hpinned] at hdecision
          rw [← hdecision] at hdetail
          cases hdetail
      | false =>
          simp [evaluatePromotion, Script.run_call, Store.handle, placementStore, placementRespond,
            hrow, hpinned] at hdecision
          rw [← hdecision] at hdetail
          cases hdetail
          rfl

/-- The windowed count of a decision is the number of accesses recorded in its
window exactly when no call has deleted one of them. -/
theorem windowed_count_exact_iff (history : List PlacementEvent) (h : String)
    (config : PlacementConfig) (c : PlacementChoice) {decision : PromotionDecision}
    {detail : PromotionDetail}
    (hdecision : (empty.afterAll history).promotion c h config = .ok decision)
    (hdetail : decision.detail = some detail) :
    detail.windowedAccessCount =
        history.countP (·.recordedWithin h (c.now - interval config.frequencyWindowMs)) ↔
      NeverPruned history h (c.now - interval config.frequencyWindowMs) := by
  rw [promotion_count hdecision hdetail]
  exact (survivingWithin_eq_iff history).2

def accessedTwice : List PlacementEvent :=
  [⟨⟨0, fun _ => 0⟩, .recordAccess "h" {}⟩, ⟨⟨1500000000, fun _ => 0⟩, .recordAccess "h" {}⟩]

def accessedThrice : List PlacementEvent :=
  accessedTwice ++ [⟨⟨1560000000, fun _ => 0⟩, .recordAccess "h" {}⟩]

/-- The first access is deleted, but the window of ten minutes does not reach back to it. -/
theorem windowed_count_exact_thrice :
    (empty.afterAll accessedThrice).countWithinWindow "h" 0 = 2 ∧
      NeverPruned accessedThrice "h"
        (1560000000 - interval DEFAULT_PLACEMENT_CONFIG.frequencyWindowMs) :=
  ⟨by decide +kernel,
    (windowed_count_exact_iff accessedThrice "h" DEFAULT_PLACEMENT_CONFIG
      ⟨1560000000, fun _ => 0⟩ rfl rfl).mp (by decide +kernel)⟩

/-- The default with a window of half an hour. -/
def halfHourWindow : PlacementConfig :=
  { DEFAULT_PLACEMENT_CONFIG with frequencyWindowMs := 1800000 }

def countedAtOnce (history : List PlacementEvent) (config : PlacementConfig) (now : ℤ) :
    Option ℕ :=
  ((empty.afterAll history).promotion ⟨now, fun _ => 0⟩ "h" config).toOption.bind
    fun decision => decision.detail.map (·.windowedAccessCount)

/-- The second access, 25 minutes after the first, deletes it by the horizon of
the default configuration, 20 minutes. -/
theorem count_misses_pruned_access :
    countedAtOnce accessedTwice halfHourWindow 1500000000 = some 1 ∧
      accessedTwice.countP (·.recordedWithin "h" (1500000000 - interval halfHourWindow.frequencyWindowMs))
        = 2 := by
  decide +kernel

end PlacementDb
end WorkflowPlatform
