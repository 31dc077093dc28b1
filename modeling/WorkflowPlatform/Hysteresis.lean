import WorkflowPlatform.AccessWindow

/-!
# Promotion and demotion do not alternate

Promotion asks for recent accesses in the log, demotion for a long time since the
last access of the row. The two are kept by different statements; what connects
them is that no access in the log is later than the last access of its row. So a
hash that qualifies for promotion has been used too recently to be demoted, and
it stays so for as long as the idle threshold exceeds the window.

A threshold that is no whole number of milliseconds is not kept: the process
compares times whose microseconds have been dropped.
-/
namespace WorkflowPlatform

/-- The call names no time of its own: an access is recorded at the time of its
transaction. -/
def PlacementCall.Untimed : PlacementCall → Prop
  | .recordAccess _ opts => opts.accessedAt = none
  | _ => True

/-- Calls one after the other, by a clock that does not go back. -/
structure Chronological (history : List PlacementEvent) : Prop where
  untimed : ∀ e ∈ history, e.call.Untimed
  ordered : history.Pairwise fun e e' => e.choice.now ≤ e'.choice.now

namespace PlacementDb
variable {db : PlacementDb} {h : String} {t : ℤ} {e : PlacementEvent}

/-- The row of the hash has been accessed at this time or since. -/
def AccessedSince (h : String) (t : ℤ) (db : PlacementDb) : Prop :=
  ∃ p last, db.placement h = some p ∧ p.lastAccessedAt = some last ∧ t ≤ last

theorem after_recordAccess (db : PlacementDb) (c : PlacementChoice) (k : String)
    (opts : RecordAccessOptions) (h : String) :
    (db.after ⟨c, .recordAccess k opts⟩).placement h =
      if h = k then some (upsertedPlacement c.now (opts.upsertInput k) (db.placement k))
      else db.placement h := put_placement db k _ h

theorem upsertedPlacement_lastAccessedAt (now : ℤ) (input : UpsertPlacementAccessInput)
    (row : Option Placement) :
    (upsertedPlacement now input row).lastAccessedAt = some (input.accessedAt.getD now) := by
  cases row <;> rfl

theorem after_recordAccess_since {c : PlacementChoice} {opts : RecordAccessOptions}
    (hopts : opts.accessedAt = none) (ht : t ≤ c.now) :
    AccessedSince h t (db.after ⟨c, .recordAccess h opts⟩) := by
  have hrow := after_recordAccess db c h opts h
  rw [if_pos rfl] at hrow
  refine ⟨_, c.now, hrow, ?_, ht⟩
  rw [upsertedPlacement_lastAccessedAt, RecordAccessOptions.upsertInput, hopts]
  rfl

/-- A call that does not access the hash keeps the time of its last access. -/
theorem after_since_of_not_accesses (he : ¬ e.call.Accesses h) (hsince : AccessedSince h t db) :
    AccessedSince h t (db.after e) := by
  apply placementStore.transact_keeps (P := AccessedSince h t) _ hsince
  apply (script_upserts_no he).mono
  intro op hop V r ws hV hr
  rw [respond_eq hr]
  obtain ⟨p, last, hp, hlast, hle⟩ := hV
  cases respond_change V _ op h with
  | same hsame => exact ⟨p, last, hsame.trans hp, hlast, hle⟩
  | upserted now input hh _ => exact absurd hh (hop now input rfl)
  | pinned now pinned q hq hrow =>
      rw [hp] at hq
      cases hq
      exact ⟨_, last, hrow, hlast, hle⟩

/-- A call at this time or later. -/
theorem after_since (huntimed : e.call.Untimed) (ht : t ≤ e.choice.now)
    (hsince : AccessedSince h t db) : AccessedSince h t (db.after e) := by
  obtain ⟨c, call⟩ := e
  cases call with
  | recordAccess k opts =>
      by_cases hk : k = h
      · subst hk
        exact after_recordAccess_since huntimed ht
      · exact after_since_of_not_accesses hk hsince
  | _ => exact after_since_of_not_accesses (by simp [PlacementCall.Accesses]) hsince

theorem afterAll_since (later : List PlacementEvent) (huntimed : ∀ e ∈ later, e.call.Untimed)
    (ht : ∀ e ∈ later, t ≤ e.choice.now) (hsince : AccessedSince h t db) :
    AccessedSince h t (db.afterAll later) := by
  induction later generalizing db with
  | nil => exact hsince
  | cons e rest ih =>
      apply ih
      · exact fun e' he' => huntimed e' (List.mem_cons_of_mem _ he')
      · exact fun e' he' => ht e' (List.mem_cons_of_mem _ he')
      · exact after_since (huntimed e List.mem_cons_self) (ht e List.mem_cons_self) hsince

/-- An access in the log was recorded by one of the calls. -/
theorem mem_accessTimes (history : List PlacementEvent)
    (ht : t ∈ (empty.afterAll history).accessTimes h) :
    ∃ e ∈ history, e.recordedAt h = some t := by
  induction history using List.reverseRecOn with
  | nil => cases ht
  | append_singleton history e ih =>
      rw [afterAll_append] at ht
      change t ∈ ((empty.afterAll history).after e).accessTimes h at ht
      rw [after_accessTimes] at ht
      rcases List.mem_append.mp (List.mem_of_mem_filter ht) with hold | hnew
      · obtain ⟨e', he', hrecorded⟩ := ih hold
        exact ⟨e', List.mem_append_left _ he', hrecorded⟩
      · exact ⟨e, List.mem_append_right _ List.mem_cons_self, Option.mem_toList.mp hnew⟩

theorem recordedAt_untimed (huntimed : e.call.Untimed) (ht : e.recordedAt h = some t) :
    e.choice.now = t ∧ ∃ opts, e.call = .recordAccess h opts := by
  obtain ⟨c, call⟩ := e
  cases call with
  | recordAccess k opts =>
      simp only [PlacementEvent.recordedAt, show opts.accessedAt = none from huntimed,
        Option.getD_none, Option.ite_none_right_eq_some, Option.some.injEq] at ht
      exact ⟨ht.2, opts, ht.1 ▸ rfl⟩
  | _ => simp [PlacementEvent.recordedAt] at ht

/-- No access in the log is later than the last access of its row. -/
theorem accessed_since_log (history : List PlacementEvent) (hhistory : Chronological history)
    (ht : t ∈ (empty.afterAll history).accessTimes h) :
    AccessedSince h t (empty.afterAll history) := by
  induction history using List.reverseRecOn generalizing t with
  | nil => cases ht
  | append_singleton history e ih =>
      obtain ⟨huntimed, hordered⟩ := hhistory
      rw [List.pairwise_append] at hordered
      have hbefore : ∀ e' ∈ history, e'.choice.now ≤ e.choice.now := fun e' he' =>
        hordered.2.2 e' he' e List.mem_cons_self
      have hlast : e.call.Untimed := huntimed e (List.mem_append_right _ List.mem_cons_self)
      have hearlier : Chronological history :=
        ⟨fun e' he' => huntimed e' (List.mem_append_left _ he'), hordered.1⟩
      rw [afterAll_append] at ht ⊢
      change t ∈ ((empty.afterAll history).after e).accessTimes h at ht
      change AccessedSince h t ((empty.afterAll history).after e)
      rw [after_accessTimes] at ht
      rcases List.mem_append.mp (List.mem_of_mem_filter ht) with hold | hnew
      · apply after_since hlast _ (ih hearlier hold)
        obtain ⟨e', he', hrecorded⟩ := mem_accessTimes history hold
        rw [← (recordedAt_untimed (hearlier.untimed e' he') hrecorded).1]
        exact hbefore e' he'
      · obtain ⟨hnow, opts, hcall⟩ := recordedAt_untimed hlast (Option.mem_toList.mp hnew)
        obtain ⟨c, call⟩ := e
        cases hcall
        exact after_recordAccess_since hlast hnow.ge

/-! ### The two decisions -/

/-- A decision about demotion, taken in a transaction of its own by a process
whose clock is that of the database. -/
def demotion (db : PlacementDb) (c : PlacementChoice) (h : String) (config : PlacementConfig) :
    Except Failure DemotionDecision :=
  (db.transact c (evaluateDemotion (c.now / 1000) h config)).1

theorem promotion_frequency {c : PlacementChoice} {config : PlacementConfig}
    {decision : PromotionDecision} (hdecision : db.promotion c h config = .ok decision)
    (hpromote : decision.promote = true) :
    config.frequencyThreshold ≤
      db.countWithinWindow h (c.now - interval config.frequencyWindowMs) := by
  rw [promotion, transact, Store.transact_fst] at hdecision
  cases hrow : db.placement h with
  | none =>
      simp [evaluatePromotion, Script.run_call, Store.handle, placementStore, placementRespond,
        hrow] at hdecision
      rw [← hdecision] at hpromote
      cases hpromote
  | some p =>
      cases hpinned : p.pinned with
      | true =>
          simp [evaluatePromotion, Script.run_call, Store.handle, placementStore, placementRespond,
            hrow, hpinned] at hdecision
          rw [← hdecision] at hpromote
          cases hpromote
      | false =>
          simp [evaluatePromotion, Script.run_call, Store.handle, placementStore, placementRespond,
            hrow, hpinned] at hdecision
          rw [← hdecision] at hpromote
          simp only [promotionDecision, Bool.and_eq_true, decide_eq_true_eq] at hpromote
          exact hpromote.2

/-- A row that has been accessed within the idle threshold is not demoted. -/
theorem AccessedSince.not_demoted {c : PlacementChoice} {config : PlacementConfig}
    (hsince : AccessedSince h t db)
    (hidle : ((c.now / 1000 - t / 1000 : ℤ) : ℚ) ≤ config.idleThresholdMs) :
    ∃ decision, db.demotion c h config = .ok decision ∧ decision.demote = false := by
  obtain ⟨p, last, hp, hlast, hle⟩ := hsince
  rw [demotion, transact, Store.transact_fst]
  cases hpinned : p.pinned with
  | false =>
      simp [evaluateDemotion, Script.run_call, Store.handle, placementStore, placementRespond,
        hp, hpinned]
  | true =>
      have hms : ((c.now / 1000 - last / 1000 : ℤ) : ℚ) ≤ config.idleThresholdMs := by
        apply le_trans _ hidle
        have hmono : t / 1000 ≤ last / 1000 := Int.ediv_le_ediv (by decide) hle
        exact_mod_cast Int.sub_le_sub_left hmono _
      simpa [evaluateDemotion, Script.run_call, Store.handle, placementStore, placementRespond,
        hp, hpinned, hlast] using hms

/-- Milliseconds between two times, from their difference in microseconds. -/
theorem ms_between_le {a b n : ℤ} (h : b - a ≤ n * 1000) : b / 1000 - a / 1000 ≤ n := by omega

theorem interval_le_add (ms : ℚ) {n d : ℤ} (h : (d : ℚ) ≤ (n - ms) * 1000) :
    interval ms + d ≤ n * 1000 := by
  have hround : (interval ms : ℚ) ≤ ms * 1000 + 1 / 2 := by
    have hle := (abs_le.mp (Doubles.abs_roundEven_sub_le (ms * 1000))).2
    unfold interval
    linarith
  have hsum : ((interval ms + d : ℤ) : ℚ) < (n * 1000 + 1 : ℤ) := by
    push_cast
    linarith
  exact Int.lt_add_one_iff.mp (by exact_mod_cast hsum)

/-- A hash that qualifies for promotion is not demoted, now or for as long as the
idle threshold exceeds the window, whatever calls are made after its promotion.
The threshold is a whole number of milliseconds. -/
theorem promoted_not_demoted (history later : List PlacementEvent) (c c' : PlacementChoice)
    (h : String) (config : PlacementConfig) {n : ℤ} {decision : PromotionDecision}
    (hhistory : Chronological (history ++ ⟨c, .promote h⟩ :: later))
    (hwhole : config.idleThresholdMs = n) (hthreshold : 1 ≤ config.frequencyThreshold)
    (hqualifies : (empty.afterAll history).promotion c h config = .ok decision)
    (hpromote : decision.promote = true)
    (hinstant : ((c'.now - c.now : ℤ) : ℚ) ≤
      (config.idleThresholdMs - config.frequencyWindowMs) * 1000) :
    ∃ decision', (empty.afterAll (history ++ ⟨c, .promote h⟩ :: later)).demotion c' h config =
      .ok decision' ∧ decision'.demote = false := by
  obtain ⟨huntimed, hordered⟩ := hhistory
  rw [List.pairwise_append, List.pairwise_cons] at hordered
  have hbefore : Chronological history :=
    ⟨fun e he => huntimed e (List.mem_append_left _ he), hordered.1⟩
  -- the count is positive, so the log has an access of the window
  have hcount : 0 < (empty.afterAll history).countWithinWindow h
      (c.now - interval config.frequencyWindowMs) := by
    have hfrequency := hthreshold.trans (promotion_frequency hqualifies hpromote)
    exact_mod_cast zero_lt_one.trans_le hfrequency
  rw [countWithinWindow_eq, List.countP_pos_iff] at hcount
  obtain ⟨t, ht, hwindow⟩ := hcount
  rw [decide_eq_true_iff] at hwindow
  have hsince := accessed_since_log history hbefore ht
  obtain ⟨e, he, hrecorded⟩ := mem_accessTimes history ht
  have hpast : t ≤ c.now := by
    rw [← (recordedAt_untimed (hbefore.untimed e he) hrecorded).1]
    exact hordered.2.2 e he _ List.mem_cons_self
  rw [afterAll_append]
  apply AccessedSince.not_demoted (t := t)
  · apply afterAll_since _ _ _ hsince
    · exact fun e he => huntimed e (List.mem_append_right _ he)
    · intro e he
      rcases List.mem_cons.mp he with rfl | he
      · exact hpast
      · exact hpast.trans (hordered.2.1.1 e he)
  · rw [hwhole] at hinstant ⊢
    have hspan := interval_le_add config.frequencyWindowMs hinstant
    exact_mod_cast ms_between_le (a := t) (b := c'.now) (n := n) (by omega)

/-- Three accesses of an expensive state, and five minutes later its promotion: it
is not demoted for another thirteen minutes. -/
theorem promoted_not_demoted_default :
    ∃ decision', (empty.afterAll ([⟨⟨0, fun _ => 0⟩, .recordAccess "h"
          { interactivity := some .interactive, declaredCostClass := some .expensive }⟩,
        ⟨⟨1, fun _ => 0⟩, .recordAccess "h" {}⟩, ⟨⟨2, fun _ => 0⟩, .recordAccess "h" {}⟩] ++
        ⟨⟨300000000, fun _ => 0⟩, .promote "h"⟩ :: [])).demotion ⟨1080000000, fun _ => 0⟩ "h"
      DEFAULT_PLACEMENT_CONFIG = .ok decision' ∧ decision'.demote = false := by
  have hpromote : ((empty.afterAll [⟨⟨0, fun _ => 0⟩, .recordAccess "h"
          { interactivity := some .interactive, declaredCostClass := some .expensive }⟩,
        ⟨⟨1, fun _ => 0⟩, .recordAccess "h" {}⟩, ⟨⟨2, fun _ => 0⟩, .recordAccess "h" {}⟩]).promotion
      ⟨300000000, fun _ => 0⟩ "h" DEFAULT_PLACEMENT_CONFIG).toOption.map (·.promote) = some true := by
    decide +kernel
  cases hdecision : (empty.afterAll [⟨⟨0, fun _ => 0⟩, .recordAccess "h"
        { interactivity := some .interactive, declaredCostClass := some .expensive }⟩,
      ⟨⟨1, fun _ => 0⟩, .recordAccess "h" {}⟩, ⟨⟨2, fun _ => 0⟩, .recordAccess "h" {}⟩]).promotion
      ⟨300000000, fun _ => 0⟩ "h" DEFAULT_PLACEMENT_CONFIG with
  | error e =>
      rw [hdecision] at hpromote
      cases hpromote
  | ok decision =>
      rw [hdecision] at hpromote
      refine promoted_not_demoted _ _ ⟨300000000, fun _ => 0⟩ _ "h" DEFAULT_PLACEMENT_CONFIG
        (n := 1200000) ⟨?_, ?_⟩ (by decide +kernel) (by decide +kernel) hdecision
        (Option.some.inj hpromote) (by decide +kernel)
      · simp [PlacementCall.Untimed]
      · simp

/-- A threshold of half a millisecond: the access and the decision are two
microseconds apart, on either side of a whole millisecond. -/
theorem promoted_and_demoted_at_once :
    let config := { DEFAULT_PLACEMENT_CONFIG with
      frequencyThreshold := 1, frequencyWindowMs := 1 / 2, idleThresholdMs := 1 / 2 }
    let history : List PlacementEvent := [⟨⟨999, fun _ => 0⟩, .recordAccess "h"
      { interactivity := some .interactive, declaredCostClass := some .expensive }⟩]
    Chronological (history ++ [⟨⟨1001, fun _ => 0⟩, .promote "h"⟩]) ∧
      1 ≤ config.frequencyThreshold ∧ config.frequencyWindowMs ≤ config.idleThresholdMs ∧
      ((empty.afterAll history).promotion ⟨1001, fun _ => 0⟩ "h" config).toOption.map (·.promote) =
        some true ∧
      ((empty.afterAll (history ++ [⟨⟨1001, fun _ => 0⟩, .promote "h"⟩])).demotion
        ⟨1001, fun _ => 0⟩ "h" config).toOption.map (·.demote) = some true := by
  refine ⟨⟨?_, ?_⟩, le_rfl, le_rfl, ?_, ?_⟩
  · simp [PlacementCall.Untimed]
  · simp
  · decide +kernel
  · decide +kernel

end PlacementDb
end WorkflowPlatform
