import WorkflowPlatform.DurableRun

/-!
# The waits of a sleep

What wakes an execution satisfies the waits that fired and no others, so a wait
that has not fired stays pending beside an execution that is awake, and may cut
its next sleep short. This does not happen as long as the waits of a sleep end
together: all of them are due when a claim takes it, and all are on the key that
is signaled.
-/
namespace WorkflowPlatform
namespace DurableState

/-- A wait of an execution, not satisfied yet. -/
def Pending (s : DurableState) (id i : ℕ) (w : Wait) : Prop :=
  s.db.waits.rows i = some w ∧ w.executionId = id ∧ w.satisfiedAt = none

/-- The waits of a sleep that ends, end with it. The calls are those of the holder
of an execution and the signals; failing a run and completing a node of it end
the sleeps of others. -/
def EndsTogether (s : DurableState) : DurableEvent → Prop
  | .claimExecution _ _ locked => ∀ id i w, s.db.FirstClaimable locked s.now id →
      s.db.asleep id = true → s.Pending id i w → w.due id s.now = true
  | .signalWait key => ∀ id i w, s.db.asleep id = true → s.db.awaited key id = true →
      s.Pending id i w → w.waitKey = some key
  | .completeExecution _ id _ _ => ∀ i w, ¬ s.Pending id i w
  | .completeStep .. => False
  | .failRun .. => False
  | .waitFor .. => True
  | .advance _ => True

/-- Pending waits belong to the present sleep of an execution that is asleep. -/
def WaitsOfSleep (s : DurableState) : Prop :=
  ∀ id i w, s.Pending id i w → s.db.asleep id = true ∧ i ∈ s.sleep id

/-- The waits an event makes fire. -/
def fires (now : ℕ) : DurableEvent → Wait → Bool
  | .claimExecution .., w => w.due w.executionId now
  | .signalWait key, w => w.pendingOn key
  | _, _ => false

section
variable {s s' : DurableState} {ev : DurableEvent}

theorem pending_of_fires {now i : ℕ} {w : Wait} (hw : s.db.waits.rows i = some w)
    (h : fires now ev w = true) : s.Pending w.executionId i w := by
  refine ⟨hw, rfl, ?_⟩
  cases ev with
  | claimExecution => simp_all [fires, Wait.due]
  | signalWait => simp_all [fires, Wait.pendingOn]
  | completeExecution | completeStep | waitFor | failRun | advance => cases h

/-- A wait left open while others are satisfied was open before and is none of
these. -/
theorem open_of_satisfied {T : Table Wait} {fire : Wait → Bool} {now i : ℕ} {w' : Wait}
    (hw : (T.map fun _ w => if fire w then { w with satisfiedAt := some now } else w).rows i =
      some w') (hopen : w'.satisfiedAt = none) : T.rows i = some w' ∧ fire w' = false := by
  obtain ⟨w, hrow, hset⟩ := Option.map_eq_some_iff.mp hw
  dsimp only at hset
  have hnot : fire w = false := by
    by_contra hfire
    rw [if_pos (by simpa using hfire)] at hset
    subst hset
    cases hopen
  rw [if_neg (by simp [hnot])] at hset
  subst hset
  exact ⟨hrow, hnot⟩

/-- A wait that is inserted belongs to the sleep it puts the execution into, and
so do the waits of a sleep it prolongs. -/
theorem WaitsOfSleep.slept {sleeper : ℕ} {waitKey : Option String} {wakeAt : Option ℕ}
    {claims : List Claim} (hs : s.WaitsOfSleep) (hrow : (s.db.executions.rows sleeper).isSome = true) :
    WaitsOfSleep { s with
      db := s.db.slept { executionId := sleeper, waitKey, wakeAt }
      claims := claims
      sleep := s.sleepWith sleeper s.db.waits.next } := by
  intro id i w' ⟨hw', hid, hopen⟩
  have hasleep : ∀ {i}, s.db.asleep i = true ∨ i = sleeper →
      (s.db.slept { executionId := sleeper, waitKey, wakeAt }).asleep i = true := by
    intro i hi
    by_cases hsleeper : i = sleeper
    · obtain ⟨e, he⟩ := Option.isSome_iff_exists.mp hrow
      simp [hsleeper, Db.asleep, Db.slept, Table.modify_same, he]
    · have hold := hi.resolve_right hsleeper
      simpa [Db.asleep, Db.slept, Table.modify_other _ _ hsleeper] using hold
  by_cases hi : i = s.db.waits.next
  · subst hi
    change (Table.insertAt _ _ _).rows _ = _ at hw'
    rw [Table.insertAt_same, Option.some.injEq] at hw'
    subst hw'
    dsimp only at hid
    subst hid
    refine ⟨hasleep (.inr rfl), ?_⟩
    simp only [sleepWith, Function.update_self]
    split_ifs <;> simp
  · change (Table.insertAt _ _ _).rows _ = _ at hw'
    rw [Table.insertAt_other _ _ hi] at hw'
    obtain ⟨hold, hmem⟩ := hs id i w' ⟨hw', hid, hopen⟩
    refine ⟨hasleep (.inl hold), ?_⟩
    by_cases hsleeper : id = sleeper
    · rw [hsleeper] at hold hmem ⊢
      simp [sleepWith, hold, hmem]
    · simpa [sleepWith, Function.update_of_ne hsleeper] using hmem

theorem Effect.waitsOfSleep (h : s.Effect ev s') (hallowed : s.EndsTogether ev)
    (hs : s.WaitsOfSleep) : s'.WaitsOfSleep := by
  cases h with
  | nothing | advanced => exact hs
  | stepCompleted | runFailed => exact hallowed.elim
  | slept hrow => exact hs.slept hrow
  | claimed hfirst =>
      rename_i workerId leaseSeconds claimedId locked
      intro id i w ⟨hw', hid, hopen⟩
      obtain ⟨hw, hnot⟩ := open_of_satisfied hw' hopen
      obtain ⟨hasleep, hmem⟩ := hs id i w ⟨hw, hid, hopen⟩
      have hne : id ≠ claimedId := by
        rintro rfl
        rw [hallowed _ i w hfirst hasleep ⟨hw, hid, hopen⟩] at hnot
        cases hnot
      refine ⟨?_, hmem⟩
      change ((Table.modify _ _ _).rows id).any _ = true
      rw [Table.modify_other _ _ hne]
      exact hasleep
  | completed =>
      rename_i workerId stepId completedId output
      intro id i w ⟨hw', hid, hopen⟩
      have hw : s.db.waits.rows i = some w := by
        rw [← hw']
        change _ = (s.db.withCheckpoint completedId stepId
          (ParsedJson.storedFields output)).waits.rows i
        unfold Db.withCheckpoint
        split_ifs <;> rfl
      obtain ⟨hasleep, hmem⟩ := hs id i w ⟨hw, hid, hopen⟩
      have hne : id ≠ completedId := by
        rintro rfl
        exact hallowed i w ⟨hw, hid, hopen⟩
      refine ⟨?_, hmem⟩
      change ((Table.modify _ _ _).rows id).any _ = true
      rw [Table.modify_other _ _ hne, Db.withCheckpoint_executions]
      exact hasleep
  | signaled =>
      rename_i waitKey
      intro id i w ⟨hw', hid, hopen⟩
      obtain ⟨hw, hnot⟩ := open_of_satisfied hw' hopen
      obtain ⟨hasleep, hmem⟩ := hs id i w ⟨hw, hid, hopen⟩
      refine ⟨?_, hmem⟩
      have hawaited : s.db.awaited waitKey id = false := by
        by_contra hany
        have hkey := hallowed id i w hasleep (by simpa using hany) ⟨hw, hid, hopen⟩
        simp [Wait.pendingOn, hkey, hopen] at hnot
      obtain ⟨e, he, hwaiting⟩ := Option.any_eq_true _ _ |>.mp hasleep
      change (Option.map _ (s.db.executions.rows id)).any _ = true
      simp [he, hawaited] at hwaiting ⊢
      exact hwaiting

/-- What wakes an execution that is asleep is a wait that fires. -/
theorem Effect.woken_by {id : ℕ} (h : s.Effect ev s') (hasleep : s.db.asleep id = true)
    (hawake : s'.db.asleep id = false)
    (hwake : (∃ workerId leaseSeconds locked, ev = .claimExecution workerId leaseSeconds locked) ∨
      ∃ key, ev = .signalWait key) :
    ∃ i w, s.db.waits.rows i = some w ∧ w.executionId = id ∧ fires s.now ev w = true := by
  obtain ⟨e, he, hwaiting⟩ := Option.any_eq_true _ _ |>.mp hasleep
  rw [decide_eq_true_eq] at hwaiting
  cases h with
  | nothing =>
      rw [hasleep] at hawake
      cases hawake
  | claimed hfirst =>
      rename_i workerId leaseSeconds claimedId locked
      have hid : id = claimedId := by
        by_contra hne
        change ((Table.modify _ _ _).rows id).any _ = false at hawake
        rw [Table.modify_other _ _ hne] at hawake
        change s.db.asleep id = false at hawake
        rw [hasleep] at hawake
        cases hawake
      subst hid
      have hclaim := hfirst.1
      rw [he, Option.any_some] at hclaim
      simp only [claimable, hwaiting, List.any_eq_true, Option.any_eq_true] at hclaim
      obtain ⟨i, -, w, hw, hdue⟩ := hclaim
      have hid : w.executionId = id := by
        simp only [Wait.due, Bool.and_eq_true, decide_eq_true_eq] at hdue
        exact hdue.1.1
      exact ⟨i, w, hw, hid, by rw [fires, hid]; exact hdue⟩
  | signaled =>
      rename_i waitKey
      have hawaited : s.db.awaited waitKey id = true := by
        by_contra hnone
        change (Option.map _ (s.db.executions.rows id)).any _ = false at hawake
        simp [he, hnone, hwaiting] at hawake
      simp only [Db.awaited, List.any_eq_true, Db.mem_waitIds, Option.any_eq_true,
        decide_eq_true_eq] at hawaited
      obtain ⟨i, ⟨w, hw, hkey⟩, w₁, hw₁, hid⟩ := hawaited
      rw [hw] at hw₁
      cases hw₁
      exact ⟨i, w, hw, hid, hkey⟩
  | completed | stepCompleted | slept | runFailed | advanced =>
      rcases hwake with ⟨_, _, _, hev⟩ | ⟨_, hev⟩ <;> cases hev

/-- As long as the waits of a sleep end together, an execution that is not asleep
has no pending wait, and a claim or a signal that wakes one does so by waits that
fire, all of which are registered for the sleep it ends. -/
theorem waits_end_with_sleep {s₀ : DurableState} (hstart : s₀.WaitsOfSleep)
    (hs : Run EndsTogether s₀ s) (id : ℕ) :
    (s.db.asleep id = false → ∀ i w, s.db.waits.rows i = some w → w.executionId = id →
      w.satisfiedAt.isSome = true) ∧
    ∀ c ev, s.db.asleep id = true → (s.perform c ev).db.asleep id = false →
      ((∃ workerId leaseSeconds locked, ev = .claimExecution workerId leaseSeconds locked) ∨
        ∃ key, ev = .signalWait key) →
      (∃ i w, s.Pending id i w ∧ fires s.now ev w = true) ∧
        ∀ i w, s.db.waits.rows i = some w → w.executionId = id → fires s.now ev w = true →
          i ∈ s.sleep id := by
  have hwaits : s.WaitsOfSleep :=
    hs.keeps (fun hallowed heffect => heffect.waitsOfSleep hallowed) hstart
  constructor
  · intro hawake i w hw hid
    by_contra hopen
    rw [(hwaits id i w ⟨hw, hid, by simpa using hopen⟩).1] at hawake
    cases hawake
  · intro c ev hasleep hawake hwake
    obtain ⟨i, w, hw, hid, hfires⟩ := (s.perform_effect c ev).woken_by hasleep hawake hwake
    refine ⟨⟨i, w, hid ▸ pending_of_fires hw hfires, hfires⟩, ?_⟩
    intro j v hv hvid hvfires
    exact (hwaits id j v (hvid ▸ pending_of_fires hv hvfires)).2

/-- A signal ends the sleeps of a table all of whose waits are on its key. -/
theorem endsTogether_signal {key : String} (h : (s.db.waits.ids.all fun i =>
    (s.db.waits.rows i).all fun w => w.waitKey = some key) = true) :
    s.EndsTogether (.signalWait key) := by
  intro id i w _ _ hpending
  have hi := List.all_eq_true.mp h i (Table.mem_ids.mpr ⟨w, hpending.1⟩)
  rw [hpending.1, Option.all_some] at hi
  exact of_decide_eq_true hi

/-- And a claim those of a table without a pending wait. -/
theorem endsTogether_claim {workerId : String} {leaseSeconds : ℕ} {locked : ℕ → Bool}
    (h : (s.db.waits.ids.all fun i =>
      (s.db.waits.rows i).all fun w => w.satisfiedAt.isSome) = true) :
    s.EndsTogether (.claimExecution workerId leaseSeconds locked) := by
  intro id i w _ _ hpending
  have hi := List.all_eq_true.mp h i (Table.mem_ids.mpr ⟨w, hpending.1⟩)
  rw [hpending.1, Option.all_some, hpending.2.2] at hi
  cases hi

end

theorem oneQueued_no_waits {id i : ℕ} {w : Wait} : ¬ oneQueued.Pending id i w :=
  fun h => by cases h.1

/-- Two waits end the first sleep of an execution, and two others its second one. -/
theorem waits_end_with_sleep_signaled :
    let s := oneQueued.play [.claimExecution "a" 30 fun _ => false,
      .waitFor "a" 1 (some "k") none, .waitFor "a" 1 (some "k") (some 500), .signalWait "k",
      .claimExecution "b" 30 fun _ => false, .waitFor "b" 1 (some "k") none,
      .waitFor "b" 1 (some "k") (some 900)]
    s.sleep 1 = [3, 4] ∧ (∃ i w, s.Pending 1 i w ∧ fires s.now (.signalWait "k") w = true) ∧
      ∀ i w, s.db.waits.rows i = some w → w.executionId = 1 →
        fires s.now (.signalWait "k") w = true → i ∈ s.sleep 1 := by
  intro s
  have hs : Run EndsTogether oneQueued s := Admits.run
    ⟨trivial, endsTogether_claim (by decide), by decide, trivial, by decide, trivial, trivial,
      endsTogether_signal (by decide), trivial, endsTogether_claim (by decide), by decide, trivial,
      by decide, trivial, trivial⟩
  exact ⟨by decide, (waits_end_with_sleep (fun _ _ _ h => (oneQueued_no_waits h).elim) hs 1).2
    { now := 0 } (.signalWait "k") (by decide) (by decide) (.inr ⟨"k", rfl⟩)⟩

/-- The holder registers two waits; the signal for the first leaves the second
pending beside an execution that is queued. -/
theorem second_wait_outlives_sleep : ∃ s, oneQueued.WaitsOfSleep ∧
    Run (fun _ _ => True) oneQueued s ∧ s.db.asleep 1 = false ∧ ∃ w, s.Pending 1 2 w := by
  let events : List DurableEvent :=
    [.claimExecution "a" 30 fun _ => false, .waitFor "a" 1 (some "first") none,
      .waitFor "a" 1 (some "second") none, .signalWait "first"]
  have hpending : ((oneQueued.play events).db.waits.rows 2).any
      (fun w => w.executionId = 1 && w.satisfiedAt.isNone) = true := by decide
  simp only [Option.any_eq_true, Bool.and_eq_true, decide_eq_true_eq,
    Option.isNone_iff_eq_none] at hpending
  obtain ⟨w, hw, hid, hopen⟩ := hpending
  exact ⟨oneQueued.play events, fun _ _ _ h => (oneQueued_no_waits h).elim,
    run_of_entitled (by decide), by decide, w, hw, hid, hopen⟩

end DurableState
end WorkflowPlatform
