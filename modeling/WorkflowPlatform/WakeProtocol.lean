import WorkflowPlatform.DurableSleep
import WorkflowPlatform.Rely

/-!
# What waking executions may rely on

Claims and signals satisfy waits and take executions out of their sleep; nothing
puts one back to sleep here. Whoever holds an execution's lock finds its row and
its waits as they were, and a wait that others satisfy belongs to an execution
that they have woken.
-/
namespace WorkflowPlatform

def SleepWrite.satisfies : SleepWrite → Option ℕ
  | .satisfyWait _ id _ => some id
  | _ => none

def satisfiedIds (ws : List SleepWrite) : List ℕ := ws.filterMap SleepWrite.satisfies

/-- The writes of a claim or a signal. -/
def SleepWrite.ofWake : SleepWrite → Bool
  | .executionStatus _ status => status = .queued
  | .insertWait .. => false
  | _ => true

@[simp] theorem satisfiedIds_append (ws ws' : List SleepWrite) :
    satisfiedIds (ws ++ ws') = satisfiedIds ws ++ satisfiedIds ws' := List.filterMap_append

theorem mem_satisfiedIds {ws : List SleepWrite} {i : ℕ} :
    i ∈ satisfiedIds ws ↔ ∃ w ∈ ws, w.satisfies = some i := List.mem_filterMap

theorem mem_satisfiedIds_cons {w : SleepWrite} {ws : List SleepWrite} {i : ℕ} :
    i ∈ satisfiedIds (w :: ws) ↔ w.satisfies = some i ∨ i ∈ satisfiedIds ws := by
  simp only [mem_satisfiedIds, List.mem_cons, exists_eq_or_imp]

section
variable {db : Db} {w : SleepWrite} {ws : List SleepWrite} {id i : ℕ}

/-! ### The rows under uncommitted writes -/

theorem sleepWrite_execution (h : w.row ≠ .execution id) :
    (db.sleepWrite w).executions.rows id = db.executions.rows id := by
  cases w with
  | setRunning j | executionStatus j =>
      apply Table.modify_other
      intro hj
      exact h (by rw [hj]; rfl)
  | _ => rfl

theorem sleepView_cons (db : Db) (w : SleepWrite) (ws : List SleepWrite) :
    sleepStore.view db (w :: ws) = sleepStore.view (db.sleepWrite w) ws := rfl

theorem sleepView_execution (h : sleepStore.locks ws (.execution id) = false) :
    (sleepStore.view db ws).executions.rows id = db.executions.rows id := by
  induction ws generalizing db with
  | nil => rfl
  | cons w ws ih =>
      simp only [Store.locks, List.any_cons, Bool.or_eq_false_iff, decide_eq_false_iff_not] at h
      rw [sleepView_cons, ih h.2]
      exact sleepWrite_execution h.1

theorem sleepWrite_satisfies (hw : w.ofWake = true) (h : w.satisfies ≠ some i) :
    (db.sleepWrite w).waits.rows i = db.waits.rows i := by
  cases w with
  | satisfyWait e j now =>
      apply Table.modify_other
      intro hij
      exact h (by rw [hij]; rfl)
  | insertWait => cases hw
  | _ => rfl

theorem sleepView_wait (hws : ∀ w ∈ ws, w.ofWake = true) (h : i ∉ satisfiedIds ws) :
    (sleepStore.view db ws).waits.rows i = db.waits.rows i := by
  induction ws generalizing db with
  | nil => rfl
  | cons w ws ih =>
      rw [mem_satisfiedIds_cons, not_or] at h
      rw [sleepView_cons, ih (fun w' hw' => hws w' (List.mem_cons_of_mem _ hw')) h.2]
      exact sleepWrite_satisfies (hws w List.mem_cons_self) h.1

/-- A wait that the transaction has satisfied. -/
theorem sleepView_satisfied (db : Db) (hws : ∀ w ∈ ws, w.ofWake = true) (h : i ∈ satisfiedIds ws) :
    ∃ now, (sleepStore.view db ws).waits.rows i = (db.waits.rows i).map (Wait.satisfied now) := by
  induction ws generalizing db with
  | nil => cases h
  | cons w ws ih =>
      have hrest : ∀ w' ∈ ws, w'.ofWake = true := fun w' hw' => hws w' (List.mem_cons_of_mem _ hw')
      rw [sleepView_cons]
      by_cases hw : w.satisfies = some i
      · cases w <;> simp only [SleepWrite.satisfies, reduceCtorEq, Option.some.injEq] at hw
        next e j now =>
          subst hw
          have hsame : (db.sleepWrite (.satisfyWait e j now)).waits.rows j =
              (db.waits.rows j).map (Wait.satisfied now) := Table.modify_same ..
          by_cases hj : j ∈ satisfiedIds ws
          · obtain ⟨now', hview⟩ := ih _ hrest hj
            refine ⟨now', hview.trans ?_⟩
            rw [hsame, Option.map_map]
            rfl
          · exact ⟨now, (sleepView_wait hrest hj).trans hsame⟩
      · obtain ⟨now, hview⟩ := ih _ hrest ((mem_satisfiedIds_cons.mp h).resolve_left hw)
        refine ⟨now, hview.trans ?_⟩
        rw [sleepWrite_satisfies (hws w List.mem_cons_self) hw]

theorem sleepView_execution_congr {a b : Db} (h : a.executions.rows id = b.executions.rows id) :
    (sleepStore.view a ws).executions.rows id = (sleepStore.view b ws).executions.rows id := by
  induction ws generalizing a b with
  | nil => exact h
  | cons w ws ih =>
      rw [sleepView_cons, sleepView_cons]
      apply ih
      by_cases hrow : w.row = .execution id
      · cases w <;> simp only [SleepWrite.row, reduceCtorEq, SleepRow.execution.injEq] at hrow
        all_goals subst hrow
        · exact h
        · exact (Table.modify_same ..).trans ((congrArg _ h).trans (Table.modify_same ..).symm)
        · exact (Table.modify_same ..).trans ((congrArg _ h).trans (Table.modify_same ..).symm)
      · exact (sleepWrite_execution hrow).trans (h.trans (sleepWrite_execution hrow).symm)

theorem sleepView_wait_congr {a b : Db} (hws : ∀ w ∈ ws, w.ofWake = true)
    (h : a.waits.rows i = b.waits.rows i) :
    (sleepStore.view a ws).waits.rows i = (sleepStore.view b ws).waits.rows i := by
  induction ws generalizing a b with
  | nil => exact h
  | cons w ws ih =>
      rw [sleepView_cons, sleepView_cons]
      apply ih fun w' hw' => hws w' (List.mem_cons_of_mem _ hw')
      by_cases hw : w.satisfies = some i
      · cases w <;> simp only [SleepWrite.satisfies, reduceCtorEq, Option.some.injEq] at hw
        subst hw
        exact (Table.modify_same ..).trans ((congrArg _ h).trans (Table.modify_same ..).symm)
      · have hofWake := hws w List.mem_cons_self
        rw [sleepWrite_satisfies hofWake hw, sleepWrite_satisfies hofWake hw, h]

/-- How the status of an execution moves when it is woken or claimed. -/
def ExecutionStatus.Woken (s s' : ExecutionStatus) : Prop :=
  s' = s ∨ s' = .queued ∧ s = .waiting ∨ s' = .running ∧ (s = .waiting ∨ s = .queued)

theorem ExecutionStatus.Woken.trans {s s' s'' : ExecutionStatus} (h : s.Woken s')
    (h' : s'.Woken s'') : s.Woken s'' := by
  unfold Woken at *
  rcases h with rfl | ⟨rfl, rfl⟩ | ⟨rfl, h⟩
  · exact h'
  · simp_all
  · simp_all

/-- The status under a transaction's writes, with the write that set it. -/
theorem sleepView_status (hws : ∀ w ∈ ws, w.ofWake = true) {e : Execution}
    (he : db.executions.rows id = some e) :
    ∃ e', (sleepStore.view db ws).executions.rows id = some e' ∧ (e'.status = e.status ∨
      (e'.status = .queued ∧ .executionStatus id .queued ∈ ws) ∨
      (e'.status = .running ∧ ∃ workerId leaseUntil, .setRunning id workerId leaseUntil ∈ ws)) := by
  induction ws generalizing db e with
  | nil => exact ⟨e, he, .inl rfl⟩
  | cons w ws ih =>
      have hrest : ∀ w' ∈ ws, w'.ofWake = true := fun w' hw' => hws w' (List.mem_cons_of_mem _ hw')
      have hfirst : ∃ f, (db.sleepWrite w).executions.rows id = some f ∧ (f.status = e.status ∨
          (f.status = .queued ∧ w = .executionStatus id .queued) ∨
          (f.status = .running ∧ ∃ workerId leaseUntil, w = .setRunning id workerId leaseUntil)) := by
        by_cases hrow : w.row = .execution id
        · cases w <;> simp only [SleepWrite.row, reduceCtorEq, SleepRow.execution.injEq] at hrow
          all_goals subst hrow
          · exact ⟨e, he, .inl rfl⟩
          · exact ⟨_, (Table.modify_same ..).trans (congrArg _ he), .inr (.inr ⟨rfl, _, _, rfl⟩)⟩
          · have hstatus := hws _ List.mem_cons_self
            simp only [SleepWrite.ofWake, decide_eq_true_eq] at hstatus
            subst hstatus
            exact ⟨_, (Table.modify_same ..).trans (congrArg _ he), .inr (.inl ⟨rfl, rfl⟩)⟩
        · exact ⟨e, (sleepWrite_execution hrow).trans he, .inl rfl⟩
      obtain ⟨f, hf, hstatus⟩ := hfirst
      obtain ⟨e', he', hstatus'⟩ := ih hrest hf
      refine ⟨e', he', ?_⟩
      rcases hstatus' with h' | ⟨h', hmem⟩ | ⟨h', workerId, leaseUntil, hmem⟩
      · rw [h']
        rcases hstatus with h | ⟨h, rfl⟩ | ⟨h, workerId, leaseUntil, rfl⟩
        · exact .inl h
        · exact .inr (.inl ⟨h, List.mem_cons_self⟩)
        · exact .inr (.inr ⟨h, workerId, leaseUntil, List.mem_cons_self⟩)
      · exact .inr (.inl ⟨h', List.mem_cons_of_mem _ hmem⟩)
      · exact .inr (.inr ⟨h', workerId, leaseUntil, List.mem_cons_of_mem _ hmem⟩)

theorem sleepView_execution_isSome : ((sleepStore.view db ws).executions.rows id).isSome =
    (db.executions.rows id).isSome := by
  induction ws generalizing db with
  | nil => rfl
  | cons w ws ih =>
      rw [sleepView_cons, ih]
      cases w <;> simp [Db.sleepWrite, Table.modify]

end

/-! ### Interference -/

/-- A wait as it is later: unchanged, or satisfied since. -/
def Wait.Later (w w' : Wait) : Prop := w' = w ∨ w.satisfiedAt = none ∧ ∃ now, w' = w.satisfied now

theorem Wait.Later.executionId {w w' : Wait} (h : w.Later w') : w'.executionId = w.executionId := by
  rcases h with rfl | ⟨-, now, rfl⟩ <;> rfl

theorem Wait.Later.trans {w w' w'' : Wait} (h : w.Later w') (h' : w'.Later w'') : w.Later w'' := by
  rcases h with rfl | ⟨hpending, now, rfl⟩
  · exact h'
  · rcases h' with rfl | ⟨habsurd, -⟩
    · exact .inr ⟨hpending, now, rfl⟩
    · cases habsurd

structure WakeRely (ws : List SleepWrite) (a b : Db) : Prop where
  held : ∀ id, sleepStore.locks ws (.execution id) = true →
    b.executions.rows id = a.executions.rows id ∧
      ∀ i w, a.waits.rows i = some w → w.executionId = id → b.waits.rows i = some w
  waits : ∀ i w, a.waits.rows i = some w → ∃ w', b.waits.rows i = some w' ∧ w.Later w' ∧
    (w' = w ∨ b.asleep w.executionId = false)
  noWait : ∀ i, a.waits.rows i = none → b.waits.rows i = none
  executions : ∀ id e, a.executions.rows id = some e →
    ∃ e', b.executions.rows id = some e' ∧ e.status.Woken e'.status
  noExecution : ∀ id, a.executions.rows id = none → b.executions.rows id = none

namespace WakeRely
variable {ws : List SleepWrite} {a b c : Db} {id i : ℕ}

theorem refl (ws : List SleepWrite) (a : Db) : WakeRely ws a a where
  held := fun _ _ => ⟨rfl, fun _ _ hw _ => hw⟩
  waits := fun _ w hw => ⟨w, hw, .inl rfl, .inl rfl⟩
  noWait := fun _ h => h
  executions := fun _ e he => ⟨e, he, .inl rfl⟩
  noExecution := fun _ h => h

/-- Nobody goes back to sleep. -/
theorem awake (h : WakeRely ws a b) (hid : a.asleep id = false) : b.asleep id = false := by
  unfold Db.asleep at *
  cases ha : a.executions.rows id with
  | none => rw [h.noExecution id ha, Option.any_none]
  | some e =>
      obtain ⟨e', he', hwoken⟩ := h.executions id e ha
      rw [ha] at hid
      rw [he']
      simp only [Option.any_some, decide_eq_false_iff_not] at hid ⊢
      rcases hwoken with hs | ⟨hs, -⟩ | ⟨hs, -⟩
      · rw [hs]
        exact hid
      · rw [hs]
        decide
      · rw [hs]
        decide

theorem trans (h : WakeRely ws a b) (h' : WakeRely ws b c) : WakeRely ws a c where
  held := by
    intro id hid
    obtain ⟨he, hw⟩ := h.held id hid
    obtain ⟨he', hw'⟩ := h'.held id hid
    exact ⟨he'.trans he, fun i w hi hexec => hw' i w (hw i w hi hexec) hexec⟩
  waits := by
    intro i w hi
    obtain ⟨w', hw', hlater, hawake⟩ := h.waits i w hi
    obtain ⟨w'', hw'', hlater', hawake'⟩ := h'.waits i w' hw'
    refine ⟨w'', hw'', hlater.trans hlater', ?_⟩
    rw [hlater.executionId] at hawake'
    rcases hawake with rfl | hawake
    · exact hawake'
    · exact .inr (h'.awake hawake)
  noWait := fun i hi => h'.noWait i (h.noWait i hi)
  executions := by
    intro id e he
    obtain ⟨e', he', hwoken⟩ := h.executions id e he
    obtain ⟨e'', he'', hwoken'⟩ := h'.executions id e' he'
    exact ⟨e'', he'', hwoken.trans hwoken'⟩
  noExecution := fun id hid => h'.noExecution id (h.noExecution id hid)

theorem forget (h : WakeRely ws a b) : WakeRely [] a b where
  held := fun _ hid => by cases hid
  waits := h.waits
  noWait := h.noWait
  executions := h.executions
  noExecution := h.noExecution

/-- A wait that is pending later was pending before. -/
theorem pending (h : WakeRely ws a b) {w : Wait} (hw : b.waits.rows i = some w)
    (hpending : w.satisfiedAt = none) : a.waits.rows i = some w := by
  cases ha : a.waits.rows i with
  | none =>
      rw [h.noWait i ha] at hw
      cases hw
  | some w₀ =>
      obtain ⟨w', hw', hlater, -⟩ := h.waits i w₀ ha
      rw [hw] at hw'
      cases hw'
      rcases hlater with rfl | ⟨-, now, rfl⟩
      · rfl
      · cases hpending

end WakeRely

/-- Every wait belongs to an execution. -/
def WaitsFkey (db : Db) : Prop :=
  ∀ i w, db.waits.rows i = some w → (db.executions.rows w.executionId).isSome = true

/-- What a claim or a signal has done so far. The execution of every wait it has
locked is locked too. -/
structure Wakes (ws : List SleepWrite) (db : Db) : Prop where
  only : ∀ w ∈ ws, w.ofWake = true
  covered : ∀ i, sleepStore.locks ws (.wait i) = true → ∃ w, db.waits.rows i = some w ∧
    sleepStore.locks ws (.execution w.executionId) = true
  pending : ∀ i ∈ satisfiedIds ws, ∃ w, db.waits.rows i = some w ∧ w.satisfiedAt = none
  nodup : (satisfiedIds ws).Nodup
  queued : ∀ id status, .executionStatus id status ∈ ws → db.asleep id = true
  running : ∀ id workerId leaseUntil, .setRunning id workerId leaseUntil ∈ ws →
    ∃ e, db.executions.rows id = some e ∧ e.status.Woken .running

/-- The wait is satisfied and its execution has left its sleep. -/
def Delivered (db : Db) (i : ℕ) : Prop :=
  ∃ w, db.waits.rows i = some w ∧ w.satisfiedAt.isSome = true ∧ db.asleep w.executionId = false

section
variable {ws : List SleepWrite} {a b db : Db} {w : SleepWrite} {id i : ℕ}

theorem locks_satisfied (h : i ∈ satisfiedIds ws) : sleepStore.locks ws (.wait i) = true := by
  obtain ⟨w, hw, hi⟩ := mem_satisfiedIds.mp h
  refine sleepStore.locks_iff.mpr ⟨w, hw, ?_⟩
  cases w <;> simp only [SleepWrite.satisfies, reduceCtorEq, Option.some.injEq] at hi
  rw [hi]
  rfl

theorem wakes_nil (db : Db) : Wakes [] db where
  only := fun _ h => by cases h
  covered := fun _ h => by cases h
  pending := fun _ h => by cases h
  nodup := List.nodup_nil
  queued := fun _ _ h => by cases h
  running := fun _ _ _ h => by cases h

theorem asleep_congr (h : a.executions.rows id = b.executions.rows id) : a.asleep id = b.asleep id := by
  unfold Db.asleep
  rw [h]

theorem Wakes.of_rely (h : Wakes ws a) (hr : WakeRely ws a b) : Wakes ws b where
  only := h.only
  covered := by
    intro i hi
    obtain ⟨w, hw, hlock⟩ := h.covered i hi
    exact ⟨w, (hr.held _ hlock).2 i w hw rfl, hlock⟩
  pending := by
    intro i hi
    obtain ⟨w, hw, hlock⟩ := h.covered i (locks_satisfied hi)
    obtain ⟨w', hw', hpending⟩ := h.pending i hi
    rw [hw] at hw'
    cases hw'
    exact ⟨w, (hr.held _ hlock).2 i w hw rfl, hpending⟩
  nodup := h.nodup
  queued := by
    intro id status hmem
    have hlock : sleepStore.locks ws (.execution id) = true :=
      sleepStore.locks_iff.mpr ⟨_, hmem, rfl⟩
    rw [asleep_congr (hr.held id hlock).1]
    exact h.queued id status hmem
  running := by
    intro id workerId leaseUntil hmem
    have hlock : sleepStore.locks ws (.execution id) = true :=
      sleepStore.locks_iff.mpr ⟨_, hmem, rfl⟩
    rw [(hr.held id hlock).1]
    exact h.running id workerId leaseUntil hmem

/-- The rows of an execution and of its waits, as a transaction that holds it
sees them. -/
theorem Wakes.view_held (h : Wakes ws a) (hr : WakeRely ws a b)
    (hlock : sleepStore.locks ws (.execution id) = true) :
    (sleepStore.view b ws).executions.rows id = (sleepStore.view a ws).executions.rows id ∧
      ∀ i w, a.waits.rows i = some w → w.executionId = id →
        (sleepStore.view b ws).waits.rows i = (sleepStore.view a ws).waits.rows i := by
  obtain ⟨he, hw⟩ := hr.held id hlock
  refine ⟨sleepView_execution_congr he, fun i w hi hexec => ?_⟩
  exact sleepView_wait_congr h.only ((hw i w hi hexec).trans hi.symm)

/-- What a commit does to the rows that nobody else has locked. -/
theorem Wakes.view_wait (h : Wakes ws db) {w : Wait} (hw : db.waits.rows i = some w) :
    ∃ w', (sleepStore.view db ws).waits.rows i = some w' ∧ w.Later w' ∧
      (w' = w ∨ i ∈ satisfiedIds ws) := by
  by_cases hi : i ∈ satisfiedIds ws
  · obtain ⟨now, hview⟩ := sleepView_satisfied db h.only hi
    obtain ⟨w', hw', hpending⟩ := h.pending i hi
    rw [hw] at hw' hview
    cases hw'
    exact ⟨_, hview, .inr ⟨hpending, now, rfl⟩, .inr hi⟩
  · exact ⟨w, (sleepView_wait h.only hi).trans hw, .inl rfl, .inl rfl⟩

theorem Wakes.view_status (h : Wakes ws db) {e : Execution} (he : db.executions.rows id = some e) :
    ∃ e', (sleepStore.view db ws).executions.rows id = some e' ∧ e.status.Woken e'.status := by
  obtain ⟨e', he', hstatus⟩ := sleepView_status h.only he
  refine ⟨e', he', ?_⟩
  rcases hstatus with hs | ⟨hs, hmem⟩ | ⟨hs, workerId, leaseUntil, hmem⟩
  · exact .inl hs
  · have hasleep := h.queued id .queued hmem
    rw [Db.asleep, he] at hasleep
    exact .inr (.inl ⟨hs, by simpa using hasleep⟩)
  · obtain ⟨f, hf, hwoken⟩ := h.running id workerId leaseUntil hmem
    rw [he] at hf
    cases hf
    rw [hs]
    exact hwoken

/-- A wait of the view is one of the committed rows, with the same execution. -/
theorem Wakes.committed_wait (h : Wakes ws db) {w : Wait}
    (hw : (sleepStore.view db ws).waits.rows i = some w) :
    ∃ w₀, db.waits.rows i = some w₀ ∧ w.executionId = w₀.executionId ∧
      (w = w₀ ∨ i ∈ satisfiedIds ws) := by
  cases hdb : db.waits.rows i with
  | none =>
      have hi : i ∉ satisfiedIds ws := by
        intro hi
        obtain ⟨w', hw', -⟩ := h.pending i hi
        rw [hdb] at hw'
        cases hw'
      rw [sleepView_wait h.only hi, hdb] at hw
      cases hw
  | some w₀ =>
      obtain ⟨w', hw', hlater, hsame⟩ := h.view_wait hdb
      rw [hw] at hw'
      cases hw'
      exact ⟨w₀, rfl, hlater.executionId, hsame⟩

/-- What has been delivered stays so while others commit. -/
theorem Delivered.of_rely (h : Delivered (sleepStore.view a ws) i) (hwakes : Wakes ws a)
    (hr : WakeRely ws a b) : Delivered (sleepStore.view b ws) i := by
  obtain ⟨w, hw, hsatisfied, hawake⟩ := h
  obtain ⟨w₀, hw₀, hexec, hsame⟩ := hwakes.committed_wait hw
  by_cases hlock : sleepStore.locks ws (.execution w.executionId) = true
  · obtain ⟨he, hwaits⟩ := hwakes.view_held hr hlock
    exact ⟨w, (hwaits i w₀ hw₀ hexec.symm).trans hw, hsatisfied, (asleep_congr he).trans hawake⟩
  · rw [Bool.not_eq_true] at hlock
    have hi : i ∉ satisfiedIds ws := by
      intro hi
      obtain ⟨w', hw', hcovered⟩ := hwakes.covered i (locks_satisfied hi)
      rw [hw₀] at hw'
      cases hw'
      rw [hexec, hcovered] at hlock
      cases hlock
    obtain rfl : w = w₀ := hsame.resolve_right hi
    obtain ⟨w', hw', hlater, -⟩ := hr.waits i w hw₀
    obtain rfl : w' = w := by
      rcases hlater with hlater | ⟨hpending, -⟩
      · exact hlater
      · rw [hpending] at hsatisfied
        cases hsatisfied
    refine ⟨w', (sleepView_wait hwakes.only hi).trans hw', hsatisfied, ?_⟩
    rw [asleep_congr (sleepView_execution hlock)] at hawake ⊢
    exact hr.awake hawake

/-- What a commit does to the rows is within what everybody else relies on. -/
theorem Wakes.commit_rely (h : Wakes ws db)
    (hawake : ∀ i ∈ satisfiedIds ws, Delivered (sleepStore.view db ws) i) {ws' : List SleepWrite}
    (hdisjoint : ∀ row, sleepStore.locks ws row = true → sleepStore.locks ws' row = false) :
    WakeRely ws' db (sleepStore.view db ws) where
  held := by
    intro id hid
    have hlock : sleepStore.locks ws (.execution id) = false := by
      by_contra hc
      rw [hdisjoint _ (by simpa using hc)] at hid
      cases hid
    refine ⟨sleepView_execution hlock, fun i w hw hexec => ?_⟩
    refine (sleepView_wait h.only fun hi => ?_).trans hw
    obtain ⟨w', hw', hcovered⟩ := h.covered i (locks_satisfied hi)
    rw [hw] at hw'
    cases hw'
    rw [hexec, hlock] at hcovered
    cases hcovered
  waits := by
    intro i w hw
    obtain ⟨w', hw', hlater, hsame⟩ := h.view_wait hw
    refine ⟨w', hw', hlater, hsame.imp_right fun hi => ?_⟩
    obtain ⟨w'', hw'', -, hdone⟩ := hawake i hi
    rw [hw'] at hw''
    cases hw''
    rwa [hlater.executionId] at hdone
  noWait := by
    intro i hi
    refine (sleepView_wait h.only fun hmem => ?_).trans hi
    obtain ⟨w', hw', -⟩ := h.pending i hmem
    rw [hi] at hw'
    cases hw'
  executions := fun id e he => h.view_status he
  noExecution := by
    intro id hid
    rw [← Option.not_isSome_iff_eq_none, sleepView_execution_isSome, hid]
    decide

theorem Wakes.commit_inv (h : Wakes ws db) (hdb : WaitsFkey db) :
    WaitsFkey (sleepStore.view db ws) := by
  intro i w hw
  obtain ⟨w₀, hw₀, hexec, -⟩ := h.committed_wait hw
  rw [sleepView_execution_isSome, hexec]
  exact hdb i w₀ hw₀

end

/-- What has to hold when a statement is issued: the execution it works on is
locked, also where the statement is about one of its waits. -/
def wakePre (op : SleepOp) (ws : List SleepWrite) (db : Db) : Prop :=
  Wakes ws db ∧ match op with
    | .scanPending _ => ws = []
    | .satisfyDueWaits id _ => sleepStore.locks ws (.execution id) = true
    | .setRunning id _ _ => sleepStore.locks ws (.execution id) = true
    | .lockWait i => ∀ w, db.waits.rows i = some w →
        sleepStore.locks ws (.execution w.executionId) = true
    | .satisfyWait i _ => ∀ w, db.waits.rows i = some w →
        sleepStore.locks ws (.execution w.executionId) = true
    | .queueWaiting id => sleepStore.locks ws (.execution id) = true
    | .insertWait _ => False
    | .markExecutionWaiting _ => False
    | _ => True

def wakeProtocol : Protocol sleepStore where
  inv := WaitsFkey
  rely := WakeRely
  env := fun _ _ => True
  pre := wakePre
  rely_refl := WakeRely.refl
  rely_trans := fun _ _ _ _ h h' => h.trans h'

end WorkflowPlatform
