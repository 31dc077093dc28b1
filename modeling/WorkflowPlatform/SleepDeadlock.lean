import WorkflowPlatform.SignalDelivery

/-!
# When claims and signals wait for each other

A claim skips what is locked and a wait is only ever locked under its
execution's lock, so the only thing anybody waits for is the execution lock of
the loop of `signal_wait`. The loop takes these locks in the order of its scan,
which is any order. As long as the open signals agree on some order of the
executions they have still to lock, no cycle of waits arises, however many there
are.
-/
namespace WorkflowPlatform

/-- An answer for each statement with which the loop goes on to its next
candidate. -/
def plainAnswer : (op : SleepOp) → SleepResp op
  | .now => 0
  | .selectClaimable _ => none
  | .satisfyDueWaits .. => ()
  | .setRunning .. => none
  | .scanPending _ => []
  | .lockExecution _ => ()
  | .lockWait _ => { executionId := 0, waitKey := none, wakeAt := none }
  | .satisfyWait id _ => (id, { executionId := 0, waitKey := none, wakeAt := none })
  | .queueWaiting _ => ()
  | .notify _ => ()
  | .insertWait _ => none
  | .markExecutionWaiting _ => ()

def SleepOp.lockedExecution : SleepOp → Option ℕ
  | .lockExecution id => some id
  | _ => none

/-- The executions that a call has still to lock, in its order. -/
def lockPlan {α : Type} (m : SleepTx α) : List ℕ :=
  (m.ahead plainAnswer).filterMap SleepOp.lockedExecution

section
variable {n : ℕ} {st : SleepSystem n} {t u v : Fin n} {a b : ℕ}

/-- An open call will hold `a` when it comes to lock `b`. -/
def LocksBefore (st : SleepSystem n) (a b : ℕ) : Prop :=
  ∃ t T l₁ l₂, st.txns t = some T ∧ T.aborted = false ∧ lockPlan T.script = l₁ ++ b :: l₂ ∧
    sleepStore.locks T.writes (.execution b) = false ∧ b ∉ l₁ ∧
    (sleepStore.locks T.writes (.execution a) = true ∨ a ∈ l₁)

/-- The open calls agree on an order of the executions they have still to lock. -/
def LockOrderAgreed (st : SleepSystem n) : Prop := ∀ a, ¬ Relation.TransGen (LocksBefore st) a a

/-- The worker is about to lock the execution. -/
def AsksFor (st : SleepSystem n) (t : Fin n) (id : ℕ) : Prop :=
  ∃ next ws, st.txns t = some ⟨.call (.lockExecution id) next, ws, false⟩

/-- A worker that waits for one that waits is in the loop of a signal. -/
theorem waits_asks (hs : wakeProtocol.Sound WakePost st) (htu : sleepStore.WaitsFor st t u)
    (huv : sleepStore.WaitsFor st u v) : ∃ id U, AsksFor st t id ∧ st.txns u = some U ∧
      sleepStore.locks U.writes (.execution id) = true := by
  obtain ⟨-, op', next', ws', -, hu, -⟩ := huv
  obtain ⟨hne, op, next, ws, U, ht, hU, row, hrow, hlock⟩ := htu
  rw [hu] at hU
  cases hU
  obtain ⟨hwakes, hpre⟩ := hs.pre ht (.inl rfl)
  obtain ⟨hwakes', -⟩ := hs.pre hu (.inl rfl)
  have hex : ∀ row, sleepStore.locks ws row = true → sleepStore.locks ws' row = true → False := by
    intro row h h'
    rw [hs.exclusive t u _ _ hne ht hu row h] at h'
    cases h'
  -- A wait is not locked without its execution.
  have hwait : ∀ i w, st.db.waits.rows i = some w → sleepStore.locks ws' (.wait i) = true →
      sleepStore.locks ws (.execution w.executionId) = true → False := by
    intro i w hw hi hown
    obtain ⟨w', hw', hcovered⟩ := hwakes'.covered i hi
    rw [hw] at hw'
    cases hw'
    exact hex _ hown hcovered
  cases op with
  | lockExecution id =>
      obtain rfl : row = .execution id := by
        simp only [sleepStore, Db.sleepNeeds] at hrow
        split_ifs at hrow
        · exact List.mem_singleton.mp hrow
        · cases hrow
      exact ⟨id, _, ⟨next, ws, ht⟩, hu, hlock⟩
  | satisfyDueWaits id now =>
      obtain ⟨i, hi, rfl⟩ := List.mem_map.mp hrow
      obtain ⟨w, hw, hdue⟩ := Db.mem_waitIds.mp hi
      obtain ⟨w₀, hw₀, hexec, -⟩ := hwakes.committed_wait hw
      simp only [Wait.due, Bool.and_eq_true, decide_eq_true_eq] at hdue
      refine (hwait i w₀ hw₀ hlock ?_).elim
      rw [← hexec, hdue.1.1]
      exact hpre
  | lockWait i | satisfyWait i =>
      simp only [sleepStore, Db.sleepNeeds] at hrow
      split_ifs at hrow with hpresent
      · obtain rfl := List.mem_singleton.mp hrow
        obtain ⟨w, hw⟩ := Option.isSome_iff_exists.mp hpresent
        obtain ⟨w₀, hw₀, -⟩ := hwakes.committed_wait hw
        exact (hwait i w₀ hw₀ hlock (hpre w₀ hw₀)).elim
      · cases hrow
  | setRunning id | queueWaiting id =>
      simp only [sleepStore, Db.sleepNeeds] at hrow
      split_ifs at hrow
      · obtain rfl := List.mem_singleton.mp hrow
        exact (hex _ hpre hlock).elim
      · cases hrow
  | insertWait | markExecutionWaiting => cases hpre
  | now | selectClaimable | scanPending | notify => cases hrow

theorem AsksFor.locksBefore (hasks : AsksFor st u b) {U : Txn SleepOp SleepResp Failure SleepResult
    SleepWrite} (hu : st.txns u = some U) (hheld : sleepStore.locks U.writes (.execution a) = true)
    (hfree : sleepStore.locks U.writes (.execution b) = false) : LocksBefore st a b := by
  obtain ⟨next, ws, ht⟩ := hasks
  rw [ht] at hu
  cases hu
  exact ⟨u, _, [], _, ht, rfl, rfl, hfree, List.not_mem_nil, .inl hheld⟩

/-- Waits in a row, as steps in the order of the locks. -/
theorem waits_locksBefore (hs : wakeProtocol.Sound WakePost st)
    (htu : Relation.TransGen (sleepStore.WaitsFor st) t u) (huv : sleepStore.WaitsFor st u v)
    {w : Fin n} (hvw : sleepStore.WaitsFor st v w) (ha : AsksFor st t a) (hb : AsksFor st u b) :
    Relation.TransGen (LocksBefore st) a b := by
  have hstep : ∀ {x y z z' : Fin n} {c d : ℕ}, sleepStore.WaitsFor st x y →
      sleepStore.WaitsFor st y z → sleepStore.WaitsFor st z z' → AsksFor st x c → AsksFor st y d →
      LocksBefore st c d := by
    intro x y z z' c d hxy hyz hzz hc hd
    obtain ⟨c', Y, hc', hY, hheld⟩ := waits_asks hs hxy hyz
    obtain ⟨d', Z, hd', hZ, hheld'⟩ := waits_asks hs hyz hzz
    have hcc : c' = c := by
      obtain ⟨_, _, h⟩ := hc
      obtain ⟨_, _, h'⟩ := hc'
      rw [h] at h'
      cases h'
      rfl
    have hdd : d' = d := by
      obtain ⟨_, _, h⟩ := hd
      obtain ⟨_, _, h'⟩ := hd'
      rw [h] at h'
      cases h'
      rfl
    subst hcc hdd
    refine hd.locksBefore hY hheld ?_
    exact hs.exclusive z y Z Y (Ne.symm hyz.1) hZ hY _ hheld'
  induction htu generalizing v w b with
  | single htu => exact .single (hstep htu huv hvw ha hb)
  | tail htu hux ih =>
      obtain ⟨c, -, hc, -⟩ := waits_asks hs hux huv
      exact (ih hux huv hc).tail (hstep hux huv hvw hc hb)

/-- Calls that agree on an order of the executions do not deadlock. -/
theorem sleep_deadlock_free {calls : Fin n → SleepCall} {db : Db} (hdb : WaitsFkey db)
    (hrun : Relation.ReflTransGen (fun s s' => sleepStore.Step (sleepCalls calls)
      (fun _ _ => True) s s' ∧ LockOrderAgreed s') (Store.idle db) st) :
    ¬ sleepStore.Deadlock st := by
  have hreach : sleepStore.Reaches (sleepCalls calls) (fun _ _ => True) (Store.idle db) st := by
    induction hrun with
    | refl => exact .refl
    | tail _ hstep ih => exact ih.tail hstep.1
  have hs : wakeProtocol.Sound WakePost st :=
    (Protocol.sound_idle hdb).reaches (wakes_follow calls) hreach
  intro ⟨t, ht⟩
  rcases Relation.ReflTransGen.cases_tail hrun with rfl | ⟨s, -, -, hagreed⟩
  · obtain ⟨u, ⟨-, op, next, ws, U, hidle, -⟩, -⟩ := Store.WaitsFor.next sleepStore ht
    cases hidle
  · obtain ⟨u, htu, hu⟩ := Store.WaitsFor.next sleepStore ht
    obtain ⟨v, huv, -⟩ := Store.WaitsFor.next sleepStore hu
    obtain ⟨a, -, ha, -⟩ := waits_asks hs htu huv
    exact hagreed a (waits_locksBefore hs ht htu huv ha ha)

/-! ### Sorted scans -/

def heldExecutions (ws : List SleepWrite) : List ℕ :=
  ws.filterMap fun w => match w.row with
    | .execution id => some id
    | .wait _ => none

theorem mem_heldExecutions {ws : List SleepWrite} {id : ℕ} :
    id ∈ heldExecutions ws ↔ sleepStore.locks ws (.execution id) = true := by
  rw [sleepStore.locks_iff, heldExecutions, List.mem_filterMap]
  constructor
  · intro ⟨w, hw, h⟩
    refine ⟨w, hw, ?_⟩
    change w.row = _
    cases hrow : w.row with
    | execution i =>
        rw [hrow] at h
        cases h
        rfl
    | wait i =>
        rw [hrow] at h
        cases h
  · intro ⟨w, hw, h⟩
    refine ⟨w, hw, ?_⟩
    change w.row = _ at h
    rw [h]

/-- Every open call locks executions in ascending order. -/
def ascending (st : SleepSystem n) : Bool :=
  (List.finRange n).all fun t => (st.txns t).all fun T =>
    (heldExecutions T.writes ++ lockPlan T.script).Pairwise (· ≤ ·)

theorem LocksBefore.lt (h : ascending st = true) (hab : LocksBefore st a b) : a < b := by
  obtain ⟨t, T, l₁, l₂, ht, -, hplan, hfree, hnew, hheld⟩ := hab
  have hsorted := List.all_eq_true.mp h t (List.mem_finRange t)
  rw [ht, Option.all_some, decide_eq_true_eq, hplan, List.pairwise_append] at hsorted
  obtain ⟨-, hl, hcross⟩ := hsorted
  have hle : a ≤ b := by
    rcases hheld with hheld | hheld
    · exact hcross a (mem_heldExecutions.mpr hheld) b (by simp)
    · exact (List.pairwise_append.mp hl).2.2 a hheld b List.mem_cons_self
  refine lt_of_le_of_ne hle ?_
  rintro rfl
  rcases hheld with hheld | hheld
  · rw [hfree] at hheld
    cases hheld
  · exact hnew hheld

/-- A scan in the order of the executions is an order to agree on. -/
theorem lockOrderAgreed_of_ascending (h : ascending st = true) : LockOrderAgreed st := by
  intro a ha
  have hlt : ∀ {x y}, Relation.TransGen (LocksBefore st) x y → x < y := by
    intro x y hxy
    induction hxy with
    | single hxy => exact hxy.lt h
    | tail _ hxy ih => exact ih.trans (hxy.lt h)
  exact lt_irrefl a (hlt ha)

/-- A schedule along which the open calls lock in ascending order. -/
def ascendingSteps (program : Fin n → SleepTx SleepResult) :
    SleepSystem n → List (Label n Choice) → Option (SleepSystem n)
  | st, [] => some st
  | st, l :: ls => (sleepStore.step program st l).bind fun st' =>
      if ascending st' then ascendingSteps program st' ls else none

theorem ascendingSteps_reaches {program : Fin n → SleepTx SleepResult} {ls : List (Label n Choice)}
    {st' : SleepSystem n} (h : ascendingSteps program st ls = some st') :
    Relation.ReflTransGen (fun s s' => sleepStore.Step program (fun _ _ => True) s s' ∧
      LockOrderAgreed s') st st' := by
  induction ls generalizing st with
  | nil =>
      cases h
      exact .refl
  | cons l ls ih =>
      obtain ⟨s, hs, hrest⟩ := Option.bind_eq_some_iff.mp h
      split_ifs at hrest with hascending
      have hl : Store.Allowed (fun _ _ => True) st l :=
        Store.allowed_of_forall (fun _ _ => trivial) st l
      exact .head ⟨⟨l, hl, hs⟩, lockOrderAgreed_of_ascending hascending⟩ (ih hrest)

end

def twoSignals : Fin 2 → SleepCall := fun _ => .signalWait "k"

/-- Both signals scan in the same order; the second waits for the first. -/
theorem sleep_deadlock_free_two : ∃ st : SleepSystem 2,
    ascendingSteps (sleepCalls twoSignals) (Store.idle sleepersDb)
      ([.begin 0, .begin 1] ++ List.replicate 3 (.call 0 { now := 0 }) ++
        List.replicate 2 (.call 1 { now := 0 })) = some st ∧ ¬ sleepStore.Deadlock st := by
  obtain ⟨st, hst⟩ := Option.isSome_iff_exists.mp (show (ascendingSteps (n := 2)
    (sleepCalls twoSignals) (Store.idle sleepersDb) ([.begin 0, .begin 1] ++
      List.replicate 3 (.call 0 { now := 0 }) ++
      List.replicate 2 (.call 1 { now := 0 }))).isSome = true by decide)
  exact ⟨st, hst, sleep_deadlock_free sleepersDb_fkey (ascendingSteps_reaches hst)⟩

/-- Two signals on one key whose scans list the same two executions in opposite
orders: each has locked one and waits for the other. -/
theorem opposite_scans_deadlock : ∃ st : SleepSystem 2, WaitsFkey sleepersDb ∧
    sleepStore.Reaches (sleepCalls twoSignals) (fun _ _ => True) (Store.idle sleepersDb) st ∧
    sleepStore.Deadlock st := by
  let c : Choice := { now := 0 }
  let reversed : Choice := { now := 0, order := List.reverse, order_perm := List.reverse_perm }
  let labels : List (Label 2 Choice) := [.begin 0, .begin 1, .call 0 c, .call 0 c, .call 1 c,
    .call 1 reversed] ++ List.replicate 4 (.call 0 c) ++ List.replicate 4 (.call 1 c)
  have hrun : (sleepStore.steps (sleepCalls twoSignals) (Store.idle sleepersDb) labels).any
      (fun st => sleepStore.waitsFor st 0 1 && sleepStore.waitsFor st 1 0) = true := by decide
  obtain ⟨st, hst, hwaits⟩ := (Option.any_eq_true ..).mp hrun
  rw [Bool.and_eq_true] at hwaits
  exact ⟨st, sleepersDb_fkey, sleepStore.steps_reaches (fun _ _ => trivial) hst, 0,
    .tail (.single (sleepStore.waitsFor_sound hwaits.1)) (sleepStore.waitsFor_sound hwaits.2)⟩

end WorkflowPlatform
