import WorkflowPlatform.CommitLog
import WorkflowPlatform.WakeScripts

/-!
# A signal delivers to everyone exactly once

Any number of claims and signals run beside each other. Over a whole run every
wait is satisfied by at most one commit, and by one as soon as it is no longer
pending. A signal that commits has delivered to every wait on its key that was
pending when it scanned, whoever satisfied it.
-/
namespace WorkflowPlatform

abbrev sleepCalls {n : ℕ} (calls : Fin n → SleepCall) : Fin n → SleepTx SleepResult :=
  fun t => (calls t).script

/-- The waits that the commits of a run have satisfied. -/
def satisfiedIn (log : List (SleepResult × List SleepWrite)) : List ℕ :=
  log.flatMap fun entry => satisfiedIds entry.2

def SleepResult.returned : SleepResult → List ℕ
  | .signaled rows => rows.map Prod.fst
  | .claimed _ => []

/-- The waits that the signals of a run have returned. -/
def returnedIn (log : List (SleepResult × List SleepWrite)) : List ℕ :=
  log.flatMap fun entry => entry.1.returned

/-- What the commits of a run have done to the waits pending at its start. -/
structure DeliveryLog (db₀ : Db) (log : List (SleepResult × List SleepWrite)) (db : Db) : Prop where
  once : ∀ i w, db₀.waits.rows i = some w → w.satisfiedAt = none → ∃ w', db.waits.rows i = some w' ∧
    (satisfiedIn log).count i = if w'.satisfiedAt.isSome then 1 else 0
  returned : ∀ i, (returnedIn log).count i ≤ (satisfiedIn log).count i

section
variable {db₀ db : Db} {log : List (SleepResult × List SleepWrite)} {a : SleepResult}
variable {ws : List SleepWrite}

theorem deliveryLog_nil (db : Db) : DeliveryLog db [] db where
  once := fun i w hw hpending => ⟨w, hw, by simp [satisfiedIn, hpending]⟩
  returned := fun i => le_refl 0

theorem Woke.returned_le (h : Woke a ws db) (i : ℕ) :
    a.returned.count i ≤ (satisfiedIds ws).count i := by
  cases a with
  | claimed => exact Nat.zero_le _
  | signaled rows =>
      rw [← (h.signaled rows rfl).1]
      rfl

theorem DeliveryLog.commit (h : DeliveryLog db₀ log db) (hwoke : Woke a ws db) :
    DeliveryLog db₀ (log ++ [(a, ws)]) (sleepStore.view db ws) where
  once := by
    intro i w hw hpending
    obtain ⟨v, hv, hcount⟩ := h.once i w hw hpending
    have hsum : (satisfiedIn (log ++ [(a, ws)])).count i =
        (satisfiedIn log).count i + (satisfiedIds ws).count i := by
      simp [satisfiedIn, List.count_append]
    by_cases hi : i ∈ satisfiedIds ws
    · obtain ⟨v', hv', hopen⟩ := hwoke.wakes.pending i hi
      rw [hv] at hv'
      cases hv'
      obtain ⟨now, hview⟩ := sleepView_satisfied db hwoke.wakes.only hi
      rw [hv] at hview
      refine ⟨v.satisfied now, hview, ?_⟩
      rw [hsum, hcount, hopen, List.count_eq_one_of_mem hwoke.wakes.nodup hi]
      rfl
    · refine ⟨v, (sleepView_wait hwoke.wakes.only hi).trans hv, ?_⟩
      rw [hsum, hcount, List.count_eq_zero_of_not_mem hi, Nat.add_zero]
  returned := by
    intro i
    have hsum : (satisfiedIn (log ++ [(a, ws)])).count i =
        (satisfiedIn log).count i + (satisfiedIds ws).count i := by
      simp [satisfiedIn, List.count_append]
    have hsum' : (returnedIn (log ++ [(a, ws)])).count i =
        (returnedIn log).count i + a.returned.count i := by
      simp [returnedIn, List.count_append]
    rw [hsum, hsum']
    exact Nat.add_le_add (h.returned i) (hwoke.returned_le i)

end

/-! ### The moment of the scan -/

def SleepOp.isScan : SleepOp → Bool
  | .scanPending _ => true
  | _ => false

theorem all_signalEach (now : ℕ) (candidates : List (ℕ × Wait)) :
    (signalEach now candidates).All fun op => op.isScan = false := by
  induction candidates with
  | nil => trivial
  | cons candidate rest ih =>
      refine Script.all_bind ((Script.all_perform _ _).mpr rfl) fun _ => ?_
      refine Script.all_bind ((Script.all_perform _ _).mpr rfl) fun wait => ?_
      split_ifs
      · exact ih
      · refine Script.all_bind ((Script.all_perform _ _).mpr rfl) fun row => ?_
        refine Script.all_bind ((Script.all_perform _ _).mpr rfl) fun _ => ?_
        exact Script.all_bind ih fun _ => trivial

theorem all_afterScan (key : String) (now : ℕ) (candidates : List (ℕ × Wait)) :
    (afterScan key now candidates).All fun op => op.isScan = false := by
  refine Script.all_bind (all_signalEach now candidates) fun rows => ?_
  exact Script.all_bind ((Script.all_perform _ _).mpr rfl) fun _ => trivial

/-- A signal that is about to scan scans for its key. -/
theorem scanning {key key' : String} {next : Except Failure (List (ℕ × Wait)) → SleepTx SleepResult}
    (h : (SleepCall.signalWait key).script.Past (.call (.scanPending key') next)) :
    key' = key ∧ ∃ now, ∀ candidates, next (.ok candidates) = afterScan key now candidates := by
  rw [signalWait_script] at h
  obtain ⟨r, h⟩ := h
  cases r with
  | error e => cases h
  | ok now =>
      rcases h with h | ⟨r', h⟩
      · cases h
        exact ⟨rfl, now, fun candidates => rfl⟩
      · cases r' with
        | error e => cases h
        | ok candidates =>
            have hall := (all_afterScan key now candidates).residual h
            cases hall.1

section
variable {n : ℕ} {calls : Fin n → SleepCall} {db : Db} {st₁ st₂ st₃ st₄ : SleepSystem n} {t : Fin n}
variable {key : String} {c : Choice}

/-- The worker's next statement is the scan of its signal. -/
def Scans (st : SleepSystem n) (t : Fin n) : Prop :=
  ∃ key next ws, st.txns t = some ⟨.call (.scanPending key) next, ws, false⟩

def scansNext (st : SleepSystem n) (t : Fin n) : Bool :=
  match st.txns t with
  | some ⟨.call (.scanPending _) _, _, false⟩ => true
  | _ => false

theorem scans_of_scansNext (h : scansNext st₁ t = true) : Scans st₁ t := by
  unfold scansNext at h
  split at h
  · exact ⟨_, _, _, ‹_›⟩
  · cases h

/-- The worker's call has returned and can commit. -/
def Returns (st : SleepSystem n) (t : Fin n) : Prop :=
  ∃ a ws, st.txns t = some ⟨.done (.ok a), ws, false⟩

def hasReturned (st : SleepSystem n) (t : Fin n) : Bool :=
  match st.txns t with
  | some ⟨.done (.ok _), _, false⟩ => true
  | _ => false

theorem returns_of_hasReturned (h : hasReturned st₁ t = true) : Returns st₁ t := by
  unfold hasReturned at h
  split at h
  · exact ⟨_, _, ‹_›⟩
  · cases h

/-- What a signal is on its way to once it has scanned the rows of `db`. -/
def ScannedPost (key : String) (db₁ : Db) (ab : Bool) (r : Except Failure SleepResult)
    (ws : List SleepWrite) (db : Db) : Prop :=
  WakePost ab r ws db ∧ (ab = false → ∀ a, r = .ok a → (∃ rows, a = .signaled rows) ∧
    ∀ i w, db₁.waits.rows i = some w → w.pendingOn key = true →
      Delivered (sleepStore.view db ws) i)

theorem scanned (hdb : WaitsFkey db) (hcall : calls t = .signalWait key)
    (hreach : sleepStore.Reaches (sleepCalls calls) (fun _ _ => True) (Store.idle db) st₁)
    (hscans : Scans st₁ t) (hstep : sleepStore.step (sleepCalls calls) st₁ (.call t c) = some st₂) :
    ∃ T, st₂.txns t = some T ∧ st₂.db = st₁.db ∧
      wakeProtocol.Ensures (ScannedPost key st₁.db) T.aborted T.script T.writes st₂.db := by
  obtain ⟨key', next, ws, ht⟩ := hscans
  have hsound := (Protocol.sound_idle hdb).reaches (wakes_follow calls) hreach
  obtain ⟨-, rfl⟩ := hsound.pre ht (.inl rfl)
  have hpast : (SleepCall.signalWait key).script.Past (.call (.scanPending key') next) := by
    have hstart := Store.inProgram_reaches hreach t _ ht
    rw [sleepCalls, hcall] at hstart
    rcases hstart with hstart | hpast
    · rw [signalWait_script] at hstart
      cases hstart
    · exact hpast
  obtain ⟨rfl, now, hnext⟩ := scanning hpast
  simp only [Store.step, ht] at hstep
  split_ifs at hstep with hfree
  split at hstep <;> cases hstep
  next r ws' hresp =>
    change (if _ then none else _) = _ at hresp
    split_ifs at hresp
    cases hresp
    refine ⟨_, Store.setTxn_same .., rfl, ?_⟩
    rw [hnext]
    have hscan : ∀ candidate ∈ ((c.order (st₁.db.waitIds (Wait.pendingOn key'))).filterMap fun id =>
        (st₁.db.waits.rows id).map fun w => (id, w)),
        st₁.db.waits.rows candidate.1 = some candidate.2 ∧ candidate.2.satisfiedAt = none := by
      intro candidate hcandidate
      obtain ⟨hrow, hpending⟩ := mem_scan.mp hcandidate
      simp only [Wait.pendingOn, Bool.and_eq_true, Option.isNone_iff_eq_none] at hpending
      exact ⟨hrow, hpending.2⟩
    refine (ensures_afterScan key' now hscan hsound.inv).mono _ fun ab r ws d _ h => ⟨h.1, ?_⟩
    intro hab a ha
    obtain ⟨hsignaled, hdelivered⟩ := h.2 hab a ha
    refine ⟨hsignaled, fun i w hw hpending => hdelivered i ?_⟩
    exact List.mem_map.mpr ⟨(i, w), mem_scan.mpr ⟨hw, hpending⟩, rfl⟩

/-- The commit of a signal wakes nobody who was not asleep. -/
theorem Woke.signal_status {rows : List (ℕ × Wait)} {ws : List SleepWrite}
    (h : Woke (.signaled rows) ws db) {id : ℕ} {e : Execution}
    (he : db.executions.rows id = some e) (hawake : e.status ≠ .waiting) :
    ∃ e', (sleepStore.view db ws).executions.rows id = some e' ∧ e'.status = e.status := by
  obtain ⟨e', he', hs | ⟨-, hmem⟩ | ⟨-, workerId, leaseUntil, hmem⟩⟩ := sleepView_status h.wakes.only he
  · exact ⟨e', he', hs⟩
  · have hasleep := h.wakes.queued id .queued hmem
    rw [Db.asleep, he, Option.any_some, decide_eq_true_eq] at hasleep
    exact (hawake hasleep).elim
  · exact ((h.signaled rows rfl).2 id workerId leaseUntil hmem).elim

/-- The log of a run accounts for the waits of the rows it leaves. -/
theorem deliveryLog_of_steps (hdb : WaitsFkey db) {labels : List (Label n Choice)}
    {st : SleepSystem n}
    (hrun : sleepStore.steps (sleepCalls calls) (Store.idle db) labels = some st) :
    DeliveryLog db (sleepStore.history (sleepCalls calls) (Store.idle db) labels) st.db := by
  have hsound : wakeProtocol.Sound WakePost (Store.idle db : SleepSystem n) :=
    Protocol.sound_idle hdb
  exact hsound.history_induction (DeliveryLog db) (wakes_follow calls) (fun _ _ => trivial)
    (fun _ _ _ _ _ hpost h => h.commit (hpost rfl _ rfl)) (deliveryLog_nil db) hrun

/-- The execution of a wait, once it is awake. If it was asleep before, it has been
queued or claimed. -/
theorem WakeRely.left_sleep {ws : List SleepWrite} {a b : Db} (hrely : WakeRely ws a b)
    (hfkey : WaitsFkey a) {i : ℕ} {w w' : Wait} (hw : a.waits.rows i = some w)
    (hw' : b.waits.rows i = some w') (hslept : b.asleep w'.executionId = false) :
    ∃ e e', a.executions.rows w.executionId = some e ∧
      b.executions.rows w.executionId = some e' ∧ e'.status ≠ .waiting ∧
      (e.status = .waiting → e'.status = .queued ∨ e'.status = .running) := by
  obtain ⟨v, hv, hlater, -⟩ := hrely.waits i w hw
  rw [hw'] at hv
  cases hv
  obtain ⟨e, he⟩ := Option.isSome_iff_exists.mp (hfkey i w hw)
  obtain ⟨e', he', hwoken⟩ := hrely.executions _ e he
  rw [hlater.executionId, Db.asleep, he', Option.any_some, decide_eq_false_iff_not] at hslept
  refine ⟨e, e', he, he', hslept, fun hs => ?_⟩
  rcases hwoken with hsame | ⟨hqueued, -⟩ | ⟨hrunning, -⟩
  · exact (hslept (hsame.trans hs)).elim
  · exact .inl hqueued
  · exact .inr hrunning

/-- When a signal commits, every wait on its key that was pending at its scan has
been satisfied by one commit and returned by at most one signal, and its
execution has left its sleep. The commit wakes nobody who was not asleep. -/
theorem signal_delivers_once (hdb : WaitsFkey db) (hcall : calls t = .signalWait key)
    {before during : List (Label n Choice)}
    (hbefore : sleepStore.steps (sleepCalls calls) (Store.idle db) before = some st₁)
    (hscans : Scans st₁ t) (hstep : sleepStore.step (sleepCalls calls) st₁ (.call t c) = some st₂)
    (hduring : sleepStore.steps (sleepCalls calls) st₂ during = some st₃)
    (hopen : ∀ l ∈ during, l ≠ .finish t ∧ l ≠ .crash t) (hreturns : Returns st₃ t)
    (hcommit : sleepStore.step (sleepCalls calls) st₃ (.finish t) = some st₄) :
    let log := sleepStore.history (sleepCalls calls) (Store.idle db)
      (before ++ .call t c :: during ++ [.finish t])
    (∀ i w, st₁.db.waits.rows i = some w → w.pendingOn key = true →
      (satisfiedIn log).count i = 1 ∧ (returnedIn log).count i ≤ 1 ∧
      (∃ w', st₄.db.waits.rows i = some w' ∧ w'.satisfiedAt.isSome = true) ∧
      ∃ e e', st₁.db.executions.rows w.executionId = some e ∧
        st₄.db.executions.rows w.executionId = some e' ∧ e'.status ≠ .waiting ∧
        (e.status = .waiting → e'.status = .queued ∨ e'.status = .running)) ∧
    ∀ id e, st₃.db.executions.rows id = some e → e.status ≠ .waiting →
      ∃ e', st₄.db.executions.rows id = some e' ∧ e'.status = e.status := by
  intro log
  have henv : ∀ op c, wakeProtocol.env op c := fun _ _ => trivial
  have hfollows := wakes_follow calls
  have hreach₁ : sleepStore.Reaches (sleepCalls calls) wakeProtocol.env (Store.idle db) st₁ :=
    sleepStore.steps_reaches henv hbefore
  have hscanStep : sleepStore.Step (sleepCalls calls) wakeProtocol.env st₁ st₂ :=
    ⟨.call t c, fun op _ _ _ _ => henv op c, hstep⟩
  have hfinish : sleepStore.Step (sleepCalls calls) wakeProtocol.env st₃ st₄ :=
    ⟨.finish t, trivial, hcommit⟩
  have hsound : wakeProtocol.Sound WakePost (Store.idle db : SleepSystem n) :=
    Protocol.sound_idle hdb
  have hsound₁ := hsound.reaches hfollows hreach₁
  have hsound₂ := hsound₁.step hfollows (sleepStore.step_effect hscanStep)
  -- From the scan to the commit.
  obtain ⟨T, hT, hsame, hensures⟩ := scanned hdb hcall hreach₁ hscans hstep
  obtain ⟨T', hT', hensures'⟩ :=
    hsound₂.persists_steps hfollows henv hT hensures hopen hduring
  obtain ⟨a, ws, hdone⟩ := hreturns
  rw [hdone] at hT'
  cases hT'
  have hreach₃ := sleepStore.steps_reaches henv hduring
  have hsound₃ := hsound₂.reaches hfollows hreach₃
  obtain ⟨hwoke, hscanned⟩ := hensures' st₃.db hsound₃.inv (WakeRely.refl _ _)
  obtain ⟨⟨rows, rfl⟩, hdelivered⟩ := hscanned rfl a rfl
  have hview : st₄.db = sleepStore.view st₃.db ws := by
    simp only [Store.step, hdone] at hcommit
    cases hcommit
    rfl
  -- Over the whole run.
  have hlog : DeliveryLog db log st₄.db := by
    have hall : sleepStore.steps (sleepCalls calls) (Store.idle db)
        (before ++ .call t c :: during ++ [.finish t]) = some st₄ := by
      simp only [List.append_assoc, List.cons_append, Store.steps_append, hbefore,
        Option.bind_some, Store.steps, hstep, hduring, hcommit]
    exact deliveryLog_of_steps hdb hall
  have hrely₁ := hsound.rely_reaches hfollows hreach₁
  have hrely := hsound₁.rely_reaches hfollows
    (((Relation.ReflTransGen.single hscanStep).trans hreach₃).tail hfinish)
  refine ⟨fun i w hw hpending => ?_, fun id e he hawake => ?_⟩
  · have hnone : w.satisfiedAt = none := by
      simp only [Wait.pendingOn, Bool.and_eq_true, Option.isNone_iff_eq_none] at hpending
      exact hpending.2
    obtain ⟨w', hw', hcount⟩ := hlog.once i w (hrely₁.pending hw hnone) hnone
    obtain ⟨v, hv, hsatisfied, hslept⟩ := hdelivered i w hw hpending
    rw [← hview, hw'] at hv
    cases hv
    rw [if_pos hsatisfied] at hcount
    rw [← hview] at hslept
    exact ⟨hcount, hcount ▸ hlog.returned i, ⟨w', hw', hsatisfied⟩,
      hrely.left_sleep hsound₁.inv hw hw' hslept⟩
  · rw [hview]
    exact (hwoke rfl _ rfl).signal_status he hawake

end

/-- Two executions asleep on one key; the first has a timer too. -/
def sleepersDb : Db :=
  let sleeper : Execution := { sessionId := "s", step := "step", status := .waiting, runId := none }
  { Db.empty with
    executions := (Table.empty.insertAt 1 sleeper).insertAt 2 sleeper
    waits := (Table.empty.insertAt 1 { executionId := 1, waitKey := some "k", wakeAt := some 0 }).insertAt 2
      { executionId := 2, waitKey := some "k", wakeAt := none } }

theorem sleepersDb_fkey : WaitsFkey sleepersDb := by
  intro i w hw
  by_cases h₂ : i = 2
  · subst h₂
    cases hw
    rfl
  · by_cases h₁ : i = 1
    · subst h₁
      cases hw
      rfl
    · simp [sleepersDb, Table.insertAt, Table.empty, h₁, h₂] at hw

def claimAndSignal : Fin 2 → SleepCall
  | 0 => .signalWait "k"
  | 1 => .claimExecution "worker" 30

/-- The timer claim commits between the scan of the signal and its first lock. -/
theorem signal_delivers_once_race :
    let c : Choice := { now := 1 }
    let before : List (Label 2 Choice) := [.begin 0, .call 0 c]
    let during : List (Label 2 Choice) := .begin 1 :: List.replicate 4 (.call 1 c) ++
      .finish 1 :: List.replicate 7 (.call 0 c)
    let log := sleepStore.history (sleepCalls claimAndSignal) (Store.idle sleepersDb)
      (before ++ .call 0 c :: during ++ [.finish 0])
    (satisfiedIn log).count 1 = 1 ∧ (satisfiedIn log).count 2 = 1 := by
  intro c before during log
  have hrun : (sleepStore.steps (sleepCalls claimAndSignal) (Store.idle sleepersDb) before).any
      (fun st₁ => (st₁.db.waits.rows 1).any (Wait.pendingOn "k") &&
        (st₁.db.waits.rows 2).any (Wait.pendingOn "k") && scansNext st₁ 0 &&
        (sleepStore.step (sleepCalls claimAndSignal) st₁ (.call 0 c)).any fun st₂ =>
          (sleepStore.steps (sleepCalls claimAndSignal) st₂ during).any fun st₃ =>
            hasReturned st₃ 0 && (sleepStore.step (sleepCalls claimAndSignal) st₃ (.finish 0)).isSome) = true := by
    decide
  simp only [Option.any_eq_true, Bool.and_eq_true, Option.isSome_iff_exists] at hrun
  obtain ⟨st₁, hbefore, ⟨⟨⟨w, hw, hp⟩, w', hw', hp'⟩, hscan⟩, st₂, hstep, st₃, hduring, hreturn,
    st₄, hcommit⟩ := hrun
  have hopen : ∀ l ∈ during, l ≠ .finish 0 ∧ l ≠ .crash 0 := by
    intro l hl
    simp only [during, List.replicate, List.cons_append, List.nil_append, List.mem_cons,
      List.not_mem_nil, or_false] at hl
    rcases hl with rfl | rfl | rfl | rfl | rfl | rfl | rfl | rfl | rfl | rfl | rfl | rfl | rfl <;>
      simp
  have hall := (signal_delivers_once sleepersDb_fkey rfl hbefore (scans_of_scansNext hscan)
    hstep hduring hopen (returns_of_hasReturned hreturn) hcommit).1
  exact ⟨(hall 1 w hw hp).1, (hall 2 w' hw' hp').1⟩

end WorkflowPlatform
