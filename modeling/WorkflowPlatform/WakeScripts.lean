import WorkflowPlatform.WakeProtocol

/-!
# Claims and signals under interference

The loop of `signal_wait` is an induction over the candidates of its scan. Each
candidate that it passes has been delivered: by the loop itself, or by somebody
else since the scan, who has then also woken the execution.
-/
namespace WorkflowPlatform

theorem sleepView_snoc (db : Db) (ws : List SleepWrite) (w : SleepWrite) :
    sleepStore.view db (ws ++ [w]) = (sleepStore.view db ws).sleepWrite w :=
  sleepStore.view_append db ws [w]

theorem sleepLocks_append {ws : List SleepWrite} {row : SleepRow}
    (h : sleepStore.locks ws row = true) (ws' : List SleepWrite) :
    sleepStore.locks (ws ++ ws') row = true := by
  rw [sleepStore.locks_append, h, Bool.true_or]

section
variable {ws : List SleepWrite} {a b db db₁ : Db} {w : SleepWrite} {id i now : ℕ} {done : List ℕ}

/-! ### One more write -/

theorem Wakes.snoc (h : Wakes ws db) (honly : w.ofWake = true)
    (hcovered : ∀ i, w.row = .wait i → ∃ row, db.waits.rows i = some row ∧
      sleepStore.locks ws (.execution row.executionId) = true)
    (hsatisfied : ∀ i, w.satisfies = some i → i ∉ satisfiedIds ws ∧
      ∃ row, db.waits.rows i = some row ∧ row.satisfiedAt = none)
    (hqueued : ∀ id status, w = .executionStatus id status → db.asleep id = true)
    (hrunning : ∀ id workerId leaseUntil, w = .setRunning id workerId leaseUntil →
      ∃ e, db.executions.rows id = some e ∧ e.status.Woken .running) : Wakes (ws ++ [w]) db where
  only := by
    intro w' hw'
    rcases List.mem_append.mp hw' with hw' | hw'
    · exact h.only w' hw'
    · rwa [List.mem_singleton.mp hw']
  covered := by
    intro i hi
    rw [sleepStore.locks_append, Bool.or_eq_true] at hi
    have hrow : ∃ row, db.waits.rows i = some row ∧
        sleepStore.locks ws (.execution row.executionId) = true := by
      rcases hi with hi | hi
      · exact h.covered i hi
      · obtain ⟨w', hw', hrow⟩ := sleepStore.locks_iff.mp hi
        rw [List.mem_singleton.mp hw'] at hrow
        exact hcovered i hrow
    obtain ⟨row, hrow, hlock⟩ := hrow
    exact ⟨row, hrow, sleepLocks_append hlock [w]⟩
  pending := by
    intro i hi
    rw [satisfiedIds_append, List.mem_append, mem_satisfiedIds_cons] at hi
    rcases hi with hi | hi | hi
    · exact h.pending i hi
    · exact (hsatisfied i hi).2
    · cases hi
  nodup := by
    rw [satisfiedIds_append]
    refine List.nodup_append.mpr ⟨h.nodup, ?_, ?_⟩
    · cases hw : w.satisfies <;> simp [satisfiedIds, hw]
    · rintro i hi j hj rfl
      rcases mem_satisfiedIds_cons.mp hj with hj | hj
      · exact (hsatisfied i hj).1 hi
      · cases hj
  queued := by
    intro id status hmem
    rcases List.mem_append.mp hmem with hmem | hmem
    · exact h.queued id status hmem
    · exact hqueued id status (List.mem_singleton.mp hmem).symm
  running := by
    intro id workerId leaseUntil hmem
    rcases List.mem_append.mp hmem with hmem | hmem
    · exact h.running id workerId leaseUntil hmem
    · exact hrunning id workerId leaseUntil (List.mem_singleton.mp hmem).symm

theorem Wakes.lockExecution (h : Wakes ws db) (id : ℕ) : Wakes (ws ++ [.lockExecution id]) db := by
  refine h.snoc rfl ?_ ?_ ?_ ?_
  · intro i hi
    cases hi
  · intro i hi
    cases hi
  · intro id status hw
    cases hw
  · intro id workerId leaseUntil hw
    cases hw

theorem Wakes.lockWait (h : Wakes ws db) {row : Wait} (hrow : db.waits.rows i = some row)
    (hlock : sleepStore.locks ws (.execution row.executionId) = true) (executionId : ℕ) :
    Wakes (ws ++ [.lockWait executionId i]) db := by
  refine h.snoc rfl ?_ ?_ ?_ ?_
  · intro j hj
    cases hj
    exact ⟨row, hrow, hlock⟩
  · intro i hi
    cases hi
  · intro id status hw
    cases hw
  · intro id workerId leaseUntil hw
    cases hw

theorem Wakes.satisfyWait (h : Wakes ws db) {row : Wait} (hrow : db.waits.rows i = some row)
    (hlock : sleepStore.locks ws (.execution row.executionId) = true)
    (hpending : row.satisfiedAt = none) (hnew : i ∉ satisfiedIds ws) (executionId now : ℕ) :
    Wakes (ws ++ [.satisfyWait executionId i now]) db := by
  refine h.snoc rfl ?_ ?_ ?_ ?_
  · intro j hj
    cases hj
    exact ⟨row, hrow, hlock⟩
  · intro j hj
    cases hj
    exact ⟨hnew, row, hrow, hpending⟩
  · intro id status hw
    cases hw
  · intro id workerId leaseUntil hw
    cases hw

theorem Wakes.queue (h : Wakes ws db) (hasleep : db.asleep id = true) :
    Wakes (ws ++ [.executionStatus id .queued]) db := by
  refine h.snoc rfl ?_ ?_ ?_ ?_
  · intro i hi
    cases hi
  · intro i hi
    cases hi
  · intro id' status hw
    cases hw
    exact hasleep
  · intro id workerId leaseUntil hw
    cases hw

theorem Wakes.setRunning (h : Wakes ws db) {e : Execution} (he : db.executions.rows id = some e)
    (hwoken : e.status.Woken .running) (workerId : String) (leaseUntil : ℕ) :
    Wakes (ws ++ [.setRunning id workerId leaseUntil]) db := by
  refine h.snoc rfl ?_ ?_ ?_ ?_
  · intro i hi
    cases hi
  · intro i hi
    cases hi
  · intro id status hw
    cases hw
  · intro id' workerId leaseUntil hw
    cases hw
    exact ⟨e, he, hwoken⟩

theorem asleep_setRunning (db : Db) (id : ℕ) (workerId : String) (leaseUntil : ℕ) :
    (db.sleepWrite (.setRunning id workerId leaseUntil)).asleep id = false := by
  simp only [Db.asleep, Db.sleepWrite, Table.modify_same]
  cases db.executions.rows id <;> simp

theorem asleep_queued (db : Db) (id : ℕ) :
    (db.sleepWrite (.executionStatus id .queued)).asleep id = false := by
  simp only [Db.asleep, Db.sleepWrite, Table.modify_same]
  cases db.executions.rows id <;> simp

theorem asleep_write (hw : w.ofWake = true) (h : db.asleep id = false) :
    (db.sleepWrite w).asleep id = false := by
  by_cases hrow : w.row = .execution id
  · cases w <;> simp only [SleepWrite.row, reduceCtorEq, SleepRow.execution.injEq] at hrow
    all_goals subst hrow
    · exact h
    · exact asleep_setRunning ..
    · simp only [SleepWrite.ofWake, decide_eq_true_eq] at hw
      subst hw
      exact asleep_queued ..
  · rwa [asleep_congr (sleepWrite_execution hrow)]

theorem asleep_view (hws : ∀ w ∈ ws, w.ofWake = true) (h : db.asleep id = false) :
    (sleepStore.view db ws).asleep id = false := by
  induction ws generalizing db with
  | nil => exact h
  | cons w ws ih =>
      apply ih fun w' hw' => hws w' (List.mem_cons_of_mem _ hw')
      exact asleep_write (hws w List.mem_cons_self) h

/-- What has been delivered stays so through the transaction's further writes. -/
theorem Delivered.write (h : Delivered db i) (hw : w.ofWake = true) :
    Delivered (db.sleepWrite w) i := by
  obtain ⟨row, hrow, hsatisfied, hawake⟩ := h
  by_cases hi : w.satisfies = some i
  · cases w <;> simp only [SleepWrite.satisfies, reduceCtorEq, Option.some.injEq] at hi
    next e j now =>
      subst hi
      exact ⟨row.satisfied now, (Table.modify_same ..).trans (congrArg _ hrow), rfl, hawake⟩
  · exact ⟨row, (sleepWrite_satisfies hw hi).trans hrow, hsatisfied, asleep_write hw hawake⟩

/-! ### The loop of `signal_wait` -/

/-- Where the loop stands: the candidates it has passed have been delivered. -/
structure SignalLoop (db₁ : Db) (done : List ℕ) (ws : List SleepWrite) (db : Db) : Prop where
  wakes : Wakes ws db
  claimless : ∀ id workerId leaseUntil, .setRunning id workerId leaseUntil ∉ ws
  since : WakeRely [] db₁ db
  delivered : ∀ i ∈ done, Delivered (sleepStore.view db ws) i

theorem SignalLoop.of_rely (h : SignalLoop db₁ done ws a) (hr : WakeRely ws a b) :
    SignalLoop db₁ done ws b where
  wakes := h.wakes.of_rely hr
  claimless := h.claimless
  since := h.since.trans hr.forget
  delivered := fun i hi => (h.delivered i hi).of_rely h.wakes hr

theorem SignalLoop.snoc (h : SignalLoop db₁ done ws db) (hwakes : Wakes (ws ++ [w]) db)
    (hw : ∀ id workerId leaseUntil, w ≠ .setRunning id workerId leaseUntil) :
    SignalLoop db₁ done (ws ++ [w]) db where
  wakes := hwakes
  claimless := by
    intro id workerId leaseUntil hmem
    rcases List.mem_append.mp hmem with hmem | hmem
    · exact h.claimless id workerId leaseUntil hmem
    · exact hw id workerId leaseUntil (List.mem_singleton.mp hmem).symm
  since := h.since
  delivered := by
    intro i hi
    rw [sleepView_snoc]
    exact (h.delivered i hi).write (hwakes.only w (List.mem_append_right _ List.mem_cons_self))

theorem SignalLoop.passed (h : SignalLoop db₁ done ws db)
    (hi : Delivered (sleepStore.view db ws) i) : SignalLoop db₁ (done ++ [i]) ws db where
  wakes := h.wakes
  claimless := h.claimless
  since := h.since
  delivered := by
    intro j hj
    rcases List.mem_append.mp hj with hj | hj
    · exact h.delivered j hj
    · rwa [List.mem_singleton.mp hj]

/-- A wait that was pending at the scan and is satisfied now has been delivered. -/
theorem SignalLoop.satisfied_delivered (h : SignalLoop db₁ done ws db)
    (hown : ∀ i ∈ satisfiedIds ws, i ∈ done) {row : Wait} (hscan : db₁.waits.rows i = some row)
    (hpending : row.satisfiedAt = none) {v : Wait}
    (hv : (sleepStore.view db ws).waits.rows i = some v) (hsatisfied : v.satisfiedAt.isSome = true) :
    Delivered (sleepStore.view db ws) i := by
  by_cases hi : i ∈ satisfiedIds ws
  · exact h.delivered i (hown i hi)
  · obtain ⟨row', hrow', hlater, hawake⟩ := h.since.waits i row hscan
    rw [sleepView_wait h.wakes.only hi, hrow'] at hv
    cases hv
    refine ⟨v, (sleepView_wait h.wakes.only hi).trans hrow', hsatisfied, ?_⟩
    have hslept : db.asleep row.executionId = false := by
      apply hawake.resolve_left
      rintro rfl
      rw [hpending] at hsatisfied
      cases hsatisfied
    rw [hlater.executionId]
    exact asleep_view h.wakes.only hslept

/-- A wait of a locked execution, as the transaction sees it later. -/
theorem SignalLoop.view_frozen (h : SignalLoop db₁ done ws a) (hr : WakeRely ws a b) {v : Wait}
    (hv : (sleepStore.view a ws).waits.rows i = some v)
    (hlock : sleepStore.locks ws (.execution v.executionId) = true) :
    (sleepStore.view b ws).waits.rows i = some v := by
  obtain ⟨w₀, hw₀, hexec, -⟩ := h.wakes.committed_wait hv
  rw [(h.wakes.view_held hr hlock).2 i w₀ hw₀ hexec.symm, hv]

section
variable {β : Type} {post : Bool → Except Failure β → List SleepWrite → Db → Prop} {v row : Wait}

/-- The execution's lock, then the wait's. -/
theorem ensures_relock (hpost : ∀ r ws db, post true r ws db) {f : Wait → SleepTx β}
    (hrow : db₁.waits.rows i = some row) (h : SignalLoop db₁ done ws db)
    (hf : ∀ ws' db' v, WaitsFkey db' → SignalLoop db₁ done ws' db' →
      satisfiedIds ws' = satisfiedIds ws → (sleepStore.view db' ws').waits.rows i = some v →
      sleepStore.locks ws' (.execution v.executionId) = true →
      wakeProtocol.Ensures post false (f v) ws' db') :
    wakeProtocol.Ensures post false (do
      sleepQuery (.lockExecution row.executionId)
      let wait ← sleepQuery (.lockWait i)
      f wait) ws db := by
  refine Protocol.ensures_query _ (fun _ _ => hpost _ _ _) fun d₁ hd₁ hr₁ =>
    ⟨⟨(h.of_rely hr₁).wakes, trivial⟩, ?_⟩
  intro c locked r ws₁ _ hresp
  have h₁ := h.of_rely hr₁
  obtain ⟨v₁, hv₁, hlater₁, -⟩ := h₁.since.waits i row hrow
  have hpresent : ((sleepStore.view d₁ ws).executions.rows row.executionId).isSome = true := by
    rw [sleepView_execution_isSome, ← hlater₁.executionId]
    exact hd₁ i v₁ hv₁
  obtain ⟨-, rfl⟩ := Prod.mk.inj (Option.some.inj hresp)
  rw [if_pos hpresent]
  have h₂ := h₁.snoc (h₁.wakes.lockExecution row.executionId)
    (fun _ _ _ heq => by cases heq)
  have hlock : sleepStore.locks (ws ++ [.lockExecution row.executionId])
      (.execution row.executionId) = true := by
    rw [sleepStore.locks_append]
    simp [Store.locks, sleepStore, SleepWrite.row]
  refine Protocol.ensures_query _ (fun _ _ => hpost _ _ _) fun d₂ hd₂ hr₂ => ?_
  have h₃ := h₂.of_rely hr₂
  obtain ⟨v₂, hv₂, hlater₂, -⟩ := h₃.since.waits i row hrow
  have hexec₂ := hlater₂.executionId
  refine ⟨⟨h₃.wakes, fun w hw => ?_⟩, ?_⟩
  · rw [hv₂] at hw
    cases hw
    rwa [hexec₂]
  · intro c' locked' v ws₂ _ hresp₂
    obtain ⟨v', hv', hanswer⟩ := Option.map_eq_some_iff.mp hresp₂
    obtain ⟨rfl, rfl⟩ := Prod.mk.inj hanswer
    obtain ⟨w₀, hw₀, hexec, -⟩ := h₃.wakes.committed_wait hv'
    rw [hv₂] at hw₀
    cases hw₀
    have hcovered : sleepStore.locks (ws ++ [.lockExecution row.executionId])
        (.execution v₂.executionId) = true := by
      rw [hexec₂]
      exact hlock
    refine hf _ d₂ v' hd₂ (h₃.snoc (h₃.wakes.lockWait hv₂ hcovered _)
      fun _ _ _ heq => by cases heq) ?_ ?_ ?_
    · simp [satisfiedIds, SleepWrite.satisfies]
    · rw [sleepView_snoc]
      exact hv'
    · rw [hexec]
      exact sleepLocks_append hcovered _

/-- A pending wait, satisfied under its execution's lock. -/
theorem ensures_satisfy (hpost : ∀ r ws db, post true r ws db) {f : ℕ × Wait → SleepTx β}
    (now : ℕ) (h : SignalLoop db₁ done ws db)
    (hv : (sleepStore.view db ws).waits.rows i = some v) (hpending : v.satisfiedAt = none)
    (hlock : sleepStore.locks ws (.execution v.executionId) = true)
    (hf : ∀ ws' db', WaitsFkey db' → SignalLoop db₁ done ws' db' →
      satisfiedIds ws' = satisfiedIds ws ++ [i] →
      (sleepStore.view db' ws').waits.rows i = some (v.satisfied now) →
      sleepStore.locks ws' (.execution v.executionId) = true →
      wakeProtocol.Ensures post false (f (i, v.satisfied now)) ws' db') :
    wakeProtocol.Ensures post false (sleepQuery (.satisfyWait i now) >>= f) ws db := by
  refine Protocol.ensures_query _ (fun _ _ => hpost _ _ _) fun d hd hr => ?_
  have h₁ := h.of_rely hr
  have hv₁ := h.view_frozen hr hv hlock
  obtain ⟨w₀, hw₀, hexec, hsame⟩ := h₁.wakes.committed_wait hv₁
  have hnew : i ∉ satisfiedIds ws := by
    intro hi
    obtain ⟨now', hview⟩ := sleepView_satisfied d h₁.wakes.only hi
    rw [hv₁, hw₀] at hview
    cases hview
    cases hpending
  obtain rfl : v = w₀ := hsame.resolve_right hnew
  refine ⟨⟨h₁.wakes, fun w hw => ?_⟩, ?_⟩
  · rw [hw₀] at hw
    cases hw
    exact hlock
  · intro c locked answer ws₁ _ hresp
    obtain ⟨v', hv', hanswer⟩ := Option.map_eq_some_iff.mp hresp
    rw [hv₁] at hv'
    cases hv'
    obtain ⟨rfl, rfl⟩ := Prod.mk.inj hanswer
    have hwakes := h₁.wakes.satisfyWait hw₀ hlock hpending hnew v.executionId now
    refine hf _ d hd (h₁.snoc hwakes fun _ _ _ heq => by cases heq) ?_ ?_
      (sleepLocks_append hlock _)
    · simp [satisfiedIds, SleepWrite.satisfies]
    · rw [sleepView_snoc]
      exact (Table.modify_same ..).trans (congrArg _ hv₁)

/-- The execution of a satisfied wait, woken if it is still asleep. -/
theorem ensures_queue (hpost : ∀ r ws db, post true r ws db) {m : SleepTx β}
    (h : SignalLoop db₁ done ws db) (hv : (sleepStore.view db ws).waits.rows i = some v)
    (hsatisfied : v.satisfiedAt.isSome = true)
    (hlock : sleepStore.locks ws (.execution v.executionId) = true)
    (hm : ∀ ws' db', WaitsFkey db' → SignalLoop db₁ (done ++ [i]) ws' db' →
      satisfiedIds ws' = satisfiedIds ws → wakeProtocol.Ensures post false m ws' db') :
    wakeProtocol.Ensures post false (do
      sleepQuery (.queueWaiting v.executionId)
      m) ws db := by
  refine Protocol.ensures_query _ (fun _ _ => hpost _ _ _) fun d hd hr => ?_
  have h₁ := h.of_rely hr
  have hv₁ := h.view_frozen hr hv hlock
  refine ⟨⟨h₁.wakes, hlock⟩, ?_⟩
  intro c locked answer ws₁ _ hresp
  obtain ⟨-, rfl⟩ := Prod.mk.inj (Option.some.inj hresp)
  change wakeProtocol.Ensures post false m (ws ++ if (sleepStore.view d ws).asleep v.executionId then
    [.executionStatus v.executionId .queued] else []) d
  split_ifs with hasleep
  · have hd' : d.asleep v.executionId = true := by
      by_contra hc
      rw [asleep_view h₁.wakes.only (by simpa using hc)] at hasleep
      cases hasleep
    refine hm _ d hd ((h₁.snoc (h₁.wakes.queue hd') fun _ _ _ heq => by cases heq).passed ?_) ?_
    · rw [sleepView_snoc]
      exact ⟨v, hv₁, hsatisfied, asleep_queued ..⟩
    · simp [satisfiedIds, SleepWrite.satisfies]
  · rw [List.append_nil]
    exact hm ws d hd (h₁.passed ⟨v, hv₁, hsatisfied, by simpa using hasleep⟩) rfl

end

/-- What the loop has done when it returns. -/
def SignalPost (db₁ : Db) (done held : List ℕ) (ab : Bool)
    (r : Except Failure (List (ℕ × Wait))) (ws : List SleepWrite) (db : Db) : Prop :=
  ab = false → ∃ rows, r = .ok rows ∧ SignalLoop db₁ done ws db ∧
    satisfiedIds ws = held ++ rows.map Prod.fst ∧ ∀ i ∈ satisfiedIds ws, i ∈ done

theorem SignalPost.aborted {held : List ℕ} (r : Except Failure (List (ℕ × Wait)))
    (ws : List SleepWrite) (db : Db) : SignalPost db₁ done held true r ws db :=
  fun hab => by cases hab

theorem ensures_signalEach (now : ℕ) {candidates : List (ℕ × Wait)}
    (hscan : ∀ c ∈ candidates, db₁.waits.rows c.1 = some c.2 ∧ c.2.satisfiedAt = none)
    (hdb : WaitsFkey db) (h : SignalLoop db₁ done ws db)
    (hown : ∀ i ∈ satisfiedIds ws, i ∈ done) :
    wakeProtocol.Ensures (SignalPost db₁ (done ++ candidates.map Prod.fst) (satisfiedIds ws))
      false (signalEach now candidates) ws db := by
  induction candidates generalizing done ws db with
  | nil =>
      refine Protocol.ensures_done _ fun d _ hr _ => ⟨[], rfl, ?_, ?_, ?_⟩
      · simpa using h.of_rely hr
      · simp
      · simpa using hown
  | cons candidate rest ih =>
      obtain ⟨i, row⟩ := candidate
      obtain ⟨hrow, hpending⟩ := hscan _ List.mem_cons_self
      have hrest : ∀ c ∈ rest, db₁.waits.rows c.1 = some c.2 ∧ c.2.satisfiedAt = none :=
        fun c hc => hscan c (List.mem_cons_of_mem _ hc)
      have hdone : done ++ (i :: rest.map Prod.fst) = (done ++ [i]) ++ rest.map Prod.fst := by simp
      rw [List.map_cons, hdone]
      refine ensures_relock SignalPost.aborted hrow h fun ws₁ d₁ v hd₁ h₁ hids₁ hv₁ hlock₁ => ?_
      split_ifs with hsatisfied
      · -- Somebody was quicker, or it is a candidate of this loop already passed.
        have hdelivered := h₁.satisfied_delivered (hids₁ ▸ hown) hrow hpending hv₁ hsatisfied
        rw [← hids₁]
        apply ih hrest hd₁ (h₁.passed hdelivered)
        intro j hj
        rw [hids₁] at hj
        exact List.mem_append_left _ (hown j hj)
      · have hopen : v.satisfiedAt = none := by simpa using hsatisfied
        refine ensures_satisfy SignalPost.aborted now h₁ hv₁ hopen hlock₁
          fun ws₂ d₂ hd₂ h₂ hids₂ hv₂ hlock₂ => ?_
        refine ensures_queue SignalPost.aborted h₂ hv₂ rfl hlock₂ fun ws₃ d₃ hd₃ h₃ hids₃ => ?_
        have hids : satisfiedIds ws₃ = satisfiedIds ws ++ [i] := by rw [hids₃, hids₂, hids₁]
        refine Protocol.ensures_bind _ hd₃ ((ih hrest hd₃ h₃ ?_).mono _ ?_)
        · intro j hj
          rw [hids] at hj
          rcases List.mem_append.mp hj with hj | hj
          · exact List.mem_append_left _ (hown j hj)
          · exact List.mem_append_right _ hj
        · intro ab r ws₄ d₄ hd₄ hpost
          cases r with
          | error e =>
              intro hab
              obtain ⟨rows, hr, -⟩ := hpost hab
              cases hr
          | ok rows =>
              refine Protocol.ensures_done _ fun d₅ hd₅ hr₅ hab => ?_
              obtain ⟨rows', hr, hloop, hheld, hsub⟩ := hpost hab
              cases hr
              refine ⟨_, rfl, hloop.of_rely hr₅, ?_, hsub⟩
              rw [hheld, hids, List.append_assoc]
              rfl

/-! ### The two calls -/

/-- What a call has done when it commits: the waits it has satisfied are
delivered, and a signal returns these waits and claims nothing. -/
structure Woke (result : SleepResult) (ws : List SleepWrite) (db : Db) : Prop where
  wakes : Wakes ws db
  delivered : ∀ i ∈ satisfiedIds ws, Delivered (sleepStore.view db ws) i
  signaled : ∀ rows, result = .signaled rows → rows.map Prod.fst = satisfiedIds ws ∧
    ∀ id workerId leaseUntil, .setRunning id workerId leaseUntil ∉ ws

theorem Woke.of_rely {result : SleepResult} (h : Woke result ws a) (hr : WakeRely ws a b) :
    Woke result ws b where
  wakes := h.wakes.of_rely hr
  delivered := fun i hi => (h.delivered i hi).of_rely h.wakes hr
  signaled := h.signaled

def WakePost (ab : Bool) (r : Except Failure SleepResult) (ws : List SleepWrite) (db : Db) : Prop :=
  ab = false → ∀ a, r = .ok a → Woke a ws db

/-- An aborted call owes nothing. -/
theorem wakePost_aborted {r : Except Failure SleepResult} : WakePost true r ws db := by
  intro hab
  cases hab

/-- The rest of `signal_wait` once it has scanned. -/
def afterScan (key : String) (now : ℕ) (candidates : List (ℕ × Wait)) : SleepTx SleepResult := do
  let rows ← signalEach now candidates
  sleepQuery (.notify key)
  pure (.signaled rows)

theorem signalWait_script (key : String) : (SleepCall.signalWait key).script =
    sleepQuery .now >>= fun now => sleepQuery (.scanPending key) >>= afterScan key now := by
  simp only [SleepCall.script, WorkflowPlatform.signalWait, Script.bind_assoc]
  rfl

/-- A signal that has scanned delivers to all it has found. -/
theorem ensures_afterScan (key : String) (now : ℕ) {candidates : List (ℕ × Wait)}
    (hscan : ∀ c ∈ candidates, db.waits.rows c.1 = some c.2 ∧ c.2.satisfiedAt = none)
    (hdb : WaitsFkey db) :
    wakeProtocol.Ensures (fun ab r ws d => WakePost ab r ws d ∧ (ab = false → ∀ a, r = .ok a →
      (∃ rows, a = .signaled rows) ∧
      ∀ i ∈ candidates.map Prod.fst, Delivered (sleepStore.view d ws) i)) false
      (afterScan key now candidates) [] db := by
  have hstart : SignalLoop db [] [] db :=
    ⟨wakes_nil db, fun _ _ _ h => (by cases h), .refl _ _, fun _ h => by cases h⟩
  have hloop := ensures_signalEach now hscan hdb hstart fun i hi => by cases hi
  refine Protocol.ensures_bind _ hdb (hloop.mono _ ?_)
  intro ab r ws d hd hpost
  cases r with
  | error e =>
      refine ⟨fun hab => ?_, fun hab => ?_⟩
      · intro a ha
        cases ha
      · intro a ha
        cases ha
  | ok rows =>
      cases ab with
      | true =>
          intro d₁ _ _
          refine ⟨fun hab => hab.elim nofun nofun, fun _ d₂ _ _ => ⟨nofun, nofun⟩⟩
      | false =>
          obtain ⟨rows', hr, hdone, hheld, hsub⟩ := hpost rfl
          cases hr
          refine Protocol.ensures_query _ (fun _ _ => ⟨nofun, nofun⟩) fun d₁ hd₁ hr₁ =>
            ⟨⟨(hdone.of_rely hr₁).wakes, trivial⟩, ?_⟩
          intro c locked answer ws₁ _ hresp
          have hnone : ws₁ = [] := by
            change (if _ then none else _) = _ at hresp
            split_ifs at hresp
            cases hresp
            rfl
          rw [hnone, List.append_nil]
          refine Protocol.ensures_done _ fun d₂ hd₂ hr₂ => ?_
          have hfinal := (hdone.of_rely hr₁).of_rely hr₂
          refine ⟨fun _ a ha => ?_, fun _ a ha => ?_⟩
          all_goals cases ha
          · refine ⟨hfinal.wakes, fun i hi => hfinal.delivered i (hsub i hi), ?_⟩
            intro rows' hrows
            cases hrows
            exact ⟨hheld.symm, hfinal.claimless⟩
          · exact ⟨⟨rows, rfl⟩, hfinal.delivered⟩

theorem ensures_signal (key : String) :
    wakeProtocol.Ensures WakePost false (SleepCall.signalWait key).script [] db := by
  rw [signalWait_script]
  refine Protocol.ensures_query _ (fun _ _ => wakePost_aborted) fun d₁ hd₁ _ => ⟨⟨wakes_nil d₁, trivial⟩, ?_⟩
  intro c locked now ws₁ _ hresp
  obtain ⟨-, rfl⟩ := Prod.mk.inj (Option.some.inj hresp)
  refine Protocol.ensures_query _ (fun _ _ => wakePost_aborted) fun d₂ hd₂ _ => ⟨⟨wakes_nil d₂, rfl⟩, ?_⟩
  intro c' locked' candidates ws₂ _ hresp₂
  change (if _ then none else _) = _ at hresp₂
  split_ifs at hresp₂
  obtain ⟨rfl, rfl⟩ := Prod.mk.inj (Option.some.inj hresp₂)
  refine (ensures_afterScan key now ?_ hd₂).mono _ fun _ _ _ _ _ h => h.1
  intro candidate hcandidate
  obtain ⟨hrow, hpending⟩ := mem_scan.mp hcandidate
  simp only [Wait.pendingOn, Bool.and_eq_true, Option.isNone_iff_eq_none] at hpending
  exact ⟨hrow, hpending.2⟩

theorem claimable_woken {now : ℕ} {e : Execution} (h : claimable db now id e = true) :
    e.status.Woken .running := by
  unfold claimable at h
  unfold ExecutionStatus.Woken
  split at h
  · next hs => simp [hs]
  · next hs => simp [hs]
  · next hs => simp [hs]
  · cases h

/-- All due waits of an execution that the transaction has locked. -/
theorem Wakes.satisfyDue (h : Wakes ws db) {ids : List ℕ} (hnodup : ids.Nodup)
    (hids : ∀ i ∈ ids, i ∉ satisfiedIds ws ∧ ∃ row, db.waits.rows i = some row ∧
      row.satisfiedAt = none ∧ sleepStore.locks ws (.execution row.executionId) = true)
    (executionId now : ℕ) : Wakes (ws ++ ids.map (.satisfyWait executionId · now)) db := by
  induction ids generalizing ws with
  | nil => rwa [List.map_nil, List.append_nil]
  | cons i ids ih =>
      obtain ⟨hi, hnodup⟩ := List.nodup_cons.mp hnodup
      obtain ⟨hnew, row, hrow, hpending, hlock⟩ := hids i List.mem_cons_self
      have hone := h.satisfyWait hrow hlock hpending hnew executionId now
      rw [List.map_cons, List.append_cons]
      apply ih hone hnodup
      intro j hj
      obtain ⟨hnew', row', hrow', hpending', hlock'⟩ := hids j (List.mem_cons_of_mem _ hj)
      refine ⟨?_, row', hrow', hpending', sleepLocks_append hlock' _⟩
      rw [satisfiedIds_append, List.mem_append, mem_satisfiedIds_cons]
      rintro (hj' | hj' | hj')
      · exact hnew' hj'
      · cases hj'
        exact hi hj
      · cases hj'

theorem satisfiedIds_due (executionId now : ℕ) (ids : List ℕ) :
    satisfiedIds (ids.map (.satisfyWait executionId · now)) = ids := by
  induction ids with
  | nil => rfl
  | cons i ids ih => exact congrArg (i :: ·) ih

/-- The rest of `claim_execution` once it has found a row. -/
def afterSelect (workerId : String) (leaseSeconds now id : ℕ) : SleepTx SleepResult := do
  sleepQuery (.satisfyDueWaits id now)
  let found ← sleepQuery (.setRunning id workerId (now + 1000 * leaseSeconds))
  pure (.claimed found)

theorem claimExecution_script (workerId : String) (leaseSeconds : ℕ) :
    (SleepCall.claimExecution workerId leaseSeconds).script =
      sleepQuery .now >>= fun now => sleepQuery (.selectClaimable now) >>= fun found =>
        match found with
        | none => pure (.claimed none)
        | some id => afterSelect workerId leaseSeconds now id := by
  simp only [SleepCall.script, WorkflowPlatform.claimExecution, Script.bind_assoc]
  congr 1
  funext now
  congr 1
  funext found
  cases found with
  | none => rfl
  | some id => simp only [afterSelect, Script.bind_assoc]

/-- The claimed row under its lock: its due waits, then the row itself. -/
theorem ensures_afterSelect (workerId : String) (leaseSeconds now : ℕ) {e : Execution}
    (he : db.executions.rows id = some e) (hwoken : e.status.Woken .running) :
    wakeProtocol.Ensures WakePost false (afterSelect workerId leaseSeconds now id)
      [.lockExecution id] db := by
  have hlock : sleepStore.locks [.lockExecution id] (.execution id) = true := by
    simp [Store.locks, sleepStore, SleepWrite.row]
  have hwakes : ∀ d, Wakes [.lockExecution id] d := fun d => (wakes_nil d).lockExecution id
  refine Protocol.ensures_query _ (fun _ _ => wakePost_aborted) fun d hd hr => ⟨⟨hwakes d, hlock⟩, ?_⟩
  intro c locked answer ws₁ _ hresp
  obtain ⟨-, rfl⟩ := Prod.mk.inj (Option.some.inj hresp)
  have hdue : ∀ i ∈ d.dueWaits id now, ∃ row, d.waits.rows i = some row ∧ row.executionId = id ∧
      row.satisfiedAt = none := by
    intro i hi
    obtain ⟨row, hrow, hdue⟩ := Db.mem_waitIds.mp hi
    simp only [Wait.due, Bool.and_eq_true, decide_eq_true_eq, Option.isNone_iff_eq_none] at hdue
    exact ⟨row, hrow, hdue.1.1, hdue.1.2⟩
  change wakeProtocol.Ensures WakePost false _
    ([.lockExecution id] ++ (d.dueWaits id now).map (.satisfyWait id · now)) d
  have hwakes₁ : Wakes ([.lockExecution id] ++
      (d.dueWaits id now).map (.satisfyWait id · now)) d := by
    refine (hwakes d).satisfyDue (Db.waitIds_nodup _) (fun i hi => ?_) id now
    obtain ⟨row, hrow, hexec, hpending⟩ := hdue i hi
    exact ⟨by simp [satisfiedIds, SleepWrite.satisfies], row, hrow, hpending, hexec ▸ hlock⟩
  have hlock₁ := sleepLocks_append hlock ((d.dueWaits id now).map (.satisfyWait id · now))
  have hids : satisfiedIds ([.lockExecution id] ++
      (d.dueWaits id now).map (.satisfyWait id · now)) = d.dueWaits id now := by
    rw [satisfiedIds_append, satisfiedIds_due]
    rfl
  refine Protocol.ensures_query _ (fun _ _ => wakePost_aborted) fun d₂ hd₂ hr₂ =>
    ⟨⟨hwakes₁.of_rely hr₂, hlock₁⟩, ?_⟩
  intro c' locked' found ws₂ _ hresp₂
  have he₂ : d₂.executions.rows id = some e :=
    ((hr₂.held id hlock₁).1.trans (hr.held id hlock).1).trans he
  obtain ⟨-, rfl⟩ := Prod.mk.inj (Option.some.inj hresp₂)
  have hpresent : ((sleepStore.view d₂ ([.lockExecution id] ++
      (d.dueWaits id now).map (.satisfyWait id · now))).executions.rows id).isSome = true := by
    rw [sleepView_execution_isSome, he₂]
    rfl
  rw [if_pos hpresent]
  have hwakes₂ := (hwakes₁.of_rely hr₂).setRunning he₂ hwoken workerId (now + 1000 * leaseSeconds)
  refine Protocol.ensures_done _ fun d₃ _ hr₃ _ a ha => ?_
  cases ha
  refine (Woke.mk hwakes₂ (fun i hi => ?_) fun rows hrows => by cases hrows).of_rely hr₃
  have hdelivered : i ∈ d.dueWaits id now := by
    rw [satisfiedIds_append, hids] at hi
    simpa [satisfiedIds, SleepWrite.satisfies] using hi
  obtain ⟨row, hrow, hexec, -⟩ := hdue i hdelivered
  obtain ⟨now', hview⟩ := sleepView_satisfied d₂ hwakes₂.only hi
  rw [(hr₂.held id hlock₁).2 i row hrow hexec] at hview
  refine ⟨_, hview, rfl, ?_⟩
  rw [sleepView_snoc, Wait.satisfied_executionId, hexec]
  exact asleep_setRunning ..

theorem ensures_claim (workerId : String) (leaseSeconds : ℕ) :
    wakeProtocol.Ensures WakePost false (SleepCall.claimExecution workerId leaseSeconds).script
      [] db := by
  rw [claimExecution_script]
  refine Protocol.ensures_query _ (fun _ _ => wakePost_aborted) fun d₁ _ _ => ⟨⟨wakes_nil d₁, trivial⟩, ?_⟩
  intro c locked now ws₁ _ hresp
  obtain ⟨-, rfl⟩ := Prod.mk.inj (Option.some.inj hresp)
  refine Protocol.ensures_query _ (fun _ _ => wakePost_aborted) fun d₂ _ _ => ⟨⟨wakes_nil d₂, trivial⟩, ?_⟩
  intro c' locked' found ws₂ _ hresp₂
  rcases selectClaimable_cases c' hresp₂ with ⟨rfl, rfl⟩ | ⟨id, e, rfl, rfl, he, hclaim⟩
  · refine Protocol.ensures_done _ fun d₃ _ _ _ a ha => ?_
    cases ha
    exact ⟨wakes_nil d₃, fun i hi => (by cases hi), fun rows hrows => by cases hrows⟩
  · exact ensures_afterSelect workerId leaseSeconds now he (claimable_woken hclaim)

end

theorem wakes_follow {n : ℕ} (calls : Fin n → SleepCall) :
    wakeProtocol.Follows WakePost fun t => (calls t).script where
  lawful := sleepStore_lawful
  start := by
    intro t db _
    cases calls t with
    | claimExecution workerId leaseSeconds => exact ensures_claim workerId leaseSeconds
    | signalWait key => exact ensures_signal key
  commit := by
    intro a ws db hdb hpost
    obtain ⟨hwakes, hdelivered, -⟩ := hpost rfl a rfl
    exact ⟨hwakes.commit_inv hdb, fun ws' hdisjoint => hwakes.commit_rely hdelivered hdisjoint⟩

end WorkflowPlatform
