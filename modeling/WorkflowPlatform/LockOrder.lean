import WorkflowPlatform.Cycle

/-!
# The order in which a cycle takes its locks

A cycle locks the execution it claims, then that execution's run, and under the
run's lock rows that belong to the run. `Claiming` and `Holding` are the two
stages. The protocol says of every statement that may have to wait which stage
its transaction is in; it needs nothing of the tables, so it covers any number
of runs at once.
-/
namespace WorkflowPlatform

/-- A row that belongs to a run, or to one execution of it. -/
def Within (r id : ℕ) (db : Db) : Row → Prop
  | .execution i => ∃ e, db.executions.rows i = some e ∧ e.runId = some r
  | .run i => i = r
  | .checkpoint i _ => i = id
  | .output i _ => i = r

/-- A transaction that has claimed an execution of a run which is there. -/
structure Owns (r id : ℕ) (ws : List Write) (db : Db) : Prop where
  row : ∃ e, db.executions.rows id = some e ∧ e.runId = some r ∧ e.status ≠ .blocked
  present : (db.runs.rows r).isSome
  locked : platform.locks ws (.execution id) = true
  inPlace : ∀ w ∈ ws, w.inPlace = true

/-- It has locked nothing else. -/
structure Claiming (r id : ℕ) (ws : List Write) (db : Db) : Prop extends Owns r id ws db where
  only : ∀ w ∈ ws, w.row = .execution id

/-- It has locked the run, and what it has locked besides belongs to the run. -/
structure Holding (r id : ℕ) (ws : List Write) (db : Db) : Prop extends Owns r id ws db where
  run : platform.locks ws (.run r) = true
  within : ∀ w ∈ ws, Within r id db w.row

/-- The stage in which each statement is issued. -/
def lockPre (op : Op) (ws : List Write) (db : Db) : Prop :=
  match op with
  | .lockRunForUpdate r => ∃ id, Claiming r id ws db ∨ Holding r id ws db
  | .markRunFailed r => ∃ id, Claiming r id ws db ∨ Holding r id ws db
  | .failIfRemaining r i => (∃ id, Holding r id ws db) ∧ .runStatus r .failed ∈ ws ∧
      ∃ e, db.executions.rows i = some e ∧ e.runId = some r
  | .markExecutionDone id => ∃ r, Holding r id ws db
  | .markExecutionFailed id => ∃ r, Holding r id ws db
  | .insertCheckpoint id .. => ∃ r, Holding r id ws db
  | .promoteBlockedToQueued r _ => ∃ id, Holding r id ws db
  | .insertRunNodeOutput r .. => ∃ id, Holding r id ws db
  | .markRunDone r => ∃ id, Holding r id ws db
  | .enqueueForRun _ => False
  | .insertRun _ => False
  | _ => True

structure LockRely (ws : List Write) (a b : Db) : Prop where
  keeps : Keeps a b
  runs : ∀ r, (a.runs.rows r).isSome → (b.runs.rows r).isSome
  held : ∀ i, platform.locks ws (.execution i) = true → a.executions.rows i = b.executions.rows i

def lockProtocol (env : Op → Choice → Prop) : Protocol platform where
  inv := fun _ => True
  rely := LockRely
  env := env
  pre := lockPre
  rely_refl := fun _ a => ⟨.refl a, fun _ h => h, fun _ _ => rfl⟩
  rely_trans := fun _ _ _ _ h h' => ⟨h.keeps.trans h'.keeps, fun r hr => h'.runs r (h.runs r hr),
    fun i hi => (h.held i hi).trans (h'.held i hi)⟩

/-- Operations that neither wait for a row nor write one. -/
def Quiet : Op → Prop
  | .scanRemaining _ => True
  | .findRunById _ => True
  | .findCheckpoint .. => True
  | .findRunNodeOutput .. => True
  | .listCompletedNodeIds _ => True
  | .fetch .. => True
  | .log .. => True
  | _ => False

theorem Quiet.pre {op : Op} (h : Quiet op) (ws : List Write) (db : Db) : lockPre op ws db := by
  cases op with
  | scanRemaining | findRunById | findCheckpoint | findRunNodeOutput | listCompletedNodeIds
  | fetch | log => trivial
  | _ => cases h

theorem Quiet.silent {op : Op} (h : Quiet op) {c : Choice} {db : Db} {locked : Row → Bool}
    {x : Resp op} {ws : List Write} (hr : db.respond c locked op = some (x, ws)) : ws = [] := by
  cases op with
  | scanRemaining | findRunById | findCheckpoint | findRunNodeOutput | listCompletedNodeIds
  | fetch | log =>
      cases hr
      rfl
  | _ => cases h

theorem write_present {db : Db} {w : Write} (hw : w.inPlace = true) {r : ℕ}
    (h : (db.runs.rows r).isSome) : ((db.write w).runs.rows r).isSome := by
  cases w with
  | runStatus i =>
      by_cases hi : r = i
      · subst hi
        simpa [Db.write, Table.modify_same] using h
      · simpa only [Db.write, Table.modify_other _ _ hi] using h
  | insertExecution | insertRun => cases hw
  | _ => exact h

theorem view_present {db : Db} {ws : List Write} (hws : ∀ w ∈ ws, w.inPlace = true) {r : ℕ}
    (h : (db.runs.rows r).isSome) : ((platform.view db ws).runs.rows r).isSome := by
  induction ws generalizing db with
  | nil => exact h
  | cons w rest ih =>
      have hw := write_present (hws w List.mem_cons_self) h
      exact ih (fun w' hw' => hws w' (List.mem_cons_of_mem _ hw')) hw

section
variable {r id : ℕ} {ws ws' : List Write} {a b db : Db}

theorem Within.of_keeps {row : Row} (h : Within r id a row) (hk : Keeps a b) :
    Within r id b row := by
  cases row with
  | execution i =>
      obtain ⟨e, he, hr⟩ := h
      obtain ⟨f, hf, hfr, -⟩ := hk.symm.present he
      exact ⟨f, hf, hfr.trans hr⟩
  | _ => exact h

theorem Owns.of_rely (h : Owns r id ws a) (hr : LockRely ws a b) : Owns r id ws b := by
  refine ⟨?_, hr.runs r h.present, h.locked, h.inPlace⟩
  obtain ⟨e, he, hrest⟩ := h.row
  exact ⟨e, (hr.held id h.locked) ▸ he, hrest⟩

theorem Claiming.of_rely (h : Claiming r id ws a) (hr : LockRely ws a b) : Claiming r id ws b :=
  ⟨h.toOwns.of_rely hr, h.only⟩

theorem Holding.of_rely (h : Holding r id ws a) (hr : LockRely ws a b) : Holding r id ws b :=
  ⟨h.toOwns.of_rely hr, h.run, fun w hw => (h.within w hw).of_keeps hr.keeps⟩

theorem Owns.append (h : Owns r id ws db) (hws : ∀ w ∈ ws', w.inPlace = true) :
    Owns r id (ws ++ ws') db := by
  refine ⟨h.row, h.present, ?_, ?_⟩
  · rw [Store.locks_append, h.locked, Bool.true_or]
  · exact fun w hw => (List.mem_append.mp hw).elim (h.inPlace w) (hws w)

theorem Holding.append (h : Holding r id ws db)
    (hws : ∀ w ∈ ws', w.inPlace = true ∧ Within r id db w.row) : Holding r id (ws ++ ws') db := by
  refine ⟨h.toOwns.append fun w hw => (hws w hw).1, ?_, ?_⟩
  · rw [Store.locks_append, h.run, Bool.true_or]
  · exact fun w hw => (List.mem_append.mp hw).elim (h.within w) fun hw => (hws w hw).2

theorem Owns.keeps (h : Owns r id ws db) : Keeps db (platform.view db ws) := keeps_view h.inPlace

/-- The rows a transaction sees belong to the same runs as the committed ones. -/
theorem Owns.within_view (h : Owns r id ws db) {i : ℕ} {e : Execution}
    (he : (platform.view db ws).executions.rows i = some e) (hr : e.runId = some r) :
    Within r id db (.execution i) := by
  obtain ⟨f, hf, hfr, -⟩ := h.keeps.present he
  exact ⟨f, hf, hfr.trans hr⟩

theorem Owns.within (h : Owns r id ws db) : Within r id db (.execution id) := by
  obtain ⟨e, he, hr, -⟩ := h.row
  exact ⟨e, he, hr⟩

/-- Calm statements only write rows of the run. -/
theorem Owns.writes (h : Owns r id ws db) {op : Op} (hop : Calm r id op) {c : Choice}
    {locked : Row → Bool} {x : Resp op}
    (hr : platform.respond c (platform.view db ws) locked op = some (x, ws')) :
    ∀ w ∈ ws', w.inPlace = true ∧ Within r id db w.row := by
  intro w hw
  change (platform.view db ws).respond c locked op = some (x, ws') at hr
  refine ⟨(calm_writes hop hr w hw).inPlace, ?_⟩
  cases op with
  | promoteBlockedToQueued i step =>
      cases hop
      cases hr
      obtain ⟨j, hj, rfl⟩ := List.mem_map.mp hw
      obtain ⟨f, hf, hp⟩ := Db.mem_executionIds.mp hj
      simp only [blockedIn, Bool.and_eq_true, decide_eq_true_eq] at hp
      exact h.within_view hf hp.1.1
  | failIfRemaining i j =>
      cases hop
      simp only [Db.respond] at hr
      split_ifs at hr with hany <;> cases hr
      · obtain rfl := List.mem_singleton.mp hw
        obtain ⟨f, hf, hp⟩ := (Option.any_eq_true ..).mp hany
        simp only [remainingIn, Bool.and_eq_true, decide_eq_true_eq] at hp
        exact h.within_view hf hp.1
      · cases hw
  | markExecutionDone i | markExecutionFailed i =>
      cases hop
      simp only [Db.respond] at hr
      split_ifs at hr <;> cases hr
      · obtain rfl := List.mem_singleton.mp hw
        exact h.within
      · cases hw
  | lockRunForUpdate i | markRunDone i | markRunFailed i =>
      cases hop
      simp only [Db.respond] at hr
      split_ifs at hr <;> cases hr
      · obtain rfl := List.mem_singleton.mp hw
        rfl
      · cases hw
  | insertCheckpoint i | insertRunNodeOutput i =>
      cases hop
      simp only [Db.respond] at hr
      split_ifs at hr <;> cases hr
      · cases hw
      · obtain rfl := List.mem_singleton.mp hw
        rfl
  | scanRemaining | findRunById | findCheckpoint | findRunNodeOutput | listCompletedNodeIds =>
      cases hr
      cases hw
  | claimExecution | enqueueForRun | insertRun | fetch | log => cases hop

theorem Holding.pre (h : Holding r id ws db) {op : Op} (hop : Steady r id op) :
    lockPre op ws db := by
  cases op with
  | markExecutionDone | markExecutionFailed | insertCheckpoint =>
      cases hop
      exact ⟨r, h⟩
  | promoteBlockedToQueued | insertRunNodeOutput | markRunDone =>
      cases hop
      exact ⟨id, h⟩
  | findRunById | findCheckpoint | findRunNodeOutput | listCompletedNodeIds => trivial
  | _ => cases hop

end

section
variable {r id : ℕ} {ws : List Write} {db : Db} {env : Op → Choice → Prop} {α : Type}

/-- The stages of a transaction from its claim to its end. -/
def Working (r id : ℕ) (ws : List Write) (db : Db) : Prop :=
  Claiming r id ws db ∨ Holding r id ws db

theorem Working.of_rely {db' : Db} (h : Working r id ws db) (hr : LockRely ws db db') :
    Working r id ws db' := h.imp (·.of_rely hr) (·.of_rely hr)

/-- Once a statement has been refused nothing can wait. -/
theorem ensures_lock_aborted {m : Tx α} {post : Bool → Except Failure α → List Write → Db → Prop}
    (hpost : ∀ r ws db, post true r ws db) : (lockProtocol env).Ensures post true m ws db := by
  refine Protocol.ensures_aborted _ ?_ fun r ws db _ => hpost r ws db
  induction m with
  | done r => trivial
  | call op next ih =>
      refine ⟨fun hext _ _ _ => ?_, ih⟩
      cases op with
      | fetch | log => trivial
      | _ => cases hext

/-- Work under the run's lock keeps to rows of the run. -/
theorem ensures_holding {m : Tx α} (hm : m.All (Steady r id)) (h : Holding r id ws db) :
    (lockProtocol env).Ensures (fun ab _ ws' db' => ab = false → Holding r id ws' db') false
      m ws db := by
  induction m generalizing ws db with
  | done res => exact fun d _ hr _ => h.of_rely hr
  | call op next ih =>
      intro d _ hr
      have hd : Holding r id ws d := h.of_rely hr
      refine ⟨fun _ => ⟨hd.pre hm.1, ?_⟩, fun _ => ?_⟩
      · intro c locked x ws' _ hresp
        exact ih _ (hm.2 _) (hd.append (hd.toOwns.writes hm.1.calm hresp))
      · exact ensures_lock_aborted fun _ _ _ hab => by cases hab

/-- The statements before the run's lock lock nothing. -/
theorem ensures_quiet {m : Tx α} (hm : m.All Quiet) (h : Working r id ws db) :
    (lockProtocol env).Ensures (fun ab _ ws' db' => ab = false → Working r id ws' db') false
      m ws db := by
  induction m generalizing ws db with
  | done res => exact fun d _ hr _ => h.of_rely hr
  | call op next ih =>
      intro d _ hr
      refine ⟨fun _ => ⟨hm.1.pre ws d, ?_⟩, fun _ => ?_⟩
      · intro c locked x ws' _ hresp
        obtain rfl := hm.1.silent hresp
        rw [List.append_nil]
        exact ih _ (hm.2 _) (h.of_rely hr)
      · exact ensures_lock_aborted fun _ _ _ hab => by cases hab

theorem Working.pre (h : Working r id ws db) : ∃ i, Claiming r i ws db ∨ Holding r i ws db :=
  ⟨id, h⟩

theorem Working.owns (h : Working r id ws db) : Owns r id ws db := h.elim (·.toOwns) (·.toOwns)

/-- Locking the run, by either statement that does. -/
theorem Working.lock (h : Working r id ws db) {op : Op}
    (hop : op = .lockRunForUpdate r ∨ op = .markRunFailed r) {c : Choice} {locked : Row → Bool}
    {x : Resp op} {ws' : List Write}
    (hr : platform.respond c (platform.view db ws) locked op = some (x, ws')) :
    Holding r id (ws ++ ws') db ∧ (op = .markRunFailed r → .runStatus r .failed ∈ ws ++ ws') := by
  have hpresent : ((platform.view db ws).runs.rows r).isSome :=
    view_present h.owns.inPlace h.owns.present
  have hcalm : Calm r id op := by rcases hop with rfl | rfl <;> rfl
  have hwrites := h.owns.writes hcalm hr
  have hlock : platform.locks ws' (.run r) = true ∧ (op = .markRunFailed r →
      .runStatus r .failed ∈ ws') := by
    rcases hop with rfl | rfl
    · obtain ⟨-, rfl⟩ := Prod.mk.inj (Option.some.inj hr)
      rw [if_pos hpresent]
      exact ⟨by simp [Store.locks, platform, Write.row], fun hop => by cases hop⟩
    · obtain ⟨-, rfl⟩ := Prod.mk.inj (Option.some.inj hr)
      rw [if_pos hpresent]
      exact ⟨by simp [Store.locks, platform, Write.row], fun _ => List.mem_singleton.mpr rfl⟩
  refine ⟨⟨h.owns.append fun w hw => (hwrites w hw).1, ?_, ?_⟩,
    fun hop => List.mem_append_right _ (hlock.2 hop)⟩
  · rw [Store.locks_append, hlock.1, Bool.or_true]
  · intro w hw
    rcases List.mem_append.mp hw with hw | hw
    · rcases h with h | h
      · rw [h.only w hw]
        exact h.toOwns.within
      · exact h.within w hw
    · exact (hwrites w hw).2

/-- The rows of a run's scan are failed under the lock of the failed run. -/
theorem ensures_failEach {ids : List ℕ} (h : Holding r id ws db)
    (hfailed : .runStatus r .failed ∈ ws)
    (hids : ∀ i ∈ ids, Within r id db (.execution i)) :
    (lockProtocol env).Ensures (fun ab _ ws' db' => ab = false → Holding r id ws' db') false
      (ExecutionsRepo.failEach r ids) ws db := by
  induction ids generalizing ws db with
  | nil => exact fun d _ hr _ => h.of_rely hr
  | cons i rest ih =>
      refine Protocol.ensures_query _ (fun _ _ hab => by cases hab) fun d _ hr => ?_
      have hd : Holding r id ws d := h.of_rely hr
      have hrest : ∀ j ∈ i :: rest, Within r id d (.execution j) :=
        fun j hj => (hids j hj).of_keeps hr.keeps
      refine ⟨⟨⟨id, hd⟩, hfailed, hrest i List.mem_cons_self⟩, ?_⟩
      intro c locked x ws' _ hresp
      have hcalm : Calm r id (.failIfRemaining r i) := rfl
      exact ih (hd.append (hd.toOwns.writes hcalm hresp)) (List.mem_append_left _ hfailed)
        fun j hj => hrest j (List.mem_cons_of_mem _ hj)

theorem ensures_failRun_locks (h : Working r id ws db) :
    (lockProtocol env).Ensures (fun ab _ ws' db' => ab = false → Working r id ws' db') false
      (failRun r id) ws db := by
  refine Protocol.ensures_query _ (fun _ _ hab => by cases hab) fun d _ hr =>
    ⟨(h.of_rely hr).pre, ?_⟩
  intro c locked _ ws₁ _ hresp₁
  obtain ⟨hholds₁, hfailed₁⟩ := (h.of_rely hr).lock (.inr rfl) hresp₁
  refine Protocol.ensures_query _ (fun _ _ hab => by cases hab) fun d₂ _ hr₂ => ?_
  have hd₂ := hholds₁.of_rely hr₂
  refine ⟨⟨r, hd₂⟩, ?_⟩
  intro c₂ locked₂ _ ws₂ _ hresp₂
  have hcalm : Calm r id (.markExecutionFailed id) := rfl
  have hholds₂ := hd₂.append (hd₂.toOwns.writes hcalm hresp₂)
  refine Protocol.ensures_query _ (fun _ _ hab => by cases hab) fun d₃ _ hr₃ => ⟨trivial, ?_⟩
  have hd₃ := hholds₂.of_rely hr₃
  intro c₃ locked₃ ids ws₃ _ hresp₃
  obtain ⟨rfl, rfl⟩ := Prod.mk.inj (Option.some.inj hresp₃)
  rw [List.append_nil]
  refine (ensures_failEach hd₃ (List.mem_append_left _ (hfailed₁ rfl)) fun i hi => ?_).mono _
    fun _ _ _ _ _ hpost hab => .inr (hpost hab)
  obtain ⟨f, hf, hp⟩ := Db.mem_executionIds.mp ((c₃.order_perm _).mem_iff.mp hi)
  simp only [remainingIn, Bool.and_eq_true, decide_eq_true_eq] at hp
  exact hd₃.toOwns.within_view hf hp.1

theorem ensures_completeStep_locks (h : Working r id ws db) (run : WorkflowRun) (nodeId : String)
    (output : ParsedObject) :
    (lockProtocol env).Ensures (fun ab _ ws' db' => ab = false → Working r id ws' db') false
      (completeStep r run id nodeId output) ws db := by
  rw [completeStep_eq]
  simp only [WorkflowRunsRepo.lockForUpdate, Script.bind_assoc]
  refine Protocol.ensures_query _ (fun _ _ hab => by cases hab) fun d _ hr =>
    ⟨(h.of_rely hr).pre, ?_⟩
  intro c locked found ws' _ hresp
  have hholds := ((h.of_rely hr).lock (.inl rfl) hresp).1
  cases found with
  | none => exact fun d' _ hr' _ => .inr (hholds.of_rely hr')
  | some row =>
      have hsteady := (tame_completeLocked r id run nodeId output).all
      exact (ensures_holding hsteady hholds).mono _ fun _ _ _ _ _ hpost hab => .inr (hpost hab)

/-- The work on a claimed execution, whatever comes of it. -/
theorem ensures_processExecution_locks (h : Working r id ws db) (deps : WorkerDeps)
    (run : WorkflowRun) (execution : Execution) :
    (lockProtocol env).Ensures (fun ab _ ws' db' => ab = false → Working r id ws' db') false
      (processExecution deps r run id execution) ws db := by
  have herror : ∀ (e : Failure) ws' db', (lockProtocol env).inv db' → Working r id ws' db' →
      false = false → Working r id ws' db' := fun _ _ _ _ h _ => h
  have hdone : ∀ (res : Except Failure Bool) {ws' db'}, Working r id ws' db' →
      (lockProtocol env).Ensures (fun ab _ ws' db' => ab = false → Working r id ws' db') false
        (.done res) ws' db' := fun _ _ _ h d _ hr _ => h.of_rely hr
  unfold processExecution
  cases findRunStepNode run execution.step with
  | error e => exact hdone _ h
  | ok node =>
      rw [Script.lift_ok, Script.done_ok_bind]
      have hreads := tame_resolveStepReads (P := Quiet) r (fun _ => trivial) run node
      refine (ensures_quiet hreads.all h).bind trivial hreads.straight
        (fun _ _ _ hab => by cases hab) (fun input ws' db' _ h' => ?_) herror
      have hdispatch : (dispatchStep deps.agentBaseUrl
          { executionId := id, step := node, resolvedInput := input
            timeoutMs := deps.invokeTimeoutMs } deps.agentAuthToken).Tame Quiet .database :=
        tame_dispatchStep fun _ _ _ _ _ => trivial
      refine (ensures_quiet hdispatch.all h').bind trivial hdispatch.straight
        (fun _ _ _ hab => by cases hab) (fun result ws₁ db₁ _ h₁ => ?_) herror
      cases result with
      | ok output =>
          have hcomplete := tame_completeStep r id run node.id output
          exact (ensures_completeStep_locks h₁ run node.id output).bind trivial hcomplete.straight
            (fun _ _ _ hab => by cases hab) (fun _ _ _ _ h₂ => hdone _ h₂) herror
      | failed response =>
          dsimp only
          cases reportedFailure id node.id response with
          | error e => exact hdone _ h₁
          | ok record =>
              refine Protocol.ensures_query _ (fun _ _ hab => by cases hab) fun d _ hr =>
                ⟨trivial, ?_⟩
              intro c locked _ ws₂ _ hresp
              obtain ⟨-, rfl⟩ := Prod.mk.inj (Option.some.inj hresp)
              rw [List.append_nil]
              exact (ensures_failRun_locks (h₁.of_rely hr)).bind trivial (tame_failRun r id).straight
                (fun _ _ _ hab => by cases hab) (fun _ _ _ _ h₂ => hdone _ h₂) herror

theorem ensures_handleFailure_locks (h : Working r id ws db) (err : Failure) :
    (lockProtocol env).Ensures (fun ab _ ws' db' => ab = false → Working r id ws' db') false
      (handleFailure r id err) ws db := by
  unfold handleFailure
  split_ifs
  · refine Protocol.ensures_query _ (fun _ _ hab => by cases hab) fun d _ hr => ⟨trivial, ?_⟩
    intro c locked _ ws' _ hresp
    obtain ⟨-, rfl⟩ := Prod.mk.inj (Option.some.inj hresp)
    rw [List.append_nil]
    exact fun d' _ hr' _ => (h.of_rely hr).of_rely hr'
  · refine Protocol.ensures_query _ (fun _ _ hab => by cases hab) fun d _ hr => ⟨trivial, ?_⟩
    intro c locked _ ws' _ hresp
    obtain ⟨-, rfl⟩ := Prod.mk.inj (Option.some.inj hresp)
    rw [List.append_nil]
    exact (ensures_failRun_locks (h.of_rely hr)).bind trivial (tame_failRun r id).straight
      (fun _ _ _ hab => by cases hab) (fun _ _ _ _ h₂ d' _ hr' _ => h₂.of_rely hr')
      fun _ _ _ _ h₂ _ => h₂

theorem ensures_work_locks (h : Working r id ws db) (deps : WorkerDeps) (run : WorkflowRun)
    (execution : Execution) :
    (lockProtocol env).Ensures (fun ab _ ws' db' => ab = false → Working r id ws' db') false
      ((processExecution deps r run id execution).tryCatch (handleFailure r id)) ws db := by
  refine Protocol.ensures_tryCatch _ trivial
    ((ensures_processExecution_locks h deps run execution).mono _ ?_)
  intro ab res ws' db' _ hpost
  cases res with
  | ok a => exact hpost
  | error err =>
      cases ab with
      | false => exact ensures_handleFailure_locks (hpost rfl) err
      | true => exact ensures_lock_aborted fun _ _ _ hab => by cases hab

end

section
variable {env : Op → Choice → Prop}

/-- What a cycle commits inserts nothing. -/
def InPlace (ab : Bool) (_ : Except Failure Bool) (ws : List Write) (_ : Db) : Prop :=
  ab = false → ∀ w ∈ ws, w.inPlace = true

theorem ensures_runOnce_locks (deps : WorkerDeps) (db : Db) :
    (lockProtocol env).Ensures InPlace false (runOnceBody deps) [] db := by
  have hdone : ∀ (res : Except Failure Bool) {ws d}, (∀ w ∈ ws, w.inPlace = true) →
      (lockProtocol env).Ensures InPlace false (.done res) ws d := fun _ _ _ h _ _ _ _ => h
  refine Protocol.ensures_query _ (fun _ _ hab => by cases hab) fun d _ _ => ⟨trivial, ?_⟩
  intro c locked found ws' _ hresp
  rcases claim_cases hresp with ⟨rfl, rfl⟩ | ⟨id, e, he, hclaim, -, rfl, rfl⟩
  · exact hdone _ (by simp)
  · dsimp only [List.nil_append, Execution.claimed_runId]
    have hrow : ∀ w ∈ ([.satisfyDueWaits id c.now, .claim id deps.workerId
        (c.now + 1000 * deps.leaseSeconds)] : List Write),
        w.row = .execution id ∧ w.inPlace = true := by
      intro w hw
      simp only [List.mem_cons, List.not_mem_nil, or_false] at hw
      rcases hw with rfl | rfl <;> exact ⟨rfl, rfl⟩
    cases hrun : e.runId with
    | none => exact hdone _ fun w hw => (hrow w hw).2
    | some r =>
        refine Protocol.ensures_query _ (fun _ _ hab => by cases hab) fun d' _ hr => ⟨trivial, ?_⟩
        intro c' locked' row ws'' _ hresp'
        obtain ⟨rfl, rfl⟩ := Prod.mk.inj (Option.some.inj hresp')
        rw [List.append_nil]
        cases hrunRow : (platform.view d' _).runs.rows r with
        | none => exact hdone _ fun w hw => (hrow w hw).2
        | some run =>
            have hlocked : platform.locks [.satisfyDueWaits id c.now, .claim id deps.workerId
                (c.now + 1000 * deps.leaseSeconds)] (.execution id) = true := by
              simp [Store.locks, platform, Write.row]
            have hclaiming : Claiming r id [.satisfyDueWaits id c.now, .claim id deps.workerId
                (c.now + 1000 * deps.leaseSeconds)] d' := by
              refine ⟨⟨⟨e, (hr.held id hlocked) ▸ he, hrun, ?_⟩, ?_, hlocked,
                fun w hw => (hrow w hw).2⟩, fun w hw => (hrow w hw).1⟩
              · rintro hblocked
                simp [claimable, hblocked] at hclaim
              · rw [show d'.runs.rows r = some run from hrunRow]
                rfl
            exact (ensures_work_locks (.inl hclaiming) deps run _).mono _
              fun _ _ _ _ _ hpost hab => (hpost hab).owns.inPlace

theorem follows_locks {n : ℕ} (deps : Fin n → WorkerDeps) :
    (lockProtocol env).Follows InPlace fun t => runOnceBody (deps t) where
  lawful := platform_lawful
  start := fun t db _ => ensures_runOnce_locks (deps t) db
  commit := by
    intro a ws db _ hpost
    refine ⟨trivial, fun ws' hd => ⟨keeps_view (hpost rfl), fun r hr => view_present (hpost rfl) hr,
      fun i hi => (view_execution ?_).symm⟩⟩
    by_contra hc
    rw [hd _ (by simpa using hc)] at hi
    cases hi

end
end WorkflowPlatform
