import WorkflowPlatform.CommitLog
import WorkflowPlatform.RequestRendering
import WorkflowPlatform.RunInvariant
import WorkflowPlatform.SingleFlight
import WorkflowPlatform.SoloCycle

/-!
# Every attempt at a step sends the same request

A request is what the rows of the run determine at the moment it is sent: the
spec, the run's input and the recorded outputs of what the step depends on. None
of these ever changes, so a later attempt at the same execution sends the same
request again, whatever happened to the earlier ones. An agent that answers it with
the result of an earlier one has run the same request.
-/
namespace WorkflowPlatform
open Dataflow

/-- The request is the one that the rows determine for its execution, whose
dependencies are all recorded. -/
def requestPre (R : SubmittedRun) (op : Op) (db : Db) : Prop :=
  match op with
  | .fetch _ _ body _ => ∀ i e, db.executions.rows i = some e → e.runId = some R.id →
      body.executionId = Nat.repr i → ∃ deps run step, run.spec = R.spec ∧ run.input = R.input ∧
        (∀ d ∈ computeStepDependencies step, Recorded R db d) ∧
        stepRequest deps db R.id run i e = .ok (step, body)
  | _ => True

section
variable {P : Op → Prop} {r id : ℕ}

/-- Whatever holds of the calm statements and of the log lines holds of all that
is issued after the request. -/
theorem all_settle (hcalm : ∀ op, Calm r id op → P op)
    (hlog : ∀ level record event, P (.log level record event)) (run : WorkflowRun) (node : Step)
    (result : DispatchResult) : (settle r run id node result).All P := by
  cases result with
  | ok output =>
      exact Script.all_bind ((tame_completeStep r id _ _ _).all.mono hcalm) fun _ => trivial
  | failed reported =>
      refine Script.all_bind (Script.all_done _ _) fun record =>
        Script.all_bind ((Script.all_perform _ _).mpr (hlog _ _ _)) fun _ => ?_
      exact Script.all_bind ((tame_failRun r id).all.mono hcalm) fun _ => trivial

theorem all_handle (hcalm : ∀ op, Calm r id op → P op)
    (hlog : ∀ level record event, P (.log level record event)) (err : Failure) :
    (handleFailure r id err).All P := by
  unfold handleFailure
  split_ifs
  · exact Script.all_bind ((Script.all_perform _ _).mpr (hlog _ _ _)) fun _ => trivial
  · exact Script.all_bind ((Script.all_perform _ _).mpr (hlog _ _ _)) fun _ =>
      Script.all_bind ((tame_failRun r id).all.mono hcalm) fun _ => trivial

end

section
variable {R : SubmittedRun} {admits : String → JsonObject → Prop} {env : Op → Choice → Prop}
variable {a b : Db}

/-- What a transaction that runs beside the others may take for granted of the
requests it sends. -/
def requestProtocol (R : SubmittedRun) (admits : String → JsonObject → Prop)
    (env : Op → Choice → Prop) : Protocol platform :=
  (runProtocol R admits env).withPre fun op _ db => requestPre R op db

theorem gather_congr {out out' : String → Option JsonObject} {ids : List String}
    (h : ∀ id ∈ ids, out' id = out id) (n : NodeOutputs) : gather out' ids n = gather out ids n := by
  induction ids generalizing n with
  | nil => rfl
  | cons id rest ih =>
      have hrest := ih fun i hi => h i (List.mem_cons_of_mem _ hi)
      rw [gather, gather, h id List.mem_cons_self]
      cases out id with
      | none => exact hrest n
      | some output => exact hrest _

/-- What a step reads only depends on the outputs of its dependencies. -/
theorem stepInput_congr {run run' : WorkflowRun} {step : Step} (hinput : run'.input = run.input)
    (h : ∀ d ∈ computeStepDependencies step,
      (b.runNodeOutputs R.id).lookup d = (a.runNodeOutputs R.id).lookup d) :
    stepInput b R.id run' step = stepInput a R.id run step := by
  rw [stepInput, stepInput, hinput, gather_congr h]

/-- What a worker issues after its request. -/
def Settling (R : SubmittedRun) (op : Op) : Prop := ∀ db, requestPre R op db

theorem settling_of_calm {r id : ℕ} (op : Op) (h : Calm r id op) : Settling R op := by
  cases op with
  | fetch => cases h
  | _ => exact fun _ => trivial

variable {id : ℕ} {e : Execution} {ws : List Write} {db : Db} {ab : Bool}

theorem requests_settled {α : Type} {m : Tx α} (hm : m.All (Settling R)) :
    (requestProtocol R admits env).Ensures (fun _ _ _ _ => True) ab m ws db :=
  Protocol.ensures_trivial _ (hm.mono fun _ hop _ db _ => hop db)

/-- The requests for executions of other runs are none of this run's. -/
theorem requests_foreign {r : ℕ} (hne : r ≠ R.id) {m : Tx Bool} (hm : m.All (OfExecution r id))
    (h : ∃ e, db.executions.rows id = some e ∧ e.runId = some r) :
    (requestProtocol R admits env).Ensures (fun _ _ _ _ => True) ab m ws db := by
  induction m generalizing ab ws db with
  | done res => exact fun _ _ _ => trivial
  | call op next ih =>
      intro d _ hr
      obtain ⟨e₀, he₀, hrun₀⟩ := h
      obtain ⟨e, he, hrun, -⟩ := hr.keeps.symm.present he₀
      have hd : ∃ e, d.executions.rows id = some e ∧ e.runId = some r :=
        ⟨e, he, hrun.trans hrun₀⟩
      refine ⟨fun _ => ⟨?_, fun c locked x ws' _ _ => ih _ (hm.2 _) hd⟩, fun _ => ih _ (hm.2 _) hd⟩
      cases op with
      | fetch =>
          intro i f hf hfr hi
          obtain rfl : i = id := natRepr_injective (hi.symm.trans hm.1)
          rw [he] at hf
          cases hf
          exact absurd (Option.some.inj ((hrun.trans hrun₀).symm.trans hfr)) hne
      | _ => trivial

/-- The request for a claimed execution is the one that the rows determine. -/
theorem requests_claimed (hinv : (runProtocol R admits env).inv db) (hclaim : Claimed R id e ws db)
    {run : WorkflowRun} (hspec : run.spec = R.spec) (hinput : run.input = R.input)
    {execution : Execution} (hexec : execution.step = e.step) (deps : WorkerDeps) :
    (requestProtocol R admits env).Ensures (fun _ _ _ _ => True) false
      ((processExecution deps R.id run id execution).tryCatch (handleFailure R.id id)) ws db := by
  obtain ⟨σ, hσ, hc⟩ := hinv
  obtain ⟨step, hs, hstep, hdeps⟩ := hclaim.step hσ hc
  have hinv' : (requestProtocol R admits env).inv db := ⟨σ, hσ, hc⟩
  have hstart : (requestProtocol R admits env).Ensures (fun _ _ _ _ => True) false
      (processExecution deps R.id run id execution) ws db := by
    simp only [processExecution_eq, ask, Script.bind_assoc, hexec, hstep, findRunStepNode_eq hspec hs,
      Script.lift_ok, Script.done_ok_bind]
    have hsettling : ∀ op, Settling R op → ∀ (_ : List Write) db, (runProtocol R admits env).inv db →
        requestPre R op db := fun _ hop _ db _ => hop db
    have hreads := (ensures_resolveStepReads hinv' hσ hc hclaim
      hdeps ((runProtocol R admits env).rely_refl ws db)).withPre _
        ((tame_resolveStepReads (P := Settling R) R.id (fun _ _ => trivial) run step).all.mono
          hsettling)
    refine hreads.bind hinv' (straight_resolveStepReads R.id _ _) (fun _ _ _ => trivial) ?_
      fun _ _ _ _ _ => trivial
    rintro input ws' d hd ⟨hresolved, rfl, hr⟩
    simp only [dispatchStep, invoke, postJson, Script.bind_assoc]
    cases hreq : buildInvokeRequest _ with
    | error err => exact fun _ _ _ => trivial
    | ok request =>
        refine Protocol.ensures_query _ (fun _ _ => trivial) fun d' hd' hr' => ⟨?_, ?_⟩
        · intro i f hf _ hi
          obtain rfl : i = id := natRepr_injective (hi.symm.trans (buildInvokeRequest_ids hreq).1)
          have hrely : RunRely R admits ws' db d' :=
            (runProtocol R admits env).rely_trans _ _ _ _ hr hr'
          have hrow := (hclaim.of_rely hrely).row
          rw [hf] at hrow
          cases hrow
          have hout : ∀ dep ∈ computeStepDependencies step,
              (d'.runNodeOutputs R.id).lookup dep = σ.output dep := by
            intro dep hdep
            obtain ⟨output, ho⟩ := Option.isSome_iff_exists.mp (hdeps dep hdep)
            rw [hrely.lookup hσ hc ho, ho]
          refine ⟨deps, run, step, hspec, hinput, fun dep hdep => ?_, ?_⟩
          · rw [Recorded, hout dep hdep]
            exact hdeps dep hdep
          · have hread : stepInput d' R.id run step = .ok input := by
              rw [stepInput, gather_congr hout]
              exact hresolved.symm
            unfold stepRequest
            rw [hstep, findRunStepNode_eq hspec hs]
            change (stepInput d' R.id run step >>= _) = _
            rw [hread]
            change (buildInvokeRequest _ >>= _) = _
            rw [hreq]
            rfl
        · intro c locked outcome ws'' _ _
          exact requests_settled (Script.all_bind (Script.all_done _ _) fun response =>
            Script.all_bind (Script.all_done _ _) fun result =>
            Script.all_bind (Script.all_done _ _) fun p =>
            all_settle settling_of_calm (fun _ _ _ _ => trivial) run p.1 p.2)
  refine Protocol.ensures_tryCatch _ hinv' (hstart.mono _ fun ab r ws' d _ _ => ?_)
  cases r with
  | ok a => trivial
  | error err => exact requests_settled (all_handle settling_of_calm (fun _ _ _ _ => trivial) err)

theorem requests_follow {n : ℕ} (deps : Fin n → WorkerDeps) :
    (requestProtocol R (fun _ _ => True) env).Follows (Keeping R fun _ _ => True)
      (runWorkers deps) := by
  refine (follows_runOnce deps fun op c _ => agentEnv_true op c).withPre fun t db hdb => ?_
  refine Protocol.ensures_query _ (fun _ _ => trivial) fun d hd _ => ⟨trivial, ?_⟩
  intro c locked found ws' _ hresp
  rcases claim_cases hresp with ⟨rfl, rfl⟩ | ⟨id, e, he, hclaim, -, rfl, rfl⟩
  · exact fun _ _ _ => trivial
  · dsimp only [List.nil_append, Execution.claimed_runId]
    cases hrun : e.runId with
    | none => exact fun _ _ _ => trivial
    | some r =>
        refine Protocol.ensures_query _ (fun _ _ => trivial) fun d' hd' hr => ⟨trivial, ?_⟩
        intro c' locked' row ws'' _ hresp'
        obtain ⟨rfl, rfl⟩ := Prod.mk.inj (Option.some.inj hresp')
        rw [List.append_nil]
        by_cases hR : r = R.id
        · subst hR
          obtain ⟨σ, hσ, -⟩ := hd
          have hclaimed := (hσ.claimed he hrun hclaim (deps t).workerId
            (c.now + 1000 * (deps t).leaseSeconds)).of_rely hr
          obtain ⟨run, hrow, hspec, hinput⟩ := hclaimed.run_row hd'
          rw [hrow]
          exact requests_claimed hd' hclaimed hspec hinput rfl (deps t)
        · cases (platform.view d' _).runs.rows r with
          | none => exact fun _ _ _ => trivial
          | some run =>
              obtain ⟨f, hf, hfr, -⟩ := hr.keeps.symm.present he
              exact requests_foreign hR (Script.all_tryCatch (tame_processExecution r id _ _ _).all
                fun err => all_handleFailure r id err) ⟨f, hf, hfr.trans hrun⟩

/-! ### The configured timeout -/

def HasTimeout (timeoutMs : ℕ) : Op → Prop
  | .fetch _ _ body _ => body.timeoutMs = timeoutMs
  | _ => True

theorem hasTimeout_of_calm {r timeoutMs : ℕ} (op : Op) (h : Calm r id op) :
    HasTimeout timeoutMs op := by
  cases op with
  | fetch => cases h
  | _ => trivial

theorem buildInvokeRequest_timeout {params : BuildInvokeRequestParams} {request : InvokeRequest}
    (h : buildInvokeRequest params = .ok request) : request.timeoutMs = params.timeoutMs := by
  obtain ⟨rendered, -, h⟩ := bind_eq_ok.mp h
  obtain ⟨args, -, h⟩ := bind_eq_ok.mp h
  cases h
  rfl

theorem dispatchStep_timeout (agentBaseUrl : String) (params : BuildInvokeRequestParams)
    (authToken : Option String) :
    (dispatchStep agentBaseUrl params authToken).All (HasTimeout params.timeoutMs) := by
  unfold dispatchStep
  cases hreq : buildInvokeRequest params with
  | error err => trivial
  | ok request =>
      rw [Script.lift_ok, Script.done_ok_bind]
      refine Script.all_bind (Script.all_bind ?_ fun _ => Script.all_done _ _) fun _ =>
        Script.all_done _ _
      exact (Script.all_perform _ _).mpr (buildInvokeRequest_timeout hreq)

/-- A worker's requests have the timeout it is configured with. -/
theorem runOnceBody_timeout (deps : WorkerDeps) :
    (runOnceBody deps).All (HasTimeout deps.invokeTimeoutMs) := by
  refine Script.all_bind ((Script.all_perform _ _).mpr trivial) fun found => ?_
  cases found with
  | none => trivial
  | some row =>
      obtain ⟨id, execution⟩ := row
      dsimp only
      cases execution.runId with
      | none => trivial
      | some r =>
          refine Script.all_bind ((Script.all_perform _ _).mpr trivial) fun run => ?_
          cases run with
          | none => trivial
          | some run =>
              refine Script.all_tryCatch ?_ fun err =>
                all_handle hasTimeout_of_calm (fun _ _ _ => trivial) err
              rw [processExecution_eq]
              refine Script.all_bind ?_ fun p =>
                all_settle hasTimeout_of_calm (fun _ _ _ => trivial) run p.1 p.2
              exact Script.all_bind (Script.all_done _ _) fun node =>
                Script.all_bind (tame_resolveStepReads r (fun _ => trivial) _ _).all fun input =>
                Script.all_bind (dispatchStep_timeout deps.agentBaseUrl
                  { executionId := id, step := node, resolvedInput := input
                    timeoutMs := deps.invokeTimeoutMs } deps.agentAuthToken) fun result =>
                Script.all_done _ _

/-! ### Two attempts -/

variable {n : ℕ} {deps : Fin n → WorkerDeps} {timeoutMs : ℕ} {body body' : InvokeRequest}
variable {st st₁ : WorkerSystem n}

/-- The worker is about to send this request. -/
def Sends (st : WorkerSystem n) (t : Fin n) (body : InvokeRequest) : Prop :=
  ∃ url auth fetchTimeoutMs next ws ab,
    st.txns t = some ⟨.call (.fetch url auth body fetchTimeoutMs) next, ws, ab⟩

/-- A worker with this timeout sent the request on the way to `st`. -/
def Sent (deps : Fin n → WorkerDeps) (env : Op → Choice → Prop) (db : Db) (timeoutMs : ℕ)
    (st : WorkerSystem n) (body : InvokeRequest) : Prop :=
  ∃ st₁ t, platform.Reaches (runWorkers deps) env (Store.idle db) st₁ ∧
    platform.Reaches (runWorkers deps) env st₁ st ∧ (deps t).invokeTimeoutMs = timeoutMs ∧
    Sends st₁ t body

/-- The request is for an execution of the run. -/
def ForRun (R : SubmittedRun) (db : Db) (body : InvokeRequest) : Prop :=
  ∃ i e, db.executions.rows i = some e ∧ e.runId = some R.id ∧ body.executionId = Nat.repr i

/-- What an agent keeps under a key: the responses to requests with that key, each
with the request that was run for it. -/
def RanFor {ρ : Type} (deps : Fin n → WorkerDeps) (env : Op → Choice → Prop) (db : Db)
    (st : WorkerSystem n) (k : Dedup.Key) (ran : Agent.InvokeRequest × ρ) : Prop :=
  Agent.Server.keyOf ran.1 = k ∧
    ∃ timeoutMs body, Sent deps env db timeoutMs st body ∧ body.onWire = ran.1

/-- A run of the agent's store on the requests that the workers have sent. -/
abbrev ServesRequests {ρ : Type} (deps : Fin n → WorkerDeps) (env : Op → Choice → Prop) (db : Db)
    (st : WorkerSystem n) :
    Dedup.Store (Agent.InvokeRequest × ρ) → Dedup.Store (Agent.InvokeRequest × ρ) → Prop :=
  Dedup.Flights.ReportRun (RanFor deps env db st)

theorem Sends.timeout (hreach : platform.Reaches (runWorkers deps) env (Store.idle db) st)
    {t : Fin n} (h : Sends st t body) : body.timeoutMs = (deps t).invokeTimeoutMs := by
  obtain ⟨url, auth, fetchTimeoutMs, next, ws, ab, ht⟩ := h
  exact ((Store.inProgram_reaches hreach).all ht (runOnceBody_timeout (deps t))).1

theorem Sent.timeout (h : Sent deps env db timeoutMs st body) : body.timeoutMs = timeoutMs := by
  obtain ⟨st₁, t, hreach, -, htimeout, hsends⟩ := h
  rw [hsends.timeout hreach, htimeout]

/-- A request that the rows determined once is the one that they determine later. -/
theorem stepRequest_stable (hr : RunRely R admits ws a b)
    (ha : ∃ σ, Represents R a σ ∧ Consistent R.graph admits σ)
    {deps deps' : WorkerDeps} {run run' : WorkflowRun} {i : ℕ} {e f : Execution} {step : Step}
    (hspec : run.spec = R.spec) (hinput : run.input = R.input) (hspec' : run'.spec = R.spec)
    (hinput' : run'.input = R.input) (hstep : f.step = e.step)
    (hrec : ∀ d ∈ computeStepDependencies step, Recorded R a d)
    (h : stepRequest deps a R.id run i e = .ok (step, body))
    (htimeout : deps'.invokeTimeoutMs = deps.invokeTimeoutMs) :
    stepRequest deps' b R.id run' i f = .ok (step, body) := by
  obtain ⟨σ, hσ, hc⟩ := ha
  obtain ⟨node, hnode, h⟩ := bind_eq_ok.mp h
  obtain ⟨input, hread, h⟩ := bind_eq_ok.mp h
  obtain ⟨request, hreq, h⟩ := bind_eq_ok.mp h
  cases h
  have hnode' : findRunStepNode run' f.step = .ok step := by
    rw [← hnode, findRunStepNode, findRunStepNode, hspec, hspec', hstep]
  have hread' : stepInput b R.id run' step = .ok input := by
    rw [← hread]
    refine stepInput_congr (hinput'.trans hinput.symm) fun d hd => ?_
    have hsome := (hσ.recorded d).mp (hrec d hd)
    obtain ⟨output, ho⟩ := Option.isSome_iff_exists.mp hsome
    rw [hr.lookup hσ hc ho, hσ.outputs, ho]
  exact bind_eq_ok.mpr ⟨step, hnode', bind_eq_ok.mpr ⟨input, hread',
    bind_eq_ok.mpr ⟨body, by rw [htimeout]; exact hreq, rfl⟩⟩⟩

/-- What was sent for an execution of the run is what the rows determine now. -/
theorem Sent.determined (hsub : Submitted R db) (h : Sent deps env db timeoutMs st body)
    {i : ℕ} {f : Execution} (hf : st.db.executions.rows i = some f) (hrun : f.runId = some R.id)
    (hid : body.executionId = Nat.repr i) {now : WorkerDeps} {run : WorkflowRun}
    (hnow : now.invokeTimeoutMs = timeoutMs) (hspec : run.spec = R.spec)
    (hinput : run.input = R.input) : ∃ step, stepRequest now st.db R.id run i f = .ok (step, body) := by
  obtain ⟨st₁, t, hreach, hlater, htimeout, hsends⟩ := h
  have hbody := hsends.timeout hreach
  obtain ⟨url, auth, fetchTimeoutMs, next, ws, ab, ht⟩ := hsends
  have hsound := Protocol.Sound.reaches (requests_follow deps)
    (Protocol.sound_idle ⟨initial R.graph, hsub.represents, consistent_initial⟩) hreach
  have hrely : RunRely R (fun _ _ => True) [] st₁.db st.db :=
    hsound.rely_reaches (requests_follow deps) hlater
  obtain ⟨e, he, heq, hstep⟩ := hrely.keeps.present hf
  obtain ⟨deps₀, run₀, step, hspec₀, hinput₀, hrec, hreq⟩ :=
    hsound.pre ht (.inr rfl) i e he (heq.trans hrun) hid
  have hsame : deps₀.invokeTimeoutMs = body.timeoutMs := by
    obtain ⟨node, -, h⟩ := bind_eq_ok.mp hreq
    obtain ⟨input, -, h⟩ := bind_eq_ok.mp h
    obtain ⟨request, hb, h⟩ := bind_eq_ok.mp h
    cases h
    exact (buildInvokeRequest_timeout hb).symm
  refine ⟨step, stepRequest_stable hrely hsound.inv hspec₀ hinput₀ hspec hinput hstep.symm hrec
    hreq ?_⟩
  rw [hnow, hsame, hbody, htimeout]

/-- All requests that workers with the same timeout ever send for an execution of
the run are one and the same. A follower for its key, whom the agent answers from its
store, gets the response to exactly this request. -/
theorem requests_identical (hsub : Submitted R db) (h : Sent deps env db timeoutMs st body)
    (hrun : ForRun R st.db body) :
    (∀ body', Sent deps env db timeoutMs st body' → body'.executionId = body.executionId →
      body' = body) ∧
    ∀ {ρ : Type} (ttl maxLease : ℤ) (now : ℕ) (store : Dedup.Store (Agent.InvokeRequest × ρ)),
      ServesRequests deps env db st (Dedup.Store.empty ttl maxLease now) store →
      ∀ f ∈ store.followers, ∀ e, store.heap.rows f.flight = some e →
        e.key = Agent.Server.keyOf body.onWire →
        ∀ r ∈ f.sent, ∀ ran response, r.response = some (ran, response) →
          ran.timeoutMs = timeoutMs → ran = body.onWire := by
  obtain ⟨i, f, hf, hfrun, hid⟩ := hrun
  obtain ⟨-, t, -, -, htimeout, -⟩ := id h
  have hall : ∀ body', Sent deps env db timeoutMs st body' →
      body'.executionId = body.executionId → body' = body := by
    intro body' h' hsame
    let run : WorkflowRun := { sessionId := none, spec := R.spec, input := R.input }
    have hspec : run.spec = R.spec := rfl
    have hinput : run.input = R.input := rfl
    obtain ⟨step, hreq⟩ := h.determined hsub hf hfrun hid htimeout hspec hinput
    obtain ⟨step', hreq'⟩ := h'.determined hsub hf hfrun (hsame.trans hid) htimeout hspec hinput
    rw [hreq'] at hreq
    exact (Prod.mk.inj (Except.ok.inj hreq)).2
  refine ⟨hall, fun ttl maxLease now store hserves f hf e he hkey r hr ran response hresponse
    hran => ?_⟩
  obtain ⟨hsame, sentMs, body', h', rfl⟩ :=
    Dedup.Flights.follower_allowed hserves hf he hr hresponse
  have hexecution : body'.executionId = body.executionId :=
    congrArg Dedup.Key.executionId (hsame.trans hkey)
  have hms : sentMs = timeoutMs := h'.timeout.symm.trans (Int.ofNat_inj.mp hran)
  rw [hall body' (hms ▸ h') hexecution]

end

/-- The request that a worker is about to send. -/
def pendingRequest {n : ℕ} (st : WorkerSystem n) (t : Fin n) : Option InvokeRequest :=
  match st.txns t with
  | some ⟨.call (.fetch _ _ body _) _, _, _⟩ => some body
  | _ => none

theorem pendingRequest_sends {n : ℕ} {st : WorkerSystem n} {t : Fin n} {body : InvokeRequest}
    (h : pendingRequest st t = some body) : Sends st t body := by
  unfold pendingRequest at h
  split at h
  · next url auth q fetchTimeoutMs next ws ab ht =>
      cases h
      exact ⟨url, auth, fetchTimeoutMs, next, ws, ab, ht⟩
  · cases h

/-- The store after a request, its response, and a second request with the key. -/
def askedTwice {ρ : Type} (k : Dedup.Key) (response : ρ) : Dedup.Store ρ :=
  ((((Dedup.Store.empty 30 300 0).step (.attach k 0)).step
    (.resolve k { response := some response })).step (.attach k 0))

theorem askedTwice_follower {ρ : Type} (k : Dedup.Key) (response : ρ) :
    (∃ e, (askedTwice k response).heap.rows 1 = some e ∧ e.key = k) ∧
      (askedTwice k response).followers = [{
        flight := 1
        forward := .finished
        sent := [{ response := some response }]
        closings := 1 }] := by
  constructor <;>
    simp [askedTwice, Dedup.Store.step, Dedup.Store.attach, Dedup.Store.resolve, Dedup.Store.empty,
      Dedup.Store.sweepLocked, Dedup.Store.insertEntry, Dedup.Store.settled, Dedup.Store.stale,
      Dedup.Store.dead, Table.insertAt, Table.modify, Table.map, Table.empty, Option.filter]

theorem askedTwice_serves {ρ : Type} {n : ℕ} {deps : Fin n → WorkerDeps}
    {env : Op → Choice → Prop} {db : Db} {st : WorkerSystem n} {k : Dedup.Key}
    {ran : Agent.InvokeRequest × ρ} (h : RanFor deps env db st k ran) :
    ServesRequests deps env db st (Dedup.Store.empty 30 300 0) (askedTwice k ran) := by
  refine .tail (.tail (.single ⟨.attach k 0, trivial, rfl⟩) ⟨.resolve k _, ?_, rfl⟩)
    ⟨.attach k 0, trivial, rfl⟩
  rintro _ ⟨⟩
  exact h

/-- One worker crashes with its request sent, another one claims the execution again,
and its request is answered with the response to the first. -/
theorem requests_identical_retry : ∃ (st : WorkerSystem 2) (body : InvokeRequest),
    Sent (fun _ => workerDeps) (fun _ _ => True) (readerDb "first") workerDeps.invokeTimeoutMs st
      body ∧ Sends st 1 body ∧
    ∃ store : Dedup.Store (Agent.InvokeRequest × Unit),
      ServesRequests (fun _ => workerDeps) (fun _ _ => True) (readerDb "first") st
        (Dedup.Store.empty 30 300 0) store ∧
      ∃ f ∈ store.followers, (∃ r ∈ f.sent, r.response.isSome = true) ∧
        ∀ r ∈ f.sent, ∀ ran response, r.response = some (ran, response) →
          ran.timeoutMs = workerDeps.invokeTimeoutMs → ran = body.onWire := by
  let c : Choice := { now := 0 }
  have hrun : (platform.steps (runWorkers fun _ => workerDeps) (Store.idle (readerDb "first"))
      [.begin 0, .call (0 : Fin 2) c, .call 0 c]).any (fun st₁ =>
        (pendingRequest st₁ 0).any (·.executionId = Nat.repr 1) &&
        (platform.steps (runWorkers fun _ => workerDeps) st₁
          [.crash 0, .begin 1, .call 1 c, .call 1 c]).any fun st =>
            (pendingRequest st 1).any (·.executionId = Nat.repr 1) &&
            (st.db.executions.rows 1).any (·.runId = some (readerRun "first" rfl).id)) = true := by
    decide
  obtain ⟨st₁, hst₁, h⟩ := (Option.any_eq_true ..).mp hrun
  simp only [Bool.and_eq_true, Option.any_eq_true, decide_eq_true_eq] at h
  obtain ⟨⟨body, hbody, hid⟩, st, hst, ⟨body', hbody', hid'⟩, e, he, hrow⟩ := h
  have hreach : platform.Reaches (runWorkers fun _ => workerDeps) (fun _ _ => True)
      (Store.idle (readerDb "first")) st₁ := platform.steps_reaches (fun _ _ => trivial) hst₁
  have hlater : platform.Reaches (runWorkers fun _ => workerDeps) (fun _ _ => True) st₁ st :=
    platform.steps_reaches (fun _ _ => trivial) hst
  have hsent : Sent (fun _ => workerDeps) (fun _ _ => True) (readerDb "first")
      workerDeps.invokeTimeoutMs st body :=
    ⟨st₁, 0, hreach, hlater, rfl, pendingRequest_sends hbody⟩
  obtain ⟨hone, hserved⟩ := requests_identical readerRun_submitted hsent ⟨1, e, he, hrow, hid⟩
  have hsame := hone body'
    ⟨st, 1, hreach.trans hlater, .refl, rfl, pendingRequest_sends hbody'⟩ (hid'.trans hid.symm)
  have hserves := askedTwice_serves (show RanFor (fun _ => workerDeps) (fun _ _ => True)
    (readerDb "first") st (Agent.Server.keyOf body.onWire) (body.onWire, ()) from
      ⟨rfl, _, body, hsent, rfl⟩)
  obtain ⟨⟨entry, hentry, hkey⟩, hfollowers⟩ :=
    askedTwice_follower (Agent.Server.keyOf body.onWire) (body.onWire, ())
  have hmem := hfollowers ▸ List.mem_singleton_self _
  exact ⟨st, body, hsent, hsame ▸ pendingRequest_sends hbody', _, hserves, _, hmem,
    ⟨_, List.mem_singleton_self _, rfl⟩, hserved 30 300 0 _ hserves _ hmem entry hentry hkey⟩

end WorkflowPlatform
