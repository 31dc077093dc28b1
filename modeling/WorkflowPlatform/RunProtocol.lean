import WorkflowPlatform.Frames

/-!
# The protocol of the transactions around one run

What every worker transaction may assume of, and owes to, the others as far as
one submitted run is concerned. The committed rows always represent a consistent
state of the run. Between two looks at them the run only makes steps of its own;
while the run's row is locked nothing of the run changes at all, and a locked
execution keeps its row and its checkpoints.

A transaction keeps the protocol if what it commits is one step of the run under
the run's lock, or nothing of the run.
-/
namespace WorkflowPlatform
open Dataflow

variable (R : SubmittedRun) (admits : String → JsonObject → Prop)

structure RunRely (ws : List Write) (a b : Db) : Prop where
  keeps : Keeps a b
  moves : ∀ σ, Represents R a σ → Consistent R.graph admits σ →
    ∃ σ', Represents R b σ' ∧ Reaches R.graph admits σ σ'
  frozen : platform.locks ws (.run R.id) = true → RunFrozen R.id a b
  held : ∀ i, platform.locks ws (.execution i) = true →
    a.executions.rows i = b.executions.rows i ∧ a.checkpoints i = b.checkpoints i

/-- Some step reads an output of a step with the id `__proto__`. -/
def ReadsProto : Prop :=
  ∃ step ∈ R.steps, ∃ key output, (key, Binding.step "__proto__" output) ∈ step.reads.getD []

/-- An output that is recorded under the id `__proto__`, and read, does not hide
itself behind a falsy property of that name. -/
def ProtoVisible : Prop :=
  ReadsProto R → ∀ output j, admits "__proto__" output → output.lookup "__proto__" = some j →
    (JsValue.json j).truthy = true

/-- A request is only ever sent for a queued execution of the run, and a caught
error of one of its executions is not a missing output. -/
def runPre (op : Op) (db : Db) : Prop :=
  match op with
  | .fetch _ _ body _ => ∀ i e, db.executions.rows i = some e → e.runId = some R.id →
      body.executionId = Nat.repr i → e.status = .queued
  | .log _ record _ => ProtoVisible R admits → ∀ e,
      db.executions.rows record.executionId = some e → e.runId = some R.id →
      ∀ err, record.err = some err → err.isOutputMissing = false
  | _ => True

def runProtocol (env : Op → Choice → Prop) : Protocol platform where
  inv := fun db => ∃ σ, Represents R db σ ∧ Consistent R.graph admits σ
  rely := RunRely R admits
  env := env
  pre := fun op _ db => runPre R admits op db
  rely_refl := fun ws db =>
    ⟨.refl db, fun σ h _ => ⟨σ, h, .refl⟩, fun _ => .refl _ db, fun _ _ => ⟨rfl, rfl⟩⟩
  rely_trans := by
    intro ws a b c h h'
    refine ⟨h.keeps.trans h'.keeps, ?_, fun hl => (h.frozen hl).trans (h'.frozen hl), ?_⟩
    · intro σ hσ hc
      obtain ⟨σ', hσ', hreach⟩ := h.moves σ hσ hc
      obtain ⟨σ'', hσ'', hreach'⟩ := h'.moves σ' hσ' (hc.reaches hreach)
      exact ⟨σ'', hσ'', hreach.trans hreach'⟩
    · intro i hi
      exact ⟨(h.held i hi).1.trans (h'.held i hi).1, (h.held i hi).2.trans (h'.held i hi).2⟩

/-- What a transaction owes the others when it commits. -/
structure Commits (ws : List Write) (db : Db) : Prop where
  inv : ∃ σ, Represents R (platform.view db ws) σ ∧ Consistent R.graph admits σ
  rely : ∀ ws', (∀ row, platform.locks ws row = true → platform.locks ws' row = false) →
    RunRely R admits ws' db (platform.view db ws)

/-- A transaction commits nothing that breaks the protocol. -/
def Keeping (ab : Bool)
    (r : Except Failure Bool) (ws : List Write) (db : Db) : Prop :=
  ab = false → ∀ a, r = .ok a → Commits R admits ws db

variable {R admits} {ws : List Write} {db : Db}

theorem held_of_disjoint {ws' : List Write}
    (hcheck : ∀ i, platform.locks ws (.execution i) = false →
      (platform.view db ws).checkpoints i = db.checkpoints i)
    (hd : ∀ row, platform.locks ws row = true → platform.locks ws' row = false) (i : ℕ)
    (hi : platform.locks ws' (.execution i) = true) :
    db.executions.rows i = (platform.view db ws).executions.rows i ∧
      db.checkpoints i = (platform.view db ws).checkpoints i := by
  have hunlocked : platform.locks ws (.execution i) = false := by
    by_contra hc
    rw [hd _ (by simpa using hc)] at hi
    cases hi
  exact ⟨(view_execution hunlocked).symm, (hcheck i hunlocked).symm⟩

/-- A transaction that leaves the run alone keeps the protocol. -/
theorem Commits.of_frozen (hinv : ∃ σ, Represents R db σ ∧ Consistent R.graph admits σ)
    (hfrozen : RunFrozen R.id db (platform.view db ws))
    (hkeeps : Keeps db (platform.view db ws))
    (hcheck : ∀ i, platform.locks ws (.execution i) = false →
      (platform.view db ws).checkpoints i = db.checkpoints i) : Commits R admits ws db := by
  refine ⟨?_, fun ws' hd => ⟨hkeeps, ?_, fun _ => hfrozen, held_of_disjoint hcheck hd⟩⟩
  · obtain ⟨σ, hσ, hc⟩ := hinv
    exact ⟨σ, hσ.of_frozen hfrozen, hc⟩
  · exact fun σ hσ _ => ⟨σ, hσ.of_frozen hfrozen, .refl⟩

/-- So does one that makes a step of the run under the run's lock. -/
theorem Commits.of_step (hinv : ∃ σ, Represents R db σ ∧ Consistent R.graph admits σ)
    (hstep : ∀ σ, Represents R db σ → Consistent R.graph admits σ →
      ∃ σ', Represents R (platform.view db ws) σ' ∧ Dataflow.Step R.graph admits σ σ')
    (hlock : platform.locks ws (.run R.id) = true) (hkeeps : Keeps db (platform.view db ws))
    (hcheck : ∀ i, platform.locks ws (.execution i) = false →
      (platform.view db ws).checkpoints i = db.checkpoints i) : Commits R admits ws db := by
  refine ⟨?_, fun ws' hd => ⟨hkeeps, ?_, ?_, held_of_disjoint hcheck hd⟩⟩
  · obtain ⟨σ, hσ, hc⟩ := hinv
    obtain ⟨σ', hσ', hs⟩ := hstep σ hσ hc
    exact ⟨σ', hσ', hc.step hs⟩
  · intro σ hσ hc
    obtain ⟨σ', hσ', hs⟩ := hstep σ hσ hc
    exact ⟨σ', hσ', .single hs⟩
  · intro hl
    rw [hd _ hlock] at hl
    cases hl

/-- The transaction of a worker that has claimed an execution of the run. -/
structure Claimed (R : SubmittedRun) (id : ℕ) (e : Execution) (ws : List Write) (db : Db) :
    Prop where
  row : db.executions.rows id = some e
  run : e.runId = some R.id
  queued : e.status = .queued
  writes : ∃ now workerId leaseUntil,
    ws = [.satisfyDueWaits id now, .claim id workerId leaseUntil]

section
variable {env : Op → Choice → Prop} {id : ℕ} {e : Execution}

theorem Claimed.locks (h : Claimed R id e ws db) :
    platform.locks ws (.execution id) = true := by
  obtain ⟨now, workerId, leaseUntil, rfl⟩ := h.writes
  simp [Store.locks, platform, Write.row]

theorem Claimed.of_rely {db' : Db} (h : Claimed R id e ws db)
    (hr : RunRely R admits ws db db') : Claimed R id e ws db' :=
  ⟨(hr.held id h.locks).1 ▸ h.row, h.run, h.queued, h.writes⟩

theorem Claimed.view (h : Claimed R id e ws db) : ClaimView db (platform.view db ws) id := by
  obtain ⟨now, workerId, leaseUntil, rfl⟩ := h.writes
  exact claimView db id now workerId leaseUntil

/-- The locks under which the run and the claimed execution are frozen. -/
structure HoldsRun (R : SubmittedRun) (id : ℕ) (ws : List Write) : Prop where
  run : platform.locks ws (.run R.id) = true
  execution : platform.locks ws (.execution id) = true
  own : ∀ w ∈ ws, w.ownCheckpoint id

theorem freezes (R : SubmittedRun) (admits : String → JsonObject → Prop)
    (env : Op → Choice → Prop) (id : ℕ) :
    (runProtocol R admits env).Freezes (Frozen R.id id) (HoldsRun R id) (Calm R.id id) where
  refl := .refl R.id id
  trans := fun _ _ _ => .trans
  frozen := fun ws a b h hr =>
    ⟨hr.frozen h.run, (hr.held id h.execution).1, (hr.held id h.execution).2⟩
  grows := by
    intro op hop c locked ws a r ws' h hr
    refine ⟨?_, ?_, ?_⟩
    · rw [Store.locks_append, h.run, Bool.true_or]
    · rw [Store.locks_append, h.execution, Bool.true_or]
    · intro w hw
      rcases List.mem_append.mp hw with hw | hw
      · exact h.own w hw
      · exact calm_writes hop hr w hw
  answer := fun op hop c locked ws a b h => (h.view ws).respond hop c locked
  pre := by
    intro op hop ws db _
    cases op with
    | fetch | log => cases hop
    | _ => trivial

/-- A script that takes the run's lock first and then makes a step of the run
commits that step, whoever works around it. -/
theorem ensures_step {α : Type} {a : α} {op : Op} {next : Except Failure (Resp op) → Tx α}
    (hclaim : Claimed R id e ws db)
    (hop : op = .lockRunForUpdate R.id ∨ op = .markRunFailed R.id)
    (hcalm : (Script.call op next : Tx α).All (Calm R.id id))
    (heval : ∀ d r s', (∃ σ, Represents R d σ ∧ Consistent R.graph admits σ) →
      Claimed R id e ws d →
      EvaluatesFrom d (platform.view d ws) ((Script.call op next : Tx α) >>= pure) r s' →
      s'.aborted = false → r = .ok a ∧ ∀ σ, Represents R d σ → Consistent R.graph admits σ →
        ∃ σ', Represents R (platform.view d s'.writes) σ' ∧
          Dataflow.Step R.graph admits σ σ') :
    (runProtocol R admits env).Ensures (fun ab r ws' db' => ab = false →
      r = .ok a ∧ Commits R admits ws' db') false (.call op next) ws db := by
  have hacquire : ∀ d c locked (r : Resp op) ws', (runProtocol R admits env).inv d →
      (runProtocol R admits env).rely ws db d →
      platform.respond c (platform.view d ws) locked op = some (r, ws') →
      HoldsRun R id (ws ++ ws') := by
    intro d c locked r ws' hinv hrely hresp
    have hd : Claimed R id e ws d := hclaim.of_rely hrely
    have hrun : ((platform.view d ws).runs.rows R.id).isSome := by
      obtain ⟨σ, hσ, -⟩ := hinv
      obtain ⟨run, hrow, -⟩ := hσ.run
      rw [hd.view.runs, hrow]
      rfl
    have hlock : platform.locks ws' (.run R.id) = true := by
      rcases hop with rfl | rfl
      · obtain ⟨-, rfl⟩ := Prod.mk.inj (Option.some.inj hresp)
        rw [if_pos hrun]
        simp [Store.locks, platform, Write.row]
      · obtain ⟨-, rfl⟩ := Prod.mk.inj (Option.some.inj hresp)
        rw [if_pos hrun]
        simp [Store.locks, platform, Write.row]
    refine ⟨?_, ?_, ?_⟩
    · rw [Store.locks_append, hlock, Bool.or_true]
    · rw [Store.locks_append, hd.locks, Bool.true_or]
    · intro w hw
      rcases List.mem_append.mp hw with hw | hw
      · obtain ⟨now, workerId, leaseUntil, rfl⟩ := hd.writes
        simp only [List.mem_cons, List.not_mem_nil, or_false] at hw
        rcases hw with rfl | rfl <;> rfl
      · exact calm_writes hcalm.1 hresp w hw
  refine (Protocol.ensures_acquire (freezes R admits env id) hcalm.1 hcalm.2 hacquire).mono _ ?_
  intro ab r ws' db' hinv' hpost hab
  obtain ⟨d, hinv, hrely, hsame, hholds, hev⟩ := hpost hab
  have hd : Claimed R id e ws d := hclaim.of_rely hrely
  have hfrom : EvaluatesFrom d (platform.view d ws) ((Script.call op next : Tx α) >>= pure) r
      ⟨ws', false⟩ := by
    refine ⟨ws, rfl, ?_⟩
    rwa [show ((Script.call op next : Tx α) >>= pure) = .call op next from Script.bind_pure _]
  obtain ⟨hr, hstep⟩ := heval d r _ hinv hd hfrom rfl
  refine ⟨hr, Commits.of_step hinv' ?_ hholds.run ?_ ?_⟩
  · intro σ hσ hc
    obtain ⟨σ', hσ', hs⟩ := hstep σ (hσ.of_frozen hsame.toRunFrozen.symm) hc
    exact ⟨σ', hσ'.of_frozen (hsame.view ws').toRunFrozen, hs⟩
  · exact keeps_view fun w hw => (hholds.own w hw).inPlace
  · intro i hi
    refine view_checkpoints hholds.own ?_
    rintro rfl
    rw [hholds.execution] at hi
    cases hi

end
end WorkflowPlatform
