import WorkflowPlatform.LockOrder
import WorkflowPlatform.RunInvariant

/-!
# When workers wait for each other

A transaction that fails a run waits, under the run's lock, for every execution
of the run whose committed status is still open, also for one that a sibling has
claimed and is working on. That sibling takes the run's lock next. As long as
nobody asks for the row of a run while another transaction is failing that run,
no cycle of waits arises, however many runs and workers there are.
-/
namespace WorkflowPlatform

section
variable {n : ℕ}

/-- The worker is about to take the row of the run. -/
def AsksForRun (st : WorkerSystem n) (t : Fin n) (r : ℕ) : Prop :=
  ∃ op next ws, st.txns t = some ⟨.call op next, ws, false⟩ ∧
    (op = .lockRunForUpdate r ∨ op = .markRunFailed r)

/-- The worker has failed the run and not committed that yet. -/
def FailsRun (st : WorkerSystem n) (t : Fin n) (r : ℕ) : Prop :=
  ∃ T, st.txns t = some T ∧ .runStatus r .failed ∈ T.writes

/-- Nobody asks for the row of a run that another worker is failing. -/
def Unchallenged (st : WorkerSystem n) : Prop :=
  ∀ t u r, t ≠ u → AsksForRun st t r → ¬ FailsRun st u r

variable {env : Op → Choice → Prop} {st : WorkerSystem n} {t u v : Fin n}

/-- A worker that waits is in one of the two stages. -/
theorem waits_stage (hs : (lockProtocol env).Sound InPlace st) (h : platform.WaitsFor st t u) :
    ∃ op next ws, st.txns t = some ⟨.call op next, ws, false⟩ ∧
      ((∃ r id, AsksForRun st t r ∧ Claiming r id ws st.db) ∨ ∃ r id, Holding r id ws st.db) := by
  obtain ⟨-, op, next, ws, U, ht, -, row, hrow, -⟩ := h
  refine ⟨op, next, ws, ht, ?_⟩
  have hpre : lockPre op ws st.db := hs.pre ht (.inl rfl)
  cases op with
  | lockRunForUpdate r =>
      obtain ⟨id, h | h⟩ := hpre
      · exact .inl ⟨r, id, ⟨_, next, ws, ht, .inl rfl⟩, h⟩
      · exact .inr ⟨r, id, h⟩
  | markRunFailed r =>
      obtain ⟨id, h | h⟩ := hpre
      · exact .inl ⟨r, id, ⟨_, next, ws, ht, .inr rfl⟩, h⟩
      · exact .inr ⟨r, id, h⟩
  | failIfRemaining r i =>
      obtain ⟨⟨id, h⟩, -⟩ := hpre
      exact .inr ⟨r, id, h⟩
  | markExecutionDone id | markExecutionFailed id | insertCheckpoint id =>
      obtain ⟨r, h⟩ := hpre
      exact .inr ⟨r, id, h⟩
  | promoteBlockedToQueued r | insertRunNodeOutput r | markRunDone r =>
      obtain ⟨id, h⟩ := hpre
      exact .inr ⟨r, id, h⟩
  | enqueueForRun | insertRun => cases hpre
  | _ => cases hrow

/-- The stage of a waiting worker says which rows it holds. -/
theorem waits_held (hs : (lockProtocol env).Sound InPlace st) (h : platform.WaitsFor st u v)
    {U : Txn Op Resp Failure Bool Write} (hU : st.txns u = some U) {row : Row}
    (hlock : platform.locks U.writes row = true) :
    (∃ r id, row = .execution id ∧ AsksForRun st u r ∧ Claiming r id U.writes st.db) ∨
      ∃ r id, Within r id st.db row ∧ Holding r id U.writes st.db := by
  obtain ⟨op, next, ws, hu, hstage⟩ := waits_stage hs h
  rw [hU] at hu
  cases hu
  obtain ⟨w, hw, hwrow⟩ := platform.locks_iff.mp hlock
  change w.row = row at hwrow
  rcases hstage with ⟨r, id, hasks, h⟩ | ⟨r, id, h⟩
  · exact .inl ⟨r, id, hwrow ▸ h.only w hw, hasks, h⟩
  · exact .inr ⟨r, id, hwrow ▸ h.within w hw, h⟩

/-- Two waits in a row start with a worker that has only its claim and waits for
its run. -/
theorem waits_claiming (hs : (lockProtocol env).Sound InPlace st) (hcalm : Unchallenged st)
    (htu : platform.WaitsFor st t u) (huv : platform.WaitsFor st u v) :
    ∃ r id op next ws U, st.txns t = some ⟨.call op next, ws, false⟩ ∧ Claiming r id ws st.db ∧
      st.txns u = some U ∧ platform.locks U.writes (.run r) = true := by
  obtain ⟨hne, op, next, ws, U, ht, hu, row, hrow, hlock⟩ := htu
  have hheld := waits_held hs huv hu hlock
  have hpre : lockPre op ws st.db := hs.pre ht (.inl rfl)
  have hex : ∀ row, platform.locks ws row = true → platform.locks U.writes row = true → False := by
    intro row h h'
    rw [hs.exclusive t u _ _ hne ht hu row h] at h'
    cases h'
  have hown : ∀ r id, Holding r id ws st.db → row = .run r ∨ row = .execution id → False := by
    rintro r id h (rfl | rfl)
    · exact hex _ h.run hlock
    · exact hex _ h.locked hlock
  cases op with
  | lockRunForUpdate r | markRunFailed r =>
      obtain rfl : row = .run r := List.mem_singleton.mp (List.mem_ite_nil_right.mp hrow).2
      obtain ⟨id, h | h⟩ := hpre
      · exact ⟨r, id, _, next, ws, _, ht, h, hu, hlock⟩
      · exact (hown r id h (.inl rfl)).elim
  | markExecutionDone i | markExecutionFailed i =>
      obtain rfl : row = .execution i := List.mem_singleton.mp (List.mem_ite_nil_right.mp hrow).2
      obtain ⟨r, h⟩ := hpre
      exact (hown r i h (.inr rfl)).elim
  | markRunDone r =>
      obtain rfl : row = .run r := List.mem_singleton.mp (List.mem_ite_nil_right.mp hrow).2
      obtain ⟨id, h⟩ := hpre
      exact (hown r id h (.inl rfl)).elim
  | failIfRemaining r i =>
      obtain rfl : row = .execution i := List.mem_singleton.mp hrow
      obtain ⟨⟨id, h⟩, hfailed, e, he, hrun⟩ := hpre
      rcases hheld with ⟨r', id', hid, hasks, h'⟩ | ⟨r', id', ⟨f, hf, hfr⟩, h'⟩
      · cases hid
        obtain ⟨f, hf, hfr, -⟩ := h'.row
        rw [he] at hf
        cases hf
        obtain rfl : r = r' := Option.some.inj (hrun.symm.trans hfr)
        exact (hcalm u t r (Ne.symm hne) hasks ⟨_, ht, hfailed⟩).elim
      · rw [he] at hf
        cases hf
        obtain rfl : r = r' := Option.some.inj (hrun.symm.trans hfr)
        exact (hex _ h.run h'.run).elim
  | promoteBlockedToQueued r step =>
      obtain ⟨j, hj, rfl⟩ := List.mem_map.mp hrow
      obtain ⟨id, h⟩ := hpre
      obtain ⟨f, hf, hp⟩ := Db.mem_executionIds.mp hj
      simp only [blockedIn, Bool.and_eq_true, decide_eq_true_eq] at hp
      have hfree : platform.locks ws (.execution j) = false := by
        by_contra hc
        exact hex _ (by simpa using hc) hlock
      rw [view_execution hfree] at hf
      rcases hheld with ⟨r', id', hid, -, h'⟩ | ⟨r', id', ⟨e, he, hrun⟩, h'⟩
      · cases hid
        obtain ⟨e, he, -, hstatus⟩ := h'.row
        rw [hf] at he
        cases he
        exact (hstatus hp.2).elim
      · rw [hf] at he
        cases he
        obtain rfl : r = r' := Option.some.inj (hp.1.1.symm.trans hrun)
        exact (hex _ h.run h'.run).elim
  | insertCheckpoint i step =>
      obtain rfl : row = .checkpoint i step := List.mem_singleton.mp hrow
      obtain ⟨r, h⟩ := hpre
      rcases hheld with ⟨r', id', hid, -⟩ | ⟨r', id', rfl, h'⟩
      · cases hid
      · exact (hex _ h.locked h'.locked).elim
  | insertRunNodeOutput r node =>
      obtain rfl : row = .output r node := List.mem_singleton.mp hrow
      obtain ⟨id, h⟩ := hpre
      rcases hheld with ⟨r', id', hid, -⟩ | ⟨r', id', rfl, h'⟩
      · cases hid
      · exact (hex _ h.run h'.run).elim
  | enqueueForRun | insertRun => cases hpre
  | _ => cases hrow

/-- Workers that never ask for the row of a run somebody is failing do not
deadlock. -/
theorem deadlock_free {deps : Fin n → WorkerDeps} {db : Db}
    (hrun : Relation.ReflTransGen (fun s s' => platform.Step (runWorkers deps) env s s' ∧
      Unchallenged s') (Store.idle db) st) : ¬ platform.Deadlock st := by
  have hreach : platform.Reaches (runWorkers deps) env (Store.idle db) st := by
    induction hrun with
    | refl => exact .refl
    | tail _ hstep ih => exact ih.tail hstep.1
  have hfollows : (lockProtocol env).Follows InPlace (runWorkers deps) := follows_locks deps
  have hs := Protocol.Sound.reaches hfollows (Protocol.sound_idle trivial) hreach
  have hcalm : Unchallenged st := by
    rcases Relation.ReflTransGen.cases_tail hrun with rfl | ⟨s, -, hstep⟩
    · rintro t u r - ⟨op, next, ws, ht, -⟩
      cases ht
    · exact hstep.2
  refine platform.not_deadlock fun t u v w htu huv hvw => ?_
  obtain ⟨r, _, _, _, _, U, -, -, hU, hlock⟩ := waits_claiming hs hcalm htu huv
  obtain ⟨_, id, op, next, ws, _, hu, hclaiming, -⟩ := waits_claiming hs hcalm huv hvw
  rw [hu] at hU
  cases hU
  obtain ⟨x, hx, hrow⟩ := platform.locks_iff.mp hlock
  have := hclaiming.only x hx
  rw [show x.row = .run r from hrow] at this
  cases this

/-- The run whose row a worker is about to take. -/
def askedRun (st : WorkerSystem n) (t : Fin n) : Option ℕ :=
  match st.txns t with
  | some ⟨.call (.lockRunForUpdate r) _, _, false⟩ => some r
  | some ⟨.call (.markRunFailed r) _, _, false⟩ => some r
  | _ => none

theorem AsksForRun.asked {r : ℕ} (h : AsksForRun st t r) : askedRun st t = some r := by
  obtain ⟨op, next, ws, ht, rfl | rfl⟩ := h <;> simp only [askedRun, ht]

def Write.failsRun (r : ℕ) : Write → Bool
  | .runStatus i .failed => i = r
  | _ => false

/-- `Unchallenged`, computed. -/
def unchallenged (st : WorkerSystem n) : Bool :=
  (List.finRange n).all fun t => (askedRun st t).all fun r => (List.finRange n).all fun u =>
    t = u || (st.txns u).all fun U => !U.writes.any (Write.failsRun r)

theorem unchallenged_sound (h : unchallenged st = true) : Unchallenged st := by
  rintro t u r hne hasks ⟨U, hU, hfailed⟩
  have ht := List.all_eq_true.mp h t (List.mem_finRange t)
  rw [hasks.asked, Option.all_some] at ht
  have hu := List.all_eq_true.mp ht u (List.mem_finRange u)
  rw [hU, Option.all_some, decide_eq_false hne, Bool.false_or, Bool.not_eq_true',
    List.any_eq_false] at hu
  exact hu _ hfailed (by simp [Write.failsRun])

/-- A schedule along which nobody asks for a run that is being failed. -/
def calmSteps (program : Fin n → Tx Bool) :
    WorkerSystem n → List (Label n Choice) → Option (WorkerSystem n)
  | st, [] => some st
  | st, l :: ls => (platform.step program st l).bind fun st' =>
      if unchallenged st' then calmSteps program st' ls else none

theorem calmSteps_reaches {program : Fin n → Tx Bool} {ls : List (Label n Choice)}
    {st' : WorkerSystem n} (h : calmSteps program st ls = some st') :
    Relation.ReflTransGen (fun s s' => platform.Step program (fun _ _ => True) s s' ∧
      Unchallenged s') st st' := by
  induction ls generalizing st with
  | nil =>
      cases h
      exact .refl
  | cons l ls ih =>
      obtain ⟨s, hs, hrest⟩ := Option.bind_eq_some_iff.mp h
      split_ifs at hrest with hcalm
      have hl : Store.Allowed (fun _ _ => True) st l :=
        Store.allowed_of_forall (fun _ _ => trivial) st l
      exact .head ⟨⟨l, hl, hs⟩, unchallenged_sound hcalm⟩ (ih hrest)

end

/-- Two steps that can be worked on at the same time. -/
def parallelSteps : List Step :=
  [{ id := "left", service := "tool@sha256:aa", function := "run" },
   { id := "right", service := "tool@sha256:aa", function := "run" }]

def parallelSpec : WorkflowSpec :=
  { workflowSpecVersion := 1, name := "parallel", steps := parallelSteps.map .step }

def parallelRun : SubmittedRun := ⟨1, parallelSpec, [], parallelSteps, rfl⟩

def parallelDb : Db :=
  (platform.transact { now := 0 } (fun _ => false) (submitRun parallelSpec [] none) .empty).2

theorem parallelRun_submitted : Submitted parallelRun parallelDb :=
  ⟨.empty, { now := 0 }, fun _ => false, none, ⟨none, parallelSpec, [], .running⟩,
    Db.empty_valid, rfl⟩

/-- Both workers dispatch before either completes its step; then both commit. -/
def parallelSchedule : List (Label 2 Choice) :=
  [.begin 0, .begin 1] ++ List.replicate 3 (.call 0 { now := 0, answer := okAnswer [] }) ++
    List.replicate 3 (.call 1 { now := 0, answer := okAnswer [] }) ++
    List.replicate 6 (.call 0 { now := 0 }) ++ [.finish 0] ++
    List.replicate 6 (.call 1 { now := 0 }) ++ [.finish 1]

theorem deadlock_free_parallel : ∃ st : WorkerSystem 2,
    calmSteps (runWorkers fun _ => workerDeps) (Store.idle parallelDb) parallelSchedule = some st ∧
      (st.db.runNodeOutputs 1).length = 2 ∧ ¬ platform.Deadlock st := by
  have hrun : (calmSteps (runWorkers fun _ => workerDeps) (Store.idle parallelDb)
      parallelSchedule).any fun st => (st.db.runNodeOutputs 1).length = 2 := by
    decide +kernel
  obtain ⟨st, hst, houtputs⟩ := (Option.any_eq_true ..).mp hrun
  exact ⟨st, hst, of_decide_eq_true houtputs, deadlock_free (calmSteps_reaches hst)⟩

/-- One worker's step fails while the other's is in flight: the first waits for
the second's execution, the second for the run. -/
theorem failing_sibling_deadlock : ∃ st : WorkerSystem 2,
    Submitted parallelRun parallelDb ∧
    platform.Reaches (runWorkers fun _ => workerDeps) (fun _ _ => True) (Store.idle parallelDb) st ∧
    platform.Deadlock st := by
  let labels : List (Label 2 Choice) := [.begin 0, .begin 1] ++
    List.replicate 3 (.call 0 { now := 0, answer := errorAnswer }) ++
    List.replicate 3 (.call 1 { now := 0, answer := okAnswer [] }) ++
    List.replicate 4 (.call 0 { now := 0 })
  have hrun : (platform.steps (runWorkers fun _ => workerDeps) (Store.idle parallelDb) labels).any
      (fun st => platform.waitsFor st 0 1 && platform.waitsFor st 1 0) = true := by decide
  obtain ⟨st, hst, hwaits⟩ := (Option.any_eq_true ..).mp hrun
  rw [Bool.and_eq_true] at hwaits
  exact ⟨st, parallelRun_submitted, platform.steps_reaches (fun _ _ => trivial) hst, 0,
    .tail (.single (platform.waitsFor_sound hwaits.1)) (platform.waitsFor_sound hwaits.2)⟩

end WorkflowPlatform
