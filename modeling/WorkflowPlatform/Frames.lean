import WorkflowPlatform.RunView

/-!
# What statements leave alone

A write only touches the row it locks, and no write of a worker changes which
run and step an execution belongs to. `RunFrozen` relates two states with the
same rows of a run, `Frozen` two that also agree on one execution and its
checkpoints. The statements of `completeStep` and `failRun` for that run and
execution, `Calm`, cannot tell such states apart.
-/
namespace WorkflowPlatform

theorem write_execution {db : Db} {w : Write} {i : ℕ} (h : w.row ≠ .execution i) :
    (db.write w).executions.rows i = db.executions.rows i := by
  cases w with
  | claim id | executionStatus id => exact Table.modify_other _ _ fun hi => h (hi ▸ rfl)
  | insertExecution id => exact Table.insertAt_other _ _ fun hi => h (hi ▸ rfl)
  | satisfyDueWaits | lockRun | runStatus | insertRun | checkpoint | output => rfl

theorem view_execution {db : Db} {ws : List Write} {i : ℕ}
    (h : platform.locks ws (.execution i) = false) :
    (platform.view db ws).executions.rows i = db.executions.rows i := by
  induction ws generalizing db with
  | nil => rfl
  | cons w rest ih =>
      rw [Store.locks, List.any_cons, Bool.or_eq_false_iff, decide_eq_false_iff_not] at h
      rw [Store.view_cons, ih h.2]
      exact write_execution h.1

/-- Writes that insert nothing. -/
def Write.inPlace : Write → Bool
  | .insertExecution .. => false
  | .insertRun .. => false
  | _ => true

/-- Each execution still belongs to the same run and step. -/
structure Keeps (a b : Db) : Prop where
  executions : ∀ i, (a.executions.rows i).map (fun e => (e.runId, e.step)) =
    (b.executions.rows i).map fun e => (e.runId, e.step)

theorem Keeps.refl (a : Db) : Keeps a a := ⟨fun _ => rfl⟩

theorem Keeps.trans {a b c : Db} (h : Keeps a b) (h' : Keeps b c) : Keeps a c :=
  ⟨fun i => (h.executions i).trans (h'.executions i)⟩

theorem Keeps.runId {a b : Db} (h : Keeps a b) {i : ℕ} {e f : Execution}
    (he : a.executions.rows i = some e) (hf : b.executions.rows i = some f) :
    f.runId = e.runId := by
  have := h.executions i
  rw [he, hf] at this
  exact (Prod.mk.inj (Option.some.inj this)).1.symm

theorem Keeps.present {a b : Db} (h : Keeps a b) {i : ℕ} {f : Execution}
    (hf : b.executions.rows i = some f) : ∃ e, a.executions.rows i = some e ∧
      e.runId = f.runId ∧ e.step = f.step := by
  have := h.executions i
  rw [hf, Option.map_some, Option.map_eq_some_iff] at this
  obtain ⟨e, he, heq⟩ := this
  exact ⟨e, he, (Prod.mk.inj heq).1, (Prod.mk.inj heq).2⟩

theorem Keeps.symm {a b : Db} (h : Keeps a b) : Keeps b a := ⟨fun i => (h.executions i).symm⟩

theorem keeps_write {db : Db} {w : Write} (h : w.inPlace = true) : Keeps db (db.write w) := by
  refine ⟨fun i => ?_⟩
  cases w with
  | claim id | executionStatus id =>
      by_cases hi : i = id
      · simp [Db.write, hi, Table.modify_same, Function.comp_def]
      · simp [Db.write, Table.modify_other _ _ hi]
  | insertExecution | insertRun => cases h
  | satisfyDueWaits | lockRun | runStatus | checkpoint | output => rfl

theorem keeps_view {db : Db} {ws : List Write} (h : ∀ w ∈ ws, w.inPlace = true) :
    Keeps db (platform.view db ws) := by
  induction ws generalizing db with
  | nil => exact .refl db
  | cons w rest ih =>
      exact (keeps_write (h w List.mem_cons_self)).trans
        (ih fun w' hw' => h w' (List.mem_cons_of_mem _ hw'))

/-- The rows of the run are the same. -/
structure RunFrozen (r : ℕ) (a b : Db) : Prop where
  run : a.runs.rows r = b.runs.rows r
  outputs : a.runNodeOutputs r = b.runNodeOutputs r
  members : ∀ i, a.executions.rows i = b.executions.rows i ∨
    (∀ e, a.executions.rows i = some e → e.runId ≠ some r) ∧
      ∀ e, b.executions.rows i = some e → e.runId ≠ some r
  next : a.executions.next = b.executions.next

theorem RunFrozen.refl (r : ℕ) (a : Db) : RunFrozen r a a := ⟨rfl, rfl, fun _ => .inl rfl, rfl⟩

theorem RunFrozen.trans {r : ℕ} {a b c : Db} (h : RunFrozen r a b) (h' : RunFrozen r b c) :
    RunFrozen r a c := by
  refine ⟨h.run.trans h'.run, h.outputs.trans h'.outputs, fun i => ?_, h.next.trans h'.next⟩
  rcases h.members i with hi | hi
  · rcases h'.members i with hi' | hi'
    · exact .inl (hi.trans hi')
    · exact .inr ⟨hi ▸ hi'.1, hi'.2⟩
  · rcases h'.members i with hi' | hi'
    · exact .inr ⟨hi.1, hi' ▸ hi.2⟩
    · exact .inr ⟨hi.1, hi'.2⟩

theorem RunFrozen.symm {r : ℕ} {a b : Db} (h : RunFrozen r a b) : RunFrozen r b a := by
  refine ⟨h.run.symm, h.outputs.symm, fun i => ?_, h.next.symm⟩
  rcases h.members i with hi | hi
  · exact .inl hi.symm
  · exact .inr hi.symm

theorem Represents.of_frozen {R : SubmittedRun} {a b : Db}
    {σ : Dataflow.RunState String JsonObject} (h : Represents R a σ) (hf : RunFrozen R.id a b) :
    Represents R b σ := by
  have hrow : ∀ i e, b.executions.rows i = some e → e.runId = some R.id →
      a.executions.rows i = some e := by
    intro i e he hr
    rcases hf.members i with hi | hi
    · rw [hi, he]
    · exact absurd hr (hi.2 e he)
  refine ⟨hf.run ▸ h.run, fun i e he hr => h.owned i e (hrow i e he hr) hr, ?_, ?_,
    hf.outputs ▸ h.outputs⟩
  · intro i j e e' he he' hr hr' hs
    exact h.unique i j e e' (hrow i e he hr) (hrow j e' he' hr') hr hr' hs
  · intro step hs
    obtain ⟨i, e, he, hr, hstep⟩ := h.present step hs
    rcases hf.members i with hi | hi
    · exact ⟨i, e, hi ▸ he, hr, hstep⟩
    · exact absurd hr (hi.1 e he)

/-- The rows of the run, and one execution with its checkpoints, are the same. -/
structure Frozen (r id : ℕ) (a b : Db) : Prop extends RunFrozen r a b where
  row : a.executions.rows id = b.executions.rows id
  checkpoints : a.checkpoints id = b.checkpoints id

theorem Frozen.refl (r id : ℕ) (a : Db) : Frozen r id a a := ⟨.refl r a, rfl, rfl⟩

theorem Frozen.trans {r id : ℕ} {a b c : Db} (h : Frozen r id a b) (h' : Frozen r id b c) :
    Frozen r id a c :=
  ⟨h.toRunFrozen.trans h'.toRunFrozen, h.row.trans h'.row, h.checkpoints.trans h'.checkpoints⟩

theorem Frozen.map_executions {r id : ℕ} {a b : Db} (h : Frozen r id a b)
    {f : ℕ → Execution → Execution} (hf : ∀ i e, (f i e).runId = e.runId) :
    Frozen r id { a with executions := a.executions.map f }
      { b with executions := b.executions.map f } := by
  refine ⟨⟨h.run, h.outputs, fun i => ?_, h.next⟩, by simp [h.row], h.checkpoints⟩
  rcases h.members i with hi | hi
  · exact .inl (by simp [hi])
  · refine .inr ⟨?_, ?_⟩
    · intro e he
      obtain ⟨e₀, he₀, rfl⟩ := Option.map_eq_some_iff.mp he
      exact hf i e₀ ▸ hi.1 e₀ he₀
    · intro e he
      obtain ⟨e₀, he₀, rfl⟩ := Option.map_eq_some_iff.mp he
      exact hf i e₀ ▸ hi.2 e₀ he₀

theorem Frozen.write {r id : ℕ} {a b : Db} (h : Frozen r id a b) (w : Write) :
    Frozen r id (a.write w) (b.write w) := by
  cases w with
  | satisfyDueWaits | lockRun => exact ⟨⟨h.run, h.outputs, h.members, h.next⟩, h.row, h.checkpoints⟩
  | claim i | executionStatus i =>
      refine h.map_executions fun j e => ?_
      split_ifs <;> rfl
  | insertExecution i e =>
      refine ⟨⟨h.run, h.outputs, fun j => ?_, by simp [Db.write, Table.insertAt, h.next]⟩, ?_,
        h.checkpoints⟩
      · by_cases hj : j = i
        · exact .inl (by simp [Db.write, hj])
        · simpa only [Db.write, Table.insertAt_other _ _ hj] using h.members j
      · by_cases hj : id = i
        · simp [Db.write, hj]
        · simpa only [Db.write, Table.insertAt_other _ _ hj] using h.row
  | runStatus i | insertRun i =>
      refine ⟨⟨?_, h.outputs, h.members, h.next⟩, h.row, h.checkpoints⟩
      by_cases hi : r = i
      · subst hi
        simp [Db.write, Table.modify_same, h.run]
      · simp [Db.write, Table.modify_other _ _ hi, Table.insertAt_other _ _ hi, h.run]
  | checkpoint i step output =>
      refine ⟨⟨h.run, h.outputs, h.members, h.next⟩, h.row, ?_⟩
      by_cases hi : id = i
      · subst hi
        simp [Db.write, h.checkpoints]
      · simp [Db.write, Function.update_of_ne hi, h.checkpoints]
  | output i node output =>
      refine ⟨⟨h.run, ?_, h.members, h.next⟩, h.row, h.checkpoints⟩
      by_cases hi : r = i
      · subst hi
        simp [Db.write, h.outputs]
      · simp [Db.write, Function.update_of_ne hi, h.outputs]

theorem Frozen.view {r id : ℕ} {a b : Db} (h : Frozen r id a b) (ws : List Write) :
    Frozen r id (platform.view a ws) (platform.view b ws) := by
  induction ws generalizing a b with
  | nil => exact h
  | cons w rest ih => exact ih (h.write w)

/-- The statements that look at and write nothing but the run and the execution. -/
def Calm (r id : ℕ) : Op → Prop
  | .markExecutionDone i => i = id
  | .markExecutionFailed i => i = id
  | .insertCheckpoint i .. => i = id
  | .findCheckpoint i .. => i = id
  | .scanRemaining i => i = r
  | .failIfRemaining i _ => i = r
  | .promoteBlockedToQueued i _ => i = r
  | .findRunById i => i = r
  | .lockRunForUpdate i => i = r
  | .markRunDone i => i = r
  | .markRunFailed i => i = r
  | .insertRunNodeOutput i .. => i = r
  | .findRunNodeOutput i .. => i = r
  | .listCompletedNodeIds i => i = r
  | _ => False

theorem Frozen.executionIds {r id : ℕ} {a b : Db} (h : Frozen r id a b) {p : Execution → Bool}
    (hp : ∀ e, p e = true → e.runId = some r) : b.executionIds p = a.executionIds p := by
  rw [Db.executionIds_eq, Db.executionIds_eq, h.next]
  refine List.filter_congr fun i _ => ?_
  rcases h.members i with hi | hi
  · rw [hi]
  · have hnone : ∀ row : Option Execution, (∀ e, row = some e → e.runId ≠ some r) →
        row.any p = false := by
      intro row hrow
      cases row with
      | none => rfl
      | some e =>
          by_contra hc
          exact hrow e rfl (hp e (by simpa using hc))
    rw [hnone _ hi.1, hnone _ hi.2]

theorem Frozen.remaining {r id : ℕ} {a b : Db} (h : Frozen r id a b) (i : ℕ) :
    (b.executions.rows i).any (remainingIn r) = (a.executions.rows i).any (remainingIn r) := by
  rcases h.members i with hi | hi
  · rw [hi]
  · have hnone : ∀ row : Option Execution, (∀ e, row = some e → e.runId ≠ some r) →
        row.any (remainingIn r) = false := by
      intro row hrow
      cases row with
      | none => rfl
      | some e => simp [remainingIn, hrow e rfl]
    rw [hnone _ hi.1, hnone _ hi.2]

/-- Calm statements answer frozen states alike. -/
theorem Frozen.respond {r id : ℕ} {a b : Db} (h : Frozen r id a b) {op : Op} (hop : Calm r id op)
    (c : Choice) (locked : Row → Bool) : b.respond c locked op = a.respond c locked op := by
  cases op with
  | scanRemaining i =>
      cases hop
      have hids := h.executionIds (p := remainingIn r) fun e he => by
        simp only [remainingIn, Bool.and_eq_true, decide_eq_true_eq] at he
        exact he.1
      simp only [Db.respond, hids]
  | promoteBlockedToQueued i step =>
      cases hop
      have hids := h.executionIds (p := blockedIn r step) fun e he => by
        simp only [blockedIn, Bool.and_eq_true, decide_eq_true_eq] at he
        exact he.1.1
      simp only [Db.respond, hids]
  | failIfRemaining i j =>
      cases hop
      simp only [Db.respond, h.remaining]
  | markExecutionDone i | markExecutionFailed i | insertCheckpoint i | findCheckpoint i =>
      cases hop
      simp only [Db.respond, h.row, h.checkpoints]
  | findRunById i | lockRunForUpdate i | markRunDone i | markRunFailed i
  | insertRunNodeOutput i | findRunNodeOutput i | listCompletedNodeIds i =>
      cases hop
      simp only [Db.respond, h.run, h.outputs]
  | claimExecution | enqueueForRun | insertRun | fetch | log => cases hop

/-- A write in place that adds no checkpoint but the given execution's. -/
def Write.ownCheckpoint (id : ℕ) : Write → Prop
  | .checkpoint i .. => i = id
  | w => w.inPlace = true

theorem Write.ownCheckpoint.inPlace {id : ℕ} {w : Write} (h : w.ownCheckpoint id) :
    w.inPlace = true := by
  cases w <;> first | exact h | rfl

theorem calm_writes {r id : ℕ} {db : Db} {c : Choice} {locked : Row → Bool} {op : Op}
    {a : Resp op} {ws : List Write} (hop : Calm r id op)
    (hr : db.respond c locked op = some (a, ws)) : ∀ w ∈ ws, w.ownCheckpoint id := by
  intro w hw
  cases op with
  | promoteBlockedToQueued i step =>
      cases hr
      obtain ⟨j, -, rfl⟩ := List.mem_map.mp hw
      rfl
  | markExecutionDone i | markExecutionFailed i | lockRunForUpdate i | markRunDone i
  | markRunFailed i | failIfRemaining i j | insertCheckpoint i | insertRunNodeOutput i =>
      simp only [Db.respond] at hr
      split_ifs at hr <;> cases hr <;> simp_all [Write.ownCheckpoint, Write.inPlace, Calm]
  | scanRemaining | findRunById | findCheckpoint | findRunNodeOutput | listCompletedNodeIds =>
      cases hr
      cases hw
  | claimExecution | enqueueForRun | insertRun | fetch | log => cases hop

theorem view_checkpoints {id : ℕ} {db : Db} {ws : List Write}
    (h : ∀ w ∈ ws, w.ownCheckpoint id) {i : ℕ} (hi : i ≠ id) :
    (platform.view db ws).checkpoints i = db.checkpoints i := by
  induction ws generalizing db with
  | nil => rfl
  | cons w rest ih =>
      rw [Store.view_cons, ih fun w' hw' => h w' (List.mem_cons_of_mem _ hw')]
      have hw := h w List.mem_cons_self
      cases w with
      | checkpoint j =>
          cases hw
          exact Function.update_of_ne hi ..
      | _ => rfl

end WorkflowPlatform
