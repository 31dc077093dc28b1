import WorkflowPlatform.DurableRun

/-!
# Executions that are done or failed

None of the status writes of a worker looks at the status it replaces. As long as
no late one meets an execution that has come to another end, what is done or
failed stays so, and what has a checkpoint is never handed out again. A worker
whose lease has lapsed is free to break this: it can put to sleep what another
has completed since, and the timer then makes it claimable.
-/
namespace WorkflowPlatform
namespace DurableState

/-- Nobody puts to sleep an execution that is done or failed, completes one that
has failed or fails one that is done. -/
def SparesTerminal (s : DurableState) : DurableEvent → Prop
  | .waitFor _ id _ _ => ∀ e, s.db.executions.rows id = some e → e.status.terminal = false
  | .completeExecution _ id _ _ => ∀ e, s.db.executions.rows id = some e → e.status ≠ .failed
  | .completeStep _ _ _ id _ _ => ∀ e, s.db.executions.rows id = some e → e.status ≠ .failed
  | .failRun _ _ id => ∀ e, s.db.executions.rows id = some e → e.status ≠ .done
  | _ => True

/-- An execution with a checkpoint is done or failed. -/
def CheckpointsEnded (s : DurableState) : Prop :=
  ∀ id step, (s.db.checkpoints id step).isSome = true →
    ∀ e, s.db.executions.rows id = some e → e.status.terminal = true

section
variable {s s' : DurableState} {ev : DurableEvent} {id : ℕ} {e e' : Execution}

theorem terminal_cases {status : ExecutionStatus} (h : status.terminal = true) :
    status = .done ∨ status = .failed := by
  cases status <;> simp [ExecutionStatus.terminal] at h ⊢

theorem not_claimable_of_terminal {db : Db} {now : ℕ} (h : e.status.terminal = true) :
    claimable db now id e = false := by
  rcases terminal_cases h with hs | hs <;> simp [claimable, hs]

theorem Change.terminal (h : s.Change id e ev e') (hallowed : s.SparesTerminal ev)
    (he : s.db.executions.rows id = some e) (hend : e.status.terminal = true) :
    e'.status = e.status := by
  rcases terminal_cases hend with hs | hs <;> cases h with
  | same => rfl
  | claimed hclaim =>
      rw [not_claimable_of_terminal hend] at hclaim
      cases hclaim
  | completed | stepCompleted =>
      first | exact hs.symm | exact absurd hs (hallowed e he)
  | promoted _ hblocked =>
      rw [hs] at hblocked
      cases hblocked
  | slept =>
      have hopen := hallowed e he
      rw [hend] at hopen
      cases hopen
  | woken hwaiting =>
      rw [hs] at hwaiting
      cases hwaiting
  | failed =>
      first | exact hs.symm | exact absurd hs (hallowed e he)
  | abandoned _ hremaining =>
      rw [hs] at hremaining
      cases hremaining

theorem Effect.terminal (h : s.Effect ev s') (hallowed : s.SparesTerminal ev)
    (he : s.db.executions.rows id = some e) (hend : e.status.terminal = true) :
    ∃ e', s'.db.executions.rows id = some e' ∧ e'.status = e.status := by
  obtain ⟨e', he', hchange⟩ := h.change he
  exact ⟨e', he', hchange.terminal hallowed he hend⟩

theorem Run.terminal (h : Run SparesTerminal s s') (he : s.db.executions.rows id = some e)
    (hend : e.status.terminal = true) :
    ∃ e', s'.db.executions.rows id = some e' ∧ e'.status = e.status := by
  refine h.keeps (P := fun t => ∃ e', t.db.executions.rows id = some e' ∧ e'.status = e.status)
    ?_ ⟨e, he, rfl⟩
  intro t t' ev hallowed heffect ⟨e₁, he₁, hs₁⟩
  obtain ⟨e₂, he₂, hs₂⟩ := heffect.terminal hallowed he₁ (hs₁ ▸ hend)
  exact ⟨e₂, he₂, hs₂.trans hs₁⟩

/-! ### Checkpoints -/

/-- A new checkpoint comes with the end of its execution. -/
theorem Effect.checkpoint {step : String} (h : s.Effect ev s')
    (hcheck : (s'.db.checkpoints id step).isSome = true) :
    (s.db.checkpoints id step).isSome = true ∨
      ∀ e', s'.db.executions.rows id = some e' → e'.status = .done := by
  cases h with
  | nothing | claimed | slept | signaled | runFailed | advanced => exact .inl hcheck
  | completed =>
      rename_i workerId stepId i output
      by_cases hi : id = i
      · subst hi
        right
        intro e' he'
        simp only [Db.write, Db.withCheckpoint_executions, Table.modify_same,
          Option.map_eq_some_iff] at he'
        obtain ⟨e, -, rfl⟩ := he'
        rfl
      · left
        change ((s.db.withCheckpoint i stepId (ParsedJson.storedFields output)).checkpoints
          id step).isSome = true at hcheck
        rwa [Db.withCheckpoint_other _ _ (.inl hi)] at hcheck
  | stepCompleted steps =>
      rename_i workerId nodeId runId i run output
      by_cases hi : id = i
      · subst hi
        right
        intro e' he'
        simp only [Db.completed_executions, Table.map_rows, Option.map_eq_some_iff] at he'
        obtain ⟨e, -, rfl⟩ := he'
        simp [Db.completedExecution]
      · left
        rw [Db.completed_checkpoints, Db.withCheckpoint_other _ _ (.inl hi)] at hcheck
        exact hcheck

theorem Effect.checkpointsEnded (h : s.Effect ev s') (hallowed : s.SparesTerminal ev)
    (hs : s.CheckpointsEnded) : s'.CheckpointsEnded := by
  intro id step hcheck e' he'
  rcases h.checkpoint hcheck with hold | hdone
  · obtain ⟨e, he, hchange⟩ := h.before he'
    have hend := hs id step hold e he
    rw [hchange.terminal hallowed he hend]
    exact hend
  · rw [hdone e' he']
    rfl

/-! ### Dispatches -/

@[simp] theorem countP_release (s : DurableState) (workerId : String) (executionId id : ℕ) :
    (s.release workerId executionId).countP (·.executionId = id) = s.dispatches id := by
  rw [release, List.countP_map, dispatches]
  congr 1
  funext claim
  dsimp only [Function.comp_apply]
  split_ifs <;> rfl

/-- Only what is claimable is handed out. -/
theorem Effect.dispatches (h : s.Effect ev s')
    (hend : ∀ e, s.db.executions.rows id = some e → e.status.terminal = true) :
    s'.dispatches id = s.dispatches id := by
  cases h with
  | nothing | signaled | runFailed | advanced => rfl
  | completed | stepCompleted | slept => exact countP_release ..
  | claimed hfirst =>
      rename_i workerId leaseSeconds i locked
      have hne : i ≠ id := by
        rintro rfl
        obtain ⟨e, he, hclaim⟩ := Option.any_eq_true _ _ |>.mp hfirst.1
        rw [not_claimable_of_terminal (hend e he)] at hclaim
        cases hclaim
      simp [DurableState.dispatches, claimedBy, List.countP_append, hne]

theorem Run.dispatches (h : Run SparesTerminal s s')
    (hend : ∀ e, s.db.executions.rows id = some e → e.status.terminal = true) :
    (∀ e, s'.db.executions.rows id = some e → e.status.terminal = true) ∧
      s'.dispatches id = s.dispatches id := by
  refine h.keeps (P := fun t => (∀ e, t.db.executions.rows id = some e →
    e.status.terminal = true) ∧ t.dispatches id = s.dispatches id) ?_ ⟨hend, rfl⟩
  intro t t' ev hallowed heffect ⟨hend₁, hcount⟩
  refine ⟨fun e' he' => ?_, (heffect.dispatches hend₁).trans hcount⟩
  obtain ⟨e, he, hchange⟩ := heffect.before he'
  rw [hchange.terminal hallowed he (hend₁ e he)]
  exact hend₁ e he

/-- As long as the terminal executions are spared, a status that is done or failed
never changes again, and an execution with a checkpoint is never claimable again
and never handed out again. -/
theorem terminal_executions_stay {s₀ : DurableState} (hstart : s₀.CheckpointsEnded)
    (hs : Run SparesTerminal s₀ s) (hs' : Run SparesTerminal s s') (id : ℕ) :
    (∀ e, s.db.executions.rows id = some e → e.status.terminal = true →
      ∃ e', s'.db.executions.rows id = some e' ∧ e'.status = e.status) ∧
    ∀ step, (s.db.checkpoints id step).isSome = true →
      (∀ now e, s'.db.executions.rows id = some e → claimable s'.db now id e = false) ∧
      s'.dispatches id = s.dispatches id := by
  refine ⟨fun e he hend => hs'.terminal he hend, fun step hcheck => ?_⟩
  have hended : s.CheckpointsEnded :=
    hs.keeps (fun hallowed heffect => heffect.checkpointsEnded hallowed) hstart
  obtain ⟨hend, hcount⟩ := hs'.dispatches (hended id step hcheck)
  exact ⟨fun now e he => not_claimable_of_terminal (hend e he), hcount⟩

end

theorem oneQueued_checkpointsEnded : oneQueued.CheckpointsEnded :=
  fun _ _ h => by cases h

/-- Worker `b` completes what the lease of worker `a` has run out on. -/
def handedOver : List DurableEvent :=
  [.claimExecution "a" 1 fun _ => false, .advance 2000, .claimExecution "b" 30 fun _ => false,
    .completeExecution "b" 1 "step" []]

theorem oneQueued_admits_handedOver : oneQueued.Admits SparesTerminal handedOver := by
  refine ⟨trivial, trivial, trivial, trivial, trivial, trivial, by decide, ?_, trivial⟩
  intro e he
  cases he
  exact nofun

theorem terminal_executions_stay_completed :
    let s := oneQueued.play handedOver
    let s' := s.play [.claimExecution "c" 30 fun _ => false]
    (∃ e', s'.db.executions.rows 1 = some e' ∧ e'.status = .done) ∧
      s'.dispatches 1 = s.dispatches 1 := by
  intro s s'
  have hs : Run SparesTerminal oneQueued s := oneQueued_admits_handedOver.run
  have hs' : Run SparesTerminal s s' := Admits.run ⟨trivial, trivial, trivial⟩
  obtain ⟨hstay, hchecked⟩ := terminal_executions_stay oneQueued_checkpointsEnded hs hs' 1
  exact ⟨hstay _ rfl rfl, (hchecked "step" rfl).2⟩

/-- Worker `a` comes back after `b` has completed the execution and puts it to
sleep; the timer makes it claimable and `c` is handed it, checkpoint and all. -/
theorem late_sleep_revives_done : ∃ s s', oneQueued.CheckpointsEnded ∧
    Run (fun _ _ => True) oneQueued s ∧ Run (fun _ _ => True) s s' ∧
    (s.db.executions.rows 1).map (·.status) = some .done ∧
    (s.db.checkpoints 1 "step").isSome = true ∧
    (s'.db.executions.rows 1).map (·.status) = some .running ∧
    s'.dispatches 1 = s.dispatches 1 + 1 := by
  let s := oneQueued.play handedOver
  let late : List DurableEvent :=
    [.waitFor "a" 1 none (some 3000), .advance 1000, .claimExecution "c" 30 fun _ => false]
  have hs : Run (fun _ _ => True) oneQueued s := run_of_entitled (by decide)
  have hs' : Run (fun _ _ => True) s (s.play late) := run_of_entitled (by decide)
  refine ⟨s, s.play late, oneQueued_checkpointsEnded, hs, hs', rfl, rfl, ?_, ?_⟩
  · decide
  · decide

end DurableState
end WorkflowPlatform
