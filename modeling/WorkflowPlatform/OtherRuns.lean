import WorkflowPlatform.RunProtocol
import WorkflowPlatform.WorkerScripts

/-!
# Work on other runs

A cycle that has claimed an execution of another run writes only rows that are
`Apart` from this one, whatever it is answered and wherever it is interrupted.
-/
namespace WorkflowPlatform

/-- A write to rows that do not belong to the run. -/
def Apart (R : SubmittedRun) (db : Db) : Write → Prop
  | .satisfyDueWaits .. => True
  | .claim i .. => ∀ e, db.executions.rows i = some e → e.runId ≠ some R.id
  | .executionStatus i _ => ∀ e, db.executions.rows i = some e → e.runId ≠ some R.id
  | .insertExecution .. => False
  | .lockRun i => i ≠ R.id
  | .runStatus i _ => i ≠ R.id
  | .insertRun .. => False
  | .checkpoint .. => True
  | .output i .. => i ≠ R.id

section
variable {R : SubmittedRun} {admits : String → JsonObject → Prop} {env : Op → Choice → Prop}
variable {a b db : Db} {ws : List Write} {w : Write}

theorem Apart.of_keeps (h : Apart R a w) (hk : Keeps a b) : Apart R b w := by
  have hrow : ∀ i, (∀ e, a.executions.rows i = some e → e.runId ≠ some R.id) →
      ∀ e, b.executions.rows i = some e → e.runId ≠ some R.id := by
    intro i hi e he
    obtain ⟨e₀, he₀, hr, -⟩ := hk.present he
    exact hr ▸ hi e₀ he₀
  cases w with
  | claim i | executionStatus i => exact hrow i h
  | _ => exact h

theorem Apart.frozen_write (h : Apart R db w) : RunFrozen R.id db (db.write w) := by
  have hrow : ∀ i (f : Execution → Execution), (∀ e, (f e).runId = e.runId) →
      (∀ e, db.executions.rows i = some e → e.runId ≠ some R.id) →
      RunFrozen R.id db { db with executions := db.executions.modify i f } := by
    intro i f hf hi
    refine ⟨rfl, rfl, fun j => ?_, rfl⟩
    by_cases hj : j = i
    · subst hj
      refine .inr ⟨hi, fun e he => ?_⟩
      rw [Table.modify_same, Option.map_eq_some_iff] at he
      obtain ⟨e₀, he₀, rfl⟩ := he
      exact hf e₀ ▸ hi e₀ he₀
    · exact .inl (Table.modify_other _ _ hj).symm
  cases w with
  | claim i => exact hrow i _ (fun _ => rfl) h
  | executionStatus i => exact hrow i _ (fun _ => rfl) h
  | runStatus i => exact ⟨(Table.modify_other _ _ (Ne.symm h)).symm, rfl, fun _ => .inl rfl, rfl⟩
  | output i => exact ⟨rfl, (Function.update_of_ne (Ne.symm h) ..).symm, fun _ => .inl rfl, rfl⟩
  | satisfyDueWaits | lockRun | checkpoint => exact ⟨rfl, rfl, fun _ => .inl rfl, rfl⟩
  | insertExecution | insertRun => cases h

theorem Apart.inPlace (h : Apart R db w) : w.inPlace = true := by
  cases w <;> first | rfl | cases h

theorem apart_view (h : ∀ w ∈ ws, Apart R db w) : RunFrozen R.id db (platform.view db ws) := by
  induction ws generalizing db with
  | nil => exact .refl _ _
  | cons w rest ih =>
      have hw := h w List.mem_cons_self
      refine hw.frozen_write.trans (ih fun w' hw' => ?_)
      exact (h w' (List.mem_cons_of_mem _ hw')).of_keeps (keeps_write hw.inPlace)

/-- The transaction of a worker that has claimed an execution of another run. -/
structure ForeignTxn (R : SubmittedRun) (r id : ℕ) (ab : Bool) (ws : List Write) (db : Db) :
    Prop where
  row : ∃ e, db.executions.rows id = some e ∧ e.runId = some r
  locked : ab = false → platform.locks ws (.execution id) = true
  apart : ∀ w ∈ ws, Apart R db w
  own : ∀ w ∈ ws, w.ownCheckpoint id

variable {r id : ℕ} {ab : Bool}

theorem ForeignTxn.of_keeps (h : ForeignTxn R r id ab ws a) (hk : Keeps a b) :
    ForeignTxn R r id ab ws b := by
  refine ⟨?_, h.locked, fun w hw => (h.apart w hw).of_keeps hk, h.own⟩
  obtain ⟨e, he, hr⟩ := h.row
  obtain ⟨f, hf, hfr, -⟩ := hk.symm.present he
  exact ⟨f, hf, hfr.trans hr⟩

theorem ForeignTxn.keeps (h : ForeignTxn R r id ab ws db) : Keeps db (platform.view db ws) :=
  keeps_view fun w hw => (h.apart w hw).inPlace

/-- Operations for an execution of another run write nothing of this one. -/
theorem ForeignTxn.writes (h : ForeignTxn R r id ab ws db) (hne : r ≠ R.id) {op : Op}
    (hop : OfExecution r id op) {c : Choice} {locked : Row → Bool} {x : Resp op}
    {ws' : List Write} (hr : (platform.view db ws).respond c locked op = some (x, ws')) :
    ∀ w ∈ ws', Apart R db w ∧ w.ownCheckpoint id := by
  have hrow : ∀ i, (∃ e, (platform.view db ws).executions.rows i = some e ∧ e.runId = some r) →
      ∀ e, db.executions.rows i = some e → e.runId ≠ some R.id := by
    rintro i ⟨f, hf, hfr⟩ e he hrun
    have := h.keeps.runId he hf
    rw [hfr, hrun] at this
    exact hne (Option.some.inj this)
  have hid : ∀ e, db.executions.rows id = some e → e.runId ≠ some R.id := by
    obtain ⟨f, hf, hfr⟩ := h.row
    intro e he hrun
    rw [hf] at he
    cases he
    exact hne (Option.some.inj (hfr.symm.trans hrun))
  intro w hw
  cases op with
  | promoteBlockedToQueued i step =>
      cases hop
      cases hr
      obtain ⟨j, hj, rfl⟩ := List.mem_map.mp hw
      refine ⟨hrow j ?_, rfl⟩
      obtain ⟨f, hf, hp⟩ := Db.mem_executionIds.mp hj
      simp only [blockedIn, Bool.and_eq_true, decide_eq_true_eq] at hp
      exact ⟨f, hf, hp.1.1⟩
  | failIfRemaining i j =>
      cases hop
      simp only [Db.respond] at hr
      split_ifs at hr with hany
      · cases hr
        obtain rfl := List.mem_singleton.mp hw
        refine ⟨hrow j ?_, rfl⟩
        obtain ⟨f, hf, hp⟩ := (Option.any_eq_true ..).mp hany
        simp only [remainingIn, Bool.and_eq_true, decide_eq_true_eq] at hp
        exact ⟨f, hf, hp.1⟩
      · cases hr
        cases hw
  | markExecutionDone i | markExecutionFailed i =>
      cases hop
      simp only [Db.respond] at hr
      split_ifs at hr <;> cases hr
      · obtain rfl := List.mem_singleton.mp hw
        exact ⟨hid, rfl⟩
      · cases hw
  | lockRunForUpdate i | markRunDone i | markRunFailed i =>
      cases hop
      simp only [Db.respond] at hr
      split_ifs at hr <;> cases hr
      · obtain rfl := List.mem_singleton.mp hw
        exact ⟨hne, rfl⟩
      · cases hw
  | insertCheckpoint i =>
      cases hop
      simp only [Db.respond] at hr
      split_ifs at hr <;> cases hr
      · cases hw
      · obtain rfl := List.mem_singleton.mp hw
        exact ⟨trivial, rfl⟩
  | insertRunNodeOutput i =>
      cases hop
      simp only [Db.respond] at hr
      split_ifs at hr <;> cases hr
      · cases hw
      · obtain rfl := List.mem_singleton.mp hw
        exact ⟨hne, rfl⟩
  | scanRemaining | findRunById | findCheckpoint | findRunNodeOutput | listCompletedNodeIds
  | fetch | log =>
      cases hr
      cases hw
  | claimExecution | enqueueForRun | insertRun => cases hop

theorem ForeignTxn.pre (h : ForeignTxn R r id ab ws db) (hne : r ≠ R.id) {op : Op}
    (hop : OfExecution r id op) : (runProtocol R admits env).pre op ws db := by
  obtain ⟨f, hf, hfr⟩ := h.row
  have hid : ∀ e, db.executions.rows id = some e → e.runId ≠ some R.id := by
    intro e he hrun
    rw [hf] at he
    cases he
    exact hne (Option.some.inj (hfr.symm.trans hrun))
  cases op with
  | fetch =>
      intro i e he hrun hi
      obtain rfl : i = id := natRepr_injective (hi.symm.trans hop)
      exact absurd hrun (hid e he)
  | log =>
      intro _ e he hrun
      exact absurd hrun (hid e (by rwa [← show _ = id from hop]))
  | _ => trivial

/-- Work on another run's execution, to the end. -/
theorem ensures_foreign (hne : r ≠ R.id) {m : Tx Bool} (hm : m.All (OfExecution r id))
    (h : ForeignTxn R r id ab ws db) :
    (runProtocol R admits env).Ensures (Keeping R admits) ab m ws db := by
  induction m generalizing ab ws db with
  | done res =>
      intro d hd hr hab _ _
      have hd' : ForeignTxn R r id ab ws d := h.of_keeps hr.keeps
      refine .of_frozen hd (apart_view hd'.apart) hd'.keeps fun i hi => view_checkpoints hd'.own ?_
      rintro rfl
      rw [hd'.locked hab] at hi
      cases hi
  | call op next ih =>
      intro d hd hr
      have hd' : ForeignTxn R r id ab ws d := h.of_keeps hr.keeps
      refine ⟨fun _ => ⟨hd'.pre hne hm.1, ?_⟩, fun _ => ?_⟩
      · intro c locked x ws' _ hresp
        have hw := hd'.writes hne hm.1 hresp
        refine ih _ (hm.2 _) ⟨hd'.row, fun hab => ?_, ?_, ?_⟩
        · rw [Store.locks_append, hd'.locked hab, Bool.true_or]
        · exact fun w hmem => (List.mem_append.mp hmem).elim (hd'.apart w) fun hmem => (hw w hmem).1
        · exact fun w hmem => (List.mem_append.mp hmem).elim (hd'.own w) fun hmem => (hw w hmem).2
      · exact ih _ (hm.2 _) ⟨hd'.row, fun hab => (by cases hab), by simp, by simp⟩

end
end WorkflowPlatform
