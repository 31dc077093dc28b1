import WorkflowPlatform.TerminalExecutions

/-!
# Leases

An execution is the only one's who was handed it last for as long as the lease
runs, as long as nobody whose own lease has run out puts it to sleep under the
holder: a sleep is the one write that can make a running execution claimable
before its lease has expired.
-/
namespace WorkflowPlatform

/-- The claim binds nobody any more. -/
def Claim.Over (now : ℕ) (claim : Claim) : Prop := claim.released = true ∨ claim.leaseUntil < now

namespace DurableState

/-- Nobody puts to sleep an execution that is still another worker's. -/
def SparesHolder (s : DurableState) : DurableEvent → Prop
  | .waitFor workerId id _ _ => ∀ claim ∈ s.claims, claim.executionId = id →
      claim.workerId ≠ workerId → claim.Over s.now
  | _ => True

/-- A claim that still binds: its execution runs under its lease, or has ended. -/
def LeasesHeld (s : DurableState) : Prop :=
  ∀ claim ∈ s.claims, claim.released = false → s.now ≤ claim.leaseUntil →
    ∃ e, s.db.executions.rows claim.executionId = some e ∧
      (e.status = .running ∧ e.leaseUntil = some claim.leaseUntil ∨ e.status.terminal = true)

section
variable {s s' : DurableState} {ev : DurableEvent} {id lease : ℕ} {e e' : Execution}

theorem not_claimable_of_held {db : Db} {now : ℕ} (hnow : now ≤ lease)
    (h : e.status = .running ∧ e.leaseUntil = some lease ∨ e.status.terminal = true) :
    claimable db now id e = false := by
  rcases h with ⟨hs, hlease⟩ | hend
  · simp [claimable, hs, hlease, hnow]
  · exact not_claimable_of_terminal hend

/-- Apart from a sleep, nothing takes a running execution from its holder. -/
theorem Change.held (h : s.Change id e ev e') (hnow : s.now ≤ lease)
    (hheld : e.status = .running ∧ e.leaseUntil = some lease ∨ e.status.terminal = true)
    (hawake : ∀ workerId waitKey wakeAt, ev ≠ .waitFor workerId id waitKey wakeAt) :
    e'.status = .running ∧ e'.leaseUntil = some lease ∨ e'.status.terminal = true := by
  cases h with
  | same => exact hheld
  | claimed hclaim =>
      rw [not_claimable_of_held hnow hheld] at hclaim
      cases hclaim
  | completed | stepCompleted | failed | abandoned => exact .inr rfl
  | promoted _ hblocked =>
      rw [hblocked] at hheld
      rcases hheld with ⟨hs, -⟩ | hend
      · cases hs
      · cases hend
  | slept => exact absurd rfl (hawake _ _ _)
  | woken hwaiting =>
      rw [hwaiting] at hheld
      rcases hheld with ⟨hs, -⟩ | hend
      · cases hs
      · cases hend

/-- Where the claims that still bind after an event come from. -/
theorem Effect.claim (h : s.Effect ev s') (hallowed : s.SparesHolder ev) {claim : Claim}
    (hclaim : claim ∈ s'.claims) (hopen : claim.released = false)
    (hnow : s'.now ≤ claim.leaseUntil) :
    (claim ∈ s.claims ∧ s.now ≤ claim.leaseUntil ∧ ∀ workerId waitKey wakeAt,
      ev ≠ .waitFor workerId claim.executionId waitKey wakeAt ∨ s' = s) ∨
    ∃ e, s'.db.executions.rows claim.executionId = some e ∧ e.status = .running ∧
      e.leaseUntil = some claim.leaseUntil := by
  have hreleased : ∀ {workerId : String} {i : ℕ}, claim ∈ s.release workerId i →
      claim ∈ s.claims ∧ ¬ (claim.workerId = workerId ∧ claim.executionId = i) := by
    intro workerId i hmem
    obtain ⟨old, hold, heq⟩ := List.mem_map.mp hmem
    split_ifs at heq with hgiven
    · subst heq
      cases hopen
    · subst heq
      exact ⟨hold, hgiven⟩
  cases h with
  | nothing => exact .inl ⟨hclaim, hnow, fun _ _ _ => .inr rfl⟩
  | claimed hfirst =>
      rename_i workerId leaseSeconds i locked
      rcases List.mem_append.mp hclaim with hold | hnew
      · exact .inl ⟨hold, hnow, fun _ _ _ => .inl nofun⟩
      · obtain rfl := List.mem_singleton.mp hnew
        obtain ⟨e, he, -⟩ := Option.any_eq_true _ _ |>.mp hfirst.1
        refine .inr ⟨e.claimed workerId (s.now + 1000 * leaseSeconds), ?_, rfl, rfl⟩
        change (Table.modify _ _ _).rows _ = _
        rw [Table.modify_same]
        change (s.db.executions.rows i).map _ = _
        rw [he]
        rfl
  | completed | stepCompleted => exact .inl ⟨(hreleased hclaim).1, hnow, fun _ _ _ => .inl nofun⟩
  | signaled | runFailed => exact .inl ⟨hclaim, hnow, fun _ _ _ => .inl nofun⟩
  | advanced ms => exact .inl ⟨hclaim, by dsimp only at hnow; omega, fun _ _ _ => .inl nofun⟩
  | slept hrow =>
      rename_i workerId i waitKey wakeAt
      obtain ⟨hold, hkept⟩ := hreleased hclaim
      refine .inl ⟨hold, hnow, fun w key wake => .inl ?_⟩
      intro heq
      have hi : i = claim.executionId := by
        injection heq
      have hother : claim.workerId ≠ workerId := fun hw => hkept ⟨hw, hi.symm⟩
      rcases hallowed claim hold hi.symm hother with hgiven | hlapsed
      · rw [hopen] at hgiven
        cases hgiven
      · dsimp only at hnow
        omega

theorem Effect.leasesHeld (h : s.Effect ev s') (hallowed : s.SparesHolder ev)
    (hs : s.LeasesHeld) : s'.LeasesHeld := by
  intro claim hclaim hopen hnow
  rcases h.claim hallowed hclaim hopen hnow with ⟨hold, hnow₀, hawake⟩ | ⟨e, he, hrun, hlease⟩
  · obtain ⟨e, he, hheld⟩ := hs claim hold hopen hnow₀
    by_cases hsame : s' = s
    · rw [hsame]
      exact ⟨e, he, hheld⟩
    · obtain ⟨e', he', hchange⟩ := h.change he
      refine ⟨e', he', hchange.held hnow₀ hheld fun workerId waitKey wakeAt => ?_⟩
      exact (hawake workerId waitKey wakeAt).resolve_right hsame
  · exact ⟨e, he, .inl ⟨hrun, hlease⟩⟩

/-- As long as nobody puts to sleep what is still another's, an execution is only
ever handed out when every earlier claim on it is released or has expired. -/
theorem lease_exclusive {s₀ : DurableState} (hstart : s₀.claims = []) (hs : Run SparesHolder s₀ s)
    (c : Choice) (workerId : String) (leaseSeconds : ℕ) (locked : ℕ → Bool) (claim : Claim)
    (hhanded : (s.perform c (.claimExecution workerId leaseSeconds locked)).claims =
      s.claims ++ [claim]) :
    ∀ other ∈ s.claims, other.executionId = claim.executionId → other.Over s.now := by
  have hheld : s.LeasesHeld := by
    refine hs.keeps (fun hallowed heffect => heffect.leasesHeld hallowed) ?_
    intro other hother
    rw [hstart] at hother
    cases hother
  intro other hother hid
  by_contra hbinds
  obtain ⟨hopen, hnow⟩ := not_or.mp hbinds
  obtain ⟨e, he, hrow⟩ := hheld other hother (by simpa using hopen) (not_lt.mp hnow)
  generalize hs' : s.perform c (.claimExecution workerId leaseSeconds locked) = s' at hhanded
  have heffect := s.perform_effect c (.claimExecution workerId leaseSeconds locked)
  rw [hs'] at heffect
  cases heffect with
  | nothing => simp at hhanded
  | claimed hfirst =>
      rename_i id
      have hclaim : claim = { workerId, executionId := id, leaseUntil := s.now + 1000 * leaseSeconds } := by
        simpa [claimedBy, eq_comm] using hhanded
      have hfree := hfirst.1
      rw [hid, hclaim] at he
      rw [he, Option.any_some, not_claimable_of_held (not_lt.mp hnow) hrow] at hfree
      cases hfree

end

theorem lease_exclusive_handedOver :
    let s := oneQueued.play [.claimExecution "a" 1 fun _ => false, .advance 2000]
    ∀ other ∈ s.claims, other.executionId = 1 → other.Over s.now := by
  intro s
  have hs : Run SparesHolder oneQueued s := Admits.run ⟨trivial, trivial, trivial, trivial, trivial⟩
  exact lease_exclusive rfl hs { now := 0 } "b" 30 (fun _ => false)
    { workerId := "b", executionId := 1, leaseUntil := 32000 } (by decide)

/-- The lease of `a` has run out and `b` holds the execution; `a` comes back and
puts it to sleep, and `c` is handed it under the lease of `b`. -/
theorem late_sleep_breaks_lease : ∃ s, oneQueued.claims = [] ∧
    Run (fun _ _ => True) oneQueued s ∧
    (s.perform { now := 0 } (.claimExecution "c" 30 fun _ => false)).claims =
      s.claims ++ [{ workerId := "c", executionId := 1, leaseUntil := 33000 }] ∧
    ({ workerId := "b", executionId := 1, leaseUntil := 32000 } : Claim) ∈ s.claims ∧
    ¬ Claim.Over s.now { workerId := "b", executionId := 1, leaseUntil := 32000 } := by
  let events : List DurableEvent :=
    [.claimExecution "a" 1 fun _ => false, .advance 2000, .claimExecution "b" 30 fun _ => false,
      .waitFor "a" 1 none (some 3000), .advance 1000]
  have hnow : (oneQueued.play events).now = 3000 := by decide
  refine ⟨oneQueued.play events, rfl, run_of_entitled (by decide), by decide, by decide, ?_⟩
  simp [Claim.Over, hnow]

end DurableState
end WorkflowPlatform
