import WorkflowPlatform.CommitLog
import WorkflowPlatform.SessionHistory

/-!
# The session log refines truncatable lists

Any number of clients append to, rewind and replay any sessions. The list of a
session, as the committed calls leave it, is what its rows and its pointer stand
for in every state that any interleaving reaches.
-/
namespace WorkflowPlatform

/-- The list of every session after the committed calls. -/
def sessionLists (log : List (SessionCall × SessionResult)) : String → List Json :=
  log.foldl (fun lists (call, _) =>
    Function.update lists call.session (call.applyTo (lists call.session))) fun _ => []

abbrev SessionSystem (n : ℕ) :=
  System n SessionOp SessionOp.Resp Failure (SessionCall × SessionResult) SessionWrite SessionDb

/-- A run of one client for each call, from empty tables. -/
abbrev SessionRun {n : ℕ} (calls : Fin n → SessionCall) :
    List (SessionCall × SessionResult) → SessionSystem n → Prop :=
  sessionStore.LoggedRun (fun t => (calls t).script) (fun _ _ => True) (Store.idle SessionDb.empty)

/-- The rows of each session stand for its list. -/
def RefinesLists (lists : String → List Json) (db : SessionDb) : Prop :=
  ∀ s, (db s).inputs = lists s ∧ (db s).currentSequence = (lists s).length ∧
    (db s).listLive s = numbered s (lists s)

theorem sessionLists_append (log : List (SessionCall × SessionResult)) (call : SessionCall)
    (result : SessionResult) :
    sessionLists (log ++ [(call, result)]) = Function.update (sessionLists log) call.session
      (call.applyTo (sessionLists log call.session)) := by
  rw [sessionLists, List.foldl_append]
  rfl

section
variable {n : ℕ} {calls : Fin n → SessionCall} {log : List (SessionCall × SessionResult)}
variable {st st' : SessionSystem n}

/-- A committed call leaves the sessions of others alone. -/
theorem SessionOutcome.other {call : SessionCall} {ws : List SessionWrite} {db : SessionDb}
    (h : SessionOutcome call ws db) {s : String} (hs : s ≠ call.session) :
    sessionStore.view db ws s = db s :=
  sessionView_other fun w hw heq => hs (heq.symm.trans (h.session w hw))

theorem sessions_follow (calls : Fin n → SessionCall) :
    sessionProtocol.Follows SessionPost fun t => (calls t).script where
  lawful := sessionStore_lawful
  start t db _ := script_ensures (calls t) db
  commit := by
    intro ⟨call, result⟩ ws db hdb hpost
    have hout : SessionOutcome call ws db := hpost rfl call result rfl
    constructor
    · intro s
      by_cases hs : s = call.session
      · rw [hs]
        exact hout.numbered
      · rw [hout.other hs]
        exact hdb s
    · intro ws' hdisjoint s hlock
      by_cases hs : s = call.session
      · rcases hout.locked with rfl | hlocked
        · rfl
        · rw [hs, hdisjoint _ hlocked] at hlock
          cases hlock
      · exact hout.other hs

theorem empty_inv : sessionProtocol.inv SessionDb.empty := fun _ => SessionState.empty_numbered

theorem SessionRun.sound (h : SessionRun calls log st) : sessionProtocol.Sound SessionPost st :=
  (Protocol.sound_idle empty_inv).reaches (sessions_follow calls) h.reaches

theorem SessionRun.outcome (h : SessionRun calls log st) {t : Fin n}
    {a : SessionCall × SessionResult} {ws : List SessionWrite}
    (ht : st.txns t = some ⟨.done (.ok a), ws, false⟩) : SessionOutcome a.1 ws st.db :=
  h.sound.ensures t _ ht st.db h.sound.inv (Protocol.rely_refl _ _ _) rfl a.1 a.2 rfl

/-- The lists of the log are those of the rows. -/
theorem SessionRun.inputs (h : SessionRun calls log st) :
    ∀ s, (st.db s).inputs = sessionLists log s := by
  refine Protocol.log_induction (P := sessionProtocol)
    (fun log db => ∀ s, (db s).inputs = sessionLists log s) (sessions_follow calls)
    empty_inv (fun s => rfl) ?_ h
  intro log ⟨call, result⟩ ws db _ hpost ih s
  have hout : SessionOutcome call ws db := hpost rfl call result rfl
  rw [sessionLists_append]
  by_cases hs : s = call.session
  · rw [hs, Function.update_self, hout.inputs, ih]
  · rw [Function.update_of_ne hs, hout.other hs, ih]

theorem SessionRun.refines (h : SessionRun calls log st) :
    RefinesLists (sessionLists log) st.db := by
  intro s
  have hnum : (st.db s).Numbered := h.sound.inv s
  have hinputs := h.inputs s
  refine ⟨hinputs, ?_, ?_⟩
  · rw [← hnum.length_inputs, hinputs]
  · rw [hnum.listLive_eq, hinputs]

theorem SessionRun.inProgram (h : SessionRun calls log st) :
    Store.InProgram (fun t => (calls t).script) st := Store.inProgram_reaches h.reaches

/-- What the answer to the next statement of a client is. -/
theorem call_effect {t : Fin n} {c : Unit} {op : SessionOp}
    {next : Except Failure op.Resp → SessionTx (SessionCall × SessionResult)}
    {ws : List SessionWrite} {ab : Bool}
    (hs : sessionStore.step (fun t => (calls t).script) st (.call t c) = some st')
    (ht : st.txns t = some ⟨.call op next, ws, ab⟩) :
    ∃ r ws', sessionRespond (sessionStore.view st.db ws) op = some (r, ws') ∧
      st'.txns t = some ⟨next (.ok r), ws ++ ws', ab⟩ := by
  simp only [Store.step, ht] at hs
  split_ifs at hs
  split at hs
  · next r ws' hr =>
      cases hs
      exact ⟨r, ws', hr, Store.setTxn_same _ _ _⟩
  · cases hs

/-- A replay returns the list of its session as it is when its statement is
answered. -/
theorem SessionRun.replayed (h : SessionRun calls log st) {t : Fin n} {c : Unit} {s : String}
    (hs : sessionStore.step (fun t => (calls t).script) st (.call t c) = some st')
    (ht : calls t = .replaySession s) :
    st'.txns t = some ⟨.done (.ok (.replaySession s,
      .entries (numbered s (sessionLists log s)))), [], false⟩ := by
  have hscript : (calls t).script = .call (.listLive s) fun r =>
      Script.bind (.done r) fun entries => .done (.ok (.replaySession s, .entries entries)) := by
    rw [ht]
    rfl
  cases hT : st.txns t with
  | none => simp [Store.step, hT] at hs
  | some T =>
      rcases h.inProgram t T hT with hstart | hpast
      · subst hstart
        simp only [hscript] at hT
        obtain ⟨r, ws, hr, ht'⟩ := call_effect hs hT
        cases hr
        rw [← (h.refines s).2.2]
        exact ht'
      · -- past its one statement a replay has returned
        simp only [hscript] at hpast
        obtain ⟨r, hr⟩ := hpast
        obtain ⟨script, ws, ab⟩ := T
        cases r <;> cases hr <;> simp [Store.step, hT] at hs

/-- A rewind that finds its target outside the list throws. -/
theorem SessionRun.rejected (h : SessionRun calls log st) {t : Fin n} {c : Unit} {s : String}
    {target : TargetSequence}
    (hs : sessionStore.step (fun t => (calls t).script) st (.call t c) = some st')
    (ht : calls t = .rewindSession s target)
    (hlock : st.txns t = some ⟨(calls t).script, [], false⟩)
    (hout : target.lessThanZero || target.greaterThan (sessionLists log s).length) :
    ∃ ws, st'.txns t = some ⟨.done (.error (targetOutOfRange s target
      (sessionLists log s).length)), ws, false⟩ := by
  rw [ht] at hlock
  obtain ⟨r, ws, hr, ht'⟩ := call_effect hs hlock
  obtain ⟨rfl, -⟩ := lock_response hr
  have hcurrent : (st.db s).currentSequence = (sessionLists log s).length := (h.refines s).2.1
  refine ⟨ws, ht'.trans ?_⟩
  rw [← hcurrent] at hout ⊢
  change some (Txn.mk (Script.bind (if target.lessThanZero ||
    target.greaterThan (st.db s).currentSequence then _ else _) _ : SessionTx _) ws false) = _
  rw [if_pos hout]
  rfl

/-- What a step of a run does to the sessions whose lists are `lists`. -/
structure SessionStep (calls : Fin n → SessionCall) (lists : String → List Json)
    (st : SessionSystem n) (l : Label n Unit) (st' : SessionSystem n) : Prop where
  /-- A step changes the sessions of the calls it commits, and no other. -/
  frame : ∀ s, (∀ a ∈ Store.committed st l, a.1.session ≠ s) → st'.db s = st.db s
  inRange : ∀ s target result, (.rewindSession s target, result) ∈ Store.committed st l →
    ∃ k ≤ (lists s).length, target.toSequence = some k
  replayed : ∀ t c s, l = .call t c → calls t = .replaySession s →
    st'.txns t = some ⟨.done (.ok (.replaySession s, .entries (numbered s (lists s)))), [], false⟩
  rejected : ∀ t c s target, l = .call t c → calls t = .rewindSession s target →
    st.txns t = some ⟨(calls t).script, [], false⟩ →
    (target.lessThanZero || target.greaterThan (lists s).length) = true →
    ∃ ws, st'.txns t =
      some ⟨.done (.error (targetOutOfRange s target (lists s).length)), ws, false⟩

theorem SessionRun.step (h : SessionRun calls log st) {l : Label n Unit}
    (hs : sessionStore.step (fun t => (calls t).script) st l = some st') :
    SessionStep calls (sessionLists log) st l st' where
  frame s hother := by
    rcases Store.step_committed hs with ⟨-, hsame⟩ | ⟨t, a, ws, ht, hlog, hview⟩
    · rw [hsame]
    · have hout := h.outcome ht
      rw [hlog] at hother
      rw [hview, hout.other (hother a (List.mem_singleton_self a)).symm]
  inRange s target result hmem := by
    rcases Store.step_committed hs with ⟨hlog, -⟩ | ⟨t, a, ws, ht, hlog, -⟩
    · rw [hlog] at hmem
      cases hmem
    · rw [hlog, List.mem_singleton] at hmem
      subst hmem
      rw [← h.inputs s]
      exact (h.outcome ht).inRange target rfl
  replayed t c s hl ht := by
    subst hl
    exact h.replayed hs ht
  rejected t c s target hl ht hstart hout := by
    subst hl
    exact h.rejected hs ht hstart hout

/-- An append inserts a row whose sequence number is not taken. -/
theorem SessionRun.insert_fresh (h : SessionRun calls log st) {t : Fin n} {s : String}
    {sequence : ℕ} {input : Option Json}
    {next : Except Failure (Option SessionLogEntry) → SessionTx (SessionCall × SessionResult)}
    {ws : List SessionWrite}
    (ht : st.txns t = some ⟨.call (.insert s sequence input) next, ws, false⟩) :
    (sessionStore.view st.db ws s).log.rows sequence = none :=
  h.sound.pre ht (.inl rfl)

/-- In every run of any number of calls the sessions are the lists of the
committed calls, numbered up to the pointer; every step does to them what the
calls mean; and no insert meets a row of its sequence number. -/
theorem sessions_refine_lists (h : SessionRun calls log st) :
    RefinesLists (sessionLists log) st.db ∧
      (∀ l st', sessionStore.step (fun t => (calls t).script) st l = some st' →
        SessionStep calls (sessionLists log) st l st') ∧
      ∀ t s sequence input next ws,
        st.txns t = some ⟨.call (.insert s sequence input) next, ws, false⟩ →
        (sessionStore.view st.db ws s).log.rows sequence = none :=
  ⟨h.refines, fun _ _ hs => h.step hs, fun _ _ _ _ _ _ ht => h.insert_fresh ht⟩

end

def appendRewindAppend : Fin 4 → SessionCall
  | 0 => .appendEntry "s" (some (.str "hello"))
  | 1 => .rewindSession "s" (.ofNat 0)
  | 2 => .appendEntry "s" (some (.str "again"))
  | 3 => .replaySession "s"

/-- The entry before the rewind is gone, and the one behind it has its number. -/
theorem sessions_refine_lists_rewound : ∃ log st, SessionRun appendRewindAppend log st ∧
    log.map Prod.fst = [appendRewindAppend 0, appendRewindAppend 1, appendRewindAppend 2] ∧
      (st.db "s").listLive "s" = numbered "s" [.str "again"] := by
  let call (t : Fin 4) (statements : ℕ) : List (Label 4 Unit) :=
    .begin t :: List.replicate statements (.call t ()) ++ [.finish t]
  let labels : List (Label 4 Unit) := call 0 4 ++ call 1 2 ++ call 2 4 ++ [.begin 3, .call 3 ()]
  have hrun : (sessionStore.steps (fun t => (appendRewindAppend t).script)
      (Store.idle SessionDb.empty) labels).isSome = true := by decide +kernel
  obtain ⟨st, hst⟩ := Option.isSome_iff_exists.mp hrun
  have hlog := Store.LoggedRun.refl.steps_log (fun _ _ => trivial) hst
  refine ⟨_, st, hlog, ?_, ((sessions_refine_lists hlog).1 "s").2.2.trans ?_⟩
  · with_unfolding_all rfl
  · with_unfolding_all rfl

end WorkflowPlatform
