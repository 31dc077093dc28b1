import WorkflowPlatform.SessionLog

/-!
# A session is a truncatable list

The meaning of a session is the list of its inputs up to the pointer. An append
pushes to it, a rewind cuts it off, and a replay reads it. Here is what one
transaction does to it: while it holds the pointer row nobody else changes the
session, and what it commits is its call applied to the list as it is at the
commit.
-/
namespace WorkflowPlatform

inductive SessionCall where
  | appendEntry (sessionId : String) (input : Option Json)
  | rewindSession (sessionId : String) (targetSequence : TargetSequence)
  | replaySession (sessionId : String)

inductive SessionResult where
  | entry (entry : SessionLogEntry)
  | pointer (pointer : SessionPointer)
  | entries (entries : List SessionLogEntry)

namespace SessionCall

def session : SessionCall → String
  | appendEntry s _ => s
  | rewindSession s _ => s
  | replaySession s => s

/-- The transaction of a call. Its result carries the call along. -/
def script (call : SessionCall) : SessionTx (SessionCall × SessionResult) :=
  match call with
  | appendEntry s input => do
      let entry ← WorkflowPlatform.appendEntry s input
      pure (call, .entry entry)
  | rewindSession s target => do
      let pointer ← WorkflowPlatform.rewindSession s target
      pure (call, .pointer pointer)
  | replaySession s => do
      let entries ← WorkflowPlatform.replaySession s
      pure (call, .entries entries)

/-- What a call does to the list of its session. -/
def applyTo (inputs : List Json) : SessionCall → List Json
  | appendEntry _ (some input) => inputs ++ [input]
  | appendEntry _ none => inputs
  | rewindSession _ target => match target.toSequence with
      | some k => inputs.take k
      | none => inputs
  | replaySession _ => inputs

end SessionCall

/-! ### The list of a session -/

/-- The entries of a list, numbered from 1. -/
def numbered (sessionId : String) (inputs : List Json) : List SessionLogEntry :=
  (inputs.zipIdx 1).map fun (input, sequence) => ⟨sessionId, sequence, input⟩

namespace SessionState

def inputsUpTo (st : SessionState) (n : ℕ) : List Json :=
  (List.range n).filterMap fun i => st.log.rows (i + 1)

def currentSequence (st : SessionState) : ℕ := st.pointer.getD 0

/-- The inputs up to the pointer. -/
def inputs (st : SessionState) : List Json := st.inputsUpTo st.currentSequence

/-- The rows are those of the sequences from 1 to some last one, and the pointer
is not past it. -/
def Numbered (st : SessionState) : Prop :=
  ∃ last, (∀ n, (st.log.rows n).isSome = true ↔ 1 ≤ n ∧ n ≤ last) ∧ st.currentSequence ≤ last

theorem empty_numbered : ({} : SessionState).Numbered :=
  ⟨0, fun n => by simp [Table.empty]; omega, Nat.le_refl 0⟩

variable {st st' : SessionState}

theorem inputsUpTo_succ {n : ℕ} {input : Json} (h : st.log.rows (n + 1) = some input) :
    st.inputsUpTo (n + 1) = st.inputsUpTo n ++ [input] := by
  simp [inputsUpTo, List.range_succ, h]

theorem inputsUpTo_congr {n : ℕ} (h : ∀ i, 1 ≤ i → i ≤ n → st'.log.rows i = st.log.rows i) :
    st'.inputsUpTo n = st.inputsUpTo n := by
  refine List.filterMap_congr fun i hi => ?_
  rw [List.mem_range] at hi
  exact h (i + 1) (by omega) (by omega)

theorem length_inputsUpTo {n : ℕ} (h : ∀ i, 1 ≤ i → i ≤ n → (st.log.rows i).isSome = true) :
    (st.inputsUpTo n).length = n := by
  induction n with
  | zero => rfl
  | succ n ih =>
      obtain ⟨input, hinput⟩ := Option.isSome_iff_exists.mp (h (n + 1) (by omega) (by omega))
      rw [inputsUpTo_succ hinput, List.length_append, ih fun i h₁ h₂ => h i h₁ (by omega)]
      rfl

theorem inputsUpTo_take {n k : ℕ} (hk : k ≤ n)
    (h : ∀ i, 1 ≤ i → i ≤ n → (st.log.rows i).isSome = true) :
    (st.inputsUpTo n).take k = st.inputsUpTo k := by
  induction n with
  | zero =>
      obtain rfl : k = 0 := by omega
      rfl
  | succ n ih =>
      have hlen := length_inputsUpTo h
      rcases Nat.lt_or_ge n k with hlt | hle
      · obtain rfl : k = n + 1 := by omega
        rw [List.take_of_length_le (by omega)]
      · have hbelow : ∀ i, 1 ≤ i → i ≤ n → (st.log.rows i).isSome = true :=
          fun i h₁ h₂ => h i h₁ (by omega)
        obtain ⟨input, hinput⟩ := Option.isSome_iff_exists.mp (h (n + 1) (by omega) (by omega))
        rw [inputsUpTo_succ hinput, List.take_append_of_le_length, ih hle hbelow]
        rw [length_inputsUpTo hbelow]
        exact hle

theorem entriesUpTo_eq (s : String) {n : ℕ} (hzero : st.log.rows 0 = none)
    (h : ∀ i, 1 ≤ i → i ≤ n → (st.log.rows i).isSome = true) :
    st.entriesUpTo s n = numbered s (st.inputsUpTo n) := by
  induction n with
  | zero => simp [entriesUpTo, inputsUpTo, numbered, hzero]
  | succ n ih =>
      have hbelow : ∀ i, 1 ≤ i → i ≤ n → (st.log.rows i).isSome = true :=
        fun i h₁ h₂ => h i h₁ (by omega)
      obtain ⟨input, hinput⟩ := Option.isSome_iff_exists.mp (h (n + 1) (by omega) (by omega))
      have hentries : st.entriesUpTo s (n + 1) = st.entriesUpTo s n ++ [⟨s, n + 1, input⟩] := by
        rw [entriesUpTo, List.range_succ, List.filterMap_append]
        simp [entriesUpTo, hinput]
      rw [hentries, ih hbelow, inputsUpTo_succ hinput, numbered, numbered, List.zipIdx_append,
        List.map_append, length_inputsUpTo hbelow, Nat.add_comm n 1]
      rfl

/-- The list has as many inputs as the pointer says. -/
theorem Numbered.length_inputs (h : st.Numbered) : st.inputs.length = st.currentSequence := by
  obtain ⟨last, hrows, hle⟩ := h
  exact length_inputsUpTo fun i h₁ h₂ => (hrows i).mpr ⟨h₁, by omega⟩

/-- What a replay reads is the list, numbered. -/
theorem Numbered.listLive_eq (h : st.Numbered) (s : String) :
    st.listLive s = numbered s st.inputs := by
  obtain ⟨last, hrows, hle⟩ := h
  unfold listLive
  cases hp : st.pointer with
  | none => simp [inputs, inputsUpTo, currentSequence, hp, numbered]
  | some current =>
      have hcurrent : st.currentSequence = current := by simp [currentSequence, hp]
      have hzero : st.log.rows 0 = none := by
        rw [← Option.not_isSome_iff_eq_none, hrows]
        omega
      rw [inputs, hcurrent]
      exact entriesUpTo_eq s hzero fun i h₁ h₂ => (hrows i).mpr ⟨h₁, by omega⟩

/-- Deleting what is past the pointer and inserting the next entry pushes it. -/
theorem Numbered.push (h : st.Numbered) {input : Json}
    (hrows : ∀ n, st'.log.rows n = if n = st.currentSequence + 1 then some input
      else if st.currentSequence < n then none else st.log.rows n)
    (hpointer : st'.currentSequence = st.currentSequence + 1) :
    st'.Numbered ∧ st'.inputs = st.inputs ++ [input] := by
  obtain ⟨last, hold, hle⟩ := h
  constructor
  · refine ⟨st.currentSequence + 1, fun n => ?_, hpointer.le⟩
    rw [hrows]
    split_ifs with h₁ h₂
    · simp only [Option.isSome_some, true_iff]
      omega
    · simp only [Option.isSome_none, Bool.false_eq_true, false_iff]
      omega
    · rw [hold]
      omega
  · have hnew : st'.log.rows (st.currentSequence + 1) = some input := by rw [hrows, if_pos rfl]
    have hsame : st'.inputsUpTo st.currentSequence = st.inputsUpTo st.currentSequence := by
      refine inputsUpTo_congr fun i _ hi => ?_
      rw [hrows, if_neg (by omega), if_neg (by omega)]
    rw [inputs, hpointer, inputsUpTo_succ hnew, hsame]
    rfl

/-- Moving the pointer back cuts the list off. -/
theorem Numbered.cut (h : st.Numbered) {k : ℕ} (hk : k ≤ st.currentSequence)
    (hlog : st'.log = st.log) (hpointer : st'.currentSequence = k) :
    st'.Numbered ∧ st'.inputs = st.inputs.take k := by
  obtain ⟨last, hold, hle⟩ := h
  constructor
  · refine ⟨last, fun n => by rw [hlog, hold], ?_⟩
    omega
  · have htake : (st.inputsUpTo st.currentSequence).take k = st.inputsUpTo k :=
      inputsUpTo_take hk fun i h₁ h₂ => (hold i).mpr ⟨h₁, by omega⟩
    rw [inputs, inputs, hpointer, htake]
    exact inputsUpTo_congr fun i _ _ => by rw [hlog]

end SessionState

/-! ### The writes of one session -/

section
variable {ws : List SessionWrite} {db : SessionDb} {s : String}

theorem sessionView_other (h : ∀ w ∈ ws, w.session ≠ s) : sessionStore.view db ws s = db s := by
  induction ws generalizing db with
  | nil => rfl
  | cons w rest ih =>
      rw [Store.view_cons, ih fun v hv => h v (List.mem_cons_of_mem _ hv)]
      exact Function.update_of_ne (h w List.mem_cons_self).symm _ _

theorem sessionView_same (h : ∀ w ∈ ws, w.session = s) :
    sessionStore.view db ws s = ws.foldl SessionWrite.apply (db s) := by
  induction ws generalizing db with
  | nil => rfl
  | cons w rest ih =>
      rw [Store.view_cons, ih fun v hv => h v (List.mem_cons_of_mem _ hv), List.foldl_cons]
      rw [← h w List.mem_cons_self]
      exact congrArg (fun st => rest.foldl SessionWrite.apply st) (Function.update_self ..)

theorem foldl_deleteEntry (st : SessionState) (ns : List ℕ) :
    ((ns.map (SessionWrite.deleteEntry s ·)).foldl SessionWrite.apply st).pointer = st.pointer ∧
      ∀ n, ((ns.map (SessionWrite.deleteEntry s ·)).foldl SessionWrite.apply st).log.rows n =
        if n ∈ ns then none else st.log.rows n := by
  induction ns generalizing st with
  | nil => simp
  | cons k rest ih =>
      obtain ⟨hpointer, hrows⟩ := ih (SessionWrite.apply st (.deleteEntry s k))
      rw [List.map_cons, List.foldl_cons]
      refine ⟨hpointer, fun n => ?_⟩
      rw [hrows n]
      by_cases hk : n = k
      · subst hk
        simp [SessionWrite.apply, Table.erase_rows]
      · simp [SessionWrite.apply, Table.erase_rows, hk]

theorem mem_sequencesAfter {st : SessionState} {n k : ℕ} :
    n ∈ st.sequencesAfter k ↔ (st.log.rows n).isSome = true ∧ k < n := by
  simp [SessionState.sequencesAfter, Table.mem_ids, Option.isSome_iff_exists]

end

/-! ### What a transaction relies on and what it commits -/

/-- Nobody else changes the session of a pointer row that the transaction holds. -/
def sessionProtocol : Protocol sessionStore where
  inv db := ∀ s, (db s).Numbered
  rely ws db db' := ∀ s, sessionStore.locks ws (.pointer s) = true → db' s = db s
  env _ _ := True
  pre op ws db := match op with
    | .insert s n _ => (sessionStore.view db ws s).log.rows n = none
    | _ => True
  rely_refl _ _ _ _ := rfl
  rely_trans _ _ _ _ h h' s hs := (h' s hs).trans (h s hs)

/-- What the call of a transaction does when it commits. -/
structure SessionOutcome (call : SessionCall) (ws : List SessionWrite) (db : SessionDb) : Prop where
  session : ∀ w ∈ ws, w.session = call.session
  locked : ws = [] ∨ sessionStore.locks ws (.pointer call.session) = true
  numbered : (sessionStore.view db ws call.session).Numbered
  inputs : (sessionStore.view db ws call.session).inputs = call.applyTo (db call.session).inputs
  inRange : ∀ target, call = .rewindSession call.session target →
    ∃ k ≤ (db call.session).inputs.length, target.toSequence = some k

def SessionPost (ab : Bool) (r : Except Failure (SessionCall × SessionResult))
    (ws : List SessionWrite) (db : SessionDb) : Prop :=
  ab = false → ∀ call result, r = .ok (call, result) → SessionOutcome call ws db

theorem sessionStore_lawful : sessionStore.Lawful where
  respond_rows c db locked op r ws h w hw := by
    left
    cases op with
    | lock s =>
        simp only [sessionStore, sessionRespond] at h
        split at h <;> cases h <;> simp_all [sessionStore, sessionNeeds, SessionWrite.row]
    | deleteAfter s n =>
        cases h
        obtain ⟨k, hk, rfl⟩ := List.mem_map.mp hw
        exact List.mem_map.mpr ⟨k, hk, rfl⟩
    | insert s n input =>
        simp only [sessionStore, sessionRespond] at h
        split at h
        · cases h
        · split at h <;> cases h
          rw [List.mem_singleton.mp hw]
          exact List.mem_singleton_self _
    | setSequence s target =>
        simp only [sessionStore, sessionRespond] at h
        split at h <;> cases h
        · cases hw
        · rw [List.mem_singleton.mp hw]
          exact List.mem_singleton_self _
    | listLive s =>
        cases h
        cases hw
  external_silent c db locked op r ws h := by cases h

theorem sessionPost_error (ab : Bool) (e : Failure) (ws : List SessionWrite) (db : SessionDb) :
    SessionPost ab (.error e) ws db := fun _ _ _ h => by cases h

/-! ### The transactions -/

/-- A transaction has locked the pointer row of the session, and created it if
there was none. -/
structure HoldsPointer (s : String) (st : SessionState) (ws : List SessionWrite) : Prop where
  session : ∀ w ∈ ws, w.session = s
  lock : sessionStore.locks ws (.pointer s) = true
  log : (ws.foldl SessionWrite.apply st).log = st.log
  pointer : (ws.foldl SessionWrite.apply st).pointer = some st.currentSequence

theorem lock_response {db : SessionDb} {s : String} {r : Option SessionPointer}
    {ws : List SessionWrite} (h : sessionRespond db (.lock s) = some (r, ws)) :
    r = some ⟨s, (db s).currentSequence⟩ ∧ HoldsPointer s (db s) ws := by
  simp only [sessionRespond] at h
  split at h
  · next current hp =>
      cases h
      refine ⟨by rw [SessionState.currentSequence, hp]; rfl, ?_, ?_, rfl, ?_⟩
      · simp [SessionWrite.session]
      · simp [Store.locks, sessionStore, SessionWrite.row]
      · simp [SessionWrite.apply, SessionState.currentSequence, hp]
  · next hp =>
      cases h
      refine ⟨by rw [SessionState.currentSequence, hp]; rfl, ?_, ?_, rfl, ?_⟩
      · simp [SessionWrite.session]
      · simp [Store.locks, sessionStore, SessionWrite.row]
      · simp [SessionWrite.apply, SessionState.currentSequence, hp]

section
variable {s : String} {st : SessionState} {hold : List SessionWrite}

/-- The deletions of the abandoned tail. -/
def tailDeletes (s : String) (st : SessionState) : List SessionWrite :=
  (st.sequencesAfter st.currentSequence).map (.deleteEntry s ·)

theorem HoldsPointer.sequencesAfter (h : HoldsPointer s st hold) (n : ℕ) :
    (hold.foldl SessionWrite.apply st).sequencesAfter n = st.sequencesAfter n := by
  rw [SessionState.sequencesAfter, h.log]
  rfl

theorem HoldsPointer.deleteTail (h : HoldsPointer s st hold) :
    ((hold ++ tailDeletes s st).foldl SessionWrite.apply st).pointer = some st.currentSequence ∧
      ∀ n, ((hold ++ tailDeletes s st).foldl SessionWrite.apply st).log.rows n =
        if st.currentSequence < n then none else st.log.rows n := by
  obtain ⟨hpointer, hrows⟩ := foldl_deleteEntry (s := s) (hold.foldl SessionWrite.apply st)
    (st.sequencesAfter st.currentSequence)
  rw [List.foldl_append, tailDeletes]
  refine ⟨hpointer.trans h.pointer, fun n => ?_⟩
  rw [hrows n, h.log]
  simp only [mem_sequencesAfter]
  by_cases hn : st.currentSequence < n
  · cases hrow : st.log.rows n <;> simp [hn]
  · simp [hn]

theorem HoldsPointer.session_append (h : HoldsPointer s st hold) {ws : List SessionWrite}
    (hws : ∀ w ∈ ws, w.session = s) : ∀ w ∈ hold ++ ws, w.session = s := by
  intro w hw
  rcases List.mem_append.mp hw with hw | hw
  · exact h.session w hw
  · exact hws w hw

theorem HoldsPointer.lock_append (h : HoldsPointer s st hold) (ws : List SessionWrite) :
    sessionStore.locks (hold ++ ws) (.pointer s) = true := by
  rw [Store.locks_append, h.lock, Bool.true_or]

theorem tailDeletes_session (s : String) (st : SessionState) :
    ∀ w ∈ tailDeletes s st, w.session = s := by
  intro w hw
  obtain ⟨n, -, rfl⟩ := List.mem_map.mp hw
  rfl

/-- The writes of an append after its lock. -/
def pushWrites (s : String) (st : SessionState) (input : Json) : List SessionWrite :=
  tailDeletes s st ++ [.insertEntry s (st.currentSequence + 1) input] ++
    [.setPointer s (st.currentSequence + 1)]

theorem pushWrites_session (s : String) (st : SessionState) (input : Json) :
    ∀ w ∈ pushWrites s st input, w.session = s := by
  intro w hw
  simp only [pushWrites, List.mem_append, List.mem_singleton] at hw
  rcases hw with (hw | rfl) | rfl
  · exact tailDeletes_session s st w hw
  · rfl
  · rfl

/-- What an append commits. -/
theorem HoldsPointer.push_outcome (h : HoldsPointer s st hold) {db : SessionDb} (hst : db s = st)
    (hnum : st.Numbered) (input : Json) :
    SessionOutcome (.appendEntry s (some input)) (hold ++ pushWrites s st input) db := by
  have hsession := h.session_append (pushWrites_session s st input)
  have hview : sessionStore.view db (hold ++ pushWrites s st input) s =
      (hold ++ pushWrites s st input).foldl SessionWrite.apply st := by
    rw [sessionView_same hsession, hst]
  obtain ⟨-, hrows⟩ := h.deleteTail
  have hentries : ∀ n, ((hold ++ pushWrites s st input).foldl SessionWrite.apply st).log.rows n =
      if n = st.currentSequence + 1 then some input
      else if st.currentSequence < n then none else st.log.rows n := by
    intro n
    rw [pushWrites, ← List.append_assoc, ← List.append_assoc, List.foldl_append, List.foldl_append]
    change (((hold ++ tailDeletes s st).foldl SessionWrite.apply st).log.insertAt
      (st.currentSequence + 1) input).rows n = _
    by_cases hn : n = st.currentSequence + 1
    · rw [hn, Table.insertAt_same, if_pos rfl]
    · rw [Table.insertAt_other _ _ hn, hrows n, if_neg hn]
  have hpointer : ((hold ++ pushWrites s st input).foldl SessionWrite.apply st).currentSequence =
      st.currentSequence + 1 := by
    rw [pushWrites, ← List.append_assoc, List.foldl_append]
    rfl
  obtain ⟨hnumbered, hinputs⟩ := hnum.push hentries hpointer
  refine ⟨hsession, .inr (h.lock_append _), ?_, ?_, fun target htarget => by cases htarget⟩
  · exact hview ▸ hnumbered
  · change (sessionStore.view db _ s).inputs = (db s).inputs ++ [input]
    rw [hview, hst]
    exact hinputs

/-- What a rewind commits: the pointer is at its target, the rows are as before. -/
theorem rewind_outcome {db : SessionDb} (hst : db s = st)
    (hnum : st.Numbered) {target : TargetSequence} {k : ℕ} (hk : target.toSequence = some k)
    (hle : k ≤ st.currentSequence) {ws : List SessionWrite} (hsession : ∀ w ∈ ws, w.session = s)
    (hlock : sessionStore.locks ws (.pointer s) = true)
    (hlog : (ws.foldl SessionWrite.apply st).log = st.log)
    (hpointer : (ws.foldl SessionWrite.apply st).currentSequence = k) :
    SessionOutcome (.rewindSession s target) ws db := by
  have hview : sessionStore.view db ws s = ws.foldl SessionWrite.apply st := by
    rw [sessionView_same hsession, hst]
  obtain ⟨hcut, hinputs⟩ := hnum.cut hle hlog hpointer
  refine ⟨hsession, .inr hlock, ?_, ?_, ?_⟩
  · exact hview ▸ hcut
  · change (sessionStore.view db ws s).inputs =
      (SessionCall.rewindSession s target).applyTo (db s).inputs
    rw [hview, hst, hinputs, SessionCall.applyTo, hk]
  · intro target' htarget
    cases htarget
    refine ⟨k, ?_, hk⟩
    change k ≤ (db s).inputs.length
    rw [hst, hnum.length_inputs]
    exact hle

end

/-- The pointer row that the transaction holds keeps its session as it was. -/
theorem HoldsPointer.of_rely {s : String} {ws : List SessionWrite} {db db' : SessionDb}
    (hlock : sessionStore.locks ws (.pointer s) = true) (hr : sessionProtocol.rely ws db db') :
    db' s = db s := hr s hlock

theorem insert_response {db : SessionDb} {s : String} {n : ℕ} {input : Option Json}
    {r : Option SessionLogEntry} {ws : List SessionWrite}
    (h : sessionRespond db (.insert s n input) = some (r, ws)) :
    ∃ j, input = some j ∧ r = some ⟨s, n, j⟩ ∧ ws = [.insertEntry s n j] := by
  simp only [sessionRespond] at h
  split at h
  · cases h
  · next j =>
      split at h
      · cases h
      · cases h
        exact ⟨j, rfl, rfl, rfl⟩

theorem setSequence_response {db : SessionDb} {s : String} {target : TargetSequence}
    {r : Option SessionPointer} {ws : List SessionWrite} (hp : (db s).pointer.isSome = true)
    (h : sessionRespond db (.setSequence s target) = some (r, ws)) :
    ∃ k, target.toSequence = some k ∧ r = some ⟨s, k⟩ ∧ ws = [.setPointer s k] := by
  simp only [sessionRespond] at h
  split at h
  · cases h
  · next hnone => simp [hnone] at hp
  · next k _ hk _ =>
      cases h
      exact ⟨k, hk, rfl, rfl⟩

section
variable {s : String}

/-- A statement whose refusal ends the transaction of a call. -/
theorem sessionQuery_ensures {op : SessionOp}
    {f : op.Resp → SessionTx (SessionCall × SessionResult)} {ws : List SessionWrite}
    {db : SessionDb}
    (h : ∀ d, sessionProtocol.inv d → sessionProtocol.rely ws db d → sessionProtocol.pre op ws d ∧
      ∀ r ws', sessionRespond (sessionStore.view d ws) op = some (r, ws') →
        sessionProtocol.Ensures SessionPost false (f r) (ws ++ ws') d) :
    sessionProtocol.Ensures SessionPost false (sessionQuery op >>= f) ws db := by
  refine Protocol.ensures_query _ (fun d _ => sessionPost_error true _ [] d) ?_
  intro d hd hr
  obtain ⟨hpre, hnext⟩ := h d hd hr
  exact ⟨hpre, fun _ _ r ws' _ hresp => hnext r ws' hresp⟩

/-- What follows the lock of the pointer row. -/
theorem lockPointer_ensures {f : SessionPointer → SessionTx (SessionCall × SessionResult)}
    {db : SessionDb}
    (h : ∀ d hold, sessionProtocol.inv d → HoldsPointer s (d s) hold →
      sessionProtocol.Ensures SessionPost false (f ⟨s, (d s).currentSequence⟩) hold d) :
    sessionProtocol.Ensures SessionPost false (lockPointer s >>= f) [] db := by
  rw [lockPointer, Script.bind_assoc]
  apply sessionQuery_ensures
  intro d hd _
  refine ⟨trivial, fun r hold hresp => ?_⟩
  obtain ⟨rfl, hhold⟩ := lock_response hresp
  exact h d hold hd hhold

/-- What follows a new position of a pointer whose row is held. -/
theorem setPointer_ensures {f : SessionPointer → SessionTx (SessionCall × SessionResult)}
    {target : TargetSequence} {ws : List SessionWrite} {db : SessionDb}
    (hlock : sessionStore.locks ws (.pointer s) = true)
    (hpointer : (sessionStore.view db ws s).pointer.isSome = true)
    (hsession : ∀ w ∈ ws, w.session = s)
    (h : ∀ d k, sessionProtocol.inv d → d s = db s → target.toSequence = some k →
      sessionProtocol.Ensures SessionPost false (f ⟨s, k⟩) (ws ++ [.setPointer s k]) d) :
    sessionProtocol.Ensures SessionPost false (setPointerSequence s target >>= f) ws db := by
  rw [setPointerSequence, Script.bind_assoc]
  apply sessionQuery_ensures
  intro d hd hr
  have hsame : d s = db s := HoldsPointer.of_rely hlock hr
  have hview : sessionStore.view d ws s = sessionStore.view db ws s := by
    rw [sessionView_same hsession, sessionView_same hsession, hsame]
  refine ⟨trivial, fun r ws' hresp => ?_⟩
  rw [← hview] at hpointer
  obtain ⟨k, hk, rfl, rfl⟩ := setSequence_response hpointer hresp
  exact h d k hd hsame hk

/-- An append, whoever works around it. -/
theorem append_ensures (input : Option Json) (db : SessionDb) :
    sessionProtocol.Ensures SessionPost false (SessionCall.appendEntry s input).script [] db := by
  change sessionProtocol.Ensures SessionPost false (appendEntry s input >>= _) [] db
  rw [appendEntry, Script.bind_assoc]
  apply lockPointer_ensures
  intro d hold hd hhold
  rw [Script.bind_assoc]
  apply sessionQuery_ensures
  intro d₁ _ hr₁
  have hd₁ : d₁ s = d s := HoldsPointer.of_rely hhold.lock hr₁
  refine ⟨trivial, fun _ dels hresp => ?_⟩
  have hdels : dels = tailDeletes s (d s) := by
    cases hresp
    rw [sessionView_same hhold.session, hd₁, hhold.sequencesAfter]
    rfl
  subst hdels
  have htail := hhold.session_append (tailDeletes_session s (d s))
  rw [Script.bind_assoc, insertEntry, Script.bind_assoc]
  apply sessionQuery_ensures
  intro d₂ _ hr₂
  have hd₂ : d₂ s = d s := (HoldsPointer.of_rely (hhold.lock_append _) hr₂).trans hd₁
  obtain ⟨hpointer, hrows⟩ := hhold.deleteTail
  constructor
  · change (sessionStore.view d₂ _ s).log.rows _ = none
    rw [sessionView_same htail, hd₂, hrows, if_pos (Nat.lt_succ_self _)]
  · intro r ins hresp₂
    obtain ⟨j, rfl, rfl, rfl⟩ := insert_response hresp₂
    have hinsert : ∀ w ∈ hold ++ tailDeletes s (d s) ++
        [.insertEntry s ((d s).currentSequence + 1) j], w.session = s := by
      intro w hw
      rcases List.mem_append.mp hw with hw | hw
      · exact htail w hw
      · rw [List.mem_singleton.mp hw]
        rfl
    change sessionProtocol.Ensures SessionPost false ((setPointerSequence s
      (.ofNat ((d s).currentSequence + 1)) >>= fun _ => pure _) >>= fun _ => pure _) _ _
    rw [Script.bind_assoc]
    apply setPointer_ensures
    · rw [List.append_assoc]
      exact hhold.lock_append _
    · rw [sessionView_same hinsert, hd₂, List.foldl_append]
      exact hpointer ▸ rfl
    · exact hinsert
    · intro d₃ k _ hd₃ hk
      have hnext : k = (d s).currentSequence + 1 := by
        rw [TargetSequence.toSequence_ofNat] at hk
        exact (Option.some.inj hk).symm
      subst hnext
      refine Protocol.ensures_done _ fun d₄ hd₄ hr₄ _ call result hcall => ?_
      cases hcall
      have hlock := hhold.lock_append (pushWrites s (d s) j)
      rw [pushWrites, ← List.append_assoc, ← List.append_assoc] at hlock
      have hsame : d₄ s = d s := (HoldsPointer.of_rely hlock hr₄).trans (hd₃.trans hd₂)
      have houtcome := hhold.push_outcome hsame (hd s) j
      rwa [pushWrites, ← List.append_assoc, ← List.append_assoc] at houtcome

/-- A rewind. A target that the guard lets through and the column takes is at
most the pointer. -/
theorem rewind_ensures (target : TargetSequence) (db : SessionDb) :
    sessionProtocol.Ensures SessionPost false (SessionCall.rewindSession s target).script [] db := by
  change sessionProtocol.Ensures SessionPost false (rewindSession s target >>= _) [] db
  rw [rewindSession, Script.bind_assoc]
  apply lockPointer_ensures
  intro d hold hd hhold
  change sessionProtocol.Ensures SessionPost false ((if target.lessThanZero ||
    target.greaterThan (d s).currentSequence then _ else _) >>= _) hold d
  split_ifs with hrange heq
  · exact Protocol.ensures_done _ fun _ _ _ _ _ _ h => by cases h
  · refine Protocol.ensures_done _ fun d' _ hr _ call result hcall => ?_
    cases hcall
    have hsame : d' s = d s := HoldsPointer.of_rely hhold.lock hr
    refine rewind_outcome hsame (hd s) (TargetSequence.toSequence_of_equals heq) le_rfl
      hhold.session hhold.lock hhold.log ?_
    rw [SessionState.currentSequence, hhold.pointer]
    rfl
  · have hview : (sessionStore.view d hold s).pointer = some (d s).currentSequence := by
      rw [sessionView_same hhold.session, hhold.pointer]
    apply setPointer_ensures hhold.lock (hview ▸ rfl) hhold.session
    intro d₁ k _ hd₁ hk
    have hsession : ∀ w ∈ hold ++ [SessionWrite.setPointer s k], w.session = s :=
      hhold.session_append fun w hw => by rw [List.mem_singleton.mp hw]; rfl
    have hlock := hhold.lock_append [SessionWrite.setPointer s k]
    have hle : k ≤ (d s).currentSequence := by
      apply TargetSequence.toSequence_le hk
      simp only [Bool.or_eq_true, not_or, Bool.not_eq_true] at hrange
      exact hrange.2
    refine Protocol.ensures_done _ fun d' _ hr _ call result hcall => ?_
    cases hcall
    have hsame : d' s = d s := (HoldsPointer.of_rely hlock hr).trans hd₁
    refine rewind_outcome hsame (hd s) hk hle hsession hlock ?_ ?_
    · rw [List.foldl_append]
      exact hhold.log
    · rw [List.foldl_append]
      rfl

/-- A replay changes nothing. -/
theorem replay_ensures (db : SessionDb) :
    sessionProtocol.Ensures SessionPost false (SessionCall.replaySession s).script [] db := by
  change sessionProtocol.Ensures SessionPost false (replaySession s >>= _) [] db
  apply sessionQuery_ensures
  intro d hd _
  refine ⟨trivial, fun entries ws hresp => ?_⟩
  cases hresp
  refine Protocol.ensures_done _ fun d' hd' _ _ call result hcall => ?_
  cases hcall
  refine ⟨fun w hw => ?_, .inl rfl, hd' s, rfl, fun target h => ?_⟩
  · cases hw
  · cases h

theorem script_ensures (call : SessionCall) (db : SessionDb) :
    sessionProtocol.Ensures SessionPost false call.script [] db := by
  cases call with
  | appendEntry s input => exact append_ensures input db
  | rewindSession s target => exact rewind_ensures target db
  | replaySession s => exact replay_ensures db

end

end WorkflowPlatform
