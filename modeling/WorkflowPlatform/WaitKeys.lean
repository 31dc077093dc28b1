import WorkflowPlatform.SleepTransactions
import WorkflowPlatform.Utf16

/-!
# The keys of waits

The length of a key is measured three times: by the repository in units of UTF-16,
by the constraint of the table in characters, and by the server, when the key is
the payload of a notification, in bytes of UTF-8. What the first lets through the
second admits, and what the second admits is a payload. Whatever transactions run,
the rows satisfy the constraint, so a signal on the key of a stored wait never
fails at its notification, and keeps the wakeups it has made.
-/
namespace WorkflowPlatform

/-- The table's constraint on a key. -/
def KeyChecked (key : String) : Prop := key.length ≤ waitKeyCheckLength

/-- What the table guarantees of a wait: its constraint, and that a text of the
database has no U+0000. -/
def Wait.Stored (w : Wait) : Prop :=
  ∀ key, w.waitKey = some key → KeyChecked key ∧ Json.stringHasNul key = false

def KeysStored (db : Db) : Prop := ∀ i w, db.waits.rows i = some w → w.Stored

def SleepWrite.KeyStored : SleepWrite → Prop
  | .insertWait _ w => w.Stored
  | _ => True

/-- The repository sends the key to the table. -/
def WaitsRepo.LetsThrough (key : String) : Prop := ∀ executionId wakeAt, ∃ next,
  WaitsRepo.create executionId (some key) wakeAt =
    .call (.insertWait { executionId, waitKey := some key, wakeAt }) next

section
variable {key : String} {c : Choice} {locked : SleepRow → Bool} {db : Db}

/-! ### Three lengths -/

theorem utf16Units_length (key : String) :
    (JsValue.utf16Units key).length = (Utf16.encode key.toList).length := by
  unfold JsValue.utf16Units
  induction key.toList with
  | nil => rfl
  | cons a rest ih =>
      have hunits : (if a.toNat ≤ 0xFFFF then [a] else ['\uFFFD', '\uFFFD']).length =
          (Utf16.encodeChar a).length := by
        unfold Utf16.encodeChar
        split_ifs
        · rfl
        · omega
        · omega
        · rfl
      rw [List.flatMap_cons, List.length_append, Utf16.encode_cons, List.length_append, ih, hunits]

theorem letsThrough_iff : WaitsRepo.LetsThrough key ↔
    (JsValue.utf16Units key).length ≤ WAIT_KEY_MAX_LENGTH := by
  unfold WaitsRepo.LetsThrough WaitsRepo.create
  by_cases hlong : WAIT_KEY_MAX_LENGTH < (JsValue.utf16Units key).length
  · refine iff_of_false ?_ (Nat.not_le_of_lt hlong)
    intro h
    obtain ⟨next, hcall⟩ := h 0 none
    rw [if_pos (by simpa using hlong)] at hcall
    cases hcall
  · refine iff_of_true ?_ (Nat.le_of_not_lt hlong)
    intro executionId wakeAt
    rw [if_neg (by simpa using hlong)]
    exact ⟨_, rfl⟩

/-- The repository's limit is not above the one of the table. -/
theorem repository_limit_le : WAIT_KEY_MAX_LENGTH ≤ waitKeyCheckLength := by decide

theorem keyChecked_of_letsThrough (h : WaitsRepo.LetsThrough key) : KeyChecked key := by
  have hunits := letsThrough_iff.mp h
  have hlength := Utf16.length_le_encode key.toList
  rw [utf16Units_length] at hunits
  rw [String.length_toList] at hlength
  exact hlength.trans (hunits.trans repository_limit_le)

/-- A key that the constraint admits is a payload. -/
theorem payload_of_keyChecked (h : KeyChecked key) :
    key.utf8ByteSize < NOTIFY_PAYLOAD_MAX_LENGTH := by
  have hbytes := Utf16.utf8ByteSize_le key
  unfold KeyChecked waitKeyCheckLength at h
  unfold NOTIFY_PAYLOAD_MAX_LENGTH
  omega

/-! ### Stored keys -/

/-- A statement inserts only what the constraint admits. -/
theorem insertWait_stored {wait : Wait} {r : Option (ℕ × Wait)} {ws : List SleepWrite}
    (h : db.sleepRespond c locked (.insertWait wait) = some (r, ws)) :
    wait.Stored ∧ ws = [.insertWait db.waits.next wait] := by
  simp only [Db.sleepRespond] at h
  split_ifs at h with hnul hkind hlong hpresent
  obtain ⟨-, rfl⟩ := Prod.mk.inj (Option.some.inj h)
  refine ⟨?_, rfl⟩
  intro key hkey
  rw [hkey, Option.any_some, Bool.not_eq_true] at hnul hlong
  exact ⟨Nat.le_of_not_lt (of_decide_eq_false hlong), hnul⟩

theorem respond_keyStored {op : SleepOp} {r : SleepResp op} {ws : List SleepWrite}
    (h : db.sleepRespond c locked op = some (r, ws)) : ∀ w ∈ ws, w.KeyStored := by
  intro w hw
  cases op with
  | insertWait wait =>
      obtain ⟨hwait, hws⟩ := insertWait_stored h
      rw [hws, List.mem_singleton] at hw
      rw [hw]
      exact hwait
  | selectClaimable now =>
      rcases selectClaimable_cases c h with ⟨-, hws⟩ | ⟨id, e, -, hws, -⟩
      · rw [hws] at hw
        cases hw
      · rw [hws, List.mem_singleton] at hw
        rw [hw]
        trivial
  | satisfyDueWaits executionId now =>
      cases h
      obtain ⟨i, -, rfl⟩ := List.mem_map.mp hw
      trivial
  | lockWait id | satisfyWait id =>
      obtain ⟨row, -, hpair⟩ := Option.map_eq_some_iff.mp h
      cases hpair
      rw [List.mem_singleton.mp hw]
      trivial
  | setRunning | lockExecution | queueWaiting | markExecutionWaiting =>
      simp only [Db.sleepRespond, Option.some.injEq, Prod.mk.injEq] at h
      rw [← h.2] at hw
      split_ifs at hw
      · rw [List.mem_singleton.mp hw]
        trivial
      · cases hw
  | now =>
      cases h
      cases hw
  | scanPending | notify =>
      simp only [Db.sleepRespond] at h
      split_ifs at h
      cases h
      cases hw

theorem write_keysStored {w : SleepWrite} (hdb : KeysStored db) (hw : w.KeyStored) :
    KeysStored (db.sleepWrite w) := by
  intro i wait hrow
  cases w with
  | insertWait id new =>
      change (db.waits.insertAt id new).rows i = some wait at hrow
      by_cases hi : i = id
      · subst hi
        rw [Table.insertAt_same, Option.some.injEq] at hrow
        exact hrow ▸ hw
      · rw [Table.insertAt_other _ _ hi] at hrow
        exact hdb i wait hrow
  | satisfyWait executionId id now =>
      change (db.waits.modify id (Wait.satisfied now)).rows i = some wait at hrow
      obtain ⟨old, hold, hkey⟩ : ∃ old, db.waits.rows i = some old ∧ wait.waitKey = old.waitKey := by
        by_cases hi : i = id
        · subst hi
          rw [Table.modify_same] at hrow
          obtain ⟨old, hold, hsatisfied⟩ := Option.map_eq_some_iff.mp hrow
          exact ⟨old, hold, by rw [← hsatisfied]; rfl⟩
        · rw [Table.modify_other _ _ hi] at hrow
          exact ⟨wait, hrow, rfl⟩
      intro key hwait
      exact hdb i old hold key (hkey ▸ hwait)
  | lockExecution | setRunning | executionStatus | lockWait => exact hdb i wait hrow

variable {n : ℕ} {α : Type} {program : Fin n → SleepTx α} {env : SleepOp → Choice → Prop}
variable {st : System n SleepOp SleepResp Failure α SleepWrite Db}

/-- The keys of the waits stay as the constraint wants them, in every interleaving
of transactions. -/
theorem keysStored_reaches (hdb : KeysStored db)
    (hs : sleepStore.Reaches program env (Store.idle db) st) :
    Store.Constrained KeysStored SleepWrite.KeyStored st :=
  (Store.constrained_idle hdb).reaches (fun _ _ _ _ _ _ h => respond_keyStored h)
    (fun _ _ => write_keysStored) hs

/-- The notification of a signal on a stored key succeeds, and leaves its transaction
with the writes it has. -/
theorem notify_succeeds (h : KeyChecked key) {t : Fin n}
    {next : Except Failure Unit → SleepTx α} {ws : List SleepWrite}
    (ht : st.txns t = some ⟨.call (.notify key) next, ws, false⟩) (c : Choice) :
    sleepStore.step program st (.call t c) =
      some (st.setTxn t (some ⟨next (.ok ()), ws, false⟩)) := by
  have hanswer : sleepStore.respond c (sleepStore.view st.db ws) (sleepStore.lockedByOther st t)
      (.notify key) = some ((), []) := if_neg (Nat.not_le_of_lt (payload_of_keyChecked h))
  have hneeds : sleepStore.needs (sleepStore.view st.db ws) (.notify key) = [] := rfl
  simp [Store.step, ht, hneeds, hanswer]

theorem signalWait_succeeds (hdb : KeysStored db) {i : ℕ} {w : Wait}
    (hw : db.waits.rows i = some w) (hkey : w.waitKey = some key) :
    ∃ rows, sleepStore.transact c locked (signalWait key) db =
      (.ok rows, db.signaled key c.now) := by
  obtain ⟨hchecked, hnul⟩ := hdb i w hw key hkey
  have hcases := @transact_signalWait_cases c locked db _ key _ rfl
  rcases hcases with ⟨e, -, -, hnotText | hlong⟩ | ⟨rows, hr, hsignaled⟩
  · rw [hnul] at hnotText
    cases hnotText
  · exact absurd (payload_of_keyChecked hchecked) (Nat.not_lt_of_le hlong)
  · exact ⟨rows, Prod.ext hr hsignaled⟩

/-- Every string of the language without a lone surrogate that the repository lets
through meets the constraint of the table, and every text that meets it is a payload.
So a notification of a stored key, sent by a transaction that sees its wait, never
fails and undoes nothing, and a signal on the key delivers and commits. -/
theorem stored_wait_key_fits (hdb : KeysStored db) :
    (∀ units : List UInt16, Utf16.wellFormed units = true →
      (WaitsRepo.LetsThrough (String.ofList (Utf16.decode units)) ↔
        units.length ≤ WAIT_KEY_MAX_LENGTH) ∧
      (WaitsRepo.LetsThrough (String.ofList (Utf16.decode units)) →
        KeyChecked (String.ofList (Utf16.decode units)))) ∧
    (∀ key, KeyChecked key → key.utf8ByteSize < NOTIFY_PAYLOAD_MAX_LENGTH) ∧
    ∀ st, sleepStore.Reaches program env (Store.idle db) st → ∀ key,
      (∀ t c next ws, st.txns t = some ⟨.call (.notify key) next, ws, false⟩ →
        (∃ i w, (sleepStore.view st.db ws).waits.rows i = some w ∧ w.waitKey = some key) →
        sleepStore.step program st (.call t c) =
          some (st.setTxn t (some ⟨next (.ok ()), ws, false⟩))) ∧
      (∀ c locked, (∃ i w, st.db.waits.rows i = some w ∧ w.waitKey = some key) →
        ∃ rows, sleepStore.transact c locked (signalWait key) st.db =
          (.ok rows, st.db.signaled key c.now)) := by
  refine ⟨fun units hunits => ⟨?_, keyChecked_of_letsThrough⟩, fun _ => payload_of_keyChecked, ?_⟩
  · rw [letsThrough_iff, utf16Units_length, String.toList_ofList, Utf16.encode_decode hunits]
  · intro st hs key
    have hstored := keysStored_reaches hdb hs
    constructor
    · intro t c next ws ht ⟨i, w, hw, hkey⟩
      have hview : KeysStored (sleepStore.view st.db ws) :=
        Store.view_constrained (fun _ _ => write_keysStored) hstored.db (hstored.writes t _ ht)
      exact notify_succeeds (hview i w hw key hkey).1 ht c
    · intro c locked ⟨i, w, hw, hkey⟩
      exact signalWait_succeeds hstored.db hw hkey

end

/-- An execution asleep on a key. -/
def asleepDb : Db :=
  { Db.empty with
    executions := Table.empty.insertAt 1
      { sessionId := "s", step := "step", status := .waiting, runId := none }
    waits := Table.empty.insertAt 1 { executionId := 1, waitKey := some "approved", wakeAt := none } }

theorem asleepDb_keysStored : KeysStored asleepDb := by
  intro i w hw
  by_cases hi : i = 1
  · subst hi
    cases hw
    intro key hkey
    cases hkey
    exact ⟨by unfold KeyChecked waitKeyCheckLength; decide, by decide⟩
  · simp [asleepDb, Table.insertAt, Table.empty, hi] at hw

theorem stored_wait_key_fits_asleep : KeysStored asleepDb ∧
    ∃ rows, sleepStore.transact { now := 1 } (fun _ => false) (signalWait "approved") asleepDb =
      (.ok rows, asleepDb.signaled "approved" 1) := by
  refine ⟨asleepDb_keysStored, ?_⟩
  have hfits := @stored_wait_key_fits asleepDb 1 _ (fun _ => signalWait "approved")
    (fun _ _ => True) asleepDb_keysStored
  exact (hfits.2.2 _ .refl "approved").2 { now := 1 } (fun _ => false) ⟨1, _, rfl, rfl⟩

end WorkflowPlatform
