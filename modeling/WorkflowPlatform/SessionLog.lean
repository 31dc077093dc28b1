import WorkflowPlatform.Errors
import WorkflowPlatform.JsNumbers
import WorkflowPlatform.Rely
import WorkflowPlatform.Table

/-!
# The session log

A session has the rows of its inputs, numbered, and a pointer to the last one
that counts. Rewinding only moves the pointer back; the rows past it stay until
the next append, which deletes them before it inserts its own. Every append and
every rewind first locks the pointer row of its session, creating it if need be,
and holds it to the end of its transaction.
-/
namespace WorkflowPlatform

structure SessionState where
  /-- The rows of `session_log`, by sequence number. -/
  log : Table Json := .empty
  /-- `current_sequence`, where the session has a row in `session_pointer`. -/
  pointer : Option ℕ := none

abbrev SessionDb := String → SessionState

def SessionDb.empty : SessionDb := fun _ => {}

structure SessionLogEntry where
  sessionId : String
  sequence : ℕ
  input : Json

structure SessionPointer where
  sessionId : String
  currentSequence : ℕ

/-- A JavaScript number. -/
inductive TargetSequence where
  | finite (n : JsNumber)
  | infinity (negative : Bool)
  | nan

namespace TargetSequence

def ofNat (n : ℕ) : TargetSequence := .finite (JsValue.natNumber n)

def lessThanZero : TargetSequence → Bool
  | .finite n => n.value < 0
  | .infinity negative => negative
  | .nan => false

def greaterThan (current : ℕ) : TargetSequence → Bool
  | .finite n => (current : ℚ) < n.value
  | .infinity negative => !negative
  | .nan => false

def equals (current : ℕ) : TargetSequence → Bool
  | .finite n => n.value = current
  | _ => false

/-- What a `BIGINT` column with `CHECK (current_sequence >= 0)` takes. -/
def toSequence : TargetSequence → Option ℕ
  | .finite n => if n.value.den = 1 ∧ 0 ≤ n.value.num then some n.value.num.toNat else none
  | _ => none

theorem toSequence_eq_some {n : JsNumber} {k : ℕ} (h : (finite n).toSequence = some k) :
    n.value = k := by
  simp only [toSequence] at h
  split_ifs at h with hint
  obtain ⟨hden, hnum⟩ := hint
  have hk : (n.value.num.toNat : ℤ) = n.value.num := Int.toNat_of_nonneg hnum
  calc n.value = (n.value.num : ℚ) := (Rat.coe_int_num_of_den_eq_one hden).symm
    _ = ((n.value.num.toNat : ℤ) : ℚ) := by rw [hk]
    _ = (n.value.num.toNat : ℚ) := Int.cast_natCast _
    _ = k := by rw [Option.some.inj h]

theorem toSequence_of_equals {target : TargetSequence} {current : ℕ}
    (h : target.equals current = true) : target.toSequence = some current := by
  cases target with
  | finite n =>
      have hvalue : n.value = current := by simpa [equals] using h
      simp [toSequence, hvalue]
  | infinity negative => cases h
  | nan => cases h

theorem toSequence_le {target : TargetSequence} {current k : ℕ}
    (h : target.toSequence = some k) (hgreater : target.greaterThan current = false) :
    k ≤ current := by
  cases target with
  | finite n =>
      have hvalue : n.value = k := toSequence_eq_some h
      have hle : n.value ≤ current := by simpa [greaterThan] using hgreater
      rw [hvalue] at hle
      exact_mod_cast hle
  | infinity negative => cases h
  | nan => cases h

theorem toSequence_ofNat (n : ℕ) : (ofNat n).toSequence = some n := by
  simp [ofNat, toSequence, JsValue.natNumber_value]

/-- The number as `JSON.stringify` writes it: only a finite one has a numeral. -/
def toJs : TargetSequence → JsValue
  | .finite n => .json (.num n)
  | _ => .json .null

end TargetSequence

inductive SessionOp where
  | lock (sessionId : String)
  | deleteAfter (sessionId : String) (afterSequence : ℕ)
  | insert (sessionId : String) (sequence : ℕ) (input : Option Json)
  | setSequence (sessionId : String) (sequence : TargetSequence)
  | listLive (sessionId : String)

/-- The rows a statement returns. -/
@[reducible] def SessionOp.Resp : SessionOp → Type
  | .lock _ => Option SessionPointer
  | .deleteAfter .. => Unit
  | .insert .. => Option SessionLogEntry
  | .setSequence .. => Option SessionPointer
  | .listLive _ => List SessionLogEntry

inductive SessionWrite where
  | createPointer (sessionId : String)
  | lockPointer (sessionId : String)
  | deleteEntry (sessionId : String) (sequence : ℕ)
  | insertEntry (sessionId : String) (sequence : ℕ) (input : Json)
  | setPointer (sessionId : String) (sequence : ℕ)

inductive SessionRow where
  | pointer (sessionId : String)
  | entry (sessionId : String) (sequence : ℕ)
deriving DecidableEq

namespace SessionWrite

def session : SessionWrite → String
  | createPointer s => s
  | lockPointer s => s
  | deleteEntry s _ => s
  | insertEntry s _ _ => s
  | setPointer s _ => s

def row : SessionWrite → SessionRow
  | createPointer s => .pointer s
  | lockPointer s => .pointer s
  | deleteEntry s n => .entry s n
  | insertEntry s n _ => .entry s n
  | setPointer s _ => .pointer s

/-- The write on the rows of its own session. -/
def apply (st : SessionState) : SessionWrite → SessionState
  | createPointer _ => { st with pointer := some 0 }
  | lockPointer _ => st
  | deleteEntry _ n => { st with log := st.log.erase n }
  | insertEntry _ n input => { st with log := st.log.insertAt n input }
  | setPointer _ n => { st with pointer := some n }

end SessionWrite

namespace SessionState

/-- The rows of sequence at most `n`, in ascending order. -/
def entriesUpTo (st : SessionState) (sessionId : String) (n : ℕ) : List SessionLogEntry :=
  (List.range (n + 1)).filterMap fun i => (st.log.rows i).map (⟨sessionId, i, ·⟩)

/-- `SQL_FIND_LIVE_SESSION_LOG_ENTRIES`; a session without a pointer has none. -/
def listLive (st : SessionState) (sessionId : String) : List SessionLogEntry :=
  match st.pointer with
  | none => []
  | some current => st.entriesUpTo sessionId current

def sequencesAfter (st : SessionState) (n : ℕ) : List ℕ := st.log.ids.filter (n < ·)

end SessionState

def sessionNeeds (db : SessionDb) : SessionOp → List SessionRow
  | .lock s => [.pointer s]
  | .deleteAfter s n => ((db s).sequencesAfter n).map (.entry s ·)
  | .insert s n _ => [.entry s n]
  | .setSequence s _ => [.pointer s]
  | .listLive _ => []

/-- An insert is refused for an input that is no `jsonb` value and for a
sequence that has a row already, an update for a value its column cannot hold. -/
def sessionRespond (db : SessionDb) : (op : SessionOp) → Option (op.Resp × List SessionWrite)
  | .lock s => match (db s).pointer with
      | some current => some (some ⟨s, current⟩, [.lockPointer s])
      | none => some (some ⟨s, 0⟩, [.createPointer s])
  | .deleteAfter s n => some ((), ((db s).sequencesAfter n).map (.deleteEntry s ·))
  | .insert s n input => match input with
      | none => none
      | some j =>
          if j.hasNul || ((db s).log.rows n).isSome then none
          else some (some ⟨s, n, j⟩, [.insertEntry s n j])
  | .setSequence s target => match target.toSequence, (db s).pointer with
      | none, _ => none
      | some _, none => some (none, [])
      | some n, some _ => some (some ⟨s, n⟩, [.setPointer s n])
  | .listLive s => some ((db s).listLive s, [])

def sessionStore : Store SessionDb SessionOp SessionWrite SessionRow Unit Failure SessionOp.Resp where
  write db w := Function.update db w.session (w.apply (db w.session))
  row := SessionWrite.row
  external _ := false
  needs := sessionNeeds
  refused := .database
  respond _ db _ op := sessionRespond db op

abbrev SessionTx (α : Type) := Script SessionOp SessionOp.Resp Failure α

/-! ### The repositories and the operations over them -/

def sequenceContext (sessionId : String) (sequence : ContextValue) : ErrorContext :=
  [("sessionId", ErrorContext.ofString sessionId), ("sequence", sequence)]

/-- One statement. -/
@[reducible] def sessionQuery (op : SessionOp) : SessionTx op.Resp := Script.perform op

def lockPointer (sessionId : String) : SessionTx SessionPointer := do
  match ← sessionQuery (.lock sessionId) with
  | some pointer => pure pointer
  | none => Script.throw (.fatal .CORE_SESSION_POINTER_NO_ROW_RETURNED
      [("sessionId", ErrorContext.ofString sessionId)])

def setPointerSequence (sessionId : String) (sequence : TargetSequence) :
    SessionTx SessionPointer := do
  match ← sessionQuery (.setSequence sessionId sequence) with
  | some pointer => pure pointer
  | none => Script.throw (.fatal .CORE_SESSION_POINTER_NO_ROW_RETURNED
      (sequenceContext sessionId (.value sequence.toJs)))

def insertEntry (sessionId : String) (sequence : ℕ) (input : Option Json) :
    SessionTx SessionLogEntry := do
  match ← sessionQuery (.insert sessionId sequence input) with
  | some entry => pure entry
  | none => Script.throw (.fatal .CORE_SESSION_LOG_NO_ROW_RETURNED
      (sequenceContext sessionId (ErrorContext.ofNat sequence)))

def appendEntry (sessionId : String) (input : Option Json) : SessionTx SessionLogEntry := do
  let pointer ← lockPointer sessionId
  let _ ← sessionQuery (.deleteAfter sessionId pointer.currentSequence)
  let nextSequence := pointer.currentSequence + 1
  let entry ← insertEntry sessionId nextSequence input
  let _ ← setPointerSequence sessionId (.ofNat nextSequence)
  pure entry

def targetOutOfRange (sessionId : String) (targetSequence : TargetSequence)
    (currentSequence : ℕ) : Failure :=
  .fatal .SESSION_REWIND_TARGET_OUT_OF_RANGE [("sessionId", ErrorContext.ofString sessionId),
    ("targetSequence", .value targetSequence.toJs),
    ("currentSequence", ErrorContext.ofNat currentSequence)]

def rewindSession (sessionId : String) (targetSequence : TargetSequence) :
    SessionTx SessionPointer := do
  let pointer ← lockPointer sessionId
  if targetSequence.lessThanZero || targetSequence.greaterThan pointer.currentSequence then
    Script.throw (targetOutOfRange sessionId targetSequence pointer.currentSequence)
  else if targetSequence.equals pointer.currentSequence then pure pointer
  else setPointerSequence sessionId targetSequence

def replaySession (sessionId : String) : SessionTx (List SessionLogEntry) :=
  sessionQuery (.listLive sessionId)

end WorkflowPlatform
