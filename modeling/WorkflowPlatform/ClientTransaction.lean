import WorkflowPlatform.Repositories

/-!
# The transaction wrapper

`withTransaction` takes a client from the pool, sends `BEGIN`, the statements of
a callback and `COMMIT` over it, and gives it back. Any of these calls can fail:
the server may refuse it, or the connection may break before or after the server
has it. A statement that fails aborts the transaction, and a `COMMIT` of an
aborted transaction rolls back without an error; so the wrapper keeps what it
says except for a callback that carries on after a failure and resolves.
-/
namespace WorkflowPlatform

/-- What `withTransaction` asks of the pool, of its client and of the server. -/
inductive ClientCall (Op : Type) where
  | connect
  | on
  | off
  | begin
  | statement (op : Op)
  | commit
  | rollback
  | release

abbrev ClientCall.Answer {Op : Type} (Resp : Op → Type) : ClientCall Op → Type
  | .statement op => Resp op
  | _ => Unit

namespace Script
variable {Op : Type} {Resp : Op → Type} {ε α σ : Type}

/-- A `try { .. } finally { .. }` block. -/
def tryFinally : Script Op Resp ε α → Script Op Resp ε Unit → Script Op Resp ε α
  | .done r, f => f >>= fun _ => .done r
  | .call op next, f => .call op fun r => (next r).tryFinally f

/-- The statements of a script, sent over the client. -/
def onClient : Script Op Resp ε α → Script (ClientCall Op) (ClientCall.Answer Resp) ε α
  | .done r => .done r
  | .call op next => .call (.statement op) fun r => (next r).onClient

theorem run_tryFinally (handle : (op : Op) → σ → Except ε (Resp op) × σ)
    (m : Script Op Resp ε α) (f : Script Op Resp ε Unit) (s : σ) :
    (m.tryFinally f).run handle s = match f.run handle (m.run handle s).2 with
      | (.ok _, s') => ((m.run handle s).1, s')
      | (.error e, s') => (.error e, s') := by
  induction m generalizing s with
  | done r =>
      rw [tryFinally, run_bind, run_done]
      cases f.run handle s with
      | mk answer s' => cases answer <;> rfl
  | call op next ih => exact ih _ _

/-- What every statement keeps, the script keeps. -/
theorem run_onClient_keeps {P : σ → Prop}
    {handle : (call : ClientCall Op) → σ → Except ε (call.Answer Resp) × σ}
    (h : ∀ op s, P s → P (handle (.statement op) s).2) (m : Script Op Resp ε α) {s : σ}
    (hs : P s) : P (m.onClient.run handle s).2 := by
  induction m generalizing s with
  | done r => exact hs
  | call op next ih => exact ih _ (h op s hs)

end Script

section
variable {Op : Type} {Resp : Op → Type} {ε α : Type}

def sendCall (call : ClientCall Op) :
    Script (ClientCall Op) (ClientCall.Answer Resp) ε (call.Answer Resp) := .call call .done

/-- The calls up to the answer of the transaction, without what is done about a
failure. -/
def transactionCalls (fn : Script Op Resp ε α) :
    Script (ClientCall Op) (ClientCall.Answer Resp) ε α := do
  let _ ← sendCall .begin
  let result ← fn.onClient
  let _ ← sendCall .commit
  pure result

def withTransaction (fn : Script Op Resp ε α) :
    Script (ClientCall Op) (ClientCall.Answer Resp) ε α := do
  let _ ← sendCall .connect
  let _ ← sendCall .on
  Script.tryFinally
    ((transactionCalls fn).tryCatch fun err => do
      -- A `ROLLBACK` that fails must not replace the error.
      (sendCall .rollback).tryCatch fun _ => pure ()
      Script.throw err)
    (do
      let _ ← sendCall .off
      sendCall .release)

end

/-! ### The server and the connection -/

inductive Outcome (Choice Row ε : Type) where
  | answered (c : Choice) (locked : Row → Bool)
  | refused (e : ε)
  /-- The connection breaks, before or after the server has the call. -/
  | lost (reached : Bool) (e : ε)

/-- Whether the connection holds for the call. -/
def Outcome.holds {Choice Row ε : Type} : Outcome Choice Row ε → Bool
  | .lost .. => false
  | _ => true

/-- What happens to one call, and what other transactions have committed by then. -/
structure Fate (Write Choice Row ε : Type) where
  others : List (List Write) := []
  outcome : Outcome Choice Row ε

inductive Committer where
  | self
  | other
  deriving DecidableEq

/-- The client, and the server's side of its connection. -/
structure ClientState (Db Write : Type) where
  base : Db
  /-- What has been committed, in order. -/
  log : List (Committer × List Write) := []
  alive : Bool := false
  transaction : Option (Session Write) := none
  /-- What the statements of the callback have written, also if it is lost. -/
  written : List Write := []
  /-- A `COMMIT` has taken effect. -/
  commitTook : Bool := false
  obtained : ℕ := 0
  released : ℕ := 0
  listeners : ℕ := 0
  calls : ℕ := 0

namespace ClientState
variable {Db Op Write Row Choice ε α : Type} {Resp : Op → Type}
variable (S : Store Db Op Write Row Choice ε Resp)

/-- The committed rows. -/
def rows (w : ClientState Db Write) : Db := S.view w.base (w.log.flatMap Prod.snd)

/-- What the client itself has committed. -/
def own (w : ClientState Db Write) : List Write :=
  (w.log.filter (·.1 = .self)).flatMap Prod.snd

/-- The server ends the transaction of a broken connection. -/
def disconnect (w : ClientState Db Write) : ClientState Db Write :=
  { w with alive := false, transaction := none }

def abort (w : ClientState Db Write) : ClientState Db Write :=
  { w with transaction := w.transaction.map fun _ => ⟨[], true⟩ }

def isAborted (w : ClientState Db Write) : Bool := w.transaction.any (·.aborted)

/-- `COMMIT`: an aborted transaction is rolled back. -/
def commit (w : ClientState Db Write) : ClientState Db Write :=
  match w.transaction with
  | none => w
  | some s =>
      if s.aborted then { w with transaction := none }
      else { w with transaction := none, commitTook := true, log := w.log ++ [(.self, s.writes)] }

/-- A statement that the server answers, or refuses by itself. -/
def execute (c : Choice) (locked : Row → Bool) (op : Op) (w : ClientState Db Write) :
    Except ε (Resp op) × ClientState Db Write :=
  match w.transaction with
  | none => ((S.handle c locked (w.rows S) op {}).1, w)
  | some s =>
      let answer := S.handle c locked (w.rows S) op s
      (answer.1, { w with
        transaction := some answer.2
        written := if answer.2.aborted then w.written else answer.2.writes })

/-- The error of a call that is not answered. -/
def failure : Outcome Choice Row ε → ε
  | .answered .. => S.refused
  | .refused e => e
  | .lost _ e => e

/-- A command over the connection: the server answers or refuses it, or the
connection breaks, which leaves the given states. -/
def command {β : Type} (outcome : Outcome Choice Row ε) (w : ClientState Db Write)
    (answered : Choice → (Row → Bool) → Except ε β × ClientState Db Write)
    (refused : ε → Except ε β × ClientState Db Write) (lost : Bool → ClientState Db Write) :
    Except ε β × ClientState Db Write :=
  if w.alive then match outcome with
    | .answered c locked => answered c locked
    | .refused e => refused e
    | .lost reached e => (.error e, lost reached)
  else (.error (failure S outcome), w)

def perform (outcome : Outcome Choice Row ε) (w : ClientState Db Write) :
    (call : ClientCall Op) → Except ε (call.Answer Resp) × ClientState Db Write
  | .connect => match outcome with
      | .answered .. => (.ok (), { w with alive := true, obtained := w.obtained + 1 })
      | _ => (.error (failure S outcome), w)
  | .on => (.ok (), { w with listeners := w.listeners + 1 })
  | .off => (.ok (), { w with listeners := w.listeners - 1 })
  | .release => (.ok (), { w with released := w.released + 1 })
  | .begin => command S outcome w (fun _ _ => (.ok (), { w with transaction := some {} }))
      (fun e => (.error e, w)) fun _ => w.disconnect
  | .statement op =>
      -- Requests to other parties do not go over the connection.
      if S.external op then match outcome with
        | .answered c locked => execute S c locked op w
        | _ => (.error (failure S outcome), w)
      else command S outcome w (fun c locked => execute S c locked op w)
        (fun e => (.error e, w.abort)) fun _ => w.disconnect
  | .commit => command S outcome w (fun _ _ => (.ok (), w.commit))
      (fun e => if w.isAborted then (.ok (), w.commit) else (.error e, { w with transaction := none }))
      fun reached => (if reached then w.commit else w).disconnect
  | .rollback => command S outcome w (fun _ _ => (.ok (), { w with transaction := none }))
      (fun e => (.error e, w)) fun _ => w.disconnect

/-- The state in which a call is served. -/
def received (env : ℕ → Fate Write Choice Row ε) (w : ClientState Db Write) :
    ClientState Db Write :=
  { w with log := w.log ++ (env w.calls).others.map (.other, ·), calls := w.calls + 1 }

/-- One call after the other, each with its own fate. -/
def handle (env : ℕ → Fate Write Choice Row ε) (call : ClientCall Op) (w : ClientState Db Write) :
    Except ε (call.Answer Resp) × ClientState Db Write :=
  perform S (env w.calls).outcome (w.received env) call

/-! ### What a call keeps -/

/-- The client has been obtained, not given back, and has committed nothing. -/
structure Untouched (w : ClientState Db Write) : Prop where
  own_eq : w.own = []
  commitTook_eq : w.commitTook = false
  obtained_eq : w.obtained = 1
  released_eq : w.released = 0

/-- A connection that is alive is in the transaction that has the writes of the
callback, unless it has been aborted. -/
structure InTransaction (w : ClientState Db Write) : Prop where
  alive_eq : w.alive = w.transaction.isSome
  writes_eq : ∀ s, w.transaction = some s → s.aborted = false → s.writes = w.written

/-- What only `connect`, `COMMIT` and `release` touch. -/
structure SameLedger (w w' : ClientState Db Write) : Prop where
  own_eq : w'.own = w.own
  commitTook_eq : w'.commitTook = w.commitTook
  obtained_eq : w'.obtained = w.obtained
  released_eq : w'.released = w.released

section
variable {S} {w w' w'' : ClientState Db Write} {env : ℕ → Fate Write Choice Row ε}

theorem SameLedger.untouched (h : SameLedger w w') (hw : Untouched w) : Untouched w' where
  own_eq := h.own_eq.trans hw.own_eq
  commitTook_eq := h.commitTook_eq.trans hw.commitTook_eq
  obtained_eq := h.obtained_eq.trans hw.obtained_eq
  released_eq := h.released_eq.trans hw.released_eq

theorem SameLedger.trans (h : SameLedger w w') (h' : SameLedger w' w'') : SameLedger w w'' where
  own_eq := h'.own_eq.trans h.own_eq
  commitTook_eq := h'.commitTook_eq.trans h.commitTook_eq
  obtained_eq := h'.obtained_eq.trans h.obtained_eq
  released_eq := h'.released_eq.trans h.released_eq

/-- What others commit is not the client's own. -/
theorem sameLedger_received : SameLedger w (w.received env) := by
  refine ⟨?_, rfl, rfl, rfl⟩
  have hothers : ((env w.calls).others.map fun ws => (Committer.other, ws)).filter
      (·.1 = .self) = [] := by
    rw [List.filter_map, List.filter_eq_nil_iff.mpr (by simp)]
    rfl
  rw [received, own, own, List.filter_append, hothers, List.append_nil]

theorem sameLedger_disconnect : SameLedger w w.disconnect := ⟨rfl, rfl, rfl, rfl⟩

theorem sameLedger_abort : SameLedger w w.abort := ⟨rfl, rfl, rfl, rfl⟩

theorem InTransaction.received (h : InTransaction w) : InTransaction (w.received env) :=
  ⟨h.alive_eq, h.writes_eq⟩

theorem InTransaction.disconnect (w : ClientState Db Write) : InTransaction w.disconnect :=
  ⟨rfl, fun _ h => by cases h⟩

theorem execute_sameLedger (c : Choice) (locked : Row → Bool) (op : Op) :
    SameLedger w (execute S c locked op w).2 := by
  unfold execute
  cases w.transaction <;> exact ⟨rfl, rfl, rfl, rfl⟩

theorem execute_inTransaction (hw : InTransaction w) (c : Choice) (locked : Row → Bool) (op : Op) :
    InTransaction (execute S c locked op w).2 := by
  have halive := hw.alive_eq
  unfold execute
  cases htxn : w.transaction with
  | none => exact hw
  | some s =>
      rw [htxn] at halive
      refine ⟨halive, fun s' hs' haborted => ?_⟩
      dsimp only at hs' ⊢
      rw [← Option.some.inj hs'] at haborted ⊢
      rw [haborted, if_neg Bool.false_ne_true]

theorem InTransaction.abort (hw : InTransaction w) : InTransaction w.abort := by
  constructor
  · rw [ClientState.abort, Option.isSome_map]
    exact hw.alive_eq
  · intro s hs haborted
    obtain ⟨_, -, rfl⟩ := Option.map_eq_some_iff.mp hs
    cases haborted

/-- A command is answered, refused or cut off, or the connection is broken
already. -/
theorem command_cases {β : Type} {P : Except ε β × ClientState Db Write → Prop}
    {outcome : Outcome Choice Row ε}
    {answered : Choice → (Row → Bool) → Except ε β × ClientState Db Write}
    {refused : ε → Except ε β × ClientState Db Write} {lost : Bool → ClientState Db Write}
    (hanswered : w.alive = true → ∀ c locked, outcome = .answered c locked → P (answered c locked))
    (hrefused : w.alive = true → ∀ e, outcome = .refused e → P (refused e))
    (hlost : ∀ reached e, outcome = .lost reached e → P (.error e, lost reached))
    (hbroken : ∀ e, P (.error e, w)) : P (command S outcome w answered refused lost) := by
  unfold command
  split_ifs with halive
  · cases houtcome : outcome with
    | answered c locked => exact hanswered halive c locked houtcome
    | refused e => exact hrefused halive e houtcome
    | lost reached e => exact hlost reached e houtcome
  · exact hbroken _

variable (S env) in
/-- A statement of the callback. -/
theorem handle_statement (op : Op) (h : Untouched w ∧ InTransaction w) :
    Untouched (handle S env (.statement op) w).2 ∧
      InTransaction (handle S env (.statement op) w).2 := by
  have hw : Untouched (w.received env) := sameLedger_received.untouched h.1
  have htxn : InTransaction (w.received env) := h.2.received
  have hexecute := fun c locked => And.intro
    ((execute_sameLedger (S := S) c locked op).untouched hw)
    (execute_inTransaction (S := S) htxn c locked op)
  unfold handle
  simp only [perform]
  split_ifs with hexternal
  · split
    · exact hexecute _ _
    · exact ⟨hw, htxn⟩
  · apply command_cases (P := fun a => Untouched a.2 ∧ InTransaction a.2)
    · intro _ c locked _
      exact hexecute c locked
    · intro _ e _
      exact ⟨sameLedger_abort.untouched hw, htxn.abort⟩
    · intro reached e _
      exact ⟨sameLedger_disconnect.untouched hw, .disconnect _⟩
    · intro e
      exact ⟨hw, htxn⟩

variable (S env) in
/-- `BEGIN`, before any statement. -/
theorem handle_begin (hw : Untouched w) (hwritten : w.written = []) :
    Untouched (handle S env .begin w).2 ∧
      ((handle S env .begin w).1 = .ok () →
        InTransaction (handle S env .begin w).2) := by
  have hw : Untouched (w.received env) := sameLedger_received.untouched hw
  unfold handle
  simp only [perform]
  apply command_cases (P := fun a => Untouched a.2 ∧ (a.1 = .ok () → InTransaction a.2))
  · intro halive c locked _
    refine ⟨⟨hw.own_eq, hw.commitTook_eq, hw.obtained_eq, hw.released_eq⟩, fun _ => ⟨halive, ?_⟩⟩
    intro s hs _
    rw [← Option.some.inj hs]
    exact hwritten.symm
  · intro _ e _
    exact ⟨hw, fun h => by cases h⟩
  · intro reached e _
    exact ⟨sameLedger_disconnect.untouched hw, fun h => by cases h⟩
  · intro e
    exact ⟨hw, fun h => by cases h⟩

/-- A `ROLLBACK`, whatever becomes of it. -/
theorem handle_rollback : SameLedger w (handle S env .rollback w).2 := by
  apply sameLedger_received.trans
  unfold handle
  simp only [perform]
  apply command_cases (P := fun a => SameLedger (w.received env) a.2)
  · exact fun _ _ _ _ => ⟨rfl, rfl, rfl, rfl⟩
  · exact fun _ _ _ => ⟨rfl, rfl, rfl, rfl⟩
  · exact fun _ _ _ => sameLedger_disconnect
  · exact fun _ => ⟨rfl, rfl, rfl, rfl⟩

/-! ### `COMMIT` -/

theorem commit_of_aborted {s : Session Write} (h : w.transaction = some s)
    (haborted : s.aborted = true) : w.commit = { w with transaction := none } := by
  simp only [commit, h, haborted, if_true]

theorem commit_of_open {s : Session Write} (h : w.transaction = some s)
    (hopen : s.aborted = false) : w.commit = { w with
      transaction := none, commitTook := true, log := w.log ++ [(.self, s.writes)] } := by
  simp only [commit, h, hopen, Bool.false_eq_true, if_false]

theorem commit_own (hw : Untouched w) (htxn : InTransaction w) (halive : w.alive = true) :
    w.commit.own = if w.isAborted then [] else w.written := by
  rw [htxn.alive_eq] at halive
  obtain ⟨s, hsession⟩ := Option.isSome_iff_exists.mp halive
  rw [isAborted, hsession, Option.any_some]
  cases haborted : s.aborted with
  | true =>
      rw [commit_of_aborted hsession haborted]
      exact hw.own_eq
  | false =>
      have hown := hw.own_eq
      rw [own] at hown
      rw [commit_of_open hsession haborted, own, List.filter_append, List.flatMap_append, hown]
      exact (List.append_nil _).trans (htxn.writes_eq s hsession haborted)

theorem commit_own_of_not_took (hw : Untouched w) (h : w.commit.commitTook = false) :
    w.commit.own = [] := by
  unfold commit at h ⊢
  split at h
  · exact hw.own_eq
  · split_ifs at h ⊢
    exact hw.own_eq

theorem commit_kept (w : ClientState Db Write) : w.commit.written = w.written ∧
    w.commit.obtained = w.obtained ∧ w.commit.released = w.released := by
  unfold commit
  split
  · exact ⟨rfl, rfl, rfl⟩
  · split_ifs <;> exact ⟨rfl, rfl, rfl⟩

theorem handle_commit_ok (h : Untouched w ∧ InTransaction w)
    (hok : (handle S env .commit w).1 = .ok ()) :
    (handle S env .commit w).2.own = if w.isAborted then [] else w.written := by
  have hw : Untouched (w.received env) := sameLedger_received.untouched h.1
  have htxn : InTransaction (w.received env) := h.2.received
  revert hok
  unfold handle
  simp only [perform]
  apply command_cases (P := fun a => a.1 = .ok () →
    a.2.own = if (w.received env).isAborted then [] else (w.received env).written)
  · intro halive c locked _ _
    exact commit_own hw htxn halive
  · intro halive e _ hok
    split_ifs at hok ⊢ with haborted
    rw [commit_own hw htxn halive, if_pos haborted]
  · intro reached e _ hok
    cases hok
  · intro e hok
    cases hok

theorem handle_commit_error (h : Untouched w ∧ InTransaction w) {e : ε}
    (herror : (handle S env .commit w).1 = .error e)
    (hnot : (handle S env .commit w).2.commitTook = false) :
    (handle S env .commit w).2.own = [] := by
  have hw : Untouched (w.received env) := sameLedger_received.untouched h.1
  revert herror hnot
  unfold handle
  simp only [perform]
  apply command_cases (P := fun a => a.1 = .error e → a.2.commitTook = false → a.2.own = [])
  · intro _ c locked _ herror
    cases herror
  · intro _ e' _ herror _
    split_ifs at herror ⊢ with haborted
    exact hw.own_eq
  · intro reached e' _ _ hnot
    cases reached with
    | true => exact commit_own_of_not_took hw hnot
    | false => exact hw.own_eq
  · intro e' _ _
    exact hw.own_eq

variable (S env) in
theorem handle_commit_kept : (handle S env .commit w).2.written = w.written ∧
    (handle S env .commit w).2.obtained = w.obtained ∧
    (handle S env .commit w).2.released = w.released := by
  unfold handle
  simp only [perform]
  apply command_cases (P := fun a => a.2.written = w.written ∧ a.2.obtained = w.obtained ∧
    a.2.released = w.released)
  · intro _ c locked _
    exact commit_kept (w.received env)
  · intro _ e _
    split_ifs
    · exact commit_kept (w.received env)
    · exact ⟨rfl, rfl, rfl⟩
  · intro reached e _
    cases reached with
    | true => exact commit_kept (w.received env)
    | false => exact ⟨rfl, rfl, rfl⟩
  · intro e
    exact ⟨rfl, rfl, rfl⟩

variable (S env) in
/-- A `COMMIT` of an aborted transaction is answered unless the connection breaks. -/
theorem handle_commit_aborted (h : InTransaction w) (haborted : w.isAborted = true) :
    (handle S env .commit w).1 = .ok () ↔ (env w.calls).outcome.holds = true := by
  have halive : (w.received env).alive = true := by
    rw [received, h.alive_eq]
    unfold isAborted at haborted
    cases hsession : w.transaction with
    | none => simp [hsession] at haborted
    | some s => rfl
  have haborted' : (w.received env).isAborted = true := haborted
  unfold handle
  simp only [perform, command, if_pos halive, if_pos haborted']
  cases (env w.calls).outcome <;> simp [Outcome.holds]

end
end ClientState

/-! ### All or nothing -/

section
variable {Db Op Write Row Choice ε α : Type} {Resp : Op → Type}
variable (S : Store Db Op Write Row Choice ε Resp) (env : ℕ → Fate Write Choice Row ε)
variable (fn : Script Op Resp ε α) (db : Db)
open ClientState

/-- The calls before the callback. -/
def openingCalls : Script (ClientCall Op) (ClientCall.Answer Resp) ε Unit := do
  let _ ← sendCall .connect
  let _ ← sendCall .on
  sendCall .begin

/-- The calls without what is done about a failure. -/
def plainCalls : Script (ClientCall Op) (ClientCall.Answer Resp) ε α := do
  let _ ← sendCall .connect
  let _ ← sendCall .on
  transactionCalls fn

def openingRun : Except ε Unit × ClientState Db Write :=
  (openingCalls).run (handle S env) { base := db }

/-- The run of the callback in the transaction that has been opened for it. -/
def callbackRun : Except ε α × ClientState Db Write :=
  fn.onClient.run (handle S env) (openingRun S env db).2

/-- The callback resolves though one of its statements has failed, after another
had written something, and the connection holds to the end. -/
structure SwallowsFailure : Prop where
  opened : (openingRun S env db).1 = .ok ()
  resolves : ∃ a, (callbackRun S env fn db).1 = .ok a
  aborted : (callbackRun S env fn db).2.isAborted = true
  written : (callbackRun S env fn db).2.written ≠ []
  holds : (env (callbackRun S env fn db).2.calls).outcome.holds = true

/-- What `withTransaction` promises of how it ends, given how the calls
themselves do. -/
structure AllOrNothing (plain answer : Except ε α) (w : ClientState Db Write) : Prop where
  committed : ∀ a, answer = .ok a → w.own = w.written
  rolledBack : ∀ e, answer = .error e → w.commitTook = false → w.own = []
  raised : answer = plain
  released : w.released = w.obtained ∧ w.obtained ≤ 1

variable {S env fn db}

theorem run_sendCall (call : ClientCall Op) (w : ClientState Db Write) :
    (sendCall call).run (handle S env) w = handle S env call w := rfl

/-- The error is raised again, whether the `ROLLBACK` fails or not. -/
theorem run_rollback (e : ε) (w : ClientState Db Write) :
    (do
      (sendCall .rollback).tryCatch fun _ => pure ()
      Script.throw e : Script (ClientCall Op) (ClientCall.Answer Resp) ε α).run (handle S env) w =
      (.error e, (handle S env .rollback w).2) := by
  rw [Script.run_bind, Script.run_tryCatch, run_sendCall]
  cases handle S env .rollback w with
  | mk answer w' => cases answer <;> rfl

/-- What follows once the client listens: the transaction, a `ROLLBACK` if it
fails, and giving the client back. -/
theorem run_guarded (w : ClientState Db Write) :
    (((transactionCalls fn).tryCatch fun err => do
        (sendCall .rollback).tryCatch fun _ => pure ()
        Script.throw err).tryFinally (do
          let _ ← sendCall .off
          sendCall .release)).run (handle S env) w =
      (((transactionCalls fn).run (handle S env) w).1,
        (handle S env .release (handle S env .off
          (match ((transactionCalls fn).run (handle S env) w).1 with
            | .ok _ => ((transactionCalls fn).run (handle S env) w).2
            | .error _ => (handle S env .rollback
                ((transactionCalls fn).run (handle S env) w).2).2)).2).2) := by
  rw [Script.run_tryFinally, Script.run_tryCatch]
  cases (transactionCalls fn).run (handle S env) w with
  | mk answer w' =>
      cases answer with
      | ok a => rfl
      | error e =>
          dsimp only
          rw [run_rollback]
          rfl

variable (fn) in
theorem run_withTransaction {w : ClientState Db Write}
    (h : (handle S env .connect w).1 = .ok ()) :
    let listening := (handle S env .on (handle S env .connect w).2).2
    let ended := (transactionCalls fn).run (handle S env) listening
    (withTransaction fn).run (handle S env) w =
      (ended.1, (handle S env .release (handle S env .off
        (match ended.1 with
          | .ok _ => ended.2
          | .error _ => (handle S env .rollback ended.2).2)).2).2) := by
  intro listening ended
  rw [withTransaction, Script.run_bind_ok (m := sendCall .connect) (a := ()) h]
  exact run_guarded _

variable (S env) in
theorem handle_connect (db : Db) :
    ((∃ e, (handle S env .connect { base := db }).1 = .error e) ∧
      Untouched { (handle S env .connect { base := db }).2 with obtained := 1 } ∧
      (handle S env .connect { base := db }).2.obtained = 0) ∨
    ((handle S env .connect { base := db }).1 = .ok () ∧
      Untouched (handle S env .connect { base := db }).2 ∧
      (handle S env .connect { base := db }).2.written = []) := by
  have hown : (({ base := db } : ClientState Db Write).received env).own = [] :=
    sameLedger_received.own_eq
  unfold handle
  simp only [perform]
  split
  · exact .inr ⟨rfl, ⟨hown, rfl, rfl, rfl⟩, rfl⟩
  · exact .inl ⟨⟨_, rfl⟩, ⟨hown, rfl, rfl, rfl⟩, rfl⟩

variable (S env) in
theorem handle_on (w : ClientState Db Write) :
    (handle S env .on w).1 = .ok () ∧
      SameLedger w (handle S env .on w).2 ∧
      (handle S env .on w).2.written = w.written :=
  ⟨rfl, sameLedger_received.trans ⟨rfl, rfl, rfl, rfl⟩, rfl⟩

variable (S env) in
/-- Giving the client back, after a `ROLLBACK` or none. -/
theorem handle_close (w : ClientState Db Write) :
    let w' := (handle S env .release (handle S env .off w).2).2
    w'.own = w.own ∧ w'.commitTook = w.commitTook ∧ w'.written = w.written ∧
      w'.obtained = w.obtained ∧ w'.released = w.released + 1 :=
  ⟨(sameLedger_received.trans sameLedger_received).own_eq, rfl, rfl, rfl, rfl⟩

variable (S env) in
/-- How the calls of a transaction end: with the error of `BEGIN`, of the callback
or of `COMMIT`, or with none. -/
theorem run_transactionCalls_cases (fn : Script Op Resp ε α) (w : ClientState Db Write) :
    let begun := handle S env .begin w
    let called := fn.onClient.run (handle S env) begun.2
    let ended := handle S env .commit called.2
    (∃ e, begun.1 = .error e ∧ (transactionCalls fn).run (handle S env) w = (.error e, begun.2)) ∨
    begun.1 = .ok () ∧
      ((∃ e, called.1 = .error e ∧
          (transactionCalls fn).run (handle S env) w = (.error e, called.2)) ∨
        ∃ a, called.1 = .ok a ∧
          ((∃ e, ended.1 = .error e ∧
              (transactionCalls fn).run (handle S env) w = (.error e, ended.2)) ∨
            ended.1 = .ok () ∧
              (transactionCalls fn).run (handle S env) w = (.ok a, ended.2))) := by
  intro begun called ended
  cases hbegun : begun.1 with
  | error e => exact .inl ⟨e, rfl, Script.run_bind_error hbegun⟩
  | ok =>
      have hrun : (transactionCalls fn).run (handle S env) w =
          (do
            let result ← fn.onClient
            let _ ← sendCall .commit
            pure result : Script (ClientCall Op) (ClientCall.Answer Resp) ε α).run
              (handle S env) begun.2 := Script.run_bind_ok hbegun
      rw [hrun]
      apply Or.inr
      refine ⟨rfl, ?_⟩
      cases hcalled : called.1 with
      | error e => exact .inl ⟨e, rfl, Script.run_bind_error hcalled⟩
      | ok a =>
          apply Or.inr
          refine ⟨a, rfl, ?_⟩
          rw [Script.run_bind_ok hcalled]
          cases hended : ended.1 with
          | error e => exact .inl ⟨e, rfl, Script.run_bind_error hended⟩
          | ok => exact .inr ⟨rfl, Script.run_bind_ok hended⟩

/-- The calls of `withTransaction` end with an error and nothing is committed. -/
theorem allOrNothing_of_error {e : ε} {w : ClientState Db Write}
    (hown : w.commitTook = false → w.own = []) (hobtained : w.obtained = 1)
    (hreleased : w.released = 0) :
    AllOrNothing (.error e : Except ε α) (.error e)
      (handle S env .release (handle S env .off
        (handle S env .rollback w).2).2).2 := by
  have hrollback : SameLedger w (handle S env .rollback w).2 := handle_rollback
  obtain ⟨hown', htook', -, hobtained', hreleased'⟩ :=
    handle_close S env (handle S env .rollback w).2
  constructor
  · intro a h
    cases h
  · intro _ _ h
    rw [htook', hrollback.commitTook_eq] at h
    rw [hown', hrollback.own_eq, hown h]
  · rfl
  · rw [hreleased', hobtained', hrollback.released_eq, hrollback.obtained_eq, hobtained, hreleased]
    exact ⟨rfl, by omega⟩

/-- They end with a result, and what the callback wrote is there or is not. -/
theorem allOrNothing_of_ok {a : α} {w : ClientState Db Write} (hobtained : w.obtained = 1)
    (hreleased : w.released = 0) :
    AllOrNothing (.ok a : Except ε α) (.ok a) (handle S env .release (handle S env .off w).2).2 ↔
      w.own = w.written := by
  obtain ⟨hown', -, hwritten', hobtained', hreleased'⟩ := handle_close S env w
  constructor
  · intro h
    rw [← hown', ← hwritten']
    exact h.committed a rfl
  · intro h
    refine ⟨fun b hb => by rw [hown', hwritten', h], (fun _ h => by cases h), rfl, ?_⟩
    rw [hreleased', hobtained', hobtained, hreleased]
    exact ⟨rfl, by omega⟩

/-- From the call of `BEGIN` on. -/
theorem allOrNothing_listening {w : ClientState Db Write} (hw : Untouched w)
    (hwritten : w.written = []) (hopening : openingRun S env db = handle S env .begin w) :
    let ended := (transactionCalls fn).run (handle S env) w
    AllOrNothing ended.1 ended.1
        (handle S env .release (handle S env .off
          (match ended.1 with
            | .ok _ => ended.2
            | .error _ => (handle S env .rollback ended.2).2)).2).2 ↔
      ¬ SwallowsFailure S env fn db := by
  intro ended
  obtain ⟨hbegun, hopen⟩ := handle_begin S env hw hwritten
  have hcallback : callbackRun S env fn db =
      fn.onClient.run (handle S env) (handle S env .begin w).2 := by
    rw [callbackRun, hopening]
  rcases run_transactionCalls_cases S env fn w with
    ⟨e, hbegin, hended⟩ | ⟨hbegin, ⟨e, hcalled, hended⟩ | ⟨a, hcalled, hcommit⟩⟩
  · rw [show ended = _ from hended]
    refine iff_of_true (allOrNothing_of_error (fun _ => hbegun.own_eq) hbegun.obtained_eq
      hbegun.released_eq) fun h => ?_
    have hopened := h.opened
    rw [hopening, hbegin] at hopened
    cases hopened
  · have hkept := Script.run_onClient_keeps
      (P := fun w => Untouched w ∧ InTransaction w)
      (fun op _ => handle_statement S env op) fn ⟨hbegun, hopen hbegin⟩
    rw [show ended = _ from hended]
    refine iff_of_true (allOrNothing_of_error (fun _ => hkept.1.own_eq) hkept.1.obtained_eq
      hkept.1.released_eq) fun h => ?_
    obtain ⟨a, hresolves⟩ := h.resolves
    rw [hcallback, hcalled] at hresolves
    cases hresolves
  · have hkept := Script.run_onClient_keeps
      (P := fun w => Untouched w ∧ InTransaction w)
      (fun op _ => handle_statement S env op) fn ⟨hbegun, hopen hbegin⟩
    rw [← hcallback] at hkept hcalled hcommit
    obtain ⟨hsameWritten, hobtained, hreleased⟩ := handle_commit_kept S env
      (w := (callbackRun S env fn db).2)
    rcases hcommit with ⟨e, hfailed, hended⟩ | ⟨hok, hended⟩
    · rw [show ended = _ from hended]
      refine iff_of_true (allOrNothing_of_error (handle_commit_error hkept hfailed)
        (hobtained.trans hkept.1.obtained_eq) (hreleased.trans hkept.1.released_eq)) fun h => ?_
      have hok := (handle_commit_aborted S env hkept.2 h.aborted).mpr h.holds
      rw [hfailed] at hok
      cases hok
    · rw [show ended = _ from hended]
      refine (allOrNothing_of_ok (hobtained.trans hkept.1.obtained_eq)
        (hreleased.trans hkept.1.released_eq)).trans ?_
      rw [handle_commit_ok hkept hok, hsameWritten]
      constructor
      · intro h hswallows
        rw [if_pos hswallows.aborted] at h
        exact hswallows.written h.symm
      · intro hnot
        split_ifs with haborted
        · by_contra hne
          apply hnot
          exact ⟨by rw [hopening, hbegin], ⟨a, hcalled⟩, haborted, Ne.symm hne,
            (handle_commit_aborted S env hkept.2 haborted).mp hok⟩
        · rfl

/-- Nothing of a callback that resolves has been lost exactly if none of its
failures has been swallowed. -/
theorem withTransaction_allOrNothing_iff (S : Store Db Op Write Row Choice ε Resp)
    (env : ℕ → Fate Write Choice Row ε) (fn : Script Op Resp ε α) (db : Db) :
    AllOrNothing ((plainCalls fn).run (handle S env) { base := db }).1
        ((withTransaction fn).run (handle S env) { base := db }).1
        ((withTransaction fn).run (handle S env) { base := db }).2 ↔
      ¬ SwallowsFailure S env fn db := by
  rcases handle_connect S env db with
    ⟨⟨e, hconnect⟩, hw, hobtained⟩ | ⟨hconnect, hw, hwritten⟩
  · have hrun : (withTransaction fn).run (handle S env) { base := db } =
        (.error e, (handle S env .connect { base := db }).2) :=
      Script.run_bind_error hconnect
    have hplain : (plainCalls fn).run (handle S env) { base := db } =
        (.error e, (handle S env .connect { base := db }).2) :=
      Script.run_bind_error hconnect
    have hopening : openingRun S env db = (.error e,
        (handle S env .connect { base := db }).2) :=
      Script.run_bind_error hconnect
    rw [hrun, hplain]
    refine iff_of_true ⟨(fun _ h => by cases h), fun _ _ _ => hw.own_eq, rfl, ?_⟩ ?_
    · exact ⟨hw.released_eq.trans hobtained.symm, by rw [hobtained]; omega⟩
    · intro h
      have hopened := h.opened
      rw [hopening] at hopened
      cases hopened
  · obtain ⟨-, hsame, hsameWritten⟩ := handle_on S env
      (handle S env .connect { base := db }).2
    have hrun := run_withTransaction fn hconnect
    have hplain : (plainCalls fn).run (handle S env) { base := db } =
        (transactionCalls fn).run (handle S env) (handle S env .on
          (handle S env .connect { base := db }).2).2 :=
      Script.run_bind_ok hconnect
    have hopening : openingRun S env db = handle S env .begin
        (handle S env .on
          (handle S env .connect { base := db }).2).2 :=
      Script.run_bind_ok hconnect
    rw [hrun, hplain]
    exact allOrNothing_listening (hsame.untouched hw) (hsameWritten.trans hwritten) hopening

end

/-! ### Where nothing fails on the way -/

section
variable {Db Op Write Row Choice α : Type} (ε : Type) {Resp : Op → Type}
variable (S : Store Db Op Write Row Choice ε Resp) (c : Choice) (locked : Row → Bool)
open ClientState

/-- Every call is answered, and nobody else commits anything. -/
def undisturbed (_ : ℕ) : Fate Write Choice Row ε := { outcome := .answered c locked }

/-- The client is in a transaction and nothing has been committed. -/
structure Attached (db : Db) (s : Session Write) (w : ClientState Db Write) : Prop where
  base_eq : w.base = db
  log_eq : w.log = []
  alive_eq : w.alive = true
  transaction_eq : w.transaction = some s

variable {ε} {db : Db} {s : Session Write} {w : ClientState Db Write}

theorem Attached.received (h : Attached db s w) :
    Attached db s (w.received (undisturbed ε c locked)) ∧
      (w.received (undisturbed ε c locked)).rows S = db := by
  have hlog : (w.received (undisturbed ε c locked)).log = [] := by
    simp [ClientState.received, undisturbed, h.log_eq]
  refine ⟨⟨h.base_eq, hlog, h.alive_eq, h.transaction_eq⟩, ?_⟩
  rw [rows, hlog]
  exact h.base_eq

theorem Attached.handle_statement (h : Attached db s w) (op : Op) :
    (handle S (undisturbed ε c locked) (.statement op) w).1 = (S.handle c locked db op s).1 ∧
      Attached db (S.handle c locked db op s).2
        (handle S (undisturbed ε c locked) (.statement op) w).2 := by
  obtain ⟨hattached, hrows⟩ := h.received S c locked
  have hserved : handle S (undisturbed ε c locked) (.statement op) w =
      execute S c locked op (w.received (undisturbed ε c locked)) := by
    unfold handle
    simp only [perform, command, if_pos hattached.alive_eq]
    split_ifs <;> rfl
  rw [hserved, execute, hattached.transaction_eq, hrows]
  exact ⟨rfl, hattached.base_eq, hattached.log_eq, hattached.alive_eq, rfl⟩

theorem Attached.run_onClient (h : Attached db s w) (fn : Script Op Resp ε α) :
    (fn.onClient.run (handle S (undisturbed ε c locked)) w).1 =
        (fn.run (S.handle c locked db) s).1 ∧
      Attached db (fn.run (S.handle c locked db) s).2
        (fn.onClient.run (handle S (undisturbed ε c locked)) w).2 := by
  induction fn generalizing s w with
  | done r => exact ⟨rfl, h⟩
  | call op next ih =>
      obtain ⟨hanswer, hattached⟩ := h.handle_statement S c locked op
      rw [Script.run_call, ← hanswer]
      exact ih _ hattached

theorem rows_close (w : ClientState Db Write) :
    (handle S (undisturbed ε c locked) .release
      (handle S (undisturbed ε c locked) .off w).2).2.rows S = w.rows S := by
  simp [handle, perform, ClientState.received, undisturbed, rows]

/-- A `ROLLBACK` leaves the rows as they were. -/
theorem Attached.rows_rollback (h : Attached db s w) :
    (handle S (undisturbed ε c locked) .rollback w).2.rows S = db := by
  obtain ⟨hattached, hrows⟩ := h.received S c locked
  unfold handle
  simp only [perform, command, if_pos hattached.alive_eq]
  exact hrows

/-- A `COMMIT` is answered, and makes the writes permanent. -/
theorem Attached.handle_commit (h : Attached db s w) :
    (handle S (undisturbed ε c locked) .commit w).1 = .ok () ∧
      (handle S (undisturbed ε c locked) .commit w).2.rows S =
        if s.aborted then db else S.view db s.writes := by
  obtain ⟨hattached, hrows⟩ := h.received S c locked
  unfold handle
  simp only [perform, command, if_pos hattached.alive_eq]
  refine ⟨rfl, ?_⟩
  change (ClientState.commit (w.received (undisturbed ε c locked))).rows S = _
  cases haborted : s.aborted with
  | true =>
      rw [commit_of_aborted hattached.transaction_eq haborted]
      exact hrows
  | false =>
      rw [commit_of_open hattached.transaction_eq haborted, rows, hattached.log_eq,
        hattached.base_eq]
      simp

/-- `withTransaction` is the transaction that the rest of the development speaks
of: where every call is answered, it ends with the same answer and leaves the
same rows. -/
theorem withTransaction_transact (db : Db) (fn : Script Op Resp ε α) :
    ((withTransaction fn).run (handle S (undisturbed ε c locked)) { base := db }).1 =
        (S.transact c locked fn db).1 ∧
      ((withTransaction fn).run (handle S (undisturbed ε c locked)) { base := db }).2.rows S =
        (S.transact c locked fn db).2 := by
  have hconnect : (handle S (undisturbed ε c locked) .connect { base := db }).1 = .ok () := rfl
  rw [run_withTransaction fn hconnect]
  let listening := (handle S (undisturbed ε c locked) .on
    (handle S (undisturbed ε c locked) .connect { base := db }).2).2
  have hbegun : (handle S (undisturbed ε c locked) .begin listening).1 = .ok () := rfl
  have hattached : Attached db {} (handle S (undisturbed ε c locked) .begin listening).2 :=
    ⟨rfl, rfl, rfl, rfl⟩
  obtain ⟨hanswer, hcalled⟩ := hattached.run_onClient S c locked fn
  rw [Store.transact]
  rcases run_transactionCalls_cases S (undisturbed ε c locked) fn listening with
    ⟨e, hbegin, -⟩ | ⟨-, ⟨e, herror, hended⟩ | ⟨a, hok, hcommit⟩⟩
  · rw [hbegun] at hbegin
    cases hbegin
  · rw [hended]
    rw [herror] at hanswer
    rw [← Prod.eta (fn.run (S.handle c locked db) {}), ← hanswer]
    exact ⟨rfl, (rows_close S c locked _).trans (hcalled.rows_rollback S c locked)⟩
  · obtain ⟨hanswered, hrows⟩ := hcalled.handle_commit S c locked
    rcases hcommit with ⟨e, herror, -⟩ | ⟨-, hended⟩
    · rw [hanswered] at herror
      cases herror
    · rw [hended]
      rw [hok] at hanswer
      rw [← Prod.eta (fn.run (S.handle c locked db) {}), ← hanswer]
      exact ⟨rfl, (rows_close S c locked _).trans hrows⟩

end

/-! ### A failure that is swallowed -/

/-- A run is created; a second one is refused, and the callback carries on. -/
def swallowingCallback : Tx Unit := do
  let _ ← WorkflowRunsRepo.create
    { sessionId := none, spec := { workflowSpecVersion := 1, name := "w", steps := [] }, input := [] }
  (do
    let _ ← WorkflowRunsRepo.create
      { sessionId := none, spec := { workflowSpecVersion := 1, name := "w", steps := [] }
        input := [("k", .str "\u0000")] }
    pure ()).tryCatch fun _ => pure ()

/-- The callback resolves, so does `withTransaction`, and the first run is gone. -/
theorem swallowed_failure_loses_writes :
    let ended := (withTransaction swallowingCallback).run
      (ClientState.handle platform fun _ => { outcome := .answered { now := 0 } fun _ => false })
      { base := .empty }
    ended.1 = .ok () ∧ ended.2.written.length = 1 ∧ ended.2.own = [] ∧ ended.2.released = 1 :=
  ⟨rfl, rfl, rfl, rfl⟩

end WorkflowPlatform
