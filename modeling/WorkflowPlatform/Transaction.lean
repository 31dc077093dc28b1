import WorkflowPlatform.Rely

/-!
# One transaction evaluated on its own

`Store.handle` answers one operation of a transaction that nobody interferes
with, and `Store.transact` is the whole cycle: run the script, commit its writes
if it returns, drop them if it throws. `Store.Evaluates` is the same evaluation
with the choices left open, each operation with its own.

`ensures_evaluates` connects the two readings. While a transaction holds locks
that freeze everything a script reads, its interleaved execution is an
evaluation against fixed rows, so a fact proved about `Evaluates` serves both
the worker that runs alone and the worker that runs among others.
-/
namespace WorkflowPlatform

/-- The state of an open transaction: its writes so far, and whether a refused
statement has aborted it. -/
structure Session (Write : Type) where
  writes : List Write := []
  aborted : Bool := false

namespace Store
variable {Db Op Write Row Choice ε α β : Type} {Resp : Op → Type} {n : ℕ}
variable (S : Store Db Op Write Row Choice ε Resp)

def handle (c : Choice) (locked : Row → Bool) (db : Db) (op : Op) (s : Session Write) :
    Except ε (Resp op) × Session Write :=
  if s.aborted && !S.external op then (.error S.refused, s)
  else match S.respond c (S.view db s.writes) locked op with
    | some (r, ws) => (.ok r, { s with writes := s.writes ++ ws })
    | none => (.error S.refused, ⟨[], true⟩)

/-- `BEGIN`, the script, and `COMMIT` or `ROLLBACK`. -/
def transact (c : Choice) (locked : Row → Bool) (m : Script Op Resp ε α) (db : Db) :
    Except ε α × Db :=
  match m.run (S.handle c locked db) {} with
  | (.ok a, s) => (.ok a, if s.aborted then db else S.view db s.writes)
  | (.error e, _) => (.error e, db)

theorem handle_of_some {c : Choice} {locked : Row → Bool} {db : Db} {op : Op}
    {ws ws' : List Write} {r : Resp op}
    (h : S.respond c (S.view db ws) locked op = some (r, ws')) :
    S.handle c locked db op ⟨ws, false⟩ = (.ok r, ⟨ws ++ ws', false⟩) := by
  simp [handle, h]

theorem handle_of_none {c : Choice} {locked : Row → Bool} {db : Db} {op : Op}
    {ws : List Write} (h : S.respond c (S.view db ws) locked op = none) :
    S.handle c locked db op ⟨ws, false⟩ = (.error S.refused, ⟨[], true⟩) := by
  simp [handle, h]

theorem transact_fst (c : Choice) (locked : Row → Bool) (m : Script Op Resp ε α) (db : Db) :
    (S.transact c locked m db).1 = (m.run (S.handle c locked db) {}).1 := by
  unfold transact
  split <;> next hrun => rw [hrun]

theorem transact_of_run {c : Choice} {locked : Row → Bool} {m : Script Op Resp ε α} {db : Db}
    {a : α} {ws : List Write} (h : m.run (S.handle c locked db) {} = (.ok a, ⟨ws, false⟩)) :
    S.transact c locked m db = (.ok a, S.view db ws) := by
  unfold transact
  rw [h]
  rfl

/-- What every answered statement keeps, the transaction of a script keeps. -/
theorem transact_keeps {P : Db → Prop} {c : Choice} {locked : Row → Bool}
    {m : Script Op Resp ε α} {db : Db}
    (hm : m.All fun op => ∀ V r ws, P V → S.respond c V locked op = some (r, ws) →
      P (S.view V ws))
    (h : P db) : P (S.transact c locked m db).2 := by
  have hrun : ∀ (m : Script Op Resp ε α) (s : Session Write),
      (m.All fun op => ∀ V r ws, P V → S.respond c V locked op = some (r, ws) →
        P (S.view V ws)) →
      P (S.view db s.writes) → P (S.view db (m.run (S.handle c locked db) s).2.writes) := by
    intro m
    induction m with
    | done r => exact fun _ _ hs => hs
    | call op next ih =>
        intro s hm hs
        apply ih _ _ (hm.2 _)
        unfold handle
        split
        · exact hs
        · split
          · next r ws hr =>
              rw [S.view_append]
              exact hm.1 _ r ws hs hr
          · exact h
  have hwrites := hrun m {} hm h
  unfold transact
  split
  · next a s hs =>
      rw [hs] at hwrites
      split
      · exact h
      · exact hwrites
  · exact h

/-- Some evaluation of the script against the rows of `db` ends this way. -/
def Evaluates (db : Db) :
    Script Op Resp ε α → Session Write → Except ε α → Session Write → Prop
  | .done r, s, r', s' => r' = r ∧ s' = s
  | .call op next, s, r', s' => ∃ c locked,
      Evaluates db (next (S.handle c locked db op s).1) (S.handle c locked db op s).2 r' s'

theorem evaluates_run (c : Choice) (locked : Row → Bool) (db : Db) (m : Script Op Resp ε α)
    (s : Session Write) :
    S.Evaluates db m s (m.run (S.handle c locked db) s).1 (m.run (S.handle c locked db) s).2 := by
  induction m generalizing s with
  | done r => exact ⟨rfl, rfl⟩
  | call op next ih => exact ⟨c, locked, ih _ _⟩

theorem transact_ok {c : Choice} {locked : Row → Bool} {m : Script Op Resp ε α} {db db' : Db}
    {a : α} (h : S.transact c locked m db = (.ok a, db')) :
    ∃ s, S.Evaluates db m {} (.ok a) s ∧ db' = if s.aborted then db else S.view db s.writes := by
  have heval := S.evaluates_run c locked db m {}
  unfold transact at h
  split at h
  · rename_i a' s hrun
    rw [hrun] at heval
    cases h
    exact ⟨s, heval, rfl⟩
  · cases h

/-- The run of a script, with one choice for all its statements, in an open
transaction that sees the rows `V`. -/
def RunsFrom (c : Choice) (locked : Row → Bool) (db V : Db) (m : Script Op Resp ε α)
    (r : Except ε α) (s' : Session Write) : Prop :=
  ∃ ws, S.view db ws = V ∧ m.run (S.handle c locked db) ⟨ws, false⟩ = (r, s')

section
variable {S} {c : Choice} {locked : Row → Bool} {db db' V : Db} {s' : Session Write}

/-- The first statement is answered, or refused and the script with it. -/
theorem RunsFrom.query {op : Op} {f : Resp op → Script Op Resp ε α} {r : Except ε α}
    (h : S.RunsFrom c locked db V (Script.perform op >>= f) r s') :
    (∃ a ws', S.respond c V locked op = some (a, ws') ∧
      S.RunsFrom c locked db (S.view V ws') (f a) r s') ∨
      S.respond c V locked op = none ∧ r = .error S.refused := by
  obtain ⟨ws, rfl, h⟩ := h
  rw [Script.perform_bind, Script.run_call] at h
  cases hr : S.respond c (S.view db ws) locked op with
  | none =>
      rw [S.handle_of_none hr] at h
      exact .inr ⟨rfl, (Prod.mk.inj h).1.symm⟩
  | some p =>
      rw [S.handle_of_some hr] at h
      exact .inl ⟨p.1, p.2, rfl, ws ++ p.2, S.view_append db ws p.2, h⟩

theorem RunsFrom.done {r r' : Except ε α} (h : S.RunsFrom c locked db V (.done r) r' s') :
    r' = r ∧ s'.aborted = false ∧ S.view db s'.writes = V := by
  obtain ⟨ws, rfl, h⟩ := h
  cases h
  exact ⟨rfl, rfl, rfl⟩

/-- The first statement is answered in this way, and the rows are these after it. -/
theorem RunsFrom.answer {op : Op} {f : Resp op → Script Op Resp ε α} {r : Except ε α} {a : Resp op}
    {ws' : List Write} {V' : Db}
    (h : S.RunsFrom c locked db V (Script.perform op >>= f) r s')
    (ha : S.respond c V locked op = some (a, ws')) (hV : S.view V ws' = V') :
    S.RunsFrom c locked db V' (f a) r s' := by
  rcases h.query with ⟨b, ws, hb, hrun⟩ | ⟨hnone, -⟩
  · rw [ha] at hb
    cases hb
    exact hV ▸ hrun
  · rw [ha] at hnone
    cases hnone

/-- A transaction by itself: its script runs from the committed rows, and what it
has changed is there if it returns. -/
theorem transact_runsFrom {m : Script Op Resp ε α} {r : Except ε α}
    (h : S.transact c locked m db = (r, db')) :
    ∃ s', S.RunsFrom c locked db db m r s' ∧
      (∀ a, r = .ok a → db' = if s'.aborted then db else S.view db s'.writes) ∧
      ∀ e, r = .error e → db' = db := by
  unfold transact at h
  split at h
  · rename_i a s hrun
    cases h
    exact ⟨s, ⟨[], rfl, hrun⟩, fun _ _ => rfl, fun e he => (by cases he)⟩
  · rename_i e s hrun
    cases h
    exact ⟨s, ⟨[], rfl, hrun⟩, fun a ha => (by cases ha), fun _ _ => rfl⟩

end

theorem evaluates_bind {db : Db} {m : Script Op Resp ε α} {f : α → Script Op Resp ε β}
    {s s' : Session Write} {r : Except ε β} (h : S.Evaluates db (m >>= f) s r s') :
    (∃ a t, S.Evaluates db m s (.ok a) t ∧ S.Evaluates db (f a) t r s') ∨
      ∃ e, S.Evaluates db m s (.error e) s' ∧ r = .error e := by
  induction m generalizing s with
  | done res =>
      cases res with
      | ok a => exact .inl ⟨a, s, ⟨rfl, rfl⟩, h⟩
      | error e =>
          obtain ⟨rfl, rfl⟩ := h
          exact .inr ⟨e, ⟨rfl, rfl⟩, rfl⟩
  | call op next ih =>
      obtain ⟨c, locked, h⟩ := h
      rcases ih _ h with ⟨a, t, h₁, h₂⟩ | ⟨e, h₁, h₂⟩
      · exact .inl ⟨a, t, ⟨c, locked, h₁⟩, h₂⟩
      · exact .inr ⟨e, ⟨c, locked, h₁⟩, h₂⟩

/-- What returns has gone through its first part. -/
theorem evaluates_bind_ok {db : Db} {m : Script Op Resp ε α} {f : α → Script Op Resp ε β}
    {s s' : Session Write} {b : β} (h : S.Evaluates db (m >>= f) s (.ok b) s') :
    ∃ a t, S.Evaluates db m s (.ok a) t ∧ S.Evaluates db (f a) t (.ok b) s' := by
  rcases S.evaluates_bind h with hok | ⟨e, -, he⟩
  · exact hok
  · cases he

end Store

namespace Protocol
variable {Db Op Write Row Choice ε α β : Type} {Resp : Op → Type} {n : ℕ}
variable {S : Store Db Op Write Row Choice ε Resp} (P : Protocol S)

/-- A transaction that has been aborted issues nothing but external operations. -/
theorem ensures_aborted {m : Script Op Resp ε α}
    {post : Bool → Except ε α → List Write → Db → Prop} {ws : List Write} {db : Db}
    (hm : m.All fun op => S.external op = true → ∀ ws db, P.inv db → P.pre op ws db)
    (hpost : ∀ r ws db, P.inv db → post true r ws db) : P.Ensures post true m ws db := by
  induction m generalizing ws db with
  | done r => exact fun d hd _ => hpost r ws d hd
  | call op next ih =>
      intro d hd _
      refine ⟨fun hab => ⟨hm.1 (hab.resolve_left (by simp)) ws d hd, ?_⟩, fun _ => ?_⟩
      · intro c locked r ws' _ _
        exact ih _ (hm.2 _)
      · exact ih _ (hm.2 _)

/-- What it takes to freeze everything some operations read: a relation between
database states that the rely keeps while `holds` is true of the writes, and that
neither the answers nor the writes of these operations can tell apart. -/
structure Freezes (same : Db → Db → Prop) (holds : List Write → Prop) (calm : Op → Prop) :
    Prop where
  refl : ∀ a, same a a
  trans : ∀ a b c, same a b → same b c → same a c
  frozen : ∀ ws a b, holds ws → P.rely ws a b → same a b
  grows : ∀ op, calm op → ∀ c locked ws a r ws', holds ws →
    S.respond c (S.view a ws) locked op = some (r, ws') → holds (ws ++ ws')
  answer : ∀ op, calm op → ∀ c locked ws a b, same a b →
    S.respond c (S.view b ws) locked op = S.respond c (S.view a ws) locked op
  pre : ∀ op, calm op → ∀ ws db, P.inv db → P.pre op ws db

variable {P}

/-- Under locks that freeze what a script reads, running it among other
transactions is evaluating it against fixed rows. -/
theorem ensures_evaluates {same : Db → Db → Prop} {holds : List Write → Prop}
    {calm : Op → Prop} (hf : P.Freezes same holds calm) {m : Script Op Resp ε α}
    (hm : m.All calm) {ws : List Write} {d db : Db} (hws : holds ws) (hd : same d db) :
    P.Ensures (fun ab r ws' db' => ab = false →
      same d db' ∧ holds ws' ∧ S.Evaluates d m ⟨ws, false⟩ r ⟨ws', false⟩) false m ws db := by
  induction m generalizing ws db with
  | done r =>
      intro db' _ hr _
      exact ⟨hf.trans _ _ _ hd (hf.frozen _ _ _ hws hr), hws, rfl, rfl⟩
  | call op next ih =>
      intro db' hdb' hr
      have hsame : same d db' := hf.trans _ _ _ hd (hf.frozen _ _ _ hws hr)
      refine ⟨fun _ => ⟨hf.pre op hm.1 ws db' hdb', ?_⟩, fun _ => ?_⟩
      · intro c locked r ws' _ hresp
        have hgrows : holds (ws ++ ws') := hf.grows op hm.1 c locked ws db' r ws' hws hresp
        rw [hf.answer op hm.1 c locked ws d db' hsame] at hresp
        refine (ih _ (hm.2 _) hgrows hsame).mono P ?_
        intro ab r' ws'' db'' _ hpost hab
        obtain ⟨h₁, h₂, h₃⟩ := hpost hab
        refine ⟨h₁, h₂, c, locked, ?_⟩
        rw [S.handle_of_some hresp]
        exact h₃
      · refine P.ensures_aborted ?_ (fun _ _ _ _ hab => by cases hab)
        exact (hm.2 _).mono fun op hop _ ws db hinv => hf.pre op hop ws db hinv

/-- What cannot be told apart gives the same evaluations. -/
theorem Freezes.evaluates {same : Db → Db → Prop} {holds : List Write → Prop}
    {calm : Op → Prop} (hf : P.Freezes same holds calm) {m : Script Op Resp ε α}
    (hm : m.All calm) {a b : Db} (hab : same a b) {s s' : Session Write} {r : Except ε α}
    (h : S.Evaluates a m s r s') : S.Evaluates b m s r s' := by
  induction m generalizing s with
  | done r => exact h
  | call op next ih =>
      obtain ⟨c, locked, h⟩ := h
      refine ⟨c, locked, ih _ (hm.2 _) ?_⟩
      have hhandle : S.handle c locked b op s = S.handle c locked a op s := by
        simp only [Store.handle, hf.answer op hm.1 c locked s.writes a b hab]
      rw [hhandle]
      exact h

/-- The same for a script whose first operation takes the locks: it is evaluated
against the rows as they are at that moment. -/
theorem ensures_acquire {same : Db → Db → Prop} {holds : List Write → Prop}
    {calm : Op → Prop} (hf : P.Freezes same holds calm) {op : Op}
    {next : Except ε (Resp op) → Script Op Resp ε α} (hop : calm op)
    (hm : ∀ r, (next r).All calm) {ws : List Write} {db : Db}
    (hacquire : ∀ d c locked r ws', P.inv d → P.rely ws db d →
      S.respond c (S.view d ws) locked op = some (r, ws') → holds (ws ++ ws')) :
    P.Ensures (fun ab r ws' db' => ab = false → ∃ d, P.inv d ∧ P.rely ws db d ∧
      same d db' ∧ holds ws' ∧ S.Evaluates d (.call op next) ⟨ws, false⟩ r ⟨ws', false⟩)
      false (.call op next) ws db := by
  intro d hd hr
  refine ⟨fun _ => ⟨hf.pre op hop ws d hd, ?_⟩, fun _ => ?_⟩
  · intro c locked r ws' _ hresp
    have hws : holds (ws ++ ws') := hacquire d c locked r ws' hd hr hresp
    refine (ensures_evaluates hf (hm _) hws (hf.refl d)).mono P ?_
    intro ab r' ws'' db'' _ hpost hab
    obtain ⟨h₁, h₂, h₃⟩ := hpost hab
    refine ⟨d, hd, hr, h₁, h₂, c, locked, ?_⟩
    rw [S.handle_of_some hresp]
    exact h₃
  · refine P.ensures_aborted ?_ (fun _ _ _ _ hab => by cases hab)
    exact (hm _).mono fun op hop _ ws db hinv => hf.pre op hop ws db hinv

/-- A script that catches nothing ends with the store's error once a statement of
it has been refused. -/
theorem Ensures.straight {m : Script Op Resp ε α} (hm : m.Straight S.refused)
    {post : Bool → Except ε α → List Write → Db → Prop} {ws : List Write} {db : Db}
    (h : P.Ensures (fun ab r ws db => ab = false → post ab r ws db) false m ws db) :
    P.Ensures (fun ab r ws db => ab = true ∧ r = .error S.refused ∨
      ab = false ∧ post ab r ws db) false m ws db := by
  induction m generalizing ws db with
  | done r => exact fun d hd hr => .inr ⟨rfl, h d hd hr rfl⟩
  | call op next ih =>
      intro d hd hr
      have hop := h d hd hr
      refine ⟨fun hab => ⟨(hop.1 hab).1, ?_⟩, fun _ => ?_⟩
      · intro c locked r ws' hc hresp
        exact ih _ (hm.2 r) ((hop.1 hab).2 c locked r ws' hc hresp)
      · rw [hm.1]
        exact fun _ _ _ => .inl ⟨rfl, rfl⟩

/-- A script that catches nothing, and what follows it. -/
theorem Ensures.bind {m : Script Op Resp ε α} {f : α → Script Op Resp ε β}
    {Q : Except ε α → List Write → Db → Prop}
    {post : Bool → Except ε β → List Write → Db → Prop} {ws : List Write} {db : Db}
    (hdb : P.inv db) (hm : m.Straight S.refused)
    (h : P.Ensures (fun ab r ws db => ab = false → Q r ws db) false m ws db)
    (hrefused : ∀ ws db, P.inv db → post true (.error S.refused) ws db)
    (hok : ∀ a ws db, P.inv db → Q (.ok a) ws db → P.Ensures post false (f a) ws db)
    (herr : ∀ e ws db, P.inv db → Q (.error e) ws db → post false (.error e) ws db) :
    P.Ensures post false (m >>= f) ws db := by
  refine P.ensures_bind hdb ((h.straight hm).mono P ?_)
  rintro ab r ws' db' hinv (⟨rfl, rfl⟩ | ⟨rfl, hQ⟩)
  · exact hrefused ws' db' hinv
  · cases r with
    | ok a => exact hok a ws' db' hinv hQ
    | error e => exact herr e ws' db' hinv hQ

end Protocol
end WorkflowPlatform
