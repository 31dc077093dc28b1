import WorkflowPlatform.RowLocking

/-!
# Rely-guarantee reasoning for row-locking transactions

A `Protocol` states what one transaction may rely on while others commit around
it: an invariant of the committed rows, and a relation between committed states
that every other transaction keeps as long as it does not write the rows this
one has locked. `Ensures` is the weakest precondition of a script under that
interference: it is closed under the rely relation at every statement, so a
proof about a script never mentions a schedule.

`sound` is the one induction over schedules. From it every run keeps the
invariant, every state a run passes through is related to the earlier ones, and
every operation is issued under its precondition.
-/
namespace WorkflowPlatform

structure Protocol {Db Op Write Row Choice ε : Type} {Resp : Op → Type}
    (S : Store Db Op Write Row Choice ε Resp) where
  inv : Db → Prop
  /-- What the holder of these writes may assume of later committed states. -/
  rely : List Write → Db → Db → Prop
  env : Op → Choice → Prop
  /-- What has to hold when an operation is issued. -/
  pre : Op → List Write → Db → Prop
  rely_refl : ∀ ws db, rely ws db db
  rely_trans : ∀ ws a b c, rely ws a b → rely ws b c → rely ws a c

namespace Protocol
variable {Db Op Write Row Choice ε α β : Type} {Resp : Op → Type} {n : ℕ}
variable {S : Store Db Op Write Row Choice ε Resp} (P : Protocol S)

/-- A script ends in a state that satisfies `post`, whatever commits in between
and wherever it is interrupted by a refused statement. -/
def Ensures (post : Bool → Except ε α → List Write → Db → Prop) :
    Bool → Script Op Resp ε α → List Write → Db → Prop
  | ab, .done r, ws, db => ∀ db', P.inv db' → P.rely ws db db' → post ab r ws db'
  | ab, .call op next, ws, db => ∀ db', P.inv db' → P.rely ws db db' →
      (ab = false ∨ S.external op = true → P.pre op ws db' ∧
        ∀ c locked r ws', P.env op c → S.respond c (S.view db' ws) locked op = some (r, ws') →
          Ensures post ab (next (.ok r)) (ws ++ ws') db') ∧
      (S.external op = false → Ensures post true (next (.error S.refused)) [] db')

theorem Ensures.of_rely {post : Bool → Except ε α → List Write → Db → Prop} {ab : Bool}
    {m : Script Op Resp ε α} {ws : List Write} {db db' : Db}
    (h : P.Ensures post ab m ws db) (hr : P.rely ws db db') : P.Ensures post ab m ws db' := by
  cases m with
  | done r => exact fun d hd hd' => h d hd (P.rely_trans ws _ _ _ hr hd')
  | call op next => exact fun d hd hd' => h d hd (P.rely_trans ws _ _ _ hr hd')

theorem Ensures.mono {post post' : Bool → Except ε α → List Write → Db → Prop} {ab : Bool}
    {m : Script Op Resp ε α} {ws : List Write} {db : Db} (h : P.Ensures post ab m ws db)
    (hp : ∀ ab r ws db, P.inv db → post ab r ws db → post' ab r ws db) :
    P.Ensures post' ab m ws db := by
  induction m generalizing ab ws db with
  | done r => exact fun d hd hr => hp _ _ _ _ hd (h d hd hr)
  | call op next ih =>
      intro d hd hr
      refine ⟨fun hab => ⟨((h d hd hr).1 hab).1, ?_⟩, fun hop => ih _ ((h d hd hr).2 hop)⟩
      intro c locked r ws' hc hresp
      exact ih _ (((h d hd hr).1 hab).2 c locked r ws' hc hresp)

/-- A finished script ensures what holds now and stays true under interference. -/
theorem ensures_done {post : Bool → Except ε α → List Write → Db → Prop} {ab : Bool}
    {r : Except ε α} {ws : List Write} {db : Db}
    (h : ∀ db', P.inv db' → P.rely ws db db' → post ab r ws db') :
    P.Ensures post ab (.done r) ws db := h

theorem ensures_bind {post : Bool → Except ε β → List Write → Db → Prop} {ab : Bool}
    {m : Script Op Resp ε α} {f : α → Script Op Resp ε β} {ws : List Write} {db : Db}
    (hdb : P.inv db)
    (h : P.Ensures (fun ab r ws db => match r with
      | .ok a => P.Ensures post ab (f a) ws db
      | .error e => post ab (.error e) ws db) ab m ws db) :
    P.Ensures post ab (m >>= f) ws db := by
  induction m generalizing ab ws db with
  | done r =>
      cases r with
      | ok a => exact h db hdb (P.rely_refl ws db)
      | error e => exact h
  | call op next ih =>
      intro d hd hr
      refine ⟨fun hab => ⟨((h d hd hr).1 hab).1, ?_⟩, fun hop => ih _ hd ((h d hd hr).2 hop)⟩
      intro c locked r ws' hc hresp
      exact ih _ hd (((h d hd hr).1 hab).2 c locked r ws' hc hresp)

theorem ensures_tryCatch {post : Bool → Except ε α → List Write → Db → Prop} {ab : Bool}
    {m : Script Op Resp ε α} {f : ε → Script Op Resp ε α} {ws : List Write} {db : Db}
    (hdb : P.inv db)
    (h : P.Ensures (fun ab r ws db => match r with
      | .ok a => post ab (.ok a) ws db
      | .error e => P.Ensures post ab (f e) ws db) ab m ws db) :
    P.Ensures post ab (m.tryCatch f) ws db := by
  induction m generalizing ab ws db with
  | done r =>
      cases r with
      | ok a => exact h
      | error e => exact h db hdb (P.rely_refl ws db)
  | call op next ih =>
      intro d hd hr
      refine ⟨fun hab => ⟨((h d hd hr).1 hab).1, ?_⟩, fun hop => ih _ hd ((h d hd hr).2 hop)⟩
      intro c locked r ws' hc hresp
      exact ih _ hd (((h d hd hr).1 hab).2 c locked r ws' hc hresp)

/-- An operation whose refusal ends the script. -/
theorem ensures_query {post : Bool → Except ε α → List Write → Db → Prop} {op : Op}
    {f : Resp op → Script Op Resp ε α} {ws : List Write} {db : Db}
    (hrefused : ∀ db', P.inv db' → post true (.error S.refused) [] db')
    (h : ∀ db', P.inv db' → P.rely ws db db' → P.pre op ws db' ∧
      ∀ c locked r ws', P.env op c → S.respond c (S.view db' ws) locked op = some (r, ws') →
        P.Ensures post false (f r) (ws ++ ws') db') :
    P.Ensures post false (Script.perform op >>= f) ws db := by
  intro d hd hr
  exact ⟨fun _ => h d hd hr, fun _ d' hd' _ => hrefused d' hd'⟩

/-- The same protocol with other preconditions. -/
def withPre (pre : Op → List Write → Db → Prop) : Protocol S := { P with pre }

/-- Every script ends somehow. -/
theorem ensures_trivial {m : Script Op Resp ε α} {ab : Bool} {ws : List Write} {db : Db}
    (hm : m.All fun op => ∀ ws db, P.inv db → P.pre op ws db) :
    P.Ensures (fun _ _ _ _ => True) ab m ws db := by
  induction m generalizing ab ws db with
  | done r => exact fun _ _ _ => trivial
  | call op next ih =>
      intro d hd _
      refine ⟨fun _ => ⟨hm.1 ws d hd, ?_⟩, fun _ => ih _ (hm.2 _)⟩
      intro c locked r ws' _ _
      exact ih _ (hm.2 _)

/-- What is proved under one set of preconditions holds under another that the
script's operations meet anyway. -/
theorem Ensures.withPre {post : Bool → Except ε α → List Write → Db → Prop} {ab : Bool}
    {m : Script Op Resp ε α} {ws : List Write} {db : Db} {pre : Op → List Write → Db → Prop}
    (h : P.Ensures post ab m ws db) (hm : m.All fun op => ∀ ws db, P.inv db → pre op ws db) :
    (P.withPre pre).Ensures post ab m ws db := by
  induction m generalizing ab ws db with
  | done r => exact h
  | call op next ih =>
      intro d hd hr
      refine ⟨fun hab => ⟨hm.1 ws d hd, ?_⟩, fun hop => ih _ ((h d hd hr).2 hop) (hm.2 _)⟩
      intro c locked r ws' hc hresp
      exact ih _ (((h d hd hr).1 hab).2 c locked r ws' hc hresp) (hm.2 _)

/-- A postcondition and further preconditions can be proved apart. -/
theorem Ensures.both {post : Bool → Except ε α → List Write → Db → Prop} {ab : Bool}
    {m : Script Op Resp ε α} {ws : List Write} {db : Db} {pre : Op → List Write → Db → Prop}
    (h : P.Ensures post ab m ws db)
    (h' : (P.withPre pre).Ensures (fun _ _ _ _ => True) ab m ws db) :
    (P.withPre pre).Ensures post ab m ws db := by
  induction m generalizing ab ws db with
  | done r => exact h
  | call op next ih =>
      intro d hd hr
      refine ⟨fun hab => ⟨((h' d hd hr).1 hab).1, ?_⟩, fun hop => ih _ ((h d hd hr).2 hop)
        ((h' d hd hr).2 hop)⟩
      intro c locked r ws' hc hresp
      exact ih _ (((h d hd hr).1 hab).2 c locked r ws' hc hresp)
        (((h' d hd hr).1 hab).2 c locked r ws' hc hresp)

variable [DecidableEq Row]

/-- What is true of a state of a run: the invariant, exclusion, and every open
transaction on its way to its postcondition. -/
structure Sound (post : Bool → Except ε α → List Write → Db → Prop)
    (st : System n Op Resp ε α Write Db) : Prop where
  inv : P.inv st.db
  exclusive : S.Exclusive st
  ensures : ∀ t T, st.txns t = some T → P.Ensures post T.aborted T.script T.writes st.db
  silent : ∀ t T, st.txns t = some T → T.aborted = true → T.writes = []

/-- The obligations of a worker program: it can start from any state of the
invariant, and what it commits keeps the invariant and is within what every
transaction without its locks relies on. -/
structure Follows (post : Bool → Except ε α → List Write → Db → Prop)
    (program : Fin n → Script Op Resp ε α) : Prop where
  lawful : S.Lawful
  start : ∀ t db, P.inv db → P.Ensures post false (program t) [] db
  commit : ∀ a ws db, P.inv db → post false (.ok a) ws db →
    P.inv (S.view db ws) ∧
      ∀ ws', (∀ row, S.locks ws row = true → S.locks ws' row = false) →
        P.rely ws' db (S.view db ws)

variable {P}
variable {post : Bool → Except ε α → List Write → Db → Prop}
variable {program : Fin n → Script Op Resp ε α}

theorem Follows.withPre {pre : Op → List Write → Db → Prop} (hP : P.Follows post program)
    (h : ∀ t db, P.inv db →
      (P.withPre pre).Ensures (fun _ _ _ _ => True) false (program t) [] db) :
    (P.withPre pre).Follows post program where
  lawful := hP.lawful
  start := fun t db hdb => (hP.start t db hdb).both P (h t db hdb)
  commit := hP.commit

theorem sound_idle {db : Db} (h : P.inv db) :
    P.Sound post (Store.idle db : System n Op Resp ε α Write Db) where
  inv := h
  exclusive := S.exclusive_idle db
  ensures := fun t T hT => by cases hT
  silent := fun t T hT => by cases hT

/-- A step that leaves the committed rows alone only has to say what becomes of
its own transaction. -/
theorem Sound.setTxn {st : System n Op Resp ε α Write Db} (h : P.Sound post st) {t : Fin n}
    {T : Option (Txn Op Resp ε α Write)} (hex : S.Exclusive (st.setTxn t T))
    (hT : ∀ T', T = some T' → P.Ensures post T'.aborted T'.script T'.writes st.db)
    (hs : ∀ T', T = some T' → T'.aborted = true → T'.writes = []) :
    P.Sound post (st.setTxn t T) := by
  refine ⟨h.inv, hex, ?_, ?_⟩
  · intro u U hU
    by_cases hu : u = t
    · subst hu
      rw [Store.setTxn_same] at hU
      exact hT U hU
    · rw [Store.setTxn_other st T hu] at hU
      exact h.ensures u U hU
  · intro u U hU hab
    by_cases hu : u = t
    · subst hu
      rw [Store.setTxn_same] at hU
      exact hs U hU hab
    · rw [Store.setTxn_other st T hu] at hU
      exact h.silent u U hU hab

/-- Another worker's commit is within what an open transaction relies on. -/
theorem Sound.rely_commit {st : System n Op Resp ε α Write Db} (hP : P.Follows post program)
    (h : P.Sound post st) {t u : Fin n} {T : Txn Op Resp ε α Write} {a : α} {ws : List Write}
    (hu : st.txns u = some ⟨.done (.ok a), ws, false⟩) (ht : st.txns t = some T) (hne : t ≠ u) :
    P.rely T.writes st.db (S.view st.db ws) := by
  have hpost := h.ensures u _ hu st.db h.inv (P.rely_refl _ _)
  apply (hP.commit a ws st.db h.inv hpost).2 T.writes
  intro row hrow
  exact h.exclusive u t _ T (Ne.symm hne) hu ht row hrow

theorem Sound.step {st st' : System n Op Resp ε α Write Db} (hP : P.Follows post program)
    (h : P.Sound post st) (hs : S.Effect program P.env st st') : P.Sound post st' := by
  have hex : S.Exclusive st' := h.exclusive.step S hP.lawful hs
  cases hs with
  | begin t ht =>
      refine h.setTxn hex ?_ ?_
      · rintro T' ⟨⟩
        exact hP.start t st.db h.inv
      · rintro T' ⟨⟩ hab
        cases hab
  | call t c op next ws ab r ws' ht henv hab hfree hr =>
      have hop := (h.ensures t _ ht st.db h.inv (P.rely_refl _ _)).1 hab
      refine h.setTxn hex ?_ ?_
      · rintro T' ⟨⟩
        exact hop.2 c _ r ws' henv hr
      · rintro T' ⟨⟩ haborted
        have hext : S.external op = true := hab.resolve_left (by simpa using haborted)
        have hws : ws = [] := h.silent t _ ht haborted
        rw [hws, hP.lawful.external_silent _ _ _ _ _ _ hext hr]
        rfl
  | fail t op next ws ab ht hop =>
      refine h.setTxn hex ?_ ?_
      · rintro T' ⟨⟩
        exact (h.ensures t _ ht st.db h.inv (P.rely_refl _ _)).2 hop
      · rintro T' ⟨⟩ _
        rfl
  | commit t a ws ht =>
      have hpost := h.ensures t _ ht st.db h.inv (P.rely_refl _ _)
      refine ⟨(hP.commit a ws st.db h.inv hpost).1, hex, ?_, ?_⟩
      · intro u U hU
        have hu : u ≠ t := by
          rintro rfl
          rw [show _ = none from Store.setTxn_same st u none] at hU
          cases hU
        rw [show _ = st.txns u from Store.setTxn_other st none hu] at hU
        exact (h.ensures u U hU).of_rely P (h.rely_commit hP ht hU hu)
      · intro u U hU
        by_cases hu : u = t
        · subst hu
          rw [show _ = none from Store.setTxn_same st u none] at hU
          cases hU
        · rw [show _ = st.txns u from Store.setTxn_other st none hu] at hU
          exact h.silent u U hU
  | rollback t T ht =>
      exact h.setTxn hex (by rintro T' ⟨⟩) (by rintro T' ⟨⟩)

theorem Sound.reaches {st st' : System n Op Resp ε α Write Db} (hP : P.Follows post program)
    (h : P.Sound post st) (hs : S.Reaches program P.env st st') : P.Sound post st' := by
  induction hs with
  | refl => exact h
  | tail _ hstep ih => exact ih.step hP (S.step_effect hstep)

/-- An observer that holds no locks sees each committed state follow from the
one before. -/
theorem Sound.rely_step {st st' : System n Op Resp ε α Write Db} (hP : P.Follows post program)
    (h : P.Sound post st) (hs : S.Effect program P.env st st') : P.rely [] st.db st'.db := by
  cases hs with
  | commit t a ws ht =>
      have hpost := h.ensures t _ ht st.db h.inv (P.rely_refl _ _)
      exact (hP.commit a ws st.db h.inv hpost).2 [] fun row _ => rfl
  | begin => exact P.rely_refl _ _
  | call => exact P.rely_refl _ _
  | fail => exact P.rely_refl _ _
  | rollback => exact P.rely_refl _ _

theorem Sound.rely_reaches {st st' : System n Op Resp ε α Write Db}
    (hP : P.Follows post program) (h : P.Sound post st)
    (hs : S.Reaches program P.env st st') : P.rely [] st.db st'.db := by
  induction hs with
  | refl => exact P.rely_refl _ _
  | tail hreach hstep ih =>
      exact P.rely_trans _ _ _ _ ih
        ((h.reaches hP hreach).rely_step hP (S.step_effect hstep))

/-- Whatever an open transaction is about to issue, its precondition holds. -/
theorem Sound.pre {st : System n Op Resp ε α Write Db} (h : P.Sound post st) {t : Fin n}
    {op : Op} {next : Except ε (Resp op) → Script Op Resp ε α} {ws : List Write} {ab : Bool}
    (ht : st.txns t = some ⟨.call op next, ws, ab⟩)
    (hab : ab = false ∨ S.external op = true) : P.pre op ws st.db :=
  ((h.ensures t _ ht st.db h.inv (P.rely_refl _ _)).1 hab).1

end Protocol
end WorkflowPlatform
