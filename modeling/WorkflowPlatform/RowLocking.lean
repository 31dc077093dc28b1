import Mathlib.Data.List.FinRange
import Mathlib.Logic.Function.Basic
import Mathlib.Logic.Relation
import WorkflowPlatform.Script

/-!
# Row-locking transactions over a versioned store

Any number of workers run scripts against one store. A transaction reads the
last committed versions of the rows together with its own uncommitted writes,
statement by statement (READ COMMITTED). A write locks its row until the
transaction ends; a statement that needs a row locked by another transaction
waits. A statement rejected by the store aborts its transaction: the writes and
locks are gone at once, every later statement is rejected too, and a commit of
an aborted transaction changes nothing.

`Store` collects what has to be known of the store: what a write does to the
rows, which row it locks, which rows a statement waits for, and what a statement
answers. A statement that answers `none` is one the store refuses. `Choice`
carries whatever the store does not determine (the clock, the order of a scan,
the answer of a remote party).
-/
namespace WorkflowPlatform

structure Store (Db Op Write Row Choice ε : Type) (Resp : Op → Type) where
  write : Db → Write → Db
  row : Write → Row
  /-- Operations that are not statements: they neither read nor write rows. -/
  external : Op → Bool
  needs : Db → Op → List Row
  /-- The error a refused statement raises. -/
  refused : ε
  respond : Choice → Db → (Row → Bool) → (op : Op) → Option (Resp op × List Write)

/-- An open transaction: what is left of its script, its uncommitted writes, and
whether a rejected statement has aborted it. -/
structure Txn (Op : Type) (Resp : Op → Type) (ε α Write : Type) where
  script : Script Op Resp ε α
  writes : List Write
  aborted : Bool

structure System (n : ℕ) (Op : Type) (Resp : Op → Type) (ε α Write Db : Type) where
  db : Db
  txns : Fin n → Option (Txn Op Resp ε α Write)

/-- Open, advance or close the transaction of one worker. -/
def System.setTxn {n : ℕ} {Op : Type} {Resp : Op → Type} {ε α Write Db : Type}
    (st : System n Op Resp ε α Write Db) (t : Fin n) (T : Option (Txn Op Resp ε α Write)) :
    System n Op Resp ε α Write Db :=
  { st with txns := Function.update st.txns t T }

inductive Label (n : ℕ) (Choice : Type) where
  | begin (t : Fin n)
  | call (t : Fin n) (c : Choice)
  | fail (t : Fin n)
  | finish (t : Fin n)
  | crash (t : Fin n)

namespace Store
variable {Db Op Write Row Choice ε α : Type} {Resp : Op → Type} [DecidableEq Row] {n : ℕ}
variable (S : Store Db Op Write Row Choice ε Resp)

/-- The committed rows under a transaction's own writes. -/
def view (db : Db) (ws : List Write) : Db := ws.foldl S.write db

omit [DecidableEq Row] in
@[simp] theorem view_nil (db : Db) : S.view db [] = db := rfl

omit [DecidableEq Row] in
@[simp] theorem view_cons (db : Db) (w : Write) (ws : List Write) :
    S.view db (w :: ws) = S.view (S.write db w) ws := rfl

omit [DecidableEq Row] in
theorem view_append (db : Db) (ws ws' : List Write) :
    S.view db (ws ++ ws') = S.view (S.view db ws) ws' := List.foldl_append

def locks (ws : List Write) (row : Row) : Bool := ws.any fun w => S.row w = row

theorem locks_iff {ws : List Write} {row : Row} :
    S.locks ws row = true ↔ ∃ w ∈ ws, S.row w = row := by
  simp [locks]

theorem locks_append (ws ws' : List Write) (row : Row) :
    S.locks (ws ++ ws') row = (S.locks ws row || S.locks ws' row) := List.any_append

/-- What the store must guarantee: a statement only writes rows it waited for or
found unlocked, and an external operation writes nothing. -/
structure Lawful : Prop where
  respond_rows : ∀ c db locked op r ws, S.respond c db locked op = some (r, ws) →
    ∀ w ∈ ws, S.row w ∈ S.needs db op ∨ locked (S.row w) = false
  external_silent : ∀ c db locked op r ws, S.external op = true →
    S.respond c db locked op = some (r, ws) → ws = []

def lockedByOther (st : System n Op Resp ε α Write Db) (t : Fin n) (row : Row) : Bool :=
  (List.finRange n).any fun u => u ≠ t && match st.txns u with
    | some U => S.locks U.writes row
    | none => false

theorem lockedByOther_eq_false {st : System n Op Resp ε α Write Db} {t : Fin n} {row : Row} :
    S.lockedByOther st t row = false ↔
      ∀ u U, u ≠ t → st.txns u = some U → S.locks U.writes row = false := by
  simp only [lockedByOther, List.any_eq_false, List.mem_finRange, forall_const,
    Bool.and_eq_true, decide_eq_true_eq, not_and, Bool.not_eq_true]
  constructor
  · intro h u U hu hU
    simpa only [hU] using h u hu
  · intro h u hu
    cases hU : st.txns u with
    | none => rfl
    | some U => exact h u U hu hU

/-- One step of one worker. A worker without an open transaction may begin the
next cycle of its program. `fail` is the store refusing a statement for a reason
of its own (a deadlock victim, a lost connection); `crash` ends a worker's
transaction at any point. -/
def step (program : Fin n → Script Op Resp ε α) (st : System n Op Resp ε α Write Db) :
    Label n Choice → Option (System n Op Resp ε α Write Db)
  | .begin t => match st.txns t with
      | none => some (st.setTxn t (some ⟨program t, [], false⟩))
      | some _ => none
  | .call t c => match st.txns t with
      | some ⟨.call op next, ws, ab⟩ =>
          if ab && !S.external op then none
          else if (S.needs (S.view st.db ws) op).any (S.lockedByOther st t) then none
          else match S.respond c (S.view st.db ws) (S.lockedByOther st t) op with
            | some (r, ws') => some (st.setTxn t (some ⟨next (.ok r), ws ++ ws', ab⟩))
            | none => none
      | _ => none
  | .fail t => match st.txns t with
      | some ⟨.call op next, _, _⟩ =>
          if S.external op then none
          else some (st.setTxn t (some ⟨next (.error S.refused), [], true⟩))
      | _ => none
  | .finish t => match st.txns t with
      | some ⟨.done (.ok _), ws, ab⟩ =>
          some { st.setTxn t none with db := if ab then st.db else S.view st.db ws }
      | some ⟨.done (.error _), _, _⟩ => some (st.setTxn t none)
      | _ => none
  | .crash t => match st.txns t with
      | some _ => some (st.setTxn t none)
      | none => none

/-- The environment restricts what an operation may be answered with. -/
def Allowed (env : Op → Choice → Prop) (st : System n Op Resp ε α Write Db) :
    Label n Choice → Prop
  | .call t c => ∀ op next ws ab, st.txns t = some ⟨.call op next, ws, ab⟩ → env op c
  | _ => True

omit [DecidableEq Row] in
theorem allowed_of_forall {env : Op → Choice → Prop} (henv : ∀ op c, env op c)
    (st : System n Op Resp ε α Write Db) (l : Label n Choice) : Allowed env st l := by
  cases l with
  | call t c => exact fun op _ _ _ _ => henv op c
  | _ => trivial

def Step (program : Fin n → Script Op Resp ε α) (env : Op → Choice → Prop)
    (st st' : System n Op Resp ε α Write Db) : Prop :=
  ∃ l, Allowed env st l ∧ S.step program st l = some st'

/-- Every state some interleaving of the workers leads to. -/
abbrev Reaches (program : Fin n → Script Op Resp ε α) (env : Op → Choice → Prop) :
    System n Op Resp ε α Write Db → System n Op Resp ε α Write Db → Prop :=
  Relation.ReflTransGen (S.Step program env)

/-- A schedule given step by step, for evaluation. -/
def steps (program : Fin n → Script Op Resp ε α) :
    System n Op Resp ε α Write Db → List (Label n Choice) →
      Option (System n Op Resp ε α Write Db)
  | st, [] => some st
  | st, l :: ls => (S.step program st l).bind fun st' => steps program st' ls

theorem steps_reaches {program : Fin n → Script Op Resp ε α} {env : Op → Choice → Prop}
    (henv : ∀ op c, env op c) {ls : List (Label n Choice)}
    {st st' : System n Op Resp ε α Write Db} (h : S.steps program st ls = some st') :
    S.Reaches program env st st' := by
  induction ls generalizing st with
  | nil =>
      cases h
      exact .refl
  | cons l ls ih =>
      obtain ⟨u, hu, hs⟩ := Option.bind_eq_some_iff.mp h
      exact Relation.ReflTransGen.head ⟨l, allowed_of_forall henv st l, hu⟩ (ih hs)

/-- What one step can do, said once. Later proofs split on this and never unfold
`step`. -/
inductive Effect (program : Fin n → Script Op Resp ε α) (env : Op → Choice → Prop)
    (st : System n Op Resp ε α Write Db) : System n Op Resp ε α Write Db → Prop
  | begin (t : Fin n) (h : st.txns t = none) :
      Effect program env st (st.setTxn t (some ⟨program t, [], false⟩))
  | call (t : Fin n) (c : Choice) (op : Op) (next : Except ε (Resp op) → Script Op Resp ε α)
      (ws : List Write) (ab : Bool) (r : Resp op) (ws' : List Write)
      (h : st.txns t = some ⟨.call op next, ws, ab⟩) (henv : env op c)
      (hab : ab = false ∨ S.external op = true)
      (hfree : ∀ row ∈ S.needs (S.view st.db ws) op, S.lockedByOther st t row = false)
      (hr : S.respond c (S.view st.db ws) (S.lockedByOther st t) op = some (r, ws')) :
      Effect program env st (st.setTxn t (some ⟨next (.ok r), ws ++ ws', ab⟩))
  | fail (t : Fin n) (op : Op) (next : Except ε (Resp op) → Script Op Resp ε α)
      (ws : List Write) (ab : Bool) (h : st.txns t = some ⟨.call op next, ws, ab⟩)
      (hop : S.external op = false) :
      Effect program env st (st.setTxn t (some ⟨next (.error S.refused), [], true⟩))
  | commit (t : Fin n) (a : α) (ws : List Write)
      (h : st.txns t = some ⟨.done (.ok a), ws, false⟩) :
      Effect program env st { st.setTxn t none with db := S.view st.db ws }
  | rollback (t : Fin n) (T : Txn Op Resp ε α Write) (h : st.txns t = some T) :
      Effect program env st (st.setTxn t none)

theorem step_effect {program : Fin n → Script Op Resp ε α} {env : Op → Choice → Prop}
    {st st' : System n Op Resp ε α Write Db} (h : S.Step program env st st') :
    S.Effect program env st st' := by
  obtain ⟨l, hl, hs⟩ := h
  cases l with
  | begin t =>
      simp only [step] at hs
      split at hs
      · cases hs
        exact .begin t ‹_›
      · cases hs
  | call t c =>
      simp only [step] at hs
      split at hs
      · rename_i op next ws ab hT
        split_ifs at hs with hab hfree
        split at hs
        · rename_i r ws' hr
          cases hs
          refine .call t c op next ws ab r ws' hT (hl _ _ _ _ hT) ?_ ?_ hr
          · cases ab <;> simp_all
          · simpa using hfree
        · cases hs
      · cases hs
  | fail t =>
      simp only [step] at hs
      split at hs
      · rename_i op next ws ab hT
        split_ifs at hs with hop
        cases hs
        exact .fail t op next ws ab hT (by simpa using hop)
      · cases hs
  | finish t =>
      simp only [step] at hs
      split at hs
      · rename_i a ws ab hT
        cases hs
        cases ab with
        | false => exact .commit t a ws hT
        | true => exact .rollback t _ hT
      · cases hs
        exact .rollback t _ ‹_›
      · cases hs
  | crash t =>
      simp only [step] at hs
      split at hs
      · cases hs
        exact .rollback t _ ‹_›
      · cases hs

/-- No row is locked by two open transactions. -/
def Exclusive (st : System n Op Resp ε α Write Db) : Prop :=
  ∀ t u T U, t ≠ u → st.txns t = some T → st.txns u = some U →
    ∀ row, S.locks T.writes row = true → S.locks U.writes row = false

/-- A worker whose next statement needs a row another open transaction has
locked. -/
def WaitsFor (st : System n Op Resp ε α Write Db) (t u : Fin n) : Prop :=
  t ≠ u ∧ ∃ op next ws U, st.txns t = some ⟨.call op next, ws, false⟩ ∧ st.txns u = some U ∧
    ∃ row ∈ S.needs (S.view st.db ws) op, S.locks U.writes row = true

/-- A cycle of transactions each waiting for the next. -/
def Deadlock (st : System n Op Resp ε α Write Db) : Prop :=
  ∃ t, Relation.TransGen (S.WaitsFor st) t t

omit [DecidableEq Row] in
theorem setTxn_same (st : System n Op Resp ε α Write Db) (t : Fin n)
    (T : Option (Txn Op Resp ε α Write)) : (st.setTxn t T).txns t = T :=
  Function.update_self ..

omit [DecidableEq Row] in
theorem setTxn_other (st : System n Op Resp ε α Write Db) {t u : Fin n}
    (T : Option (Txn Op Resp ε α Write)) (h : u ≠ t) : (st.setTxn t T).txns u = st.txns u :=
  Function.update_of_ne h ..

/-- Only the writes of the stepping worker matter: if they lock nothing that
another transaction holds, exclusion survives. -/
theorem Exclusive.setTxn {st : System n Op Resp ε α Write Db} (h : S.Exclusive st) (t : Fin n)
    (T : Option (Txn Op Resp ε α Write))
    (hT : ∀ T', T = some T' → ∀ u U, u ≠ t → st.txns u = some U →
      ∀ row, S.locks T'.writes row = true → S.locks U.writes row = false) :
    S.Exclusive (st.setTxn t T) := by
  intro a b A B hab hA hB row hrow
  by_cases ha : a = t
  · subst ha
    rw [setTxn_same] at hA
    rw [setTxn_other st T (Ne.symm hab)] at hB
    exact hT A hA b B (Ne.symm hab) hB row hrow
  · rw [setTxn_other st T ha] at hA
    by_cases hb : b = t
    · subst hb
      rw [setTxn_same] at hB
      by_contra hc
      rw [hT B hB a A ha hA row (by simpa using hc)] at hrow
      cases hrow
    · rw [setTxn_other st T hb] at hB
      exact h a b A B hab hA hB row hrow

theorem Exclusive.step {program : Fin n → Script Op Resp ε α} {env : Op → Choice → Prop}
    {st st' : System n Op Resp ε α Write Db} (hS : S.Lawful) (h : S.Exclusive st)
    (hs : S.Effect program env st st') : S.Exclusive st' := by
  cases hs with
  | begin t ht =>
      refine h.setTxn S t _ fun T' hT' u U _ _ row hrow => ?_
      cases hT'
      simp [locks] at hrow
  | call t c op next ws ab r ws' ht _ _ hfree hr =>
      refine h.setTxn S t _ fun T' hT' u U hu hU row hrow => ?_
      cases hT'
      rw [locks_append, Bool.or_eq_true] at hrow
      rcases hrow with hrow | hrow
      · exact h t u _ U (Ne.symm hu) ht hU row hrow
      · obtain ⟨w, hw, rfl⟩ := (S.locks_iff).mp hrow
        have hlock : S.lockedByOther st t (S.row w) = false := by
          rcases hS.respond_rows _ _ _ _ _ _ hr w hw with hneeds | hopen
          · exact hfree _ hneeds
          · exact hopen
        exact (S.lockedByOther_eq_false).mp hlock u U hu hU
  | fail t op next ws ab ht _ =>
      refine h.setTxn S t _ fun T' hT' u U _ _ row hrow => ?_
      cases hT'
      simp [locks] at hrow
  | commit t a ws ht => exact h.setTxn S t none fun _ hT' => by cases hT'
  | rollback t T ht => exact h.setTxn S t none fun _ hT' => by cases hT'

/-- The same, computed. -/
def waitsFor (st : System n Op Resp ε α Write Db) (t u : Fin n) : Bool :=
  t ≠ u && match st.txns t, st.txns u with
    | some ⟨.call op _, ws, false⟩, some U =>
        (S.needs (S.view st.db ws) op).any (S.locks U.writes)
    | _, _ => false

theorem waitsFor_sound {st : System n Op Resp ε α Write Db} {t u : Fin n}
    (h : S.waitsFor st t u = true) : S.WaitsFor st t u := by
  rw [waitsFor, Bool.and_eq_true, decide_eq_true_eq] at h
  refine ⟨h.1, ?_⟩
  have hmatch := h.2
  split at hmatch
  · rename_i op next ws U ht hU
    exact ⟨op, next, ws, U, ht, hU, List.any_eq_true.mp hmatch⟩
  · cases hmatch

/-- A worker in a cycle waits for another one in it. -/
theorem WaitsFor.next {st : System n Op Resp ε α Write Db} {t : Fin n}
    (h : Relation.TransGen (S.WaitsFor st) t t) :
    ∃ u, S.WaitsFor st t u ∧ Relation.TransGen (S.WaitsFor st) u u := by
  obtain ⟨u, htu, hut⟩ := Relation.TransGen.head'_iff.mp h
  exact ⟨u, htu, .tail' hut htu⟩

/-- Without three waits in a row there is no deadlock. -/
theorem not_deadlock {st : System n Op Resp ε α Write Db}
    (h : ∀ t u v w, S.WaitsFor st t u → S.WaitsFor st u v → ¬ S.WaitsFor st v w) :
    ¬ S.Deadlock st := by
  rintro ⟨t, ht⟩
  obtain ⟨u, htu, hu⟩ := WaitsFor.next S ht
  obtain ⟨v, huv, hv⟩ := WaitsFor.next S hu
  obtain ⟨w, hvw, -⟩ := WaitsFor.next S hv
  exact h t u v w htu huv hvw

/-- The state in which no worker has a transaction open. -/
def idle (db : Db) : System n Op Resp ε α Write Db := ⟨db, fun _ => none⟩

theorem exclusive_idle (db : Db) :
    S.Exclusive (idle db : System n Op Resp ε α Write Db) := by
  intro t u T U _ hT
  cases hT

/-! ### Constraints -/

/-- The committed rows satisfy a constraint, and every write of an open transaction
is one that keeps it. -/
structure Constrained (P : Db → Prop) (Q : Write → Prop) (st : System n Op Resp ε α Write Db) :
    Prop where
  db : P st.db
  writes : ∀ t T, st.txns t = some T → ∀ w ∈ T.writes, Q w

section
variable {S} {P : Db → Prop} {Q : Write → Prop} {st st' : System n Op Resp ε α Write Db}

omit [DecidableEq Row] in
theorem view_constrained (hwrite : ∀ db w, P db → Q w → P (S.write db w)) {db : Db}
    {ws : List Write} (hdb : P db) (hws : ∀ w ∈ ws, Q w) : P (S.view db ws) := by
  induction ws generalizing db with
  | nil => exact hdb
  | cons w ws ih =>
      obtain ⟨hw, hrest⟩ := List.forall_mem_cons.mp hws
      exact ih (hwrite db w hdb hw) hrest

theorem constrained_idle {db : Db} (hdb : P db) :
    Constrained P Q (idle db : System n Op Resp ε α Write Db) where
  db := hdb
  writes := by
    intro t T hT
    cases hT

theorem Constrained.setTxn (h : Constrained P Q st) (t : Fin n) {T : Option (Txn Op Resp ε α Write)}
    (hT : ∀ T', T = some T' → ∀ w ∈ T'.writes, Q w) : Constrained P Q (st.setTxn t T) where
  db := h.db
  writes := by
    intro u U hU
    by_cases hu : u = t
    · subst hu
      rw [setTxn_same] at hU
      exact hT U hU
    · rw [setTxn_other st T hu] at hU
      exact h.writes u U hU

variable {program : Fin n → Script Op Resp ε α} {env : Op → Choice → Prop}

/-- A constraint that the store checks of all it lets a statement write stays
satisfied, whatever the transactions do. -/
theorem Constrained.step
    (hrespond : ∀ c db locked op r ws, S.respond c db locked op = some (r, ws) → ∀ w ∈ ws, Q w)
    (hwrite : ∀ db w, P db → Q w → P (S.write db w)) (h : Constrained P Q st)
    (hs : S.Effect program env st st') : Constrained P Q st' := by
  cases hs with
  | begin t ht =>
      refine h.setTxn t fun T hT => ?_
      cases hT
      exact nofun
  | call t c op next ws ab r ws' ht _ _ _ hr =>
      refine h.setTxn t fun T hT w hw => ?_
      cases hT
      rcases List.mem_append.mp hw with hw | hw
      · exact h.writes t _ ht w hw
      · exact hrespond _ _ _ _ _ _ hr w hw
  | fail t op next ws ab ht _ =>
      refine h.setTxn t fun T hT => ?_
      cases hT
      exact nofun
  | commit t a ws ht =>
      have hclosed := h.setTxn t (T := none) nofun
      exact ⟨view_constrained hwrite h.db (h.writes t _ ht), hclosed.writes⟩
  | rollback t T ht => exact h.setTxn t nofun

theorem Constrained.reaches
    (hrespond : ∀ c db locked op r ws, S.respond c db locked op = some (r, ws) → ∀ w ∈ ws, Q w)
    (hwrite : ∀ db w, P db → Q w → P (S.write db w)) (h : Constrained P Q st)
    (hs : S.Reaches program env st st') : Constrained P Q st' := by
  induction hs with
  | refl => exact h
  | tail _ hstep ih => exact ih.step hrespond hwrite (S.step_effect hstep)

end

end Store
end WorkflowPlatform
