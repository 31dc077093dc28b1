import WorkflowPlatform.Rely

/-!
# What a run has committed

A `LoggedRun` keeps, beside the state of a run, the results of the transactions
that have committed, in the order of their commits. An abstract value that every
commit advances by its own result can then be read off the log: `LoggedRun.log_induction`
is the induction over runs, with one obligation for each committed result.
-/
namespace WorkflowPlatform

namespace Script
variable {Op ε α : Type} {Resp : Op → Type}

/-- What a script may be reduced to while it runs. -/
def Residual : Script Op Resp ε α → Script Op Resp ε α → Prop
  | .done r, m => m = .done r
  | .call op next, m => m = .call op next ∨ ∃ r, (next r).Residual m

theorem Residual.refl (m : Script Op Resp ε α) : m.Residual m := by
  cases m with
  | done r => rfl
  | call op next => exact .inl rfl

theorem Residual.next {m : Script Op Resp ε α} {op : Op}
    {next : Except ε (Resp op) → Script Op Resp ε α} (h : m.Residual (.call op next))
    (r : Except ε (Resp op)) : m.Residual (next r) := by
  induction m with
  | done r' => cases h
  | call op' next' ih =>
      rcases h with h | ⟨r', h⟩
      · cases h
        exact .inr ⟨r, Residual.refl _⟩
      · exact .inr ⟨r', ih r' h⟩

theorem All.residual {P : Op → Prop} {m m' : Script Op Resp ε α} (h : m.All P)
    (hm : m.Residual m') : m'.All P := by
  induction m with
  | done r =>
      cases hm
      exact h
  | call op next ih =>
      rcases hm with rfl | ⟨r, hr⟩
      · exact h
      · exact ih r (h.2 r) hr

/-- What a script may be reduced to once its first operation is answered. -/
def Past : Script Op Resp ε α → Script Op Resp ε α → Prop
  | .done _, _ => False
  | .call _ next, m => ∃ r, (next r).Residual m

theorem Past.residual {m m' : Script Op Resp ε α} (h : m.Past m') : m.Residual m' := by
  cases m with
  | done r => cases h
  | call op next => exact .inr h

theorem Past.next {m : Script Op Resp ε α} {op : Op}
    {next : Except ε (Resp op) → Script Op Resp ε α} (h : m.Past (.call op next))
    (r : Except ε (Resp op)) : m.Past (next r) := by
  cases m with
  | done r' => cases h
  | call op' next' =>
      obtain ⟨r', h⟩ := h
      exact ⟨r', h.next r⟩

/-- Every result that the script can have satisfies `Q`. -/
def Returns (Q : α → Prop) : Script Op Resp ε α → Prop
  | .done (.ok a) => Q a
  | .done (.error _) => True
  | .call _ next => ∀ r, (next r).Returns Q

theorem returns_bind {β : Type} {Q : β → Prop} {m : Script Op Resp ε α}
    {f : α → Script Op Resp ε β} (hf : ∀ a, (f a).Returns Q) : (m >>= f).Returns Q := by
  induction m with
  | done r =>
      cases r with
      | ok a => exact hf a
      | error e => trivial
  | call op next ih => exact fun r => ih r

theorem Returns.residual {Q : α → Prop} {m m' : Script Op Resp ε α} (h : m.Returns Q)
    (hm : m.Residual m') : m'.Returns Q := by
  induction m with
  | done r =>
      cases hm
      exact h
  | call op next ih =>
      rcases hm with rfl | ⟨r, hr⟩
      · exact h
      · exact ih r (h r) hr

end Script

namespace Store
variable {Db Op Write Row Choice ε α : Type} {Resp : Op → Type} [DecidableEq Row] {n : ℕ}
variable (S : Store Db Op Write Row Choice ε Resp)

omit [DecidableEq Row] in
/-- The result that a step commits. -/
def committed (st : System n Op Resp ε α Write Db) : Label n Choice → List α
  | .finish t => match st.txns t with
      | some ⟨.done (.ok a), _, false⟩ => [a]
      | _ => []
  | _ => []

omit [DecidableEq Row] in
/-- What a step commits: a result, with the writes that go with it. -/
def commits (st : System n Op Resp ε α Write Db) : Label n Choice → List (α × List Write)
  | .finish t => match st.txns t with
      | some ⟨.done (.ok a), ws, false⟩ => [(a, ws)]
      | _ => []
  | _ => []

/-- What a schedule commits, in the order of the commits. -/
def history (program : Fin n → Script Op Resp ε α) :
    System n Op Resp ε α Write Db → List (Label n Choice) → List (α × List Write)
  | _, [] => []
  | st, l :: ls => commits st l ++ match S.step program st l with
      | some st' => history program st' ls
      | none => []

/-- A run, with what it has committed. -/
inductive LoggedRun (program : Fin n → Script Op Resp ε α) (env : Op → Choice → Prop)
    (st₀ : System n Op Resp ε α Write Db) : List α → System n Op Resp ε α Write Db → Prop
  | refl : LoggedRun program env st₀ [] st₀
  | tail {log : List α} {st st' : System n Op Resp ε α Write Db} (l : Label n Choice) :
      LoggedRun program env st₀ log st → Allowed env st l → S.step program st l = some st' →
      LoggedRun program env st₀ (log ++ committed st l) st'

variable {S}
variable {program : Fin n → Script Op Resp ε α} {env : Op → Choice → Prop}
variable {st₀ st st' : System n Op Resp ε α Write Db} {log : List α} {l : Label n Choice}

theorem LoggedRun.reaches (h : S.LoggedRun program env st₀ log st) :
    S.Reaches program env st₀ st := by
  induction h with
  | refl => exact .refl
  | tail l _ hl hs ih => exact ih.tail ⟨l, hl, hs⟩

omit [DecidableEq Row] in
theorem committed_eq (st : System n Op Resp ε α Write Db) (l : Label n Choice) :
    committed st l = (commits st l).map Prod.fst := by
  cases l with
  | finish t =>
      simp only [committed, commits]
      split <;> simp_all
  | _ => rfl

/-- A run goes on by any schedule whose steps all go through. -/
theorem LoggedRun.steps_log (henv : ∀ op c, env op c) {ls : List (Label n Choice)}
    (h : S.LoggedRun program env st₀ log st) (hs : S.steps program st ls = some st') :
    S.LoggedRun program env st₀ (log ++ (S.history program st ls).map Prod.fst) st' := by
  induction ls generalizing log st with
  | nil =>
      cases hs
      simpa [history] using h
  | cons l ls ih =>
      obtain ⟨u, hu, hs⟩ := Option.bind_eq_some_iff.mp hs
      have hl : Allowed env st l := by
        cases l <;> simp only [Allowed]
        intro op _ _ _ _
        exact henv op _
      have hrest := ih (h.tail l hl hu) hs
      rw [history, hu, List.map_append, ← committed_eq, ← List.append_assoc]
      exact hrest

theorem LoggedRun.steps (henv : ∀ op c, env op c) {ls : List (Label n Choice)}
    (h : S.LoggedRun program env st₀ log st) (hs : S.steps program st ls = some st') :
    ∃ log', S.LoggedRun program env st₀ log' st' := ⟨_, h.steps_log henv hs⟩

/-- A step commits one result with its writes, or leaves the rows alone. -/
theorem step_commits (h : S.step program st l = some st') :
    (commits st l = [] ∧ st'.db = st.db) ∨ ∃ t a ws,
      st.txns t = some ⟨.done (.ok a), ws, false⟩ ∧ commits st l = [(a, ws)] ∧
        st'.db = S.view st.db ws := by
  cases l with
  | begin t =>
      simp only [step] at h
      split at h <;> cases h
      exact .inl ⟨rfl, rfl⟩
  | call t c =>
      simp only [step] at h
      split at h
      · split_ifs at h
        split at h <;> cases h
        exact .inl ⟨rfl, rfl⟩
      · cases h
  | fail t =>
      simp only [step] at h
      split at h
      · split_ifs at h
        cases h
        exact .inl ⟨rfl, rfl⟩
      · cases h
  | finish t =>
      simp only [step] at h
      split at h
      · next a ws ab ht =>
          cases h
          cases ab with
          | false => exact .inr ⟨t, a, ws, ht, by simp [commits, ht], rfl⟩
          | true => exact .inl ⟨by simp [commits, ht], rfl⟩
      · next ht =>
          cases h
          exact .inl ⟨by simp [commits, ht], rfl⟩
      · cases h
  | crash t =>
      simp only [step] at h
      split at h <;> cases h
      exact .inl ⟨rfl, rfl⟩

theorem step_committed (h : S.step program st l = some st') :
    (committed st l = [] ∧ st'.db = st.db) ∨ ∃ t a ws,
      st.txns t = some ⟨.done (.ok a), ws, false⟩ ∧ committed st l = [a] ∧
        st'.db = S.view st.db ws := by
  rw [committed_eq]
  rcases step_commits h with ⟨hnone, hsame⟩ | ⟨t, a, ws, ht, hone, hview⟩
  · rw [hnone]
    exact .inl ⟨rfl, hsame⟩
  · rw [hone]
    exact .inr ⟨t, a, ws, ht, rfl, hview⟩

theorem steps_append {ls ls' : List (Label n Choice)} :
    S.steps program st (ls ++ ls') = (S.steps program st ls).bind fun st' =>
      S.steps program st' ls' := by
  induction ls generalizing st with
  | nil => rfl
  | cons l ls ih =>
      simp only [List.cons_append, steps, Option.bind_assoc]
      congr 1
      funext st'
      exact ih

/-- Every open transaction is at the start of its program, or somewhere in it. -/
def InProgram (program : Fin n → Script Op Resp ε α) (st : System n Op Resp ε α Write Db) : Prop :=
  ∀ t T, st.txns t = some T → T = ⟨program t, [], false⟩ ∨ (program t).Past T.script

omit [DecidableEq Row] in
theorem InProgram.setTxn (h : InProgram program st) {t : Fin n}
    {T : Option (Txn Op Resp ε α Write)}
    (hT : ∀ T', T = some T' → T' = ⟨program t, [], false⟩ ∨ (program t).Past T'.script) :
    InProgram program (st.setTxn t T) := by
  intro u U hU
  by_cases hu : u = t
  · subst hu
    rw [setTxn_same] at hU
    exact hT U hU
  · rw [setTxn_other st T hu] at hU
    exact h u U hU

omit [DecidableEq Row] in
/-- What is true of every operation of a program is true of the next one. -/
theorem InProgram.all {P : Op → Prop} (h : InProgram program st) {t : Fin n}
    {T : Txn Op Resp ε α Write} (hT : st.txns t = some T) (hall : (program t).All P) :
    T.script.All P := by
  rcases h t T hT with hstart | hpast
  · rw [hstart]
    exact hall
  · exact hall.residual hpast.residual

omit [DecidableEq Row] in
theorem InProgram.returns {Q : α → Prop} (h : InProgram program st) {t : Fin n}
    {T : Txn Op Resp ε α Write} (hT : st.txns t = some T) (hprogram : (program t).Returns Q) :
    T.script.Returns Q := by
  rcases h t T hT with hstart | hpast
  · rw [hstart]
    exact hprogram
  · exact hprogram.residual hpast.residual

omit [DecidableEq Row] in
theorem InProgram.next (h : InProgram program st) {t : Fin n} {op : Op}
    {next : Except ε (Resp op) → Script Op Resp ε α} {ws : List Write} {ab : Bool}
    (ht : st.txns t = some ⟨.call op next, ws, ab⟩) (r : Except ε (Resp op)) :
    (program t).Past (next r) := by
  rcases h t _ ht with hstart | hpast
  · injection hstart with hscript
    rw [← hscript]
    exact ⟨r, Script.Residual.refl _⟩
  · exact hpast.next r

theorem InProgram.step (h : InProgram program st) (hs : S.Step program env st st') :
    InProgram program st' := by
  cases S.step_effect hs with
  | begin t ht =>
      refine h.setTxn fun T' hT' => ?_
      cases hT'
      exact .inl rfl
  | call t c op next ws ab r ws' ht =>
      refine h.setTxn fun T' hT' => ?_
      cases hT'
      exact .inr (h.next ht (.ok r))
  | fail t op next ws ab ht =>
      refine h.setTxn fun T' hT' => ?_
      cases hT'
      exact .inr (h.next ht (.error S.refused))
  | commit t a ws ht => exact h.setTxn (T := none) fun T' hT' => by cases hT'
  | rollback t T ht => exact h.setTxn (T := none) fun T' hT' => by cases hT'

theorem inProgram_reaches {db : Db} (h : S.Reaches program env (idle db) st) :
    InProgram program st := by
  induction h with
  | refl => exact fun t T hT => by cases hT
  | tail _ hs ih => exact ih.step hs

end Store

namespace Protocol
variable {Db Op Write Row Choice ε α : Type} {Resp : Op → Type} [DecidableEq Row] {n : ℕ}
variable {S : Store Db Op Write Row Choice ε Resp} {P : Protocol S}
variable {post : Bool → Except ε α → List Write → Db → Prop}
variable {program : Fin n → Script Op Resp ε α}

/-- What is true of the log and the committed rows, if every commit keeps it. -/
theorem log_induction (J : List α → Db → Prop) (hP : P.Follows post program) {db : Db}
    (hdb : P.inv db) (hJ : J [] db)
    (hcommit : ∀ log a ws d, P.inv d → post false (.ok a) ws d → J log d →
      J (log ++ [a]) (S.view d ws))
    {log : List α} {st : System n Op Resp ε α Write Db}
    (h : S.LoggedRun program P.env (Store.idle db) log st) : J log st.db := by
  induction h with
  | refl => exact hJ
  | tail l hrun hl hs ih =>
      have hsound := (sound_idle hdb).reaches hP hrun.reaches
      rcases Store.step_committed hs with ⟨hlog, hsame⟩ | ⟨t, a, ws, ht, hlog, hview⟩
      · rw [hlog, List.append_nil, hsame]
        exact ih
      · rw [hlog, hview]
        apply hcommit _ _ _ _ hsound.inv ?_ ih
        exact hsound.ensures t _ ht _ hsound.inv (P.rely_refl _ _)

/-- What is true of the history and the committed rows, if every commit keeps it. -/
theorem Sound.history_induction (J : List (α × List Write) → Db → Prop)
    (hP : P.Follows post program) (henv : ∀ op c, P.env op c)
    (hcommit : ∀ log a ws d, P.inv d → post false (.ok a) ws d → J log d →
      J (log ++ [(a, ws)]) (S.view d ws)) {ls : List (Label n Choice)}
    {st st' : System n Op Resp ε α Write Db} {log : List (α × List Write)}
    (hsound : P.Sound post st) (hJ : J log st.db) (h : S.steps program st ls = some st') :
    J (log ++ S.history program st ls) st'.db := by
  induction ls generalizing st log with
  | nil =>
      cases h
      rwa [Store.history, List.append_nil]
  | cons l ls ih =>
      obtain ⟨u, hu, hs⟩ := Option.bind_eq_some_iff.mp h
      have hl : Store.Allowed P.env st l := Store.allowed_of_forall henv st l
      have hsound' := hsound.step hP (S.step_effect ⟨l, hl, hu⟩)
      rw [Store.history, hu, ← List.append_assoc]
      refine ih hsound' ?_ hs
      rcases Store.step_commits hu with ⟨hnone, hsame⟩ | ⟨t, a, ws, ht, hone, hview⟩
      · rw [hnone, List.append_nil, hsame]
        exact hJ
      · rw [hone, hview]
        apply hcommit _ _ _ _ hsound.inv ?_ hJ
        exact hsound.ensures t _ ht _ hsound.inv (P.rely_refl _ _)

/-- An open transaction stays on its way to a postcondition of its own, as long as
it is not ended. -/
theorem Sound.persists {Q : Bool → Except ε α → List Write → Db → Prop}
    (hP : P.Follows post program) {st st' : System n Op Resp ε α Write Db}
    (hsound : P.Sound post st) {t : Fin n} {T : Txn Op Resp ε α Write}
    (ht : st.txns t = some T) (hT : P.Ensures Q T.aborted T.script T.writes st.db)
    {l : Label n Choice} (hl : Store.Allowed P.env st l) (hopen : l ≠ .finish t ∧ l ≠ .crash t)
    (hs : S.step program st l = some st') :
    ∃ T', st'.txns t = some T' ∧ P.Ensures Q T'.aborted T'.script T'.writes st'.db := by
  have hother : ∀ (u : Fin n) U, u ≠ t → (st.setTxn u U).txns t = some T := fun u U hu =>
    (Store.setTxn_other st U (Ne.symm hu)).trans ht
  cases l with
  | begin u =>
      simp only [Store.step] at hs
      split at hs <;> cases hs
      next hu =>
        refine ⟨T, hother u _ ?_, hT⟩
        rintro rfl
        rw [ht] at hu
        cases hu
  | call u c =>
      simp only [Store.step] at hs
      split at hs
      · next op next ws ab hu =>
          split_ifs at hs with hab hfree
          split at hs <;> cases hs
          next r ws' hr =>
            by_cases hut : u = t
            · subst hut
              rw [ht] at hu
              cases hu
              refine ⟨_, Store.setTxn_same .., ?_⟩
              refine ((hT st.db hsound.inv (P.rely_refl _ _)).1 ?_).2 c _ r ws' (hl _ _ _ _ ht) hr
              cases ab <;> simp_all
            · exact ⟨T, hother u _ hut, hT⟩
      · cases hs
  | fail u =>
      simp only [Store.step] at hs
      split at hs
      · next op next ws ab hu =>
          split_ifs at hs with hop
          cases hs
          by_cases hut : u = t
          · subst hut
            rw [ht] at hu
            cases hu
            refine ⟨_, Store.setTxn_same .., ?_⟩
            exact (hT st.db hsound.inv (P.rely_refl _ _)).2 (by simpa using hop)
          · exact ⟨T, hother u _ hut, hT⟩
      · cases hs
  | finish u =>
      have hut : u ≠ t := fun h => hopen.1 (by rw [h])
      simp only [Store.step] at hs
      split at hs
      · next a ws ab hu =>
          cases hs
          refine ⟨T, hother u _ hut, ?_⟩
          cases ab with
          | false => exact hT.of_rely P (hsound.rely_commit hP hu ht (Ne.symm hut))
          | true => exact hT
      · cases hs
        exact ⟨T, hother u _ hut, hT⟩
      · cases hs
  | crash u =>
      have hut : u ≠ t := fun h => hopen.2 (by rw [h])
      simp only [Store.step] at hs
      split at hs <;> cases hs
      exact ⟨T, hother u _ hut, hT⟩

theorem Sound.persists_steps {Q : Bool → Except ε α → List Write → Db → Prop}
    (hP : P.Follows post program) (henv : ∀ op c, P.env op c) {ls : List (Label n Choice)}
    {st st' : System n Op Resp ε α Write Db} (hsound : P.Sound post st) {t : Fin n}
    {T : Txn Op Resp ε α Write} (ht : st.txns t = some T)
    (hT : P.Ensures Q T.aborted T.script T.writes st.db)
    (hopen : ∀ l ∈ ls, l ≠ .finish t ∧ l ≠ .crash t) (hs : S.steps program st ls = some st') :
    ∃ T', st'.txns t = some T' ∧ P.Ensures Q T'.aborted T'.script T'.writes st'.db := by
  induction ls generalizing st T with
  | nil =>
      cases hs
      exact ⟨T, ht, hT⟩
  | cons l ls ih =>
      obtain ⟨u, hu, hs⟩ := Option.bind_eq_some_iff.mp hs
      have hl : Store.Allowed P.env st l := Store.allowed_of_forall henv st l
      obtain ⟨T', ht', hT'⟩ := hsound.persists hP ht hT hl (hopen l List.mem_cons_self) hu
      exact ih (hsound.step hP (S.step_effect ⟨l, hl, hu⟩)) ht' hT'
        (fun l' hl' => hopen l' (List.mem_cons_of_mem _ hl')) hs

end Protocol
end WorkflowPlatform
