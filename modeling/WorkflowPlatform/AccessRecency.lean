import Mathlib.Order.Bounds.Basic
import WorkflowPlatform.CommitLog
import WorkflowPlatform.PlacementCalls

/-!
# Recency among concurrent accesses

Any number of transactions record accesses at once, each at the time at which it
started. The upsert holds the row of its hash to the end of the transaction, so
the accesses of a hash take effect one after the other, in the order of their
commits. The counter counts them. The time of the row is that of the last one to
commit, which is the greatest as long as they commit in the order of their starts.
-/
namespace WorkflowPlatform

/-- What a worker records: a hash, with options that name no time. -/
structure AccessRequest where
  contentHash : String
  opts : RecordAccessOptions

def AccessRequest.untimed (request : AccessRequest) : RecordAccessOptions :=
  { request.opts with accessedAt := none }

/-- The transaction of an access. Its result is the hash and the time. -/
def AccessRequest.script (request : AccessRequest) : PlacementTx (String × ℤ) := do
  let now ← placementQuery .startTime
  let _ ← recordAccess now request.contentHash request.untimed
  pure (request.contentHash, now)

/-- The times of the committed accesses of a hash, in the order of their commits. -/
def timesOf (log : List (String × ℤ)) (h : String) : List ℤ :=
  log.filterMap fun (k, t) => if k = h then some t else none

abbrev AccessSystem (n : ℕ) :=
  System n PlacementOp PlacementOp.Resp Failure (String × ℤ) PlacementWrite PlacementDb

/-- A run of one worker for each request, from empty tables. A worker may commit
its access any number of times. -/
abbrev AccessRun {n : ℕ} (requests : Fin n → AccessRequest) :
    List (String × ℤ) → AccessSystem n → Prop :=
  placementStore.LoggedRun (fun t => (requests t).script) (fun _ _ => True)
    (Store.idle PlacementDb.empty)

/-! ### What one transaction commits -/

/-- Nobody else changes the placement row of a hash that the transaction holds. -/
def placementProtocol : Protocol placementStore where
  inv _ := True
  rely ws db db' := ∀ h, placementStore.locks ws h = true → db'.placement h = db.placement h
  env _ _ := True
  pre _ _ _ := True
  rely_refl _ _ _ _ := rfl
  rely_trans _ _ _ _ h h' k hk := (h' k hk).trans (h k hk)

/-- The transaction holds the row of the hash and has folded an access at this
time into it. -/
structure Accessed (h : String) (now : ℤ) (ws : List PlacementWrite) (db : PlacementDb) : Prop where
  own : ∀ w ∈ ws, w.contentHash = h
  lock : placementStore.locks ws h = true
  folded : ∃ input : UpsertPlacementAccessInput, input.accessedAt = none ∧
    (placementStore.view db ws).placement h = some (upsertedPlacement now input (db.placement h))

def AccessPost (ab : Bool) (r : Except Failure (String × ℤ)) (ws : List PlacementWrite)
    (db : PlacementDb) : Prop :=
  ab = false → ∀ h now, r = .ok (h, now) → Accessed h now ws db

section
variable {n : ℕ} {ws : List PlacementWrite} {db db' : PlacementDb} {h : String} {now : ℤ}

theorem placementView_other (hws : ∀ w ∈ ws, w.contentHash ≠ h) :
    (placementStore.view db ws).placement h = db.placement h := by
  induction ws generalizing db with
  | nil => rfl
  | cons w rest ih =>
      rw [Store.view_cons, ih fun v hv => hws v (List.mem_cons_of_mem _ hv)]
      have hw : w.contentHash ≠ h := hws w List.mem_cons_self
      cases w with
      | putPlacement k p => exact Function.update_of_ne (Ne.symm hw) _ _
      | insertAccess a => rfl
      | deleteAccesses k horizon => rfl

theorem placementView_congr (hrow : db'.placement h = db.placement h) :
    (placementStore.view db' ws).placement h = (placementStore.view db ws).placement h := by
  induction ws generalizing db db' with
  | nil => exact hrow
  | cons w rest ih =>
      apply ih
      cases w with
      | putPlacement k p =>
          refine (PlacementDb.put_placement db' k p h).trans ?_
          rw [hrow]
          exact (PlacementDb.put_placement db k p h).symm
      | insertAccess a => exact hrow
      | deleteAccesses k horizon => exact hrow

theorem placementStore_lawful : placementStore.Lawful where
  respond_rows c db locked op r ws hr w hw := by
    left
    rw [PlacementDb.respond_eq hr] at hw
    cases op with
    | setPinned now k pinned =>
        simp only [placementRespond] at hw
        split at hw
        · next p hp => simp_all [placementStore, placementNeeds, PlacementWrite.contentHash]
        · cases hw
    | startTime => cases hw
    | findByContentHash k => cases hw
    | listPinnedOrderedByLru => cases hw
    | countWithinWindow k since => cases hw
    | _ =>
        rw [List.mem_singleton.mp hw]
        exact List.mem_singleton_self _
  external_silent c db locked op r ws hop hr := by
    cases op with
    | startTime => exact PlacementDb.respond_eq hr
    | _ => cases hop

theorem Accessed.of_rely (hacc : Accessed h now ws db) (hr : placementProtocol.rely ws db db') :
    Accessed h now ws db' := by
  obtain ⟨input, htime, hrow⟩ := hacc.folded
  have hsame : db'.placement h = db.placement h := hr h hacc.lock
  refine ⟨hacc.own, hacc.lock, input, htime, ?_⟩
  rw [hsame, ← hrow]
  exact placementView_congr hsame

/-- A statement on the log of the hash. -/
theorem Accessed.append (hacc : Accessed h now ws db) {ws' : List PlacementWrite}
    (hown : ∀ w ∈ ws', w.contentHash = h)
    (hlog : ∀ d : PlacementDb, (placementStore.view d ws').placement h = d.placement h) :
    Accessed h now (ws ++ ws') db := by
  obtain ⟨input, htime, hrow⟩ := hacc.folded
  refine ⟨?_, ?_, input, htime, ?_⟩
  · intro w hw
    rcases List.mem_append.mp hw with hw | hw
    · exact hacc.own w hw
    · exact hown w hw
  · rw [Store.locks_append, hacc.lock, Bool.true_or]
  · rw [Store.view_append, hlog, hrow]

/-- A statement whose refusal ends the transaction of an access. -/
theorem placementQuery_ensures {op : PlacementOp} {f : op.Resp → PlacementTx (String × ℤ)}
    (hnext : ∀ d c, placementProtocol.rely ws db d →
      placementProtocol.Ensures AccessPost false
        (f (placementRespond c (placementStore.view d ws) op).1)
        (ws ++ (placementRespond c (placementStore.view d ws) op).2) d) :
    placementProtocol.Ensures AccessPost false (placementQuery op >>= f) ws db := by
  apply Protocol.ensures_query
  · intro d _ hab
    cases hab
  · intro d _ hr
    refine ⟨trivial, fun c locked r ws' _ hresp => ?_⟩
    have hanswer : placementRespond c (placementStore.view d ws) op = (r, ws') :=
      Option.some.inj hresp
    have hens := hnext d c hr
    rw [hanswer] at hens
    exact hens

/-- A statement that only writes the log of the hash. -/
theorem Accessed.log_ensures {op : PlacementOp} {f : op.Resp → PlacementTx (String × ℤ)}
    (hacc : Accessed h now ws db)
    (hop : ∀ c d, (∀ w ∈ (placementRespond c d op).2, w.contentHash = h) ∧
      ∀ d', (placementStore.view d' (placementRespond c d op).2).placement h = d'.placement h)
    (hnext : ∀ d ws' r, Accessed h now ws' d →
      placementProtocol.Ensures AccessPost false (f r) ws' d) :
    placementProtocol.Ensures AccessPost false (placementQuery op >>= f) ws db := by
  apply placementQuery_ensures
  intro d c hr
  obtain ⟨hown, hlog⟩ := hop c (placementStore.view d ws)
  exact hnext _ _ _ ((hacc.of_rely hr).append hown hlog)

/-- An access, whoever works around it. -/
theorem access_ensures (request : AccessRequest) (db : PlacementDb) :
    placementProtocol.Ensures AccessPost false request.script [] db := by
  apply placementQuery_ensures
  intro d c _
  change placementProtocol.Ensures AccessPost false
    (recordAccess c.now request.contentHash request.untimed >>= _) [] d
  rw [recordAccess, Script.bind_assoc, upsertAccess, Script.bind_assoc]
  apply placementQuery_ensures
  intro d₁ c₁ _
  have hacc : Accessed request.contentHash c.now
      [.putPlacement request.contentHash (upsertedPlacement c.now
        (request.untimed.upsertInput request.contentHash) (d₁.placement request.contentHash))] d₁ := by
    refine ⟨?_, ?_, request.untimed.upsertInput request.contentHash, rfl, ?_⟩
    · simp [PlacementWrite.contentHash]
    · simp [Store.locks, placementStore, PlacementWrite.contentHash]
    · exact (PlacementDb.put_placement ..).trans (if_pos rfl)
  change placementProtocol.Ensures AccessPost false
    ((placementQuery (.record ..) >>= fun _ => _) >>= _) _ d₁
  rw [Script.bind_assoc]
  apply hacc.log_ensures
    (fun _ _ => ⟨by simp [placementRespond, PlacementWrite.contentHash], fun _ => rfl⟩)
  intro d₂ ws₂ _ hacc₂
  rw [Script.bind_assoc]
  apply hacc₂.log_ensures
    (fun _ _ => ⟨by simp [placementRespond, PlacementWrite.contentHash], fun _ => rfl⟩)
  intro d₃ ws₃ _ hacc₃
  refine Protocol.ensures_done _ fun d₄ _ hr _ k now hresult => ?_
  cases hresult
  exact hacc₃.of_rely hr

theorem accesses_follow (requests : Fin n → AccessRequest) :
    placementProtocol.Follows AccessPost fun t => (requests t).script where
  lawful := placementStore_lawful
  start t db _ := access_ensures (requests t) db
  commit := by
    intro ⟨h, now⟩ ws db _ hpost
    have hacc : Accessed h now ws db := hpost rfl h now rfl
    refine ⟨trivial, fun ws' hdisjoint k hlock => ?_⟩
    apply placementView_other
    intro w hw hk
    have hfree := hdisjoint h hacc.lock
    rw [← hacc.own w hw, hk, hlock] at hfree
    cases hfree

/-! ### What a run has recorded -/

theorem timesOf_append (log : List (String × ℤ)) (k : String) (t : ℤ) (h : String) :
    timesOf (log ++ [(k, t)]) h = if k = h then timesOf log h ++ [t] else timesOf log h := by
  by_cases hk : k = h
  · simp [timesOf, hk]
  · simp [timesOf, hk]

/-- A row stands for the times of the accesses of its hash. -/
def Records (row : Option Placement) (times : List ℤ) : Prop :=
  match row with
  | none => times = []
  | some p => p.accessCount = times.length ∧ p.lastAccessedAt = times.getLast? ∧ times ≠ []

theorem Records.access {row : Option Placement} {times : List ℤ} (hrow : Records row times)
    {input : UpsertPlacementAccessInput} (htime : input.accessedAt = none) (now : ℤ) :
    Records (some (upsertedPlacement now input row)) (times ++ [now]) := by
  cases row with
  | none =>
      cases hrow
      simp [Records, upsertedPlacement, firstPlacement, htime]
  | some p =>
      obtain ⟨hcount, -, -⟩ := hrow
      simp [Records, upsertedPlacement, Placement.foldAccess, htime, hcount]

variable {requests : Fin n → AccessRequest} {log : List (String × ℤ)} {st st' : AccessSystem n}

theorem AccessRun.records (hrun : AccessRun requests log st) :
    ∀ h, Records (st.db.placement h) (timesOf log h) := by
  have hempty : ∀ h, Records (PlacementDb.empty.placement h) (timesOf [] h) := fun h => rfl
  refine Protocol.log_induction (P := placementProtocol)
    (fun log db => ∀ h, Records (db.placement h) (timesOf log h)) (accesses_follow requests)
    trivial hempty ?_ hrun
  intro log ⟨k, now⟩ ws db _ hpost ih h
  have hacc : Accessed k now ws db := hpost rfl k now rfl
  rw [timesOf_append]
  by_cases hk : k = h
  · subst hk
    obtain ⟨input, htime, hrow⟩ := hacc.folded
    rw [if_pos rfl, hrow]
    exact (ih k).access htime now
  · rw [if_neg hk, placementView_other fun w hw heq => hk ((hacc.own w hw).symm.trans heq)]
    exact ih h

/-- The counter of each hash is the number of its committed accesses. -/
def CountsAccesses (log : List (String × ℤ)) (db : PlacementDb) : Prop :=
  ∀ h, ((db.placement h).map (·.accessCount)).getD 0 = (timesOf log h).length

/-- The time of each hash is the greatest of its committed accesses. -/
def LastIsGreatest (log : List (String × ℤ)) (db : PlacementDb) : Prop :=
  ∀ h, timesOf log h ≠ [] → ∃ p t, db.placement h = some p ∧ p.lastAccessedAt = some t ∧
    IsGreatest {u | u ∈ timesOf log h} t

/-- The accesses of each hash commit in the order in which they started. -/
def InStartOrder (log : List (String × ℤ)) : Prop :=
  ∀ h, (timesOf log h).Pairwise (· ≤ ·)

theorem AccessRun.counts (hrun : AccessRun requests log st) : CountsAccesses log st.db := by
  intro h
  have hrow := AccessRun.records hrun h
  cases hp : st.db.placement h with
  | none =>
      rw [hp] at hrow
      have hnone : timesOf log h = [] := hrow
      rw [hnone]
      rfl
  | some p =>
      rw [hp] at hrow
      exact hrow.1

/-- The time of a row is that of the last access to commit. -/
theorem AccessRun.last (hrun : AccessRun requests log st) {h : String} {times : List ℤ} {t : ℤ}
    (htimes : timesOf log h = times ++ [t]) :
    ∃ p, st.db.placement h = some p ∧ p.lastAccessedAt = some t := by
  have hrow := AccessRun.records hrun h
  rw [htimes] at hrow
  cases hp : st.db.placement h with
  | none =>
      rw [hp] at hrow
      exact absurd hrow (by simp [Records])
  | some p =>
      rw [hp] at hrow
      refine ⟨p, rfl, hrow.2.1.trans ?_⟩
      simp

theorem AccessRun.greatest (hrun : AccessRun requests log st) (horder : InStartOrder log) :
    LastIsGreatest log st.db := by
  intro h hne
  obtain ⟨times, t, htimes⟩ := (timesOf log h).eq_nil_or_concat.resolve_left hne
  rw [List.concat_eq_append] at htimes
  obtain ⟨p, hp, hlast⟩ := AccessRun.last hrun htimes
  refine ⟨p, t, hp, hlast, ?_, ?_⟩
  · rw [htimes]
    simp
  · intro u hu
    have hsorted := horder h
    rw [htimes] at hsorted hu
    rcases List.mem_append.mp hu with hu | hu
    · exact (List.pairwise_append.mp hsorted).2.2 u hu t (List.mem_singleton_self t)
    · exact le_of_eq (List.mem_singleton.mp hu)

/-- A commit with an earlier start than one before it. -/
theorem exists_later_of_not_inStartOrder {k : String} {t : ℤ} (hbefore : InStartOrder log)
    (hafter : ¬ InStartOrder (log ++ [(k, t)])) : ∃ u ∈ timesOf log k, t < u := by
  by_contra hnone
  apply hafter
  intro h
  rw [timesOf_append]
  split_ifs with hk
  · subst hk
    rw [List.pairwise_append]
    refine ⟨hbefore k, List.pairwise_singleton _ _, fun u hu v hv => ?_⟩
    rw [List.mem_singleton.mp hv]
    by_contra hlt
    exact hnone ⟨u, hu, not_le.mp hlt⟩
  · exact hbefore h

/-- The first commit out of order leaves a time that is not the greatest. -/
theorem AccessRun.misses (hrun : AccessRun requests log st) (horder : ¬ InStartOrder log) :
    ∃ log' st', AccessRun requests log' st' ∧ log' <+: log ∧
      placementStore.Reaches (fun t => (requests t).script) (fun _ _ => True) st' st ∧
      ¬ LastIsGreatest log' st'.db := by
  induction hrun with
  | refl => exact absurd (fun h => List.Pairwise.nil) horder
  | tail l hbefore hl hs ih =>
      rename_i log st st'
      by_cases hprior : InStartOrder log
      · rcases Store.step_committed hs with ⟨hnone, -⟩ | ⟨w, ⟨k, t⟩, ws, -, hone, -⟩
        · rw [hnone, List.append_nil] at horder
          exact absurd hprior horder
        · have hafter := hbefore.tail l hl hs
          rw [hone] at horder hafter ⊢
          refine ⟨_, st', hafter, List.prefix_refl _, .refl, fun hgreatest => ?_⟩
          obtain ⟨u, hu, hlt⟩ := exists_later_of_not_inStartOrder hprior horder
          have htimes : timesOf (log ++ [(k, t)]) k = timesOf log k ++ [t] := by
            rw [timesOf_append, if_pos rfl]
          obtain ⟨p, v, hp, hlast, hv⟩ := hgreatest k (by rw [htimes]; simp)
          obtain ⟨q, hq, hlast'⟩ := AccessRun.last hafter htimes
          rw [hp] at hq
          cases hq
          rw [hlast] at hlast'
          cases hlast'
          have hle : u ≤ t := hv.2 (by rw [htimes]; exact List.mem_append_left _ hu)
          exact absurd hlt (not_lt.mpr hle)
      · obtain ⟨log', mid, hmid, hprefix, hreach, hmiss⟩ := ih hprior
        exact ⟨log', mid, hmid, hprefix.trans (List.prefix_append _ _), hreach.tail ⟨l, hl, hs⟩, hmiss⟩

/-- In every state that a run passes through the counters are exact; and the
times are the greatest in all of them exactly when the accesses of each hash
commit in the order of their starts. -/
theorem recency_of_commit_order (hrun : AccessRun requests log st) :
    CountsAccesses log st.db ∧ (InStartOrder log → LastIsGreatest log st.db) ∧
      (¬ InStartOrder log → ∃ log' st', AccessRun requests log' st' ∧ log' <+: log ∧
        placementStore.Reaches (fun t => (requests t).script) (fun _ _ => True) st' st ∧
        ¬ LastIsGreatest log' st'.db) :=
  ⟨AccessRun.counts hrun, AccessRun.greatest hrun, AccessRun.misses hrun⟩

end

/-- Two accesses of one hash. -/
def sameHash : Fin 2 → AccessRequest := fun _ => ⟨"h", {}⟩

def accessAt (w : Fin 2) (now : ℤ) : List (Label 2 PlacementChoice) :=
  [.begin w, .call w ⟨now, fun _ => 0⟩]

/-- The upsert, the row of the log, the pruning and the commit. -/
def accessRest (w : Fin 2) : List (Label 2 PlacementChoice) :=
  List.replicate 3 (.call w ⟨0, fun _ => 0⟩) ++ [.finish w]

def runsOf (labels : List (Label 2 PlacementChoice)) : Option (AccessSystem 2) :=
  placementStore.steps (fun t => (sameHash t).script) (Store.idle PlacementDb.empty) labels

def logOf (labels : List (Label 2 PlacementChoice)) : List (String × ℤ) :=
  (placementStore.history (fun t => (sameHash t).script) (Store.idle PlacementDb.empty)
    labels).map Prod.fst

theorem runsOf_logged {labels : List (Label 2 PlacementChoice)} {st : AccessSystem 2}
    (hsteps : runsOf labels = some st) : AccessRun sameHash (logOf labels) st := by
  have hrun := Store.LoggedRun.refl.steps_log (fun _ _ => trivial) hsteps
  rw [List.nil_append] at hrun
  exact hrun

/-- The accesses overlap, and the one that starts first commits first. -/
theorem recency_of_overlapping_accesses :
    let labels := accessAt 0 1 ++ accessAt 1 2 ++ accessRest 0 ++ accessRest 1
    ∃ st, runsOf labels = some st ∧ LastIsGreatest [("h", 1), ("h", 2)] st.db := by
  intro labels
  have hsome : (runsOf labels).isSome = true := by decide +kernel
  have hlog : logOf labels = [("h", 1), ("h", 2)] := by decide +kernel
  obtain ⟨st, hst⟩ := Option.isSome_iff_exists.mp hsome
  have hrun := runsOf_logged hst
  rw [hlog] at hrun
  refine ⟨st, hst, (recency_of_commit_order hrun).2.1 fun h => ?_⟩
  by_cases hh : "h" = h
  · simp [timesOf, hh]
  · simp [timesOf, hh]

/-- The access that starts first waits for the row and commits last: its time is
the one that stays. -/
theorem earlier_start_commits_last :
    ∃ st, AccessRun sameHash [("h", 2), ("h", 1)] st ∧ ¬ LastIsGreatest [("h", 2), ("h", 1)] st.db := by
  let labels := accessAt 0 1 ++ accessAt 1 2 ++ accessRest 1 ++ accessRest 0
  have hlast : (runsOf labels).any (fun st =>
      (st.db.placement "h").bind (·.lastAccessedAt) = some 1) = true := by decide +kernel
  have hlog : logOf labels = [("h", 2), ("h", 1)] := by decide +kernel
  obtain ⟨st, hst, htime⟩ := (Option.any_eq_true ..).mp hlast
  have hrun := runsOf_logged hst
  rw [hlog] at hrun
  refine ⟨st, hrun, fun hgreatest => ?_⟩
  obtain ⟨p, t, hp, hlast, ht⟩ := hgreatest "h" (by decide)
  have htwo : (2 : ℤ) ≤ t := ht.2 (by decide)
  simp only [hp, Option.bind_some, hlast, decide_eq_true_eq, Option.some.injEq] at htime
  omega

end WorkflowPlatform
