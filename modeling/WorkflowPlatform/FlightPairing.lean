import WorkflowPlatform.DedupDelivery

/-!
# Whose result a follower gets

`Resolve` names a key, not a flight. The store seen with its leaders: which
flights `Attach` has given a leader, and what each leader has passed to its one
call of `Resolve`. As long as that call finds the leader's own flight under the
key, or one that is resolved already, flights and results stay together.
-/
namespace WorkflowPlatform.Dedup

structure Flights (ρ : Type) where
  store : Store ρ
  leaders : List ℕ := []
  /-- What a leader has passed to `Resolve`. -/
  calls : ℕ → Option (Result ρ) := fun _ => none

inductive LeaderEvent (ρ : Type) where
  | attach (k : Key) (later : ℕ)
  /-- The leader of a flight calls `Resolve` with its key. -/
  | resolve (leader : ℕ) (r : Result ρ)
  | sweep
  | forward (n : ℕ)
  | advance (elapsed : ℕ)

namespace Flights
variable {ρ : Type}

/-- The event of the store. -/
def storeEvent (s : Flights ρ) : LeaderEvent ρ → Event ρ
  | .attach k later => .attach k later
  | .resolve leader r => match s.store.heap.rows leader with
      | some e => .resolve e.key r
      | none => .advance 0
  | .sweep => .sweep
  | .forward n => .forward n
  | .advance elapsed => .advance elapsed

def perform (s : Flights ρ) (ev : LeaderEvent ρ) : Flights ρ where
  store := s.store.step (s.storeEvent ev)
  leaders := match ev with
    | .attach k later =>
        if (s.store.attach k later).2 then s.leaders ++ [s.store.heap.next] else s.leaders
    | _ => s.leaders
  calls := match ev with
    | .resolve leader r => Function.update s.calls leader (some r)
    | _ => s.calls

/-- A leader resolves once. -/
def Entitled (s : Flights ρ) : LeaderEvent ρ → Prop
  | .resolve leader _ => leader ∈ s.leaders ∧ s.calls leader = none
  | _ => True

def Step (allowed : Flights ρ → LeaderEvent ρ → Prop) (s s' : Flights ρ) : Prop :=
  ∃ ev, s.Entitled ev ∧ allowed s ev ∧ s.perform ev = s'

abbrev Run (allowed : Flights ρ → LeaderEvent ρ → Prop) : Flights ρ → Flights ρ → Prop :=
  Relation.ReflTransGen (Step allowed)

/-- A leader finds its own flight under its key, or one that is resolved. -/
def OnTime (s : Flights ρ) : LeaderEvent ρ → Prop
  | .resolve leader _ => ∀ e, s.store.heap.rows leader = some e →
      s.store.entries e.key = some leader ∨
        ∃ i e', s.store.entries e.key = some i ∧ s.store.heap.rows i = some e' ∧
          e'.resolved = true
  | _ => True

/-- Every flight has a leader, and its result is its leader's or the sweeper's. The
sweeper frees the key. -/
structure Paired (s : Flights ρ) : Prop where
  led : ∀ i e, s.store.heap.rows i = some e → i ∈ s.leaders
  flown : ∀ i ∈ s.leaders, (s.store.heap.rows i).isSome = true
  result : ∀ i e, s.store.heap.rows i = some e → e.resolved = true →
    s.calls i = some e.result ∨
      e.result = { err := some ⟨e.key, s.store.maxLease⟩ } ∧ s.store.entries e.key ≠ some i

section
variable {s s' : Flights ρ} {ev : LeaderEvent ρ} {i : ℕ} {e : Entry ρ}

theorem step_maxLease (t : Store ρ) (ev : Event ρ) : (t.step ev).maxLease = t.maxLease := by
  cases ev with
  | attach k later =>
      simp only [Store.step, Store.attach]
      split <;> rfl
  | resolve k r =>
      simp only [Store.step, Store.resolve]
      split
      · split_ifs <;> rfl
      · rfl
  | sweep | forward | advance => rfl

theorem attach_of_free {t : Store ρ} {k : Key} (later : ℕ) (hfree : t.sweepLocked.entries k = none) :
    t.attach k later = (({ t.sweepLocked with now := t.now + later } : Store ρ).insertEntry k
      { key := k, createdAt := t.now + later }, true) := by
  simp only [Store.attach, hfree]
  rfl

theorem attach_of_entry {t : Store ρ} {k : Key} (later : ℕ) (hk : t.sweepLocked.entries k = some i) :
    (t.attach k later).2 = false ∧ (t.attach k later).1.heap = t.sweepLocked.heap ∧
      (t.attach k later).1.entries = t.sweepLocked.entries := by
  simp [Store.attach, hk]

theorem insertEntry_new (t : Store ρ) (k : Key) (new : Entry ρ) (i : ℕ) :
    (t.insertEntry k new).heap.rows i = if i = t.heap.next then some new else t.heap.rows i := by
  by_cases hi : i = t.heap.next
  · simp [Store.insertEntry, hi]
  · simp [Store.insertEntry, hi, Table.insertAt_other _ _ hi]

theorem free_of_leader {t : Store ρ} {k : Key} {later : ℕ} (h : (t.attach k later).2 = true) :
    t.sweepLocked.entries k = none := by
  cases hk : t.sweepLocked.entries k with
  | none => rfl
  | some j =>
      rw [(attach_of_entry later hk).1] at h
      cases h

/-- A leader's entry is new and has no result. -/
theorem leader_inserted {t : Store ρ} {k : Key} {later : ℕ} (h : (t.attach k later).2 = true) :
    (t.attach k later).1.heap.rows t.heap.next =
      some { key := k, createdAt := t.now + later } := by
  rw [attach_of_free later (free_of_leader h), insertEntry_new]
  exact if_pos rfl

/-- The flights a step of the store adds. -/
theorem step_new {t : Store ρ} {ev : Event ρ} (he : (t.step ev).heap.rows i = some e)
    (hnew : t.heap.rows i = none) :
    (∃ k later, ev = .attach k later ∧ (t.attach k later).2 = true ∧ i = t.heap.next) ∨
      ∃ k r, ev = .resolve k r ∧ t.entries k = none := by
  have hswept : t.sweepLocked.heap.rows i = none := by simp [Store.sweepLocked, hnew]
  cases ev with
  | attach k later =>
      left
      refine ⟨k, later, rfl, ?_⟩
      cases hk : t.sweepLocked.entries k with
      | some j =>
          rw [Store.step, (attach_of_entry later hk).2.1, hswept] at he
          cases he
      | none =>
          rw [Store.step, attach_of_free later hk, insertEntry_new] at he
          rw [attach_of_free later hk]
          split_ifs at he with hi
          · exact ⟨rfl, hi⟩
          · rw [hswept] at he
            cases he
  | resolve k r =>
      right
      refine ⟨k, r, rfl, ?_⟩
      simp only [Store.step, Store.resolve] at he
      split at he
      · split_ifs at he
        · rw [hnew] at he
          cases he
        · simp [Table.modify, hnew] at he
      · assumption
  | sweep =>
      change t.sweepLocked.heap.rows i = some e at he
      rw [hswept] at he
      cases he
  | forward | advance =>
      change t.heap.rows i = some e at he
      rw [hnew] at he
      cases he

theorem sweepLocked_kept {t : Store ρ} {k : Key} (ht : t.Consistent)
    (hk : t.sweepLocked.entries k = some i) (he : t.heap.rows i = some e) :
    t.entries k = some i ∧ t.sweepLocked.heap.rows i = some e := by
  obtain ⟨hold, halive⟩ := (Store.sweepLocked_entries ht).mp hk
  refine ⟨hold, ?_⟩
  rw [Store.sweepLocked_row he, if_neg (by simp [(halive e he).2])]

/-- An entry that is in the map after a step was there before, and has not been
given up in between. -/
theorem step_entries {t : Store ρ} {ev : Event ρ} {k : Key} (ht : t.Consistent)
    (hk : (t.step ev).entries k = some i) (he : t.heap.rows i = some e) :
    t.entries k = some i ∧ ((t.step ev).heap.rows i = some e ∨
      ∃ k' r, ev = .resolve k' r ∧ (t.step ev).heap.rows i = some (t.settled r e)) := by
  have hne : i ≠ t.heap.next := Nat.ne_of_lt (Table.lt_next he)
  have hinsert : ∀ (entries : Key → Option ℕ) (k' : Key),
      Function.update entries k' (some t.heap.next) k = some i → entries k = some i := by
    intro entries k' hin
    by_cases hk' : k = k'
    · subst hk'
      rw [Function.update_self, Option.some.injEq] at hin
      exact absurd hin.symm hne
    · rwa [Function.update_of_ne hk'] at hin
  cases ev with
  | attach k' later =>
      cases hfree : t.sweepLocked.entries k' with
      | some j =>
          obtain ⟨-, hheap, hentries⟩ := attach_of_entry later hfree
          rw [Store.step, hentries] at hk
          rw [Store.step, hheap]
          obtain ⟨hold, hrow⟩ := sweepLocked_kept ht hk he
          exact ⟨hold, .inl hrow⟩
      | none =>
          rw [Store.step, attach_of_free later hfree] at hk
          rw [Store.step, attach_of_free later hfree]
          obtain ⟨hold, hrow⟩ := sweepLocked_kept ht (hinsert t.sweepLocked.entries k' hk) he
          exact ⟨hold, .inl (Store.insertEntry_row hrow k' _)⟩
  | resolve k' r =>
      simp only [Store.step, Store.resolve] at hk ⊢
      split at hk
      · split_ifs at hk ⊢
        · exact ⟨hk, .inl he⟩
        · rename_i j hj hopen
          refine ⟨hk, ?_⟩
          by_cases hi : i = j
          · subst hi
            exact .inr ⟨k', r, rfl, by rw [Table.modify_same, he]; rfl⟩
          · exact .inl (by rw [Table.modify_other _ _ hi]; exact he)
      · exact ⟨hinsert t.entries k' hk, .inl (Store.insertEntry_row he k' _)⟩
  | sweep =>
      obtain ⟨hold, hrow⟩ := sweepLocked_kept ht hk he
      exact ⟨hold, .inl hrow⟩
  | forward | advance => exact ⟨hk, .inl he⟩

/-! ### The pairing along a run -/

theorem storeEvent_resolve {k : Key} {r : Result ρ} (h : s.storeEvent ev = .resolve k r) :
    ∃ leader e, ev = .resolve leader r ∧ s.store.heap.rows leader = some e ∧ e.key = k := by
  cases ev with
  | resolve leader r' =>
      simp only [storeEvent] at h
      split at h
      · rename_i e he
        cases h
        exact ⟨leader, e, rfl, he, rfl⟩
      · cases h
  | attach | sweep | forward | advance => cases h

theorem storeEvent_attach {k : Key} {later : ℕ} (h : s.storeEvent ev = .attach k later) :
    ev = .attach k later := by
  cases ev with
  | attach => cases h; rfl
  | resolve leader r =>
      simp only [storeEvent] at h
      split at h <;> cases h
  | sweep | forward | advance => cases h

theorem mem_leaders (h : i ∈ s.leaders) : i ∈ (s.perform ev).leaders := by
  cases ev with
  | attach k later =>
      simp only [perform]
      split_ifs
      · exact List.mem_append_left _ h
      · exact h
  | resolve | sweep | forward | advance => exact h

/-- While results arrive on time, only a new leader inserts an entry. -/
theorem new_attached (htime : s.OnTime ev) (hold : s.store.heap.rows i = none)
    (he : (s.perform ev).store.heap.rows i = some e) :
    ∃ k later, ev = .attach k later ∧ (s.store.attach k later).2 = true ∧ i = s.store.heap.next := by
  rcases step_new he hold with ⟨k, later, hev, hleader, hi⟩ | ⟨k, r, hev, hfree⟩
  · exact ⟨k, later, storeEvent_attach hev, hleader, hi⟩
  · obtain ⟨leader, e₀, rfl, he₀, rfl⟩ := storeEvent_resolve hev
    rcases htime e₀ he₀ with hown | ⟨j, e', hj, -⟩
    · rw [hfree] at hown
      cases hown
    · rw [hfree] at hj
      cases hj

theorem Paired.led_step (h : s.Paired) (htime : s.OnTime ev)
    (he : (s.perform ev).store.heap.rows i = some e) : i ∈ (s.perform ev).leaders := by
  cases hold : s.store.heap.rows i with
  | some e₀ => exact mem_leaders (h.led i e₀ hold)
  | none =>
      obtain ⟨k, later, rfl, hleader, rfl⟩ := new_attached htime hold he
      simp [perform, hleader]

theorem Paired.flown_step (hs : s.store.Consistent) (h : s.Paired)
    (hi : i ∈ (s.perform ev).leaders) : ((s.perform ev).store.heap.rows i).isSome = true := by
  have hkept : i ∈ s.leaders → ((s.perform ev).store.heap.rows i).isSome = true := by
    intro hold
    obtain ⟨e, he⟩ := Option.isSome_iff_exists.mp (h.flown i hold)
    obtain ⟨e', he', -⟩ := Store.step_change hs (s.storeEvent ev) he
    exact Option.isSome_iff_exists.mpr ⟨e', he'⟩
  cases ev with
  | attach k later =>
      simp only [perform] at hi
      split_ifs at hi with hleader
      · rcases List.mem_append.mp hi with hold | hnew
        · exact hkept hold
        · obtain rfl := List.mem_singleton.mp hnew
          exact Option.isSome_iff_exists.mpr ⟨_, leader_inserted hleader⟩
      · exact hkept hi
  | resolve | sweep | forward | advance => exact hkept hi

/-- An entry has no result when it is inserted. -/
theorem new_unresolved (htime : s.OnTime ev) (hold : s.store.heap.rows i = none)
    (he : (s.perform ev).store.heap.rows i = some e) : e.resolved = false := by
  obtain ⟨k, later, rfl, hleader, rfl⟩ := new_attached htime hold he
  have hrow : (s.perform (.attach k later)).store.heap.rows s.store.heap.next = some _ :=
    leader_inserted hleader
  rw [hrow] at he
  cases he
  rfl

theorem Paired.result_step (hs : s.store.Consistent) (h : s.Paired) (hent : s.Entitled ev)
    (htime : s.OnTime ev) (he' : (s.perform ev).store.heap.rows i = some e)
    (hres : e.resolved = true) :
    (s.perform ev).calls i = some e.result ∨
      e.result = { err := some ⟨e.key, (s.perform ev).store.maxLease⟩ } ∧
        (s.perform ev).store.entries e.key ≠ some i := by
  have hlease : (s.perform ev).store.maxLease = s.store.maxLease := step_maxLease _ _
  rw [hlease]
  cases hold : s.store.heap.rows i with
  | none =>
      rw [new_unresolved htime hold he'] at hres
      cases hres
  | some e₀ =>
      obtain ⟨e₁, he₁, hchange⟩ := Store.step_change hs (s.storeEvent ev) hold
      have hsame : e = e₁ := Option.some.inj (he'.symm.trans he₁)
      subst hsame
      generalize hse : s.storeEvent ev = se at hchange
      cases hchange with
      | same =>
          have hgone : s.store.entries e.key ≠ some i →
              (s.perform ev).store.entries e.key ≠ some i :=
            fun hout hin => hout (step_entries hs hin hold).1
          rcases h.result i e hold hres with hcall | ⟨hdead, hout⟩
          · left
            cases ev with
            | resolve leader r =>
                have hne : i ≠ leader := by
                  rintro rfl
                  rw [hent.2] at hcall
                  cases hcall
                exact (Function.update_of_ne hne ..).trans hcall
            | attach | sweep | forward | advance => exact hcall
          · exact .inr ⟨hdead, hgone hout⟩
      | dead hev _ hdead =>
          right
          refine ⟨rfl, fun hin => ?_⟩
          have hopen := Store.dead_unresolved hdead
          rcases (step_entries hs hin hold).2 with hrow | ⟨k, r, hresolve, -⟩
          · have heq : s.store.forceResolved e₀ = e₀ := Option.some.inj (he'.symm.trans hrow)
            rw [← heq] at hopen
            cases hopen
          · exact hev k r (hse.symm.trans hresolve)
      | settled r hk hopen =>
          left
          obtain ⟨leader, e', rfl, hleader, hkey⟩ := storeEvent_resolve hse
          have hi : leader = i := by
            rcases htime e' hleader with hown | ⟨j, e'', hj, he'', hres''⟩
            · rw [hkey, hk] at hown
              exact (Option.some.inj hown).symm
            · rw [hkey, hk] at hj
              cases hj
              rw [hold] at he''
              cases he''
              rw [hopen] at hres''
              cases hres''
          rw [hi]
          exact Function.update_self ..

theorem Paired.step (hs : s.store.Consistent) (h : s.Paired) (hent : s.Entitled ev)
    (htime : s.OnTime ev) : (s.perform ev).Paired where
  led := fun _ _ he => h.led_step htime he
  flown := fun _ hi => h.flown_step hs hi
  result := fun _ _ he hres => h.result_step hs hent htime he hres

theorem Run.store {allowed : Flights ρ → LeaderEvent ρ → Prop} (h : Run allowed s s') :
    Store.Run s.store s'.store := by
  induction h with
  | refl => exact .refl
  | tail _ hlast ih =>
      obtain ⟨ev, -, -, rfl⟩ := hlast
      exact ih.tail ⟨_, rfl⟩

theorem Run.paired (h : Run OnTime s s') (hs : s.store.Consistent) (hp : s.Paired) :
    s'.Paired := by
  induction h with
  | refl => exact hp
  | tail hrun hlast ih =>
      obtain ⟨ev, hent, htime, rfl⟩ := hlast
      exact ih.step (Store.Run.consistent (Run.store hrun) hs) hent htime

/-- A store nobody has used. -/
def start (ttl maxLease : ℤ) (now : ℕ) : Flights ρ := { store := Store.empty ttl maxLease now }

theorem start_paired (ttl maxLease : ℤ) (now : ℕ) :
    (start ttl maxLease now : Flights ρ).Paired where
  led := fun _ _ h => by cases h
  flown := fun _ h => by cases h
  result := fun _ _ h => by cases h

/-- As long as every leader resolves in time, a follower only ever gets the result
of the leader of its own flight, or the error of that flight, and what a leader
passes to `Resolve` while its flight is in the map is the result of the flight. -/
theorem followers_get_own_leader {ttl maxLease : ℤ} {now : ℕ}
    (h : Run OnTime (start ttl maxLease now) s) :
    (∀ f ∈ s.store.followers, ∀ r ∈ f.sent, ∃ e, s.store.heap.rows f.flight = some e ∧
      (s.calls f.flight = some r ∨ r = { err := some ⟨e.key, s.store.maxLease⟩ })) ∧
    ∀ leader e r, s.calls leader = none → s.store.heap.rows leader = some e →
      s.store.entries e.key = some leader → ∃ e',
        (s.perform (.resolve leader r)).store.heap.rows leader = some e' ∧
          e'.resolved = true ∧ e'.result = r := by
  have hempty := Store.empty_consistent ttl maxLease now (ρ := ρ)
  have hstore : Store.Run (Store.empty ttl maxLease now) s.store := Run.store h
  have hs : s.store.Consistent := Store.Run.consistent hstore hempty
  have hserved : s.store.Served := Store.Run.served hstore hempty nofun
  have hpaired : s.Paired := Run.paired h hempty (start_paired ttl maxLease now)
  constructor
  · intro f hf r hr
    obtain ⟨e, he, ⟨hsent, -⟩ | ⟨hres, hsent, -⟩⟩ := hserved.one_result hf
    · rw [hsent] at hr
      cases hr
    · rw [hsent, List.mem_singleton] at hr
      subst hr
      refine ⟨e, he, ?_⟩
      rcases hpaired.result _ e he hres with hcall | ⟨hdead, -⟩
      · exact .inl hcall
      · exact .inr hdead
  · intro leader e r hcall he hk
    have hopen : e.resolved = false := by
      by_contra hres
      rcases hpaired.result leader e he (by simpa using hres) with hcalled | ⟨-, hout⟩
      · rw [hcall] at hcalled
        cases hcalled
      · exact hout hk
    refine ⟨s.store.settled r e, ?_, rfl, rfl⟩
    simp [perform, storeEvent, he, Store.step, Store.resolve, hk, hopen, Table.modify_same]

end

/-! ### The responses of a key -/

/-- The map and the heap only have responses that are allowed for their key. -/
def Answers (allowed : Key → ρ → Prop) (t : Store ρ) : Prop :=
  ∀ i e response, t.heap.rows i = some e → e.result.response = some response →
    allowed e.key response

/-- Only responses that are allowed for their key are passed to `Resolve`. -/
def Reports (allowed : Key → ρ → Prop) : Event ρ → Prop
  | .resolve k r => ∀ response, r.response = some response → allowed k response
  | _ => True

abbrev ReportRun (allowed : Key → ρ → Prop) : Store ρ → Store ρ → Prop :=
  Relation.ReflTransGen fun t t' => ∃ ev, Reports allowed ev ∧ t.step ev = t'

section
variable {allowed : Key → ρ → Prop} {t t' : Store ρ}

theorem Answers.step (h : Answers allowed t) (ht : t.Consistent) {ev : Event ρ}
    (hev : Reports allowed ev) : Answers allowed (t.step ev) := by
  intro i e response he hresponse
  cases hold : t.heap.rows i with
  | some e₀ =>
      obtain ⟨e', he', hchange⟩ := Store.step_change ht ev hold
      rw [he] at he'
      cases he'
      cases hchange with
      | same => exact h i e response hold hresponse
      | dead => cases hresponse
      | settled r => exact hev response hresponse
  | none =>
      rcases step_new he hold with ⟨k, later, rfl, hleader, rfl⟩ | ⟨k, r, rfl, hfree⟩
      · have hnew := leader_inserted hleader
        rw [show t.step (.attach k later) = (t.attach k later).1 from rfl, hnew] at he
        cases he
        cases hresponse
      · simp only [Store.step, Store.resolve, hfree, insertEntry_new] at he
        split_ifs at he with hi
        · cases he
          exact hev response hresponse
        · rw [hold] at he
          cases he

theorem ReportRun.store (h : ReportRun allowed t t') : Store.Run t t' := by
  induction h with
  | refl => exact .refl
  | tail _ hlast ih =>
      obtain ⟨ev, -, rfl⟩ := hlast
      exact ih.tail ⟨ev, rfl⟩

theorem ReportRun.answers (h : ReportRun allowed t t') (ht : t.Consistent)
    (hanswers : Answers allowed t) : Answers allowed t' := by
  induction h with
  | refl => exact hanswers
  | tail hrun hlast ih =>
      obtain ⟨ev, hev, rfl⟩ := hlast
      exact ih.step (Store.Run.consistent (ReportRun.store hrun) ht) hev

/-- What a follower is sent has been reported for its key. -/
theorem follower_allowed {ttl maxLease : ℤ} {now : ℕ}
    (h : ReportRun allowed (Store.empty ttl maxLease now) t) {f : Follower ρ}
    (hf : f ∈ t.followers) {e : Entry ρ} (he : t.heap.rows f.flight = some e) {r : Result ρ}
    (hr : r ∈ f.sent) {response : ρ} (hresponse : r.response = some response) :
    allowed e.key response := by
  have hempty := Store.empty_consistent (ρ := ρ) ttl maxLease now
  have hserved : t.Served := Store.Run.served (ReportRun.store h) hempty nofun
  obtain ⟨e', he', ⟨hnone, -⟩ | ⟨-, hsent, -⟩⟩ := hserved.one_result hf
  · rw [hnone] at hr
    cases hr
  · rw [he] at he'
    cases he'
    rw [hsent, List.mem_singleton] at hr
    exact ReportRun.answers h hempty nofun f.flight e response he (hr ▸ hresponse)

end

def play (s : Flights ρ) (events : List (LeaderEvent ρ)) : Flights ρ := events.foldl perform s

def Admits (allowed : Flights ρ → LeaderEvent ρ → Prop) (s : Flights ρ) :
    List (LeaderEvent ρ) → Prop
  | [] => True
  | ev :: rest => s.Entitled ev ∧ allowed s ev ∧ Admits allowed (s.perform ev) rest

theorem Admits.run {allowed : Flights ρ → LeaderEvent ρ → Prop} {s : Flights ρ}
    {events : List (LeaderEvent ρ)} (h : s.Admits allowed events) : Run allowed s (s.play events) := by
  induction events generalizing s with
  | nil => exact .refl
  | cons ev rest ih => exact .head ⟨ev, h.1, h.2.1, rfl⟩ (ih h.2.2)

def someKey : Key := ⟨"1", "step"⟩

theorem followers_get_own_leader_prompt :
    let s := (start 30 300 0).play
      [.attach someKey 0, .attach someKey 0, .resolve 1 { response := some "first" },
        .forward 0, .forward 0, .forward 0]
    (∃ f ∈ s.store.followers, { response := some "first" } ∈ f.sent) ∧
      ∀ f ∈ s.store.followers, ∀ r ∈ f.sent,
        s.calls 1 = some r ∨ r = { err := some ⟨someKey, 300⟩ } := by
  intro s
  have hrun : Run OnTime (start 30 300 0) s := Admits.run ⟨trivial, trivial, trivial, trivial,
    ⟨by decide, rfl⟩, fun e he => .inl (by cases he; rfl), trivial, trivial, trivial, trivial,
    trivial, trivial, trivial⟩
  let delivered : Follower String :=
    { flight := 1, forward := .delivered, sent := [{ response := some "first" }] }
  refine ⟨⟨delivered, List.mem_singleton_self _, List.mem_singleton_self _⟩, fun f hf r hr => ?_⟩
  obtain ⟨e, he, hresult⟩ := (followers_get_own_leader hrun).1 f hf r hr
  obtain rfl := List.mem_singleton.mp hf
  cases he
  exact hresult

/-- The sweeper gives up the first leader; its result comes when a second leader has
the key, and goes to the follower of the second. -/
theorem late_result_crosses_flights : ∃ s : Flights String, ∃ f ∈ s.store.followers, ∃ r ∈ f.sent,
    Run (fun _ _ => True) (start 30 300 0) s ∧ f.flight = 2 ∧ s.calls 2 = none ∧
      s.calls 1 = some r ∧ r.err = none := by
  let events : List (LeaderEvent String) :=
    [.attach someKey 0, .advance 301, .attach someKey 0, .attach someKey 0,
      .resolve 1 { response := some "first" }, .forward 0, .forward 0, .forward 0]
  have hrun : Run (fun _ _ => True) (start 30 300 0) ((start 30 300 0).play events) := Admits.run
    ⟨trivial, trivial, trivial, trivial, trivial, trivial, trivial, trivial, ⟨by decide, rfl⟩,
      trivial, trivial, trivial, trivial, trivial, trivial, trivial, trivial⟩
  let r : Result String := { response := some "first" }
  let f : Follower String := { flight := 2, forward := .delivered, sent := [r] }
  exact ⟨(start 30 300 0).play events, f, List.mem_singleton_self _, r, List.mem_singleton_self _,
    hrun, rfl, rfl, rfl, rfl⟩

end Flights
end WorkflowPlatform.Dedup
