import WorkflowPlatform.DedupStore

/-!
# Every follower gets one result

A goroutine stands still only before a flight that is open, and an open flight is
in the map, where its leader and the sweeper find it. Once the flight is resolved
four steps of the goroutine deliver its result and close the channel, whatever
else happens in between.
-/
namespace WorkflowPlatform.Dedup

/-- The steps a goroutine still has to do. -/
def Follower.left {ρ : Type} (f : Follower ρ) : ℕ :=
  match f.forward with
  | .waiting => 4
  | .woken => 3
  | .holding _ => 2
  | .delivered => 1
  | .finished => 0

/-- The channel of a follower and its goroutine agree with the entry. -/
def Follower.Fits {ρ : Type} (e : Entry ρ) (f : Follower ρ) : Prop :=
  match f.forward with
  | .waiting => f.sent = [] ∧ f.closings = 0
  | .woken => e.resolved = true ∧ f.sent = [] ∧ f.closings = 0
  | .holding res => e.resolved = true ∧ res = e.result ∧ f.sent = [] ∧ f.closings = 0
  | .delivered => e.resolved = true ∧ f.sent = [e.result] ∧ f.closings = 0
  | .finished => e.resolved = true ∧ f.sent = [e.result] ∧ f.closings = 1

section
variable {ρ : Type} {s : Store ρ} {i : ℕ} {e e' : Entry ρ} {f : Follower ρ} {ev : Event ρ}

theorem Follower.Fits.change (h : f.Fits e) (hchange : s.Change i e ev e') : f.Fits e' := by
  have hsame : e.resolved = true → e' = e := hchange.final
  unfold Follower.Fits at h ⊢
  split at h
  · exact h
  all_goals
    rw [hsame h.1]
    exact h

theorem Follower.Fits.next (h : f.Fits e) (hclosings : e.closings = if e.resolved then 1 else 0) :
    (f.next e).Fits e ∧ (f.next e).flight = f.flight ∧
      (e.resolved = true → (f.next e).left = f.left - 1) := by
  obtain ⟨flight, forward, sent, closings⟩ := f
  cases forward with
  | waiting =>
      obtain ⟨hsent, hopen⟩ := h
      cases hres : e.resolved with
      | false =>
          rw [hres, if_neg Bool.false_ne_true] at hclosings
          simp [Follower.next, hclosings, Follower.Fits, hsent, hopen]
      | true =>
          rw [hres, if_pos rfl] at hclosings
          simp [Follower.next, hclosings, Follower.Fits, Follower.left, hsent, hopen, hres]
  | woken => exact ⟨⟨h.1, rfl, h.2⟩, rfl, fun _ => rfl⟩
  | holding res =>
      obtain ⟨hres, hresult, hsent, hopen⟩ := h
      refine ⟨⟨hres, ?_, hopen⟩, rfl, fun _ => rfl⟩
      change sent ++ [res] = [e.result]
      rw [hresult, show sent = [] from hsent]
      rfl
  | delivered =>
      obtain ⟨hres, hsent, hopen⟩ := h
      refine ⟨⟨hres, hsent, ?_⟩, rfl, fun _ => rfl⟩
      change closings + 1 = 1
      rw [show closings = 0 from hopen]
  | finished => exact ⟨h, rfl, fun _ => rfl⟩

end

namespace Store
variable {ρ : Type}

/-- Every follower waits on an entry it fits. -/
def Served (s : Store ρ) : Prop :=
  ∀ f ∈ s.followers, ∃ e, s.heap.rows f.flight = some e ∧ f.Fits e

/-- A schedule. -/
def play (s : Store ρ) (events : List (Event ρ)) : Store ρ := events.foldl step s

def isForward (n : ℕ) : Event ρ → Bool
  | .forward m => m = n
  | _ => false

section
variable {s : Store ρ} {k : Key} {i n : ℕ} {e : Entry ρ} {f : Follower ρ}

/-- The channel that `Attach` hands to a follower. -/
theorem attach_follower (hs : s.Consistent) (k : Key) (later : ℕ) :
    (s.attach k later).2 = true ∧ (s.attach k later).1.followers = s.followers ∨
      (s.attach k later).2 = false ∧ ∃ i e f, s.sweepLocked.entries k = some i ∧
        (s.attach k later).1.heap.rows i = some e ∧ f.flight = i ∧ f.Fits e ∧
          (s.attach k later).1.followers = s.followers ++ [f] := by
  cases hk : s.sweepLocked.entries k with
  | none =>
      left
      simp only [attach, hk]
      exact ⟨trivial, rfl⟩
  | some i =>
      right
      obtain ⟨e, he, -⟩ := (sweepLocked_consistent hs).mapped k i hk
      simp only [attach, hk, he]
      refine ⟨trivial, i, e, _, rfl, he, ?_, ?_, rfl⟩
      · split_ifs <;> rfl
      · split_ifs with hres
        · exact ⟨hres, rfl, rfl⟩
        · exact ⟨rfl, rfl⟩

theorem step_served (hs : s.Consistent) (h : s.Served) (ev : Event ρ) : (s.step ev).Served := by
  have hkept : ∀ f ∈ s.followers, ∃ e', (s.step ev).heap.rows f.flight = some e' ∧ f.Fits e' := by
    intro f hf
    obtain ⟨e, he, hfits⟩ := h f hf
    obtain ⟨e', he', hchange⟩ := step_change hs ev he
    exact ⟨e', he', hfits.change hchange⟩
  cases ev with
  | attach k later =>
      intro f hf
      rcases attach_follower hs k later with ⟨-, hsame⟩ | ⟨-, i, e, new, -, he, hi, hfits, hnew⟩
      · exact hkept f (hsame ▸ hf)
      · change f ∈ (s.attach k later).1.followers at hf
        rw [hnew] at hf
        rcases List.mem_append.mp hf with hold | hlast
        · exact hkept f hold
        · obtain rfl := List.mem_singleton.mp hlast
          exact ⟨e, hi ▸ he, hfits⟩
  | resolve k r =>
      have hsame : (s.resolve k r).followers = s.followers := by
        simp only [resolve]
        split
        · split_ifs <;> rfl
        · rfl
      intro f hf
      exact hkept f (hsame ▸ hf)
  | sweep => exact hkept
  | advance elapsed => exact hkept
  | forward n =>
      intro f hf
      obtain ⟨m, hm, hget⟩ := List.mem_iff_getElem.mp hf
      simp only [step, forward, List.getElem_modify] at hget
      have hold := h _ (List.getElem_mem (by simpa [step, forward] using hm))
      obtain ⟨e, he, hfits⟩ := hold
      split_ifs at hget
      · rw [he] at hget
        obtain ⟨hnext, hflight, -⟩ := hfits.next (hs.closings _ e he)
        rw [← hget]
        exact ⟨e, hflight ▸ he, hnext⟩
      · rw [← hget]
        exact ⟨e, he, hfits⟩

theorem Run.served {s' : Store ρ} (h : Run s s') (hs : s.Consistent) (hserved : s.Served) :
    s'.Served := by
  induction h with
  | refl => exact hserved
  | tail hrun hlast ih =>
      obtain ⟨ev, rfl⟩ := hlast
      exact step_served (Run.consistent hrun hs) ih ev

/-! ### Progress -/

theorem step_follower {ev : Event ρ} (hf : s.followers[n]? = some f)
    (hev : isForward n ev = false) : (s.step ev).followers[n]? = some f := by
  cases ev with
  | attach k later =>
      simp only [step, attach]
      split
      · change (s.followers ++ [_])[n]? = some f
        rw [List.getElem?_append_left (List.getElem?_eq_some_iff.mp hf).choose]
        exact hf
      · exact hf
  | resolve k r =>
      simp only [step, resolve]
      split
      · split_ifs <;> exact hf
      · exact hf
  | sweep => exact hf
  | advance elapsed => exact hf
  | forward m =>
      have hne : m ≠ n := by simpa [isForward] using hev
      simp only [step, forward, List.getElem?_modify, hf]
      simp [hne]

theorem step_forward (hf : s.followers[n]? = some f) (he : s.heap.rows f.flight = some e) :
    (s.step (.forward n)).followers[n]? = some (f.next e) := by
  simp [step, forward, hf, he]

/-- Four steps of its goroutine, whatever happens in between, give the follower of a
resolved flight its result and close its channel. -/
theorem play_finishes {events : List (Event ρ)} (hs : s.Consistent) (hserved : s.Served)
    (hf : s.followers[n]? = some f) (he : s.heap.rows f.flight = some e) (hres : e.resolved = true)
    (hleft : f.left ≤ events.countP (isForward n)) :
    (s.play events).followers[n]? =
      some { flight := f.flight, forward := .finished, sent := [e.result], closings := 1 } := by
  induction events generalizing s f with
  | nil =>
      obtain ⟨e₁, he₁, hfits⟩ := hserved f (List.mem_of_getElem? hf)
      rw [he] at he₁
      cases he₁
      obtain ⟨flight, forward, sent, closings⟩ := f
      cases forward with
      | finished =>
          obtain ⟨-, hsent, hclosed⟩ := hfits
          dsimp only at hsent hclosed
          rw [hsent, hclosed] at hf
          exact hf
      | waiting | woken | holding | delivered => simp [Follower.left] at hleft
  | cons ev rest ih =>
      obtain ⟨e', he', hchange⟩ := step_change hs ev he
      obtain rfl := hchange.final hres
      have hs' := step_consistent hs ev
      have hserved' := step_served hs hserved ev
      cases hev : isForward n ev with
      | false =>
          rw [List.countP_cons_of_neg (by simp [hev])] at hleft
          exact ih hs' hserved' (step_follower hf hev) he' hleft
      | true =>
          obtain rfl : ev = .forward n := by
            cases ev with
            | forward m => simpa [isForward] using hev
            | attach | resolve | sweep | advance => cases hev
          obtain ⟨e₁, he₁, hfits⟩ := hserved f (List.mem_of_getElem? hf)
          rw [he] at he₁
          cases he₁
          obtain ⟨-, hflight, hsteps⟩ := hfits.next (hs.closings _ e' he)
          rw [List.countP_cons_of_pos (by simp [isForward])] at hleft
          have hnext := hsteps hres
          have hdone := ih hs' hserved' (step_forward hf he) (hflight ▸ he') (by omega)
          rw [hflight] at hdone
          exact hdone

/-! ### Delivery -/

/-- What holds of the store whatever has happened to it. -/
structure Delivery (s : Store ρ) : Prop where
  in_map : ∀ k i, s.entries k = some i → ∃ e, s.heap.rows i = some e ∧
    (e.resolved = false ∧ e.closings = 0 ∨ e.resolved = true ∧ e.closings = 1)
  closed_once : ∀ i e, s.heap.rows i = some e → e.closings ≤ 1
  leaves_resolved : ∀ i e, s.heap.rows i = some e → s.entries e.key ≠ some i → e.resolved = true
  resolve_frees : ∀ k i r e, s.entries k = some i → (s.resolve k r).heap.rows i = some e →
    e.resolved = true
  sweep_frees : ∀ i e, s.heap.rows i = some e → 0 < s.maxLease →
    s.maxLease < (s.now : ℤ) - e.createdAt → ∀ e', s.sweepLocked.heap.rows i = some e' →
      e'.resolved = true
  one_result : ∀ f ∈ s.followers, ∃ e, s.heap.rows f.flight = some e ∧
    (f.sent = [] ∧ f.closings = 0 ∨
      e.resolved = true ∧ f.sent = [e.result] ∧ f.closings ≤ 1)
  delivered : ∀ n f e, s.followers[n]? = some f → s.heap.rows f.flight = some e →
    e.resolved = true → ∀ events, 4 ≤ events.countP (isForward n) →
      (s.play events).followers[n]? =
        some { flight := f.flight, forward := .finished, sent := [e.result], closings := 1 }
  final : ∀ s' i e, Run s s' → s.heap.rows i = some e → e.resolved = true →
    s'.heap.rows i = some e
  cached : ∀ i e later, s.heap.rows i = some e → e.resolved = true → (s.now : ℤ) ≤ e.expiresAt →
    (s.attach e.key later).2 = false ∧
      ∃ f, (s.attach e.key later).1.followers = s.followers ++ [f] ∧ f.flight = i

theorem Run.final {s' : Store ρ} (h : Run s s') (hs : s.Consistent)
    (he : s.heap.rows i = some e) (hres : e.resolved = true) : s'.heap.rows i = some e := by
  induction h with
  | refl => exact he
  | tail hrun hlast ih =>
      obtain ⟨ev, rfl⟩ := hlast
      obtain ⟨e', he', hchange⟩ := step_change (Run.consistent hrun hs) ev ih
      rw [hchange.final hres] at he'
      exact he'

theorem Consistent.resolve_frees {r : Result ρ} (hs : s.Consistent) (hk : s.entries k = some i)
    (he : (s.resolve k r).heap.rows i = some e) : e.resolved = true := by
  obtain ⟨e₁, he₁, -⟩ := hs.mapped k i hk
  simp only [resolve, hk] at he
  split_ifs at he with hres
  · simpa [he] using hres
  · rw [Table.modify_same, he₁] at he
    cases he
    rfl

theorem Consistent.sweep_frees (hs : s.Consistent) (he : s.heap.rows i = some e)
    (hlease : 0 < s.maxLease) (hold : s.maxLease < (s.now : ℤ) - e.createdAt) {e' : Entry ρ}
    (he' : s.sweepLocked.heap.rows i = some e') : e'.resolved = true := by
  rw [sweepLocked_row he, Option.some.injEq] at he'
  cases hres : e.resolved with
  | true =>
      split_ifs at he' with hdead
      · rw [dead_unresolved hdead.2] at hres
        cases hres
      · rw [← he', hres]
  | false =>
      have hdead : s.dead e = true := by simp [dead, hres, hlease, hold]
      rw [if_pos ⟨(hs.unresolved i e he hres).1, hdead⟩] at he'
      rw [← he']
      rfl

theorem Served.one_result (h : s.Served) (hf : f ∈ s.followers) :
    ∃ e, s.heap.rows f.flight = some e ∧ (f.sent = [] ∧ f.closings = 0 ∨
      e.resolved = true ∧ f.sent = [e.result] ∧ f.closings ≤ 1) := by
  obtain ⟨e, he, hfits⟩ := h f hf
  refine ⟨e, he, ?_⟩
  unfold Follower.Fits at hfits
  split at hfits
  · exact .inl hfits
  · exact .inl hfits.2
  · exact .inl hfits.2.2
  · exact .inr ⟨hfits.1, hfits.2.1, by omega⟩
  · exact .inr ⟨hfits.1, hfits.2.1, by omega⟩

theorem Consistent.cached_attach (hs : s.Consistent) (he : s.heap.rows i = some e)
    (hres : e.resolved = true) (hnow : (s.now : ℤ) ≤ e.expiresAt) (later : ℕ) :
    (s.attach e.key later).2 = false ∧
      ∃ f, (s.attach e.key later).1.followers = s.followers ++ [f] ∧ f.flight = i := by
  have hk : s.sweepLocked.entries e.key = some i := by
    refine (sweepLocked_entries hs).mpr ⟨hs.cached i e he hres hnow, fun e₁ he₁ => ?_⟩
    rw [he] at he₁
    cases he₁
    exact ⟨by simp [stale, Int.not_lt.mpr hnow], by simp [dead, hres]⟩
  rcases attach_follower hs e.key later with ⟨hleader, -⟩ | ⟨hfollows, j, e', f, hj, -, hflight, -, hnew⟩
  · simp [attach, hk] at hleader
  · rw [hk] at hj
    cases hj
    exact ⟨hfollows, f, hnew, hflight⟩

/-- From an empty store, for any interleaving of its steps. -/
theorem delivery {ttl maxLease : ℤ} {now : ℕ} (h : Run (empty ttl maxLease now) s) :
    s.Delivery := by
  have hs : s.Consistent := Run.consistent h (empty_consistent ttl maxLease now)
  have hserved : s.Served := Run.served h (empty_consistent ttl maxLease now) nofun
  have hclosings : ∀ i e, s.heap.rows i = some e →
      e.resolved = false ∧ e.closings = 0 ∨ e.resolved = true ∧ e.closings = 1 := by
    intro i e he
    have hclosed := hs.closings i e he
    cases hres : e.resolved with
    | false => exact .inl ⟨rfl, by simpa [hres] using hclosed⟩
    | true => exact .inr ⟨rfl, by simpa [hres] using hclosed⟩
  constructor
  · intro k i hk
    obtain ⟨e, he, -⟩ := hs.mapped k i hk
    exact ⟨e, he, hclosings i e he⟩
  · intro i e he
    rcases hclosings i e he with ⟨-, h₀⟩ | ⟨-, h₁⟩ <;> omega
  · intro i e he hleft
    by_contra hopen
    exact hleft (hs.unresolved i e he (by simpa using hopen)).1
  · exact fun k i r e hk he => hs.resolve_frees hk he
  · exact fun i e he hlease hold e' he' => hs.sweep_frees he hlease hold he'
  · exact fun f hf => hserved.one_result hf
  · intro n f e hf he hres events hcount
    refine play_finishes hs hserved hf he hres (Nat.le_trans ?_ hcount)
    unfold Follower.left
    split <;> decide
  · exact fun s' i e hrun he hres => Run.final hrun hs he hres
  · exact fun i e later he hres hnow => hs.cached_attach he hres hnow later

end

/-- A leader, a follower of its flight, and the leader's result. -/
def answeredEvents : List (Event String) :=
  [.attach ⟨"1", "step"⟩ 0, .attach ⟨"1", "step"⟩ 0, .advance 5,
    .resolve ⟨"1", "step"⟩ { response := some "done" }]

theorem run_play (s : Store ρ) (events : List (Event ρ)) : Run s (s.play events) := by
  induction events generalizing s with
  | nil => exact .refl
  | cons ev rest ih => exact .head ⟨ev, rfl⟩ (ih (s.step ev))

theorem delivery_answered :
    let s := (empty 30 300 0).play answeredEvents
    (s.play [.forward 0, .sweep, .forward 0, .forward 0, .advance 100, .forward 0]).followers[0]? =
      some { flight := 1, forward := .finished, sent := [{ response := some "done" }],
             closings := 1 } := by
  intro s
  have hs : s.Delivery := delivery (run_play (empty 30 300 0) answeredEvents)
  exact hs.delivered 0 _ _ rfl rfl rfl _ (by decide)

end Store
end WorkflowPlatform.Dedup
