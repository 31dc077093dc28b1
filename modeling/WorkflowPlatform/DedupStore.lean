import Mathlib.Data.Int.Notation
import Mathlib.Logic.Relation
import WorkflowPlatform.Table

/-!
# The dedup store of the agent

A map from keys to entries, each the flight of one leader, and a goroutine for
every follower that waits on a flight. An entry is an object of the heap: a
goroutine keeps its pointer after the entry has left the map. Everything that
holds the lock is one step; a goroutine takes the lock only to read the result,
so its steps are single. A channel is modelled by what has been sent on it and by
how often it has been closed, since a second time panics. Times are nanoseconds
after the zero time.
-/
namespace WorkflowPlatform.Dedup

structure Key where
  executionId : String
  stepId : String
deriving DecidableEq

/-- The error of a leader that did not resolve within its lease. -/
structure DeadLeader where
  key : Key
  maxLease : ℤ
deriving DecidableEq

structure Result (ρ : Type) where
  response : Option ρ := none
  err : Option DeadLeader := none
deriving DecidableEq

/-- An entry, with the key it is stored under. -/
structure Entry (ρ : Type) where
  key : Key
  result : Result ρ := {}
  resolved : Bool := false
  createdAt : ℕ
  expiresAt : ℤ := 0
  /-- How often `done` has been closed. -/
  closings : ℕ := 0

/-- Where the goroutine of a follower stands. -/
inductive Forward (ρ : Type) where
  /-- At `<-e.done`. -/
  | waiting
  | woken
  | holding (res : Result ρ)
  | delivered
  | finished

/-- A follower's channel, and the goroutine that serves it. -/
structure Follower (ρ : Type) where
  flight : ℕ
  forward : Forward ρ := .waiting
  sent : List (Result ρ) := []
  closings : ℕ := 0

/-- The next step of a goroutine, with the entry it waits on. -/
def Follower.next {ρ : Type} (e : Entry ρ) (f : Follower ρ) : Follower ρ :=
  match f.forward with
  | .waiting => if 0 < e.closings then { f with forward := .woken } else f
  | .woken => { f with forward := .holding e.result }
  | .holding res => { f with forward := .delivered, sent := f.sent ++ [res] }
  | .delivered => { f with forward := .finished, closings := f.closings + 1 }
  | .finished => f

structure Store (ρ : Type) where
  entries : Key → Option ℕ
  heap : Table (Entry ρ)
  ttl : ℤ
  maxLease : ℤ
  now : ℕ
  followers : List (Follower ρ) := []

namespace Store
variable {ρ : Type}

def empty (ttl maxLease : ℤ) (now : ℕ) : Store ρ :=
  { entries := fun _ => none, heap := .empty, ttl, maxLease, now }

variable (s : Store ρ)

/-- `now.After(e.expiresAt)` of a resolved entry. -/
def stale (e : Entry ρ) : Bool := e.resolved && e.expiresAt < s.now

/-- `now.Sub(e.createdAt) > s.maxLease` of an unresolved entry. -/
def dead (e : Entry ρ) : Bool :=
  !e.resolved && 0 < s.maxLease && s.maxLease < (s.now : ℤ) - e.createdAt

/-- What the sweeper makes of the entry of a dead leader. -/
def forceResolved (e : Entry ρ) : Entry ρ :=
  { e with
    result := { err := some ⟨e.key, s.maxLease⟩ }
    resolved := true
    closings := e.closings + 1 }

def sweepLocked : Store ρ :=
  { s with
    heap := s.heap.map fun i e =>
      if s.entries e.key = some i ∧ s.dead e = true then s.forceResolved e else e
    entries := fun k => (s.entries k).filter fun i =>
      (s.heap.rows i).all fun e => !s.stale e && !s.dead e }

/-- The entry a leader or a late `Resolve` puts into the map. -/
def insertEntry (k : Key) (e : Entry ρ) : Store ρ :=
  { s with
    heap := s.heap.insertAt s.heap.next e
    entries := Function.update s.entries k (some s.heap.next) }

/-- `Attach` and whether it made its caller the leader. The clock is read once by
the sweep and once more for a new entry. -/
def attach (k : Key) (later : ℕ) : Store ρ × Bool :=
  let s := s.sweepLocked
  match s.entries k with
  | some i =>
      let follower : Follower ρ := match s.heap.rows i with
        | some e =>
            if e.resolved then
              { flight := i, forward := .finished, sent := [e.result], closings := 1 }
            else { flight := i }
        | none => { flight := i }
      ({ s with followers := s.followers ++ [follower] }, false)
  | none =>
      let now := s.now + later
      ({ s with now }.insertEntry k { key := k, createdAt := now }, true)

/-- What `Resolve` does to an entry that is not resolved. -/
def settled (r : Result ρ) (e : Entry ρ) : Entry ρ :=
  { e with result := r, resolved := true, expiresAt := s.now + s.ttl, closings := e.closings + 1 }

def resolve (k : Key) (r : Result ρ) : Store ρ :=
  match s.entries k with
  | some i =>
      if (s.heap.rows i).all (·.resolved) then s
      else { s with heap := s.heap.modify i (s.settled r) }
  | none => s.insertEntry k (s.settled r { key := k, createdAt := s.now })

def forward (n : ℕ) : Store ρ :=
  { s with followers := s.followers.modify n fun f => match s.heap.rows f.flight with
      | some e => Follower.next e f
      | none => f }

end Store

inductive Event (ρ : Type) where
  | attach (k : Key) (later : ℕ)
  | resolve (k : Key) (r : Result ρ)
  | sweep
  | forward (n : ℕ)
  | advance (elapsed : ℕ)

namespace Store
variable {ρ : Type}

def step (s : Store ρ) : Event ρ → Store ρ
  | .attach k later => (s.attach k later).1
  | .resolve k r => s.resolve k r
  | .sweep => s.sweepLocked
  | .forward n => s.forward n
  | .advance elapsed => { s with now := s.now + elapsed }

def Step (s s' : Store ρ) : Prop := ∃ ev, s.step ev = s'

abbrev Run : Store ρ → Store ρ → Prop := Relation.ReflTransGen Step

/-- What a step can do to an entry of the heap. -/
inductive Change (s : Store ρ) (i : ℕ) (e : Entry ρ) : Event ρ → Entry ρ → Prop
  | same (ev : Event ρ) : Change s i e ev e
  | dead {ev : Event ρ} : (∀ k r, ev ≠ .resolve k r) → s.entries e.key = some i →
      s.dead e = true → Change s i e ev (s.forceResolved e)
  | settled (r : Result ρ) : s.entries e.key = some i → e.resolved = false →
      Change s i e (.resolve e.key r) (s.settled r e)

/-- The map and the heap agree. An entry that is not resolved is in the map, and so
is a resolved one until it has expired. -/
structure Consistent (s : Store ρ) : Prop where
  mapped : ∀ k i, s.entries k = some i → ∃ e, s.heap.rows i = some e ∧ e.key = k
  closings : ∀ i e, s.heap.rows i = some e → e.closings = if e.resolved then 1 else 0
  unresolved : ∀ i e, s.heap.rows i = some e → e.resolved = false →
    s.entries e.key = some i ∧ e.expiresAt = 0
  cached : ∀ i e, s.heap.rows i = some e → e.resolved = true → (s.now : ℤ) ≤ e.expiresAt →
    s.entries e.key = some i

theorem empty_consistent (ttl maxLease : ℤ) (now : ℕ) :
    (empty ttl maxLease now : Store ρ).Consistent where
  mapped := fun _ _ h => by cases h
  closings := fun _ _ h => by cases h
  unresolved := fun _ _ h => by cases h
  cached := fun _ _ h => by cases h

section
variable {s : Store ρ} {k : Key} {i : ℕ} {e e' : Entry ρ}

theorem dead_unresolved (h : s.dead e = true) : e.resolved = false := by
  simp only [dead, Bool.and_eq_true, Bool.not_eq_true'] at h
  exact h.1.1

theorem dead_late (h : s.dead e = true) : 0 < s.now := by
  simp only [dead, Bool.and_eq_true, decide_eq_true_eq] at h
  omega

/-! ### Sweeps -/

theorem sweepLocked_row (he : s.heap.rows i = some e) :
    s.sweepLocked.heap.rows i = some (if s.entries e.key = some i ∧ s.dead e = true then
      s.forceResolved e else e) := by
  simp [sweepLocked, he]

/-- What stays in the map is neither stale nor dead. -/
theorem sweepLocked_entries (hs : s.Consistent) :
    s.sweepLocked.entries k = some i ↔ s.entries k = some i ∧
      ∀ e, s.heap.rows i = some e → s.stale e = false ∧ s.dead e = false := by
  simp only [sweepLocked, Option.filter_eq_some_iff]
  refine and_congr_right fun hk => ?_
  obtain ⟨e, he, -⟩ := hs.mapped k i hk
  simp [he]

theorem sweepLocked_consistent (hs : s.Consistent) : s.sweepLocked.Consistent := by
  have hrow : ∀ {i e'}, s.sweepLocked.heap.rows i = some e' → ∃ e, s.heap.rows i = some e ∧
      e'.key = e.key ∧ (e' = e ∧ ¬ (s.entries e.key = some i ∧ s.dead e = true) ∨
        e' = s.forceResolved e ∧ s.dead e = true) := by
    intro i e' he'
    obtain ⟨e, he, hset⟩ := Option.map_eq_some_iff.mp he'
    dsimp only at hset
    split_ifs at hset with hdead
    · subst hset
      exact ⟨e, he, rfl, .inr ⟨rfl, hdead.2⟩⟩
    · subst hset
      exact ⟨e, he, rfl, .inl ⟨rfl, hdead⟩⟩
  constructor
  · intro k i hk
    obtain ⟨e, he, hkey⟩ := hs.mapped k i ((sweepLocked_entries hs).mp hk).1
    refine ⟨_, sweepLocked_row he, ?_⟩
    split_ifs
    · exact hkey
    · exact hkey
  · intro i e' he'
    obtain ⟨e, he, -, ⟨rfl, -⟩ | ⟨rfl, hdead⟩⟩ := hrow he'
    · exact hs.closings i e' he
    · have hopen := hs.closings i e he
      rw [dead_unresolved hdead] at hopen
      simp [forceResolved, hopen]
  · intro i e' he' hopen
    obtain ⟨e, he, -, ⟨rfl, halive⟩ | ⟨rfl, -⟩⟩ := hrow he'
    · obtain ⟨hk, hexpires⟩ := hs.unresolved i e' he hopen
      refine ⟨(sweepLocked_entries hs).mpr ⟨hk, fun e₁ he₁ => ?_⟩, hexpires⟩
      rw [he] at he₁
      cases he₁
      exact ⟨by simp [stale, hopen], by simpa [hk] using halive⟩
    · cases hopen
  · intro i e' he' hres hnow
    obtain ⟨e, he, -, ⟨rfl, halive⟩ | ⟨rfl, hdead⟩⟩ := hrow he'
    · refine (sweepLocked_entries hs).mpr ⟨hs.cached i e' he hres hnow, fun e₁ he₁ => ?_⟩
      rw [he] at he₁
      cases he₁
      have hfresh : ¬ e'.expiresAt < s.now := Int.not_lt.mpr hnow
      exact ⟨by simp [stale, hfresh], by simp [dead, hres]⟩
    · have hexpires := (hs.unresolved i e he (dead_unresolved hdead)).2
      have hlate := dead_late hdead
      change (s.now : ℤ) ≤ e.expiresAt at hnow
      omega

/-! ### New entries, results and time -/

theorem insertEntry_consistent (hs : s.Consistent) (hfree : s.entries k = none)
    (hkey : e.key = k) (hclosings : e.closings = if e.resolved then 1 else 0)
    (hexpires : e.resolved = false → e.expiresAt = 0) : (s.insertEntry k e).Consistent := by
  have hother : ∀ {i e'}, s.heap.rows i = some e' → i ≠ s.heap.next :=
    fun h => Nat.ne_of_lt (Table.lt_next h)
  have hkeep : ∀ {k' i}, s.entries k' = some i → (s.insertEntry k e).entries k' = some i := by
    intro k' i hk
    have hne : k' ≠ k := by
      rintro rfl
      rw [hfree] at hk
      cases hk
    simpa [insertEntry, Function.update_of_ne hne] using hk
  have hrow : ∀ {i e'}, (s.insertEntry k e).heap.rows i = some e' →
      i = s.heap.next ∧ e' = e ∨ s.heap.rows i = some e' := by
    intro i e' he'
    by_cases hi : i = s.heap.next
    · subst hi
      simp only [insertEntry, Table.insertAt_same, Option.some.injEq] at he'
      exact .inl ⟨rfl, he'.symm⟩
    · rw [insertEntry, Table.insertAt_other _ _ hi] at he'
      exact .inr he'
  have hnew : (s.insertEntry k e).entries e.key = some s.heap.next := by simp [insertEntry, hkey]
  constructor
  · intro k' i hk
    by_cases hk' : k' = k
    · subst hk'
      simp only [insertEntry, Function.update_self, Option.some.injEq] at hk
      exact ⟨e, by simp [insertEntry, ← hk], hkey⟩
    · simp only [insertEntry, Function.update_of_ne hk'] at hk
      obtain ⟨e₁, he₁, hkey₁⟩ := hs.mapped k' i hk
      exact ⟨e₁, by rw [insertEntry, Table.insertAt_other _ _ (hother he₁)]; exact he₁, hkey₁⟩
  · intro i e' he'
    rcases hrow he' with ⟨-, rfl⟩ | hold
    · exact hclosings
    · exact hs.closings i e' hold
  · intro i e' he' hopen
    rcases hrow he' with ⟨rfl, rfl⟩ | hold
    · exact ⟨hnew, hexpires hopen⟩
    · obtain ⟨hk, hexp⟩ := hs.unresolved i e' hold hopen
      exact ⟨hkeep hk, hexp⟩
  · intro i e' he' hres hnow
    rcases hrow he' with ⟨rfl, rfl⟩ | hold
    · exact hnew
    · exact hkeep (hs.cached i e' hold hres hnow)

theorem settle_consistent (hs : s.Consistent) (r : Result ρ) (hk : s.entries k = some i)
    (he : s.heap.rows i = some e) (hopen : e.resolved = false) :
    ({ s with heap := s.heap.modify i (s.settled r) } : Store ρ).Consistent := by
  have hrow : ∀ {j e'}, (s.heap.modify i (s.settled r)).rows j = some e' →
      j = i ∧ e' = s.settled r e ∨ j ≠ i ∧ s.heap.rows j = some e' := by
    intro j e' he'
    by_cases hj : j = i
    · subst hj
      rw [Table.modify_same, he] at he'
      cases he'
      exact .inl ⟨rfl, rfl⟩
    · rw [Table.modify_other _ _ hj] at he'
      exact .inr ⟨hj, he'⟩
  constructor
  · intro k' j hk'
    obtain ⟨e₁, he₁, hkey₁⟩ := hs.mapped k' j hk'
    by_cases hj : j = i
    · subst hj
      rw [he] at he₁
      cases he₁
      exact ⟨s.settled r e, by rw [Table.modify_same, he]; rfl, hkey₁⟩
    · exact ⟨e₁, by rw [Table.modify_other _ _ hj]; exact he₁, hkey₁⟩
  · intro j e' he'
    rcases hrow he' with ⟨-, rfl⟩ | ⟨-, hold⟩
    · have hclosed := hs.closings i e he
      rw [hopen] at hclosed
      simp [settled, hclosed]
    · exact hs.closings j e' hold
  · intro j e' he' hopen'
    rcases hrow he' with ⟨-, rfl⟩ | ⟨-, hold⟩
    · cases hopen'
    · exact hs.unresolved j e' hold hopen'
  · intro j e' he' hres hnow
    rcases hrow he' with ⟨rfl, rfl⟩ | ⟨-, hold⟩
    · exact (hs.unresolved j e he hopen).1
    · exact hs.cached j e' hold hres hnow

theorem later_consistent (hs : s.Consistent) (elapsed : ℕ) :
    ({ s with now := s.now + elapsed } : Store ρ).Consistent where
  mapped := hs.mapped
  closings := hs.closings
  unresolved := hs.unresolved
  cached := fun i e he hres hnow => hs.cached i e he hres (by dsimp only at hnow; omega)

theorem followers_consistent (hs : s.Consistent) (followers : List (Follower ρ)) :
    ({ s with followers } : Store ρ).Consistent :=
  ⟨hs.mapped, hs.closings, hs.unresolved, hs.cached⟩

theorem attach_consistent (hs : s.Consistent) (k : Key) (later : ℕ) :
    (s.attach k later).1.Consistent := by
  have hswept := sweepLocked_consistent hs
  simp only [attach]
  split
  · exact followers_consistent hswept _
  · rename_i hfree
    exact insertEntry_consistent (later_consistent hswept later) hfree rfl rfl fun _ => rfl

theorem resolve_consistent (hs : s.Consistent) (k : Key) (r : Result ρ) :
    (s.resolve k r).Consistent := by
  simp only [resolve]
  split
  · rename_i i hk
    split_ifs with hres
    · exact hs
    · obtain ⟨e, he, -⟩ := hs.mapped k i hk
      exact settle_consistent hs r hk he (by simpa [he] using hres)
  · rename_i hfree
    exact insertEntry_consistent hs hfree rfl rfl nofun

theorem step_consistent (hs : s.Consistent) (ev : Event ρ) : (s.step ev).Consistent := by
  cases ev with
  | attach k later => exact attach_consistent hs k later
  | resolve k r => exact resolve_consistent hs k r
  | sweep => exact sweepLocked_consistent hs
  | forward n => exact followers_consistent hs _
  | advance elapsed => exact later_consistent hs elapsed

/-! ### What a step does to an entry -/

theorem sweepLocked_change (he : s.heap.rows i = some e) {ev : Event ρ}
    (hev : ∀ k r, ev ≠ .resolve k r) :
    ∃ e', s.sweepLocked.heap.rows i = some e' ∧ s.Change i e ev e' := by
  refine ⟨_, sweepLocked_row he, ?_⟩
  split_ifs with hdead
  · exact .dead hev hdead.1 hdead.2
  · exact .same ev

theorem insertEntry_row (he : s.heap.rows i = some e) (k : Key) (e' : Entry ρ) :
    (s.insertEntry k e').heap.rows i = some e := by
  rw [insertEntry, Table.insertAt_other _ _ (Nat.ne_of_lt (Table.lt_next he))]
  exact he

theorem step_change (hs : s.Consistent) (ev : Event ρ) (he : s.heap.rows i = some e) :
    ∃ e', (s.step ev).heap.rows i = some e' ∧ s.Change i e ev e' := by
  cases ev with
  | attach k later =>
      have hev : ∀ k' r, (.attach k later : Event ρ) ≠ .resolve k' r := nofun
      obtain ⟨e', he', hchange⟩ := sweepLocked_change he hev
      refine ⟨e', ?_, hchange⟩
      simp only [step, attach]
      split
      · exact he'
      · exact insertEntry_row he' k _
  | resolve k r =>
      simp only [step, resolve]
      split
      · rename_i j hk
        split_ifs with hres
        · exact ⟨e, he, .same _⟩
        · by_cases hi : i = j
          · subst hi
            obtain ⟨e₁, he₁, rfl⟩ := hs.mapped k i hk
            rw [he] at he₁
            cases he₁
            refine ⟨s.settled r e, by rw [Table.modify_same, he]; rfl, .settled r hk ?_⟩
            simpa [he] using hres
          · exact ⟨e, by rw [Table.modify_other _ _ hi]; exact he, .same _⟩
      · exact ⟨e, insertEntry_row he k _, .same _⟩
  | sweep => exact sweepLocked_change he nofun
  | forward n => exact ⟨e, he, .same _⟩
  | advance elapsed => exact ⟨e, he, .same _⟩

/-- A result that is set stays. -/
theorem Change.final {ev : Event ρ} (h : s.Change i e ev e') (hres : e.resolved = true) :
    e' = e := by
  cases h with
  | same => rfl
  | dead _ _ hdead =>
      rw [dead_unresolved hdead] at hres
      cases hres
  | settled _ _ hopen =>
      rw [hopen] at hres
      cases hres

theorem Change.key {ev : Event ρ} (h : s.Change i e ev e') : e'.key = e.key := by
  cases h <;> rfl

theorem Run.consistent {s' : Store ρ} (h : Run s s') (hs : s.Consistent) : s'.Consistent := by
  induction h with
  | refl => exact hs
  | tail _ hlast ih =>
      obtain ⟨ev, rfl⟩ := hlast
      exact step_consistent ih ev

end
end Store
end WorkflowPlatform.Dedup
