import Mathlib.Data.List.Nodup
import WorkflowPlatform.AgentApi
import WorkflowPlatform.FlightPairing

/-!
# One subprocess for each key

The agent as a whole: its dedup store, and the subprocesses that the leaders have
started and not yet reported to it. A request that passes the checks attaches to
its key and, as the leader, starts a subprocess. The clock does not pass the end
of the time a request was admitted with before its leader has called `Resolve`.

A leader counts as dead once its entry is older than the lease of the store. As
long as no request is admitted for a longer time than that, no leader is given up
while its subprocess runs.
-/
namespace WorkflowPlatform.Agent
open Dedup

def defaultMaxLease : ℤ := 5 * 60 * 1000000000

/-- A subprocess whose leader has not called `Resolve`. -/
structure Process where
  key : Key
  flight : ℕ
  deadline : ℤ
  exited : Bool := false
deriving DecidableEq

structure Server (ρ : Type) where
  store : Dedup.Store ρ
  processes : List Process := []

inductive Event (ρ : Type) where
  | invoke (req : InvokeRequest) (later : ℕ)
  | exit (p : Process)
  | resolve (p : Process) (response : ρ)
  | sweep
  | advance (elapsed : ℕ)

namespace Server
variable {ρ : Type}

def start (cfg : Config) (now : ℕ) : Server ρ := ⟨Dedup.Store.empty cfg.dedupTTL defaultMaxLease now, []⟩

def keyOf (req : InvokeRequest) : Key := ⟨req.executionId, req.stepId⟩

/-- `invokeHandler`, up to the start of the subprocess. -/
def invoke (cfg : Config) (s : Server ρ) (req : InvokeRequest) (later : ℕ) : Server ρ :=
  match checkRequest cfg req with
  | .error _ => s
  | .ok () =>
      let (store, isLeader) := s.store.attach (keyOf req) later
      if isLeader then
        { store
          processes := s.processes ++ [{
            key := keyOf req
            flight := s.store.heap.next
            deadline := store.now + timeout req }] }
      else { s with store }

def perform (cfg : Config) (s : Server ρ) : Event ρ → Server ρ
  | .invoke req later => s.invoke cfg req later
  | .exit p => { s with processes := s.processes.map fun q =>
      if q = p then { q with exited := true } else q }
  | .resolve p response =>
      { store := s.store.resolve p.key { response := some response }
        processes := s.processes.filter (· ≠ p) }
  | .sweep => { s with store := s.store.sweepLocked }
  | .advance elapsed => { s with store := { s.store with now := s.store.now + elapsed } }

/-- Every leader is through by the end of its time, and resolves once its
subprocess has exited. -/
def Admits (s : Server ρ) : Event ρ → Prop
  | .invoke _ later => ∀ p ∈ s.processes, ((s.store.now + later : ℕ) : ℤ) ≤ p.deadline
  | .resolve p _ => p ∈ s.processes ∧ p.exited = true
  | .advance elapsed => ∀ p ∈ s.processes, ((s.store.now + elapsed : ℕ) : ℤ) ≤ p.deadline
  | _ => True

def Step (cfg : Config) (s s' : Server ρ) : Prop := ∃ ev, s.Admits ev ∧ s.perform cfg ev = s'

abbrev Run (cfg : Config) : Server ρ → Server ρ → Prop := Relation.ReflTransGen (Step cfg)

/-- The keys of the subprocesses that are running. -/
def runningKeys (s : Server ρ) : List Key := (s.processes.filter fun p => !p.exited).map (·.key)

/-- A process has its entry, which is unresolved and within its lease as long as
the process is within its time. -/
structure Led (s : Server ρ) : Prop where
  consistent : s.store.Consistent
  lease : s.store.maxLease = defaultMaxLease
  entry : ∀ p ∈ s.processes, ∃ e, s.store.heap.rows p.flight = some e ∧ e.key = p.key ∧
    e.resolved = false ∧ p.deadline ≤ e.createdAt + defaultMaxLease
  onTime : ∀ p ∈ s.processes, (s.store.now : ℤ) ≤ p.deadline
  flights : (s.processes.map (·.flight)).Nodup

section
variable {cfg : Config} {s s' : Server ρ}

theorem start_led (cfg : Config) (now : ℕ) : (start cfg now : Server ρ).Led where
  consistent := Dedup.Store.empty_consistent _ _ _
  lease := rfl
  entry := nofun
  onTime := nofun
  flights := List.nodup_nil

/-- The entry of a process that is within its time is not given up. -/
theorem Led.alive (hs : s.Led) {p : Process} (hp : p ∈ s.processes) {e : Entry ρ}
    (he : s.store.heap.rows p.flight = some e) : s.store.dead e = false := by
  obtain ⟨e', he', -, -, hdeadline⟩ := hs.entry p hp
  rw [he] at he'
  cases he'
  have htime := hs.onTime p hp
  simp only [Dedup.Store.dead, hs.lease, Bool.and_eq_false_iff, decide_eq_false_iff_not]
  right
  omega

/-- What is not resolved for it stays the entry of a process. -/
theorem Led.kept (hs : s.Led) {p : Process} (hp : p ∈ s.processes) (ev : Dedup.Event ρ)
    (hev : ∀ r, ev ≠ .resolve p.key r) : ∃ e, s.store.heap.rows p.flight = some e ∧
      (s.store.step ev).heap.rows p.flight = some e ∧ e.key = p.key ∧ e.resolved = false ∧
      p.deadline ≤ e.createdAt + defaultMaxLease := by
  obtain ⟨e, he, hkey, hopen, hdeadline⟩ := hs.entry p hp
  obtain ⟨e', he', hchange⟩ := Dedup.Store.step_change hs.consistent ev he
  refine ⟨e, he, ?_, hkey, hopen, hdeadline⟩
  cases hchange with
  | same => exact he'
  | dead _ _ hdead =>
      rw [hs.alive hp he] at hdead
      cases hdead
  | settled r => exact absurd (by rw [hkey]) (hev r)

/-- Two processes of one key are one. -/
theorem Led.unique (hs : s.Led) {p q : Process} (hp : p ∈ s.processes) (hq : q ∈ s.processes)
    (hkey : p.key = q.key) : p = q := by
  obtain ⟨e, he, hpkey, hopen, -⟩ := hs.entry p hp
  obtain ⟨e', he', hqkey, hopen', -⟩ := hs.entry q hq
  have hentry := (hs.consistent.unresolved p.flight e he hopen).1
  have hentry' := (hs.consistent.unresolved q.flight e' he' hopen').1
  rw [hpkey, hkey] at hentry
  rw [hqkey, hentry] at hentry'
  exact List.inj_on_of_nodup_map hs.flights hp hq (Option.some.inj hentry')

/-- A step of the store that resolves for nobody, and does not let anyone's time
pass. -/
theorem Led.step_store (hs : s.Led) (ev : Dedup.Event ρ) (hev : ∀ k r, ev ≠ .resolve k r)
    (htime : ∀ p ∈ s.processes, ((s.store.step ev).now : ℤ) ≤ p.deadline) :
    ({ s with store := s.store.step ev } : Server ρ).Led where
  consistent := Dedup.Store.step_consistent hs.consistent ev
  lease := (Flights.step_maxLease s.store ev).trans hs.lease
  entry := fun p hp => by
    obtain ⟨e, -, he, hrest⟩ := hs.kept hp ev fun r => hev p.key r
    exact ⟨e, he, hrest⟩
  onTime := htime
  flights := hs.flights

theorem Led.resolve (hs : s.Led) {p : Process} (hp : p ∈ s.processes) (response : ρ) :
    (s.perform cfg (.resolve p response)).Led where
  consistent := Dedup.Store.resolve_consistent hs.consistent _ _
  lease := (Flights.step_maxLease s.store (.resolve p.key { response := some response })).trans hs.lease
  entry := fun q hq => by
    have hmem : q ∈ s.processes ∧ q ≠ p := by
      simpa [perform] using hq
    have hne : p.key ≠ q.key := fun heq => hmem.2 (hs.unique hp hmem.1 heq).symm
    obtain ⟨e, -, he, hrest⟩ := hs.kept hmem.1
      (.resolve p.key { response := some response }) (by simp [hne])
    exact ⟨e, he, hrest⟩
  onTime := fun q hq => by
    have hmem : q ∈ s.processes := (List.mem_filter.mp hq).1
    have hnow : (s.store.resolve p.key { response := some response }).now = s.store.now := by
      simp only [Dedup.Store.resolve]
      split
      · split_ifs <;> rfl
      · rfl
    change ((s.store.resolve p.key _).now : ℤ) ≤ q.deadline
    rw [hnow]
    exact hs.onTime q hmem
  flights := hs.flights.sublist (List.filter_sublist.map _)

theorem Led.exit (hs : s.Led) (p : Process) : (s.perform cfg (.exit p)).Led := by
  have hmem : ∀ q ∈ (s.perform cfg (.exit p)).processes, ∃ q' ∈ s.processes,
      q.key = q'.key ∧ q.flight = q'.flight ∧ q.deadline = q'.deadline := by
    intro q hq
    obtain ⟨q', hq', rfl⟩ := List.mem_map.mp hq
    refine ⟨q', hq', ?_⟩
    split_ifs <;> simp
  constructor
  · exact hs.consistent
  · exact hs.lease
  · intro q hq
    obtain ⟨q', hq', hkey, hflight, hdeadline⟩ := hmem q hq
    rw [hkey, hflight, hdeadline]
    exact hs.entry q' hq'
  · intro q hq
    obtain ⟨q', hq', -, -, hdeadline⟩ := hmem q hq
    rw [hdeadline]
    exact hs.onTime q' hq'
  · have hsame : (s.perform cfg (.exit p)).processes.map (·.flight) = s.processes.map (·.flight) := by
      simp only [perform, List.map_map]
      apply List.map_congr_left
      intro q _
      simp only [Function.comp_apply]
      split_ifs <;> rfl
    rw [hsame]
    exact hs.flights

/-- The time an admitted request has fits into the lease. -/
def Capped (cfg : Config) : Prop :=
  0 < milliseconds cfg.maxInvokeTimeout ∧ milliseconds cfg.maxInvokeTimeout ≤ 300000

theorem attach_now (t : Dedup.Store ρ) (k : Key) (later : ℕ) :
    ((t.attach k later).1.now : ℤ) ≤ (t.now + later : ℕ) := by
  cases hk : t.sweepLocked.entries k with
  | some i =>
      have hnow : (t.attach k later).1.now = t.now := by
        simp only [Dedup.Store.attach, hk]
        rfl
      rw [hnow]
      omega
  | none =>
      rw [Flights.attach_of_free later hk]
      exact Int.le_refl _

/-- A process of its own flight, within its time and its entry's lease, joins the
others. -/
theorem Led.launch (hs : s.Led) {p : Process} {e : Entry ρ}
    (he : s.store.heap.rows p.flight = some e) (hkey : e.key = p.key) (hopen : e.resolved = false)
    (hdeadline : p.deadline ≤ e.createdAt + defaultMaxLease)
    (htime : (s.store.now : ℤ) ≤ p.deadline) (hnew : p.flight ∉ s.processes.map (·.flight)) :
    ({ s with processes := s.processes ++ [p] } : Server ρ).Led where
  consistent := hs.consistent
  lease := hs.lease
  entry := by
    intro q hq
    rcases List.mem_append.mp hq with hq | hq
    · exact hs.entry q hq
    · rw [List.mem_singleton.mp hq]
      exact ⟨e, he, hkey, hopen, hdeadline⟩
  onTime := by
    intro q hq
    rcases List.mem_append.mp hq with hq | hq
    · exact hs.onTime q hq
    · rw [List.mem_singleton.mp hq]
      exact htime
  flights := by
    rw [List.map_append]
    refine List.Nodup.append hs.flights (List.nodup_singleton _) ?_
    intro flight hold hflight
    rw [List.mem_singleton.mp hflight] at hold
    exact hnew hold

theorem Led.invoke (hcfg : Capped cfg) (hs : s.Led) {req : InvokeRequest} {later : ℕ}
    (htime : ∀ p ∈ s.processes, ((s.store.now + later : ℕ) : ℤ) ≤ p.deadline) :
    (s.invoke cfg req later).Led := by
  have hattached := hs.step_store (.attach (keyOf req) later) nofun
    fun p hp => Int.le_trans (attach_now s.store _ later) (htime p hp)
  unfold Server.invoke
  split
  · exact hs
  · next hok =>
      dsimp only
      split_ifs with hleader
      · have hnow : (s.store.step (.attach (keyOf req) later)).now = s.store.now + later := by
          rw [Dedup.Store.step, Flights.attach_of_free later (Flights.free_of_leader hleader)]
          rfl
        obtain ⟨hpos, hcap⟩ := checkRequest_ok hok
        have hle : req.timeoutMs ≤ 300000 := Int.le_trans (hcap hcfg.1) hcfg.2
        have htimeout : timeout req = req.timeoutMs * 1000000 :=
          (timeout_eq_iff hpos).mpr (by omega)
        refine hattached.launch (Flights.leader_inserted hleader) rfl rfl ?_ ?_ ?_
        · change ((s.store.step (.attach (keyOf req) later)).now : ℤ) + timeout req ≤ _
          simp only [hnow, htimeout, defaultMaxLease]
          omega
        · change _ ≤ ((s.store.step (.attach (keyOf req) later)).now : ℤ) + timeout req
          simp only [htimeout]
          omega
        · intro hold
          obtain ⟨p, hp, hflight⟩ := List.mem_map.mp hold
          obtain ⟨e, he, -⟩ := hs.entry p hp
          exact absurd hflight (Nat.ne_of_lt (Table.lt_next he))
      · exact hattached

theorem Led.step (hcfg : Capped cfg) (hs : s.Led) {ev : Event ρ} (hev : s.Admits ev) :
    (s.perform cfg ev).Led := by
  cases ev with
  | invoke req later => exact Led.invoke hcfg hs hev
  | exit p => exact hs.exit p
  | resolve p response => exact hs.resolve hev.1 response
  | sweep => exact hs.step_store .sweep nofun hs.onTime
  | advance elapsed => exact hs.step_store (.advance elapsed) nofun hev

theorem Led.run (hcfg : Capped cfg) (hs : s.Led) (hrun : Run cfg s s') : s'.Led := by
  induction hrun with
  | refl => exact hs
  | tail _ hstep ih =>
      obtain ⟨ev, hev, rfl⟩ := hstep
      exact ih.step hcfg hev

theorem Led.runningKeys_nodup (hs : s.Led) : s.runningKeys.Nodup := by
  have hprocesses : s.processes.Nodup := List.Nodup.of_map _ hs.flights
  apply List.Nodup.map_on _ (hprocesses.filter _)
  intro p hp q hq hkey
  exact hs.unique (List.mem_filter.mp hp).1 (List.mem_filter.mp hq).1 hkey

/-! ### A request for longer than the lease -/

/-- A request for a millisecond more than the lease, and another one of its key when
the lease is over. -/
def longRequest : InvokeRequest where
  executionId := "e1"
  stepId := "s1"
  function := "f"
  timeoutMs := 300001

def longKey : Key := keyOf longRequest

def leadOnce (cfg : Config) : Server ρ := (start cfg 0).perform cfg (.invoke longRequest 0)

def leaseOver (cfg : Config) : Server ρ := (leadOnce cfg).perform cfg (.advance 300000000001)

def leadTwice (cfg : Config) : Server ρ := (leaseOver cfg).perform cfg (.invoke longRequest 0)

theorem longRequest_admitted (hcfg : ¬ Capped cfg) : checkRequest cfg longRequest = .ok () := by
  have hnames : ¬ (longRequest.executionId = "" ∨ longRequest.stepId = "" ∨
      longRequest.function = "") := by decide
  have hpositive : ¬ longRequest.timeoutMs ≤ 0 := by decide
  have hcap : ¬ (0 < milliseconds cfg.maxInvokeTimeout ∧
      milliseconds cfg.maxInvokeTimeout < longRequest.timeoutMs) := by
    unfold Capped at hcfg
    simp only [longRequest]
    omega
  rw [checkRequest, if_neg hnames, if_neg hpositive]
  exact if_neg hcap

/-- A request that finds its key free leads. -/
theorem longRequest_leads (hcfg : ¬ Capped cfg) (hfree : s.store.sweepLocked.entries longKey = none) :
    s.perform cfg (.invoke longRequest 0) =
      { store := ({ s.store.sweepLocked with now := s.store.now } : Dedup.Store ρ).insertEntry longKey
          { key := longKey, createdAt := s.store.now }
        processes := s.processes ++ [⟨longKey, s.store.heap.next,
          s.store.now + timeout longRequest, false⟩] } := by
  simp only [perform, invoke, longRequest_admitted hcfg]
  rw [show keyOf longRequest = longKey from rfl, Flights.attach_of_free 0 hfree]
  rfl

theorem leadOnce_eq (hcfg : ¬ Capped cfg) :
    (leadOnce cfg : Server ρ).processes =
        [⟨longKey, 1, (0 : ℕ) + timeout longRequest, false⟩] ∧
      (leadOnce cfg : Server ρ).store.now = 0 ∧
      (leadOnce cfg : Server ρ).store.maxLease = defaultMaxLease ∧
      (leadOnce cfg : Server ρ).store.entries longKey = some 1 ∧
      (leadOnce cfg : Server ρ).store.heap.rows 1 = some { key := longKey, createdAt := 0 } := by
  have hfree : (start cfg 0 : Server ρ).store.sweepLocked.entries longKey = none := rfl
  have hlead := longRequest_leads hcfg hfree
  rw [leadOnce, hlead]
  exact ⟨rfl, rfl, rfl, by simp [Dedup.Store.insertEntry, Dedup.Store.sweepLocked, start, Dedup.Store.empty, Table.empty],
    by simp [Dedup.Store.insertEntry, Dedup.Store.sweepLocked, start, Dedup.Store.empty, Table.empty, Table.insertAt]⟩

/-- The lease of the first leader is over, and its key is free again. -/
theorem leaseOver_free (hcfg : ¬ Capped cfg) :
    (leaseOver cfg : Server ρ).store.sweepLocked.entries longKey = none := by
  obtain ⟨-, hnow, hlease, hentry, hrow⟩ := leadOnce_eq (ρ := ρ) hcfg
  simp [leaseOver, perform, Dedup.Store.sweepLocked, hentry, hrow, Dedup.Store.stale, Dedup.Store.dead, hnow, hlease,
    defaultMaxLease]

theorem leadTwice_processes (hcfg : ¬ Capped cfg) :
    ∃ p q, (leadTwice cfg : Server ρ).processes = [p, q] ∧ p.key = longKey ∧ q.key = longKey ∧
      p.exited = false ∧ q.exited = false := by
  have hlead := longRequest_leads hcfg (leaseOver_free (ρ := ρ) hcfg)
  rw [leadTwice, hlead]
  have hone : (leaseOver cfg : Server ρ).processes = _ := (leadOnce_eq hcfg).1
  rw [hone]
  exact ⟨_, _, rfl, rfl, rfl, rfl, rfl⟩

theorem leadTwice_run (hcfg : ¬ Capped cfg) :
    Run cfg (start cfg 0 : Server ρ) (leadTwice cfg) := by
  obtain ⟨hone, hnow, -⟩ := leadOnce_eq (ρ := ρ) hcfg
  have hlate : ∀ p ∈ (leadOnce cfg : Server ρ).processes,
      (((leadOnce cfg : Server ρ).store.now + 300000000001 : ℕ) : ℤ) ≤ p.deadline := by
    have htimeout : timeout longRequest = 300001000000 := by decide
    rw [hone, hnow, htimeout]
    simp
  have hfirst : Step cfg (start cfg 0 : Server ρ) (leadOnce cfg) :=
    ⟨.invoke longRequest 0, nofun, rfl⟩
  have hsecond : Step cfg (leadOnce cfg : Server ρ) (leaseOver cfg) := ⟨.advance _, hlate, rfl⟩
  have hthird : Step cfg (leaseOver cfg : Server ρ) (leadTwice cfg) :=
    ⟨.invoke longRequest 0, hlate, rfl⟩
  exact ((Relation.ReflTransGen.single hfirst).tail hsecond).tail hthird

theorem leadTwice_runningKeys (hcfg : ¬ Capped cfg) :
    ¬ (leadTwice cfg : Server ρ).runningKeys.Nodup := by
  obtain ⟨p, q, hboth, hp, hq, hpr, hqr⟩ := leadTwice_processes (ρ := ρ) hcfg
  simp [runningKeys, hboth, hp, hq, hpr, hqr]

/-- There are never two subprocesses running for one key, in every run of the
agent, exactly when it admits requests for at most the lease. -/
theorem single_flight_iff (cfg : Config) :
    (∀ now (s : Server ρ), Run cfg (start cfg now) s → s.runningKeys.Nodup) ↔ Capped cfg := by
  constructor
  · intro hsingle
    by_contra hcfg
    exact leadTwice_runningKeys hcfg (hsingle 0 _ (leadTwice_run hcfg))
  · intro hcfg now s hrun
    exact ((start_led cfg now).run hcfg hrun).runningKeys_nodup

end

/-- An agent without a cap, as the test of concurrent requests configures it. -/
theorem uncapped_runs_twice : ∃ s : Server Unit,
    Run { maxInvokeTimeout := 0 } (start { maxInvokeTimeout := 0 } 0) s ∧ ¬ s.runningKeys.Nodup := by
  have hcfg : ¬ Capped { maxInvokeTimeout := 0 } := fun hcap => absurd hcap.1 (by decide)
  exact ⟨_, leadTwice_run hcfg, leadTwice_runningKeys hcfg⟩

end Server
end WorkflowPlatform.Agent
