import WorkflowPlatform.DependencyGraph

/-!
# Running a dependency graph

What a run is for: every node's work happens once, after the work it depends
on, until all nodes have an output or one node's work has failed. A state
records a phase and perhaps an output for each node. Two things can happen to a
queued node of a running run: it completes with an output it may have, which
queues the nodes that were only waiting for it, or it fails and takes every
unfinished node with it.

`Consistent` is the invariant of these runs. It decides each node's phase from
the outputs alone, so a run that has nothing queued and is still running has a
cycle, or a dependency on nothing, among its blocked nodes.
-/
namespace WorkflowPlatform
namespace Dataflow

inductive Phase where
  | blocked
  | queued
  | done
  | failed
deriving DecidableEq

inductive Status where
  | running
  | done
  | failed
deriving DecidableEq

structure RunState (ι V : Type) where
  status : Status
  phase : ι → Phase
  output : ι → Option V

variable {ι V : Type} (g : DependencyGraph ι)

/-- A graph with no nodes has nothing to run; a node without dependencies is
queued at once. -/
def initial : RunState ι V where
  status := if g.nodes = [] then .done else .running
  phase := fun i => if g.deps i = [] then .queued else .blocked
  output := fun _ => none

/-- A blocked node all of whose dependencies have an output is queued. -/
def promote (out : ι → Option V) (phase : ι → Phase) (i : ι) : Phase :=
  if phase i = .blocked ∧ ∀ d ∈ g.deps i, (out d).isSome then .queued else phase i

variable [DecidableEq ι]

def complete (σ : RunState ι V) (i : ι) (v : V) : RunState ι V where
  status := if ∀ j ∈ g.nodes, (Function.update σ.output i (some v) j).isSome then .done else .running
  phase := promote g (Function.update σ.output i (some v)) (Function.update σ.phase i .done)
  output := Function.update σ.output i (some v)

/-- Every node that has not completed fails with the one that failed. -/
def fail (σ : RunState ι V) (i : ι) : RunState ι V where
  status := .failed
  phase := fun j => if j ≠ i ∧ σ.phase j = .done then .done else .failed
  output := σ.output

/-- A queued node of a running run completes, with an output that `admits`
allows it, or fails. -/
inductive Step (admits : ι → V → Prop) (σ : RunState ι V) : RunState ι V → Prop
  | complete (i : ι) (v : V) (hrun : σ.status = .running) (hi : i ∈ g.nodes)
      (hq : σ.phase i = .queued) (hv : admits i v) : Step admits σ (complete g σ i v)
  | fail (i : ι) (hrun : σ.status = .running) (hi : i ∈ g.nodes) (hq : σ.phase i = .queued) :
      Step admits σ (fail σ i)

abbrev Reaches (admits : ι → V → Prop) : RunState ι V → RunState ι V → Prop :=
  Relation.ReflTransGen (Step g admits)

/-- A run's phases are what its outputs say they are. -/
structure Consistent (admits : ι → V → Prop) (σ : RunState ι V) : Prop where
  output_mem : ∀ i, (σ.output i).isSome → i ∈ g.nodes
  admitted : ∀ i v, σ.output i = some v → admits i v
  supported : ∀ i, (σ.output i).isSome → ∀ d ∈ g.deps i, (σ.output d).isSome
  blocked : σ.status = .running → ∀ i ∈ g.nodes,
    (σ.phase i = .blocked ↔ ∃ d ∈ g.deps i, σ.output d = none)
  completed : σ.status = .running → ∀ i ∈ g.nodes, (σ.phase i = .done ↔ (σ.output i).isSome)
  unfailed : σ.status = .running → ∀ i ∈ g.nodes, σ.phase i ≠ .failed
  unfinished : σ.status ≠ .done → ∃ i ∈ g.nodes, σ.output i = none
  finished : σ.status = .done → ∀ i ∈ g.nodes, (σ.output i).isSome ∧ σ.phase i = .done
  stopped : σ.status = .failed → ∀ i ∈ g.nodes, σ.phase i = .done ∨ σ.phase i = .failed

variable {g} {admits : ι → V → Prop} {σ σ' : RunState ι V}

omit [DecidableEq ι] in
theorem consistent_initial : Consistent g admits (initial g : RunState ι V) where
  output_mem := fun i h => by cases h
  admitted := fun i v h => by cases h
  supported := fun i h => by cases h
  blocked := by
    intro _ i _
    by_cases hd : g.deps i = []
    · simp [initial, hd]
    · simp [initial, hd, List.exists_mem_of_ne_nil _ hd]
  completed := by
    intro _ i _
    by_cases hd : g.deps i = [] <;> simp [initial, hd]
  unfailed := by
    intro _ i _
    by_cases hd : g.deps i = [] <;> simp [initial, hd]
  unfinished := by
    intro hrun
    by_cases hn : g.nodes = []
    · exact absurd (if_pos hn) hrun
    · obtain ⟨i, hi⟩ := List.exists_mem_of_ne_nil _ hn
      exact ⟨i, hi, rfl⟩
  finished := by
    intro hdone i hi
    by_cases hn : g.nodes = []
    · simp [hn] at hi
    · simp [initial, hn] at hdone
  stopped := by
    intro hfail
    by_cases hn : g.nodes = [] <;> simp [initial, hn] at hfail

omit [DecidableEq ι] in
/-- A queued node is waiting for nothing and has not completed. -/
theorem Consistent.queued (h : Consistent g admits σ) (hrun : σ.status = .running) {i : ι}
    (hi : i ∈ g.nodes) (hq : σ.phase i = .queued) :
    σ.output i = none ∧ ∀ d ∈ g.deps i, (σ.output d).isSome := by
  constructor
  · have hnot := (h.completed hrun i hi).not.mp (by simp [hq])
    simpa using hnot
  · have hnot := (h.blocked hrun i hi).not.mp (by simp [hq])
    intro d hd
    by_contra hnone
    exact hnot ⟨d, hd, by simpa using hnone⟩

/-- After a completion a node is done exactly when it has an output, and blocked
exactly when a dependency has none. -/
theorem Consistent.phase_complete (h : Consistent g admits σ) (hrun : σ.status = .running)
    {i : ι} (hi : i ∈ g.nodes) (hq : σ.phase i = .queued) (v : V) {j : ι} (hj : j ∈ g.nodes) :
    ((complete g σ i v).phase j = .blocked ↔
        ∃ d ∈ g.deps j, Function.update σ.output i (some v) d = none) ∧
      ((complete g σ i v).phase j = .done ↔
        (Function.update σ.output i (some v) j).isSome) ∧
      (complete g σ i v).phase j ≠ .failed := by
  have hdeps := (h.queued hrun hi hq).2
  by_cases hji : j = i
  · subst hji
    have hp : (complete g σ j v).phase j = .done := by simp [complete, promote]
    refine ⟨?_, by simp [hp], by simp [hp]⟩
    rw [hp]
    refine ⟨fun hc => (by cases hc), ?_⟩
    rintro ⟨d, hd, hnone⟩
    by_cases hdj : d = j
    · simp [hdj] at hnone
    · rw [Function.update_of_ne hdj] at hnone
      have := hdeps d hd
      simp [hnone] at this
  · have hout : Function.update σ.output i (some v) j = σ.output j := Function.update_of_ne hji ..
    have hphase : Function.update σ.phase i .done j = σ.phase j := Function.update_of_ne hji ..
    by_cases hready : σ.phase j = .blocked ∧
        ∀ d ∈ g.deps j, (Function.update σ.output i (some v) d).isSome
    · have hp : (complete g σ i v).phase j = .queued := by
        simp only [complete, promote, hphase]
        exact if_pos hready
      have hnot := (h.completed hrun j hj).not.mp (by simp [hready.1])
      refine ⟨?_, by rw [hp, hout]; simpa using hnot, by simp [hp]⟩
      rw [hp]
      refine ⟨fun hc => (by cases hc), ?_⟩
      rintro ⟨d, hd, hnone⟩
      have := hready.2 d hd
      simp [hnone] at this
    · have hp : (complete g σ i v).phase j = σ.phase j := by
        simp only [complete, promote, hphase]
        exact if_neg hready
      rw [hp, hout]
      refine ⟨⟨?_, ?_⟩, h.completed hrun j hj, h.unfailed hrun j hj⟩
      · intro hb
        by_contra hno
        refine hready ⟨hb, fun d hd => ?_⟩
        by_contra hnone
        exact hno ⟨d, hd, by simpa using hnone⟩
      · rintro ⟨d, hd, hnone⟩
        refine (h.blocked hrun j hj).mpr ⟨d, hd, ?_⟩
        by_cases hdi : d = i
        · simp [hdi] at hnone
        · rwa [Function.update_of_ne hdi] at hnone

theorem isSome_update {out : ι → Option V} {i : ι} {v : V} {j : ι} (h : (out j).isSome) :
    (Function.update out i (some v) j).isSome := by
  by_cases hji : j = i
  · simp [hji]
  · rwa [Function.update_of_ne hji]

theorem Consistent.step (h : Consistent g admits σ) (hs : Step g admits σ σ') :
    Consistent g admits σ' := by
  cases hs with
  | complete i v hrun hi hq hv =>
      have hphase := fun j hj => h.phase_complete hrun hi hq v (j := j) hj
      refine ⟨?_, ?_, ?_, fun _ j hj => (hphase j hj).1, fun _ j hj => (hphase j hj).2.1,
        fun _ j hj => (hphase j hj).2.2, ?_, ?_, ?_⟩
      · intro j hj
        by_cases hji : j = i
        · exact hji ▸ hi
        · exact h.output_mem j (by simpa [complete, hji] using hj)
      · intro j w hw
        by_cases hji : j = i
        · subst hji
          obtain rfl : v = w := by simpa [complete] using hw
          exact hv
        · exact h.admitted j w (by simpa [complete, hji] using hw)
      · intro j hj d hd
        by_cases hji : j = i
        · exact isSome_update ((h.queued hrun hi hq).2 d (hji ▸ hd))
        · exact isSome_update (h.supported j (by simpa [complete, hji] using hj) d hd)
      · intro hrun'
        by_contra hall
        simp only [not_exists, not_and, ← ne_eq, Option.ne_none_iff_isSome, complete] at hall
        exact hrun' (if_pos hall)
      · intro hdone j hj
        have hall : ∀ j ∈ g.nodes, (Function.update σ.output i (some v) j).isSome := by
          by_contra hno
          simp [complete, hno] at hdone
        exact ⟨hall j hj, (hphase j hj).2.1.mpr (hall j hj)⟩
      · intro hfail
        simp only [complete] at hfail
        split_ifs at hfail
  | fail i hrun hi hq =>
      refine ⟨h.output_mem, h.admitted, h.supported, ?_, ?_, ?_, fun _ => ?_, ?_, ?_⟩
      · exact fun hc => by cases hc
      · exact fun hc => by cases hc
      · exact fun hc => by cases hc
      · exact h.unfinished (by simp [hrun])
      · exact fun hc => by cases hc
      intro _ j _
      by_cases hj : j ≠ i ∧ σ.phase j = .done
      · exact .inl (if_pos hj)
      · exact .inr (if_neg hj)

theorem Consistent.reaches (h : Consistent g admits σ) (hs : Reaches g admits σ σ') :
    Consistent g admits σ' := by
  induction hs with
  | refl => exact h
  | tail _ hstep ih => exact ih.step hstep

/-- Outputs are never changed or withdrawn. -/
theorem Consistent.output_step (h : Consistent g admits σ) (hs : Step g admits σ σ') {i : ι}
    {v : V} (hv : σ.output i = some v) : σ'.output i = some v := by
  cases hs with
  | complete j w hrun hj hq _ =>
      by_cases hij : i = j
      · subst hij
        rw [(h.queued hrun hj hq).1] at hv
        cases hv
      · simpa [complete, hij] using hv
  | fail => exact hv

theorem Consistent.output_reaches (h : Consistent g admits σ) (hs : Reaches g admits σ σ')
    {i : ι} {v : V} (hv : σ.output i = some v) : σ'.output i = some v := by
  induction hs with
  | refl => exact hv
  | tail hreach hstep ih => exact (h.reaches hreach).output_step hstep ih

/-- A run that is no longer running stays as it is. -/
theorem eq_of_reaches (hstop : σ.status ≠ .running) (hs : Reaches g admits σ σ') : σ' = σ := by
  induction hs with
  | refl => rfl
  | tail _ hstep ih =>
      subst ih
      cases hstep with
      | complete i v hrun => exact absurd hrun hstop
      | fail i hrun => exact absurd hrun hstop

/-- A run that has moved and not failed has one more output. -/
theorem Consistent.eq_or_recorded (h : Consistent g admits σ) (hs : Reaches g admits σ σ')
    (hfailed : σ'.status ≠ .failed) :
    σ' = σ ∨ ∃ i ∈ g.nodes, σ.output i = none ∧ (σ'.output i).isSome := by
  rcases Relation.ReflTransGen.cases_head hs with rfl | ⟨τ, hstep, hreach⟩
  · exact .inl rfl
  · right
    cases hstep with
    | complete i v hrun hi hq hv =>
        have hout : (complete g σ i v).output i = some v := Function.update_self ..
        refine ⟨i, hi, (h.queued hrun hi hq).1, ?_⟩
        rw [(h.step (.complete i v hrun hi hq hv)).output_reaches hreach hout]
        rfl
    | fail i hrun hi hq =>
        obtain rfl := eq_of_reaches (by simp [fail]) hreach
        exact absurd rfl hfailed

/-- Why a run that is still running has nothing queued: among its blocked nodes
there is a dependency on something that is not a node, or a cycle. -/
theorem Consistent.stuck (h : Consistent g admits σ) (hrun : σ.status = .running)
    (hq : ∀ i ∈ g.nodes, σ.phase i ≠ .queued) :
    (∃ i ∈ g.nodes, σ.phase i = .blocked ∧ ∃ d ∈ g.deps i, d ∉ g.nodes) ∨
      ∃ i, Relation.TransGen (fun a b => σ.phase a = .blocked ∧ σ.phase b = .blocked ∧
        g.Edge a b) i i := by
  by_cases habsent : ∃ i ∈ g.nodes, σ.phase i = .blocked ∧ ∃ d ∈ g.deps i, d ∉ g.nodes
  · exact .inl habsent
  · right
    have hphase : ∀ i ∈ g.nodes, σ.output i = none → σ.phase i = .blocked := by
      intro i hi hnone
      cases hp : σ.phase i with
      | blocked => rfl
      | queued => exact absurd hp (hq i hi)
      | done => simpa [hnone] using (h.completed hrun i hi).mp hp
      | failed => exact absurd hp (h.unfailed hrun i hi)
    obtain ⟨b, hb, hnone⟩ := h.unfinished (by simp [hrun])
    obtain ⟨i, -, hcycle⟩ := DependencyGraph.exists_cycle
      (R := fun a b => a ∈ g.deps b)
      (B := g.nodes.filter fun i => σ.phase i = .blocked) (b := b)
      (by simp [hb, hphase b hb hnone]) (by
        intro i hi
        obtain ⟨hi, hblocked⟩ : i ∈ g.nodes ∧ σ.phase i = .blocked := by simpa using hi
        obtain ⟨d, hd, hdnone⟩ := (h.blocked hrun i hi).mp hblocked
        have hmem : d ∈ g.nodes := by
          by_contra hno
          exact habsent ⟨i, hi, hblocked, d, hd, hno⟩
        exact ⟨d, by simp [hmem, hphase d hmem hdnone], hd⟩)
    refine ⟨i, Relation.TransGen.mono (fun a b hab => ?_) _ _ hcycle⟩
    simp only [List.mem_filter, decide_eq_true_eq] at hab
    exact ⟨hab.1.2, hab.2.1.2, hab.1.1, hab.2.1.1, hab.2.2⟩

/-- On a closed acyclic graph a running run always has a queued node. -/
theorem Consistent.exists_queued (h : Consistent g admits σ) (hc : g.Closed) (ha : g.Acyclic)
    (hrun : σ.status = .running) : ∃ i ∈ g.nodes, σ.phase i = .queued := by
  by_contra hno
  rcases h.stuck hrun (fun i hi hq => hno ⟨i, hi, hq⟩) with ⟨i, hi, -, d, hd, hmem⟩ | ⟨i, hi⟩
  · exact hmem (hc i hi d hd)
  · exact ha i (Relation.TransGen.mono (fun a b hab => hab.2.2) _ _ hi)

end Dataflow
end WorkflowPlatform
