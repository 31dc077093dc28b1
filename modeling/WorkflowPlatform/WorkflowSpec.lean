import WorkflowPlatform.Json

/-!
# Workflow specifications

The document a run executes: a list of nodes, each a plain step, a branch or a
map, whose inputs are bindings. A step depends on the ids it lists in
`dependsOn` and on every `step` binding in its `reads`, however deeply nested
inside `compute` and `itemResource` bindings.
-/
namespace WorkflowPlatform

inductive Binding where
  | static (ref : String)
  | session (key : String)
  | request (param : String)
  | step (id : String) (output : String)
  | item
  | literal (value : Json)
  | compute (expression : JsonObject) (using_ : Option (List (String × Binding)))
  | itemResource (itemId : Binding) (path : String)

inductive SecretScope where
  | writer
  | user
deriving DecidableEq

structure SecretRef where
  scope : SecretScope
  name : String

structure SessionWriteTarget where
  key : String

structure Step where
  id : String
  service : String
  function : String
  dependsOn : Option (List String) := none
  reads : Option (List (String × Binding)) := none
  writes : Option (List (String × SessionWriteTarget)) := none
  secrets : Option (List (String × SecretRef)) := none

mutual

inductive Node where
  | step (step : Step)
  | branch (id : String) (selector : Binding) (cases : List (String × CaseBody))
  | map (id : String) (source : Binding) (body : List Node)
      (yields : Option (List (String × Binding)))

inductive CaseBody where
  | mk (steps : List Node) (yields : Option (List (String × Binding)))

end

def Node.id : Node → String
  | .step s => s.id
  | .branch id .. => id
  | .map id .. => id

inductive Interactivity where
  | interactive
  | batch
deriving DecidableEq

structure SessionStateDeclaration where
  interactivity : Interactivity
  fallback : Option Binding := none

structure WorkflowSpec where
  workflowSpecVersion : ℤ
  name : String
  description : Option String := none
  inputParameters : Option (List String) := none
  sessionState : Option (List (String × SessionStateDeclaration)) := none
  steps : List Node
  outputs : Option (List (String × Binding)) := none

mutual

/-- Every step id a binding reaches, nested bindings included. -/
def collectStepBindingIds : Binding → List String
  | .step id _ => [id]
  | .compute _ (some bindings) => collectBindingMapIds bindings
  | .itemResource itemId _ => collectStepBindingIds itemId
  | _ => []

def collectBindingMapIds : List (String × Binding) → List String
  | [] => []
  | (_, b) :: rest => collectStepBindingIds b ++ collectBindingMapIds rest

end

/-- The ids in `dependsOn` and then those of the reads, repetitions kept. -/
def collectStepReferenceIds (step : Step) : List String :=
  step.dependsOn.getD [] ++ collectBindingMapIds (step.reads.getD [])

def computeStepDependencies (step : Step) : List String :=
  (collectStepReferenceIds step).eraseDups

theorem mem_computeStepDependencies {step : Step} {id : String} :
    id ∈ computeStepDependencies step ↔ id ∈ collectStepReferenceIds step := List.mem_eraseDups

theorem mem_collectBindingMapIds {bindings : List (String × Binding)} {id : String} :
    id ∈ collectBindingMapIds bindings ↔
      ∃ key b, (key, b) ∈ bindings ∧ id ∈ collectStepBindingIds b := by
  induction bindings with
  | nil => simp [collectBindingMapIds]
  | cons p rest ih =>
      obtain ⟨k, b⟩ := p
      simp only [collectBindingMapIds, List.mem_append, ih, List.mem_cons, Prod.mk.injEq]
      constructor
      · rintro (h | ⟨key, b', hmem, h⟩)
        · exact ⟨k, b, .inl ⟨rfl, rfl⟩, h⟩
        · exact ⟨key, b', .inr hmem, h⟩
      · rintro ⟨key, b', ⟨rfl, rfl⟩ | hmem, h⟩
        · exact .inl h
        · exact .inr ⟨key, b', hmem, h⟩

/-- A step named by a `step` binding of the reads is a dependency. -/
theorem mem_dependencies_of_read {step : Step} {key id output : String}
    (h : (key, Binding.step id output) ∈ step.reads.getD []) :
    id ∈ computeStepDependencies step := by
  rw [mem_computeStepDependencies, collectStepReferenceIds, List.mem_append]
  exact .inr (mem_collectBindingMapIds.mpr ⟨key, _, h, by simp [collectStepBindingIds]⟩)

end WorkflowPlatform
