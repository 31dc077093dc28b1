import WorkflowPlatform.WorkflowSpec

/-!
# Walking the nodes of a document

Branches and maps nest to any depth, so every check that looks at all the nodes
of a document descends into the steps of each case and into the body of each
map. `walkNodes` is that descent: it calls back at every node with the path of
the scopes around it, and once more after a case or a body has been walked. The
callbacks change a state that the walk only passes along, so a walk is the fold
of its callbacks over the list `visits` of the places it calls back at.
-/
namespace WorkflowPlatform

/-- The enclosing scopes from the document root inwards, such as
`["branch:b1", "case:true", "map:m1"]`. -/
abbrev ScopePath := List String

def caseScope (scope : ScopePath) (branchId caseKey : String) : ScopePath :=
  scope ++ ["branch:" ++ branchId, "case:" ++ caseKey]

def bodyScope (scope : ScopePath) (mapId : String) : ScopePath :=
  scope ++ ["map:" ++ mapId]

/-- The callbacks of a walk; one that is not supplied does nothing. -/
structure NodeVisitor (σ : Type) where
  onStep : Step → ScopePath → σ → σ := fun _ _ s => s
  onBranch : String → Binding → ScopePath → σ → σ := fun _ _ _ s => s
  onCaseWalked : String → String → CaseBody → ScopePath → σ → σ := fun _ _ _ _ s => s
  onMap : String → Binding → ScopePath → σ → σ := fun _ _ _ s => s
  onBodyWalked : String → Option (List (String × Binding)) → ScopePath → σ → σ :=
    fun _ _ _ s => s

variable {σ : Type}

mutual

def walkNodes (visitor : NodeVisitor σ) : List Node → ScopePath → σ → σ
  | [], _, s => s
  | node :: rest, scope, s => walkNodes visitor rest scope (walkNode visitor node scope s)

def walkNode (visitor : NodeVisitor σ) : Node → ScopePath → σ → σ
  | .step step, scope, s => visitor.onStep step scope s
  | .branch id selector cases, scope, s =>
      walkCases visitor id cases scope (visitor.onBranch id selector scope s)
  | .map id source body yields, scope, s =>
      visitor.onBodyWalked id yields (bodyScope scope id)
        (walkNodes visitor body (bodyScope scope id) (visitor.onMap id source scope s))

def walkCases (visitor : NodeVisitor σ) (branchId : String) :
    List (String × CaseBody) → ScopePath → σ → σ
  | [], _, s => s
  | (caseKey, .mk steps yields) :: rest, scope, s =>
      walkCases visitor branchId rest scope
        (visitor.onCaseWalked branchId caseKey (.mk steps yields) (caseScope scope branchId caseKey)
          (walkNodes visitor steps (caseScope scope branchId caseKey) s))

end

/-- A place where a walk calls back, with what it passes. -/
inductive Visit where
  | step (step : Step) (scope : ScopePath)
  | branch (id : String) (selector : Binding) (scope : ScopePath)
  | caseWalked (branchId caseKey : String) (caseBody : CaseBody) (scope : ScopePath)
  | map (id : String) (source : Binding) (scope : ScopePath)
  | bodyWalked (mapId : String) (yields : Option (List (String × Binding))) (scope : ScopePath)

def NodeVisitor.call (visitor : NodeVisitor σ) (s : σ) : Visit → σ
  | .step step scope => visitor.onStep step scope s
  | .branch id selector scope => visitor.onBranch id selector scope s
  | .caseWalked branchId caseKey caseBody scope =>
      visitor.onCaseWalked branchId caseKey caseBody scope s
  | .map id source scope => visitor.onMap id source scope s
  | .bodyWalked mapId yields scope => visitor.onBodyWalked mapId yields scope s

mutual

def visits : List Node → ScopePath → List Visit
  | [], _ => []
  | node :: rest, scope => visitsOf node scope ++ visits rest scope

def visitsOf : Node → ScopePath → List Visit
  | .step step, scope => [.step step scope]
  | .branch id selector cases, scope => .branch id selector scope :: caseVisits id cases scope
  | .map id source body yields, scope =>
      .map id source scope ::
        (visits body (bodyScope scope id) ++ [.bodyWalked id yields (bodyScope scope id)])

def caseVisits (branchId : String) : List (String × CaseBody) → ScopePath → List Visit
  | [], _ => []
  | (caseKey, .mk steps yields) :: rest, scope =>
      visits steps (caseScope scope branchId caseKey) ++
        .caseWalked branchId caseKey (.mk steps yields) (caseScope scope branchId caseKey) ::
          caseVisits branchId rest scope

end

mutual

/-- A walk is the fold of its callbacks over the visits. -/
theorem walkNodes_eq_foldl (visitor : NodeVisitor σ) :
    ∀ (nodes : List Node) (scope : ScopePath) (s : σ),
      walkNodes visitor nodes scope s = (visits nodes scope).foldl visitor.call s
  | [], _, _ => rfl
  | node :: rest, scope, s => by
      rw [walkNodes, visits, List.foldl_append, walkNode_eq_foldl visitor node,
        walkNodes_eq_foldl visitor rest]

theorem walkNode_eq_foldl (visitor : NodeVisitor σ) :
    ∀ (node : Node) (scope : ScopePath) (s : σ),
      walkNode visitor node scope s = (visitsOf node scope).foldl visitor.call s
  | .step _, _, _ => rfl
  | .branch id selector cases, scope, s => by
      rw [walkNode, visitsOf, List.foldl_cons, walkCases_eq_foldl visitor id cases]
      rfl
  | .map id source body yields, scope, s => by
      rw [walkNode, visitsOf, List.foldl_cons, List.foldl_append,
        walkNodes_eq_foldl visitor body]
      rfl

theorem walkCases_eq_foldl (visitor : NodeVisitor σ) (branchId : String) :
    ∀ (cases : List (String × CaseBody)) (scope : ScopePath) (s : σ),
      walkCases visitor branchId cases scope s =
        (caseVisits branchId cases scope).foldl visitor.call s
  | [], _, _ => rfl
  | (caseKey, .mk steps yields) :: rest, scope, s => by
      rw [walkCases, caseVisits, List.foldl_append, List.foldl_cons,
        walkNodes_eq_foldl visitor steps, walkCases_eq_foldl visitor branchId rest]
      rfl

end

end WorkflowPlatform
