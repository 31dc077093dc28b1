import WorkflowPlatform.WorkerLoop

/-!
# The errors of a cycle

An error of the inner `try` of `runOnce` comes from the step itself, from a
complete response to its request, from a missing output, from an exchange with
the agent that broke, or from the store. Only a broken exchange may be retried.
-/
namespace WorkflowPlatform

section
variable {α β : Type} {p q : Failure → Prop}

/-- Every error that may come out satisfies `p`. -/
def Raises (p : Failure → Prop) (r : Except Failure α) : Prop := ∀ e, r = .error e → p e

theorem raises_ok (a : α) : Raises p (.ok a : Except Failure α) := fun _ h => by cases h

theorem raises_error {e : Failure} (h : p e) : Raises p (.error e : Except Failure α) := by
  rintro _ ⟨⟩
  exact h

theorem Raises.bind {r : Except Failure α} {f : α → Except Failure β} (hr : Raises p r)
    (hf : ∀ a, Raises p (f a)) : Raises p (r >>= f) := by
  cases r with
  | ok a => exact hf a
  | error e => exact raises_error (hr e rfl)

theorem Raises.mono {r : Except Failure α} (hr : Raises p r) (h : ∀ e, p e → q e) :
    Raises q r := fun e he => h e (hr e he)

end

/-- An error of the step itself or of a complete response to it. -/
def Failure.ofStep : Failure → Prop
  | .fatal id _ => id ≠ .ENGINE_NODE_OUTPUT_MISSING
  | .typeError => True
  | .syntaxError => True
  | _ => False

theorem Failure.ofStep.notMissing {e : Failure} (h : e.ofStep) : e.isOutputMissing = false := by
  cases e with
  | fatal id context => exact decide_eq_false h
  | _ => rfl

theorem Failure.ofStep.notRetryable {e : Failure} (h : e.ofStep) : e.isRetryable = false := by
  cases e with
  | retryable => cases h
  | _ => rfl

theorem raises_assertSafeArgValue (key : String) (value : Option String) :
    Raises Failure.ofStep (assertSafeArgValue key value) := by
  unfold assertSafeArgValue
  split
  · exact raises_error trivial
  · split_ifs
    · exact raises_error (by simp [Failure.ofStep])
    · exact raises_ok _

theorem raises_assertValidArgFlagName (key : String) :
    Raises Failure.ofStep (assertValidArgFlagName key) := by
  unfold assertValidArgFlagName
  split_ifs
  · exact raises_ok _
  · exact raises_error (by simp [Failure.ofStep])

theorem raises_translateArgs (heavyParams : List String) (input : List (String × JsValue)) :
    Raises Failure.ofStep (translateArgs heavyParams input) := by
  induction input with
  | nil => exact raises_ok _
  | cons pair rest ih =>
      rw [translateArgs.eq_def]
      dsimp only
      split
      · exact ih
      · split_ifs
        · exact ih
        · exact (raises_assertValidArgFlagName _).bind fun _ =>
            (raises_assertSafeArgValue _ _).bind fun _ => ih.bind fun _ => raises_ok _

theorem raises_assertHeavyBindingIsPath (param : String) (value : JsValue) :
    Raises Failure.ofStep (assertHeavyBindingIsPath param value) := by
  unfold assertHeavyBindingIsPath
  split
  · split_ifs
    · exact raises_error (by simp [Failure.ofStep])
    · refine (raises_assertSafeArgValue _ _).bind fun _ => ?_
      split_ifs
      · exact raises_error (by simp [Failure.ofStep])
      · exact raises_ok _
  · exact raises_error (by simp [Failure.ofStep])

theorem raises_renderEntries (input : List (String × JsValue)) (stateId : Option String)
    (entries : List InvocationDescriptorEntry) (rendered : RenderedHeavyBindings) :
    Raises Failure.ofStep (renderEntries input stateId entries rendered) := by
  induction entries generalizing rendered with
  | nil => exact raises_ok _
  | cons entry rest ih =>
      rw [renderEntries.eq_def]
      dsimp only
      split
      · exact ih _
      · refine (raises_assertHeavyBindingIsPath _ _).bind fun _ => ?_
        split
        · exact ih _
        · split_ifs
          · exact raises_error (by simp [Failure.ofStep])
          · exact ih _
        · exact ih _

theorem raises_buildInvokeRequest (params : BuildInvokeRequestParams) :
    Raises Failure.ofStep (buildInvokeRequest params) := by
  refine Raises.bind ?_ fun _ => (raises_translateArgs _ _).bind fun _ => raises_ok _
  exact (raises_renderEntries _ _ _ _).bind fun _ => raises_ok _

theorem raises_readDispatch (response : ParsedJson) :
    Raises Failure.ofStep (readDispatch response) := by
  unfold readDispatch
  split
  · split_ifs
    · unfold parseInvokeOutput
      split
      · exact raises_ok _
      · exact raises_ok _
      · exact raises_ok _
      · exact raises_error (by simp [Failure.ofStep])
    · exact raises_ok _
  · exact raises_error trivial

theorem raises_reportedFailure (executionId : ℕ) (nodeId : String) (response : ParsedJson) :
    Raises Failure.ofStep (reportedFailure executionId nodeId response) := by
  refine Raises.bind ?_ fun _ => raises_ok _
  unfold stderrExcerpt
  split
  · exact raises_ok _
  · exact raises_ok _
  · exact raises_error trivial

/-- The exchange broke: the request came to nothing, or the body of a response
with a good status did not arrive whole. -/
def Failure.ofExchange : Failure → Prop
  | .retryable .. => True
  | .bodyUnreadable => True
  | _ => False

theorem raises_readResponse (url : String) (outcome : FetchOutcome) :
    Raises (fun e => e.ofStep ∨ e.ofExchange) (readResponse url outcome) := by
  unfold readResponse
  split
  · exact raises_error (.inr trivial)
  · split_ifs
    · exact raises_error (.inl (by simp [Failure.ofStep]))
    · split
      · exact raises_ok _
      · exact raises_error (.inl trivial)
      · exact raises_error (.inr trivial)
    · exact raises_error (.inr trivial)

theorem raises_assertPlainNodes (seenIds : List String) (nodes : List Node) :
    Raises Failure.ofStep (assertPlainNodes seenIds nodes) := by
  induction nodes generalizing seenIds with
  | nil => exact raises_ok _
  | cons node rest ih =>
      cases node with
      | branch | map => exact raises_error (by simp [unsupportedNodeKind, Failure.ofStep])
      | step step =>
          rw [assertPlainNodes]
          split_ifs
          · exact raises_error (by simp [Failure.ofStep])
          · exact (ih _).bind fun _ => raises_ok _

theorem raises_findRunStepNode (run : WorkflowRun) (nodeId : String) :
    Raises Failure.ofStep (findRunStepNode run nodeId) := by
  refine (raises_assertPlainNodes _ _).bind fun steps => ?_
  unfold findStepNode
  split
  · exact raises_ok _
  · exact raises_error (by simp [Failure.ofStep])

theorem findStepNode_id {steps : List Step} {nodeId : String} {step : Step}
    (h : findStepNode steps nodeId = .ok step) : step.id = nodeId := by
  unfold findStepNode at h
  split at h
  · rename_i found hfind
    cases h
    simpa using List.find?_some hfind
  · cases h

/-- The only other error of a binding is a missing output, which needs a `step`
binding whose value is not there. -/
theorem raises_resolveBindings (ctx : BindingContext) (bindings : List (String × Binding)) :
    Raises (fun e => e.ofStep ∨ ∃ key id output, (key, Binding.step id output) ∈ bindings ∧
      (ctx.nodeOutputs.get id).truthy = false ∧ e = nodeOutputMissing id output)
      (resolveBindings ctx bindings) := by
  induction bindings with
  | nil => exact raises_ok _
  | cons pair rest ih =>
      obtain ⟨key, binding⟩ := pair
      refine Raises.bind ?_ fun _ => (ih.mono ?_).bind fun _ => raises_ok _
      · cases binding with
        | step id output =>
            simp only [resolveBinding, readOutput]
            split_ifs with htruthy
            · split
              · exact raises_ok _
              · exact raises_error (.inl trivial)
            · exact raises_error (.inr ⟨key, id, output, List.mem_cons_self,
                by simpa using htruthy, rfl⟩)
        | literal | request => exact raises_ok _
        | compute | session | static | item | itemResource =>
            exact raises_error (.inl (by simp [kindNotSupported, Failure.ofStep]))
      · rintro e (he | ⟨key', id, output, hmem, hfalsy, rfl⟩)
        · exact .inl he
        · exact .inr ⟨key', id, output, List.mem_cons_of_mem _ hmem, hfalsy, rfl⟩

end WorkflowPlatform
