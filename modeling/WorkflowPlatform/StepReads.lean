import WorkflowPlatform.RunProtocol
import WorkflowPlatform.WorkerScripts

/-!
# What a step reads

`collectNodeOutputs` fills the object that the bindings of a step are resolved
against. Between its queries other workers may record further outputs, but the
dependencies of a claimed step are all recorded already and an output never
changes, so the object is the one the recorded outputs determine.
-/
namespace WorkflowPlatform
open Dataflow

/-- The object `collectNodeOutputs` builds from these recorded outputs. -/
def gather (out : String → Option JsonObject) : List String → NodeOutputs → NodeOutputs
  | [], n => n
  | id :: rest, n => match out id with
      | some output => gather out rest (n.assign id output)
      | none => gather out rest n

/-- What an output that was assigned under its id is read back as. -/
def readBack (id : String) (output : JsonObject) : JsValue :=
  match if id = "__proto__" then output.lookup "__proto__" else none with
  | some j => .json j
  | none => .json (.obj output)

theorem gather_own {out : String → Option JsonObject} {ids : List String} {n : NodeOutputs}
    {id : String} {output : JsonObject} (hid : id ≠ "__proto__") (ho : out id = some output)
    (h : id ∈ ids ∨ n.own.lookup id = some output) :
    (gather out ids n).own.lookup id = some output := by
  induction ids generalizing n with
  | nil => exact h.resolve_left List.not_mem_nil
  | cons i rest ih =>
      rw [gather]
      by_cases hi : id = i
      · subst hi
        rw [ho]
        exact ih (.inr (by simp [NodeOutputs.assign, hid]))
      · have hrest : id ∈ rest ∨ n.own.lookup id = some output := by
          simpa [hi] using h
        cases hout : out i with
        | none => exact ih hrest
        | some o => exact ih (hrest.imp_right (NodeOutputs.get_assign_other hi))

theorem gather_proto {out : String → Option JsonObject} {ids : List String} {n : NodeOutputs}
    {output : JsonObject} (ho : out "__proto__" = some output)
    (h : "__proto__" ∈ ids ∨ n.proto = some output) (hown : n.own.lookup "__proto__" = none) :
    (gather out ids n).proto = some output ∧
      (gather out ids n).own.lookup "__proto__" = none := by
  induction ids generalizing n with
  | nil => exact ⟨h.resolve_left List.not_mem_nil, hown⟩
  | cons i rest ih =>
      rw [gather]
      by_cases hi : "__proto__" = i
      · subst hi
        rw [ho]
        exact ih (.inr rfl) hown
      · have hrest : "__proto__" ∈ rest ∨ n.proto = some output := by
          simpa [hi] using h
        have hb : ("__proto__" == i) = false := by simpa using hi
        cases hout : out i with
        | none => exact ih hrest hown
        | some o =>
            have hassign : n.assign i o = { n with own := (i, o) :: n.own } :=
              if_neg (Ne.symm hi)
            refine ih (n := n.assign i o) ?_ ?_
            · rwa [hassign]
            · simpa [hassign, List.lookup_cons, hb] using hown

theorem gather_get {out : String → Option JsonObject} {ids : List String} {id : String}
    {output : JsonObject} (ho : out id = some output) (hid : id ∈ ids) :
    (gather out ids {}).get id = readBack id output := by
  by_cases hp : id = "__proto__"
  · subst hp
    obtain ⟨hproto, hown⟩ := gather_proto (n := {}) ho (.inl hid) rfl
    refine (NodeOutputs.get_proto hown hproto).trans ?_
    cases hinner : output.lookup "__proto__" <;> simp only [readBack, hinner, if_true]
  · simp only [NodeOutputs.get, gather_own hp ho (.inl hid), readBack, hp, if_false]

section
variable {c : Choice} {locked : Row → Bool} {db : Db} {ws : List Write} {α : Type}

theorem run_query {op : Op} {f : Resp op → Tx α} {a : Resp op} {ws' : List Write}
    (h : (platform.view db ws).respond c locked op = some (a, ws')) :
    (query op >>= f).run (platform.handle c locked db) ⟨ws, false⟩ =
      (f a).run (platform.handle c locked db) ⟨ws ++ ws', false⟩ := by
  change Script.run _ (Script.call op fun r => Script.done r >>= f) _ = _
  rw [Script.run_call, platform.handle_of_some h]
  rfl

/-- Collecting outputs only reads them. -/
theorem run_collectNodeOutputs (runId : ℕ) (ids : List String) (n : NodeOutputs) :
    (collectNodeOutputs runId ids n).run (platform.handle c locked db) ⟨ws, false⟩ =
      (.ok (gather (fun id => ((platform.view db ws).runNodeOutputs runId).lookup id) ids n),
        ⟨ws, false⟩) := by
  induction ids generalizing n with
  | nil => rfl
  | cons id rest ih =>
      rw [collectNodeOutputs, RunNodeOutputsRepo.get, run_query rfl, List.append_nil, gather]
      cases ((platform.view db ws).runNodeOutputs runId).lookup id with
      | none => exact ih n
      | some output => exact ih _

end

section
variable {R : SubmittedRun} {admits : String → JsonObject → Prop} {env : Op → Choice → Prop}
variable {id : ℕ} {e : Execution} {ws : List Write} {db₀ db : Db}
variable {σ : RunState String JsonObject}

/-- What was recorded once is what is found at any later time. -/
theorem RunRely.lookup (hr : RunRely R admits ws db₀ db) (hσ : Represents R db₀ σ)
    (hc : Consistent R.graph admits σ) {i : String} {output : JsonObject}
    (hi : σ.output i = some output) : (db.runNodeOutputs R.id).lookup i = some output := by
  obtain ⟨σ', hσ', hreach⟩ := hr.moves σ hσ hc
  rw [hσ'.outputs]
  exact hc.output_reaches hreach hi

theorem straight_collectNodeOutputs (runId : ℕ) (ids : List String) (n : NodeOutputs) :
    (collectNodeOutputs runId ids n).Straight Failure.database :=
  (tame_collectNodeOutputs (P := fun _ => True) runId (fun _ => trivial) ids n).straight

theorem straight_resolveStepReads (runId : ℕ) (run : WorkflowRun) (node : Step) :
    (resolveStepReads runId run node).Straight Failure.database :=
  (tame_resolveStepReads (P := fun _ => True) runId (fun _ => trivial) run node).straight

theorem ensures_collectNodeOutputs (hσ : Represents R db₀ σ) (hc : Consistent R.graph admits σ)
    (hclaim : Claimed R id e ws db₀) {ids : List String}
    (hids : ∀ i ∈ ids, (σ.output i).isSome) (n : NodeOutputs)
    (hr : RunRely R admits ws db₀ db) :
    (runProtocol R admits env).Ensures (fun ab r ws' db' => ab = false →
      r = .ok (gather σ.output ids n) ∧ ws' = ws ∧ RunRely R admits ws db₀ db') false
      (collectNodeOutputs R.id ids n) ws db := by
  induction ids generalizing n db with
  | nil =>
      intro d _ hr' _
      exact ⟨rfl, rfl, (runProtocol R admits env).rely_trans _ _ _ _ hr hr'⟩
  | cons i rest ih =>
      refine Protocol.ensures_query _ (fun _ _ hab => by cases hab) fun d hd hr' => ⟨trivial, ?_⟩
      intro c locked found ws' _ hresp
      obtain ⟨rfl, rfl⟩ := Prod.mk.inj (Option.some.inj hresp)
      have hrd : RunRely R admits ws db₀ d :=
        (runProtocol R admits env).rely_trans _ _ _ _ hr hr'
      obtain ⟨output, hout⟩ := Option.isSome_iff_exists.mp (hids i List.mem_cons_self)
      rw [(hclaim.of_rely hrd).view.outputs, hrd.lookup hσ hc hout, List.append_nil]
      simp only [gather, hout]
      exact ih (fun j hj => hids j (List.mem_cons_of_mem _ hj)) _ hrd

/-- The inputs of a claimed step are its bindings, resolved against the outputs
recorded when the claim was made. -/
theorem ensures_resolveStepReads (hdb : (runProtocol R admits env).inv db)
    (hσ : Represents R db₀ σ) (hc : Consistent R.graph admits σ)
    (hclaim : Claimed R id e ws db₀) {run : WorkflowRun} {node : Step}
    (hdeps : ∀ i ∈ computeStepDependencies node, (σ.output i).isSome)
    (hr : RunRely R admits ws db₀ db) :
    (runProtocol R admits env).Ensures (fun ab r ws' db' => ab = false →
      r = resolveBindings
        { input := run.input
          nodeOutputs := gather σ.output (computeStepDependencies node) {} }
        (node.reads.getD []) ∧ ws' = ws ∧ RunRely R admits ws db₀ db') false
      (resolveStepReads R.id run node) ws db := by
  refine (ensures_collectNodeOutputs hσ hc hclaim hdeps {} hr).bind hdb
    (straight_collectNodeOutputs R.id _ _) (fun _ _ _ hab => by cases hab) ?_ ?_
  · rintro n ws' d _ ⟨hn, rfl, hrd⟩
    cases hn
    intro d' _ hr' _
    exact ⟨rfl, rfl, (runProtocol R admits env).rely_trans _ _ _ _ hrd hr'⟩
  · rintro err ws' d _ ⟨hn, -⟩
    cases hn

end
end WorkflowPlatform
