import WorkflowPlatform.FlagNames
import WorkflowPlatform.StepReads

/-!
# Names that every object has

A binding reads a property of an object by a name that an author has chosen. An
object without a property of that name of its own may inherit one. So what is
read is what was supplied exactly if the name is there, or is none that objects
inherit. An object that has been assigned under `__proto__` becomes a prototype
itself, which hides it behind a property of that name of its own.
-/
namespace WorkflowPlatform

/-- The names that every object inherits a property of. -/
def isInheritedName (name : String) : Bool :=
  name = "__proto__" || name ∈ Builtin.object.members

theorem inherited_object_eq_undefined {name : String} :
    JsValue.inherited .object name = .undefined ↔ isInheritedName name = false := by
  unfold JsValue.inherited isInheritedName
  by_cases hproto : name = "__proto__"
  · simp [hproto]
  · by_cases hmember : name ∈ Builtin.object.members <;> simp [hproto, hmember]

/-- The name is there, or is none that objects inherit. -/
def SeenOwn (fields : JsonObject) (name : String) : Prop :=
  (fields.lookup name).isSome = true ∨ isInheritedName name = false

theorem field_eq_own_iff {fields : JsonObject} {name : String} :
    JsValue.field fields name = .ofOption (fields.lookup name) ↔ SeenOwn fields name := by
  unfold JsValue.field SeenOwn
  cases hlookup : fields.lookup name with
  | none => simpa [JsValue.ofOption] using inherited_object_eq_undefined
  | some j => simp [JsValue.ofOption]

section
variable (input : JsonObject) (recorded : String → Option JsonObject)

/-- What was supplied for a binding under exactly its name. -/
def suppliedValue : Binding → JsValue
  | .literal value => .json value
  | .request param => .ofOption (input.lookup param)
  | .step id output => .ofOption ((recorded id).bind fun fields => fields.lookup output)
  | _ => .undefined

/-- A binding of a kind that is supported, to a step that has been recorded if to any. -/
def Resolvable : Binding → Prop
  | .literal _ => True
  | .request _ => True
  | .step id _ => (recorded id).isSome = true
  | _ => False

/-- The property that is read in the place of the output of a step. -/
def hidingProperty (id : String) (fields : JsonObject) : Option Json :=
  if id = "__proto__" then fields.lookup "__proto__" else none

/-- The name of the binding is there or is none that objects inherit. Where the
output of a step is hidden by a property, that property must have the same value
under the name. -/
def SeesSupplied : Binding → Prop
  | .request param => SeenOwn input param
  | .step id output => ∃ fields, recorded id = some fields ∧
      match hidingProperty id fields with
      | none => SeenOwn fields output
      | some j => (JsValue.json j).truthy = true ∧
          (JsValue.json j).property output = some (.ofOption (fields.lookup output))
  | _ => True

end

section
variable {input : JsonObject} {recorded : String → Option JsonObject} {ids : List String}

theorem readOutput_eq_ok_iff {value v : JsValue} {id output : String} :
    readOutput value id output = .ok v ↔ value.truthy = true ∧ value.property output = some v := by
  unfold readOutput
  cases htruthy : value.truthy <;> cases hproperty : value.property output <;> simp

/-- One binding, resolved against the outputs of the dependencies. -/
theorem resolveBinding_supplied_iff {b : Binding} (hb : Resolvable recorded b)
    (hids : ∀ id ∈ collectStepBindingIds b, id ∈ ids) :
    resolveBinding b { input, nodeOutputs := gather recorded ids {} } =
        .ok (suppliedValue input recorded b) ↔ SeesSupplied input recorded b := by
  cases b with
  | literal value => exact iff_of_true rfl trivial
  | request param =>
      rw [resolveBinding, suppliedValue, Except.ok.injEq]
      exact field_eq_own_iff
  | step id output =>
      obtain ⟨fields, hfields⟩ := Option.isSome_iff_exists.mp hb
      have hget : (gather recorded ids {}).get id = readBack id fields :=
        gather_get hfields (hids id (List.mem_singleton_self id))
      rw [resolveBinding, hget, readOutput_eq_ok_iff]
      simp only [SeesSupplied, suppliedValue, hfields, Option.bind_some, Option.some.injEq,
        exists_eq_left']
      rw [readBack, ← hidingProperty]
      cases hhiding : hidingProperty id fields with
      | none =>
          simp only [JsValue.truthy, JsValue.property, Option.some.injEq, true_and]
          exact field_eq_own_iff
      | some j => exact Iff.rfl
  | compute expression bindings => exact hb.elim
  | session key => exact hb.elim
  | static ref => exact hb.elim
  | item => exact hb.elim
  | itemResource itemId path => exact hb.elim

theorem resolveBindings_eq_ok_iff {ctx : BindingContext} {value : Binding → JsValue}
    {reads : List (String × Binding)} :
    resolveBindings ctx reads = .ok (reads.map fun p => (p.1, value p.2)) ↔
      ∀ p ∈ reads, resolveBinding p.2 ctx = .ok (value p.2) := by
  induction reads with
  | nil => simp [resolveBindings]
  | cons p rest ih =>
      rw [List.forall_mem_cons, ← ih, resolveBindings, bind_eq_ok]
      constructor
      · rintro ⟨v, hv, h⟩
        obtain ⟨values, hvalues, h⟩ := bind_eq_ok.mp h
        cases h
        exact ⟨hv, hvalues⟩
      · rintro ⟨hv, hvalues⟩
        exact ⟨_, hv, bind_eq_ok.mpr ⟨_, hvalues, rfl⟩⟩

theorem resolveBindings_keys {ctx : BindingContext} {reads : List (String × Binding)}
    {resolved : List (String × JsValue)} (h : resolveBindings ctx reads = .ok resolved) :
    resolved.map Prod.fst = reads.map Prod.fst := by
  induction reads generalizing resolved with
  | nil =>
      cases h
      rfl
  | cons p rest ih =>
      obtain ⟨v, -, h⟩ := bind_eq_ok.mp h
      obtain ⟨values, hvalues, h⟩ := bind_eq_ok.mp h
      cases h
      rw [List.map_cons, List.map_cons, ih hvalues]

end

/-! ### What the request carries -/

/-- The request carries something for each parameter with a defined value, and
nothing for any other. -/
structure CarriesDefined (params : BuildInvokeRequestParams) (request : InvokeRequest) : Prop where
  carried : ∀ key, key ∈ definedParams params ↔ ∃ r ∈ request.rendered, Renders params key r
  nothingElse : ∀ r ∈ request.rendered, ∃ key ∈ definedParams params, Renders params key r

section
variable {params : BuildInvokeRequestParams} {request : InvokeRequest}

theorem Renders.defined (hkeys : (params.resolvedInput.map Prod.fst).Nodup) {key : String}
    {r : Rendered} (h : Renders params key r) : key ∈ definedParams params := by
  have hmem : ∀ {value}, params.resolvedInput.lookup key = some value → value.isDefined = true →
      key ∈ definedParams params := fun hlookup hdefined =>
    mem_definedParams.mpr ⟨_, (AssocList.lookup_eq_some_iff_mem hkeys).mp hlookup, hdefined⟩
  cases r with
  | arg name text =>
      obtain ⟨-, -, value, hlookup, htext⟩ := h
      cases value with
      | undefined => cases htext
      | _ => exact hmem hlookup rfl
  | dataFile flag path =>
      obtain ⟨e, -, -, -, -, hlookup⟩ := h
      exact hmem hlookup rfl
  | positional path =>
      obtain ⟨e, -, -, -, hlookup⟩ := h
      exact hmem hlookup rfl
  | stdin path =>
      obtain ⟨e, -, -, -, hlookup⟩ := h
      exact hmem hlookup rfl

theorem buildInvokeRequest_carriesDefined (hkeys : (params.resolvedInput.map Prod.fst).Nodup)
    (h : buildInvokeRequest params = .ok request) : CarriesDefined params request := by
  have hmem : ∀ r, r ∈ request.rendered ↔ ∃ key, (key, r) ∈ renderings params request := by
    intro r
    rw [← (renderings_perm h).mem_iff]
    simp
  constructor
  · intro key
    constructor
    · intro hdefined
      obtain ⟨⟨_, r⟩, hr, rfl⟩ := List.mem_map.mp ((mem_renderings_params hkeys h).mpr hdefined)
      exact ⟨r, (hmem r).mpr ⟨_, hr⟩, renderings_render hkeys h _ hr⟩
    · rintro ⟨r, -, hr⟩
      exact hr.defined hkeys
  · intro r hr
    obtain ⟨key, hkey⟩ := (hmem r).mp hr
    have hrenders := renderings_render hkeys h _ hkey
    exact ⟨key, hrenders.defined hkeys, hrenders⟩

end

/-- The reads of a step, whatever they are called, resolve to what the caller and
the steps it depends on have supplied under exactly these names, and the request
carries those that are defined, exactly if no name is one that an object inherits
in the place of a value that was not supplied. -/
theorem reads_supplied_iff (c : Choice) (locked : Row → Bool) (db : Db) (ws : List Write)
    (runId : ℕ) (run : WorkflowRun) (node : Step)
    (hkeys : ((node.reads.getD []).map Prod.fst).Nodup)
    (hreads : ∀ p ∈ node.reads.getD [],
      Resolvable (((platform.view db ws).runNodeOutputs runId).lookup ·) p.2) :
    let recorded := (((platform.view db ws).runNodeOutputs runId).lookup ·)
    let resolution := ((resolveStepReads runId run node).run (platform.handle c locked db)
      ⟨ws, false⟩).1
    (resolution = .ok ((node.reads.getD []).map fun p =>
        (p.1, suppliedValue run.input recorded p.2)) ∧
      ∀ resolved, resolution = .ok resolved → ∀ params request, params.resolvedInput = resolved →
        buildInvokeRequest params = .ok request → CarriesDefined params request) ↔
      ∀ p ∈ node.reads.getD [], SeesSupplied run.input recorded p.2 := by
  intro recorded resolution
  have hresolution : resolution = resolveBindings
      { input := run.input, nodeOutputs := gather recorded (computeStepDependencies node) {} }
      (node.reads.getD []) := by
    change (Script.run _ (collectNodeOutputs runId (computeStepDependencies node) {} >>= _) _).1 = _
    rw [Script.run_bind, run_collectNodeOutputs]
    rfl
  have hdependency : ∀ p ∈ node.reads.getD [], ∀ id ∈ collectStepBindingIds p.2,
      id ∈ computeStepDependencies node := by
    intro p hp id hid
    rw [mem_computeStepDependencies]
    exact List.mem_append_right _ (mem_collectBindingMapIds.mpr ⟨p.1, p.2, hp, hid⟩)
  have hiff : (∀ p ∈ node.reads.getD [], resolveBinding p.2
        { input := run.input, nodeOutputs := gather recorded (computeStepDependencies node) {} } =
          .ok (suppliedValue run.input recorded p.2)) ↔
      ∀ p ∈ node.reads.getD [], SeesSupplied run.input recorded p.2 := by
    apply forall₂_congr
    intro p hp
    exact resolveBinding_supplied_iff (hreads p hp) (hdependency p hp)
  rw [hresolution, resolveBindings_eq_ok_iff, hiff]
  apply and_iff_left
  intro resolved hresolved params request hinput hrequest
  apply buildInvokeRequest_carriesDefined _ hrequest
  rw [hinput, resolveBindings_keys hresolved]
  exact hkeys

/-- A run whose step `load` has recorded one row. -/
def loadedDb : Db := { Db.empty with
  runNodeOutputs := fun runId => if runId = 1 then [("load", [("rows", .bool true)])] else [] }

def loadedRun : WorkflowRun where
  sessionId := none
  spec := { workflowSpecVersion := 1, name := "w", steps := [] }
  input := [("table", .str "/t")]

/-- A step that reads the given parameter and an output of `load`. -/
def readingStep (param : String) : Step where
  id := "s"
  service := "loader@sha256:a"
  function := "load"
  reads := some [("x", .request param), ("y", .step "load" "rows")]

theorem reads_supplied_loaded :
    ((resolveStepReads 1 loadedRun (readingStep "table")).run
      (platform.handle ⟨0, .rejected, id, fun _ => .refl _⟩ (fun _ => false) loadedDb) {}).1 =
      .ok [("x", .json (.str "/t")), ("y", .json (.bool true))] :=
  ((reads_supplied_iff ⟨0, .rejected, id, fun _ => .refl _⟩ (fun _ => false) loadedDb [] 1 loadedRun
    (readingStep "table") (by decide) (by
      intro p hp
      simp only [readingStep, Option.getD_some, List.mem_cons, List.not_mem_nil, or_false] at hp
      rcases hp with rfl | rfl
      · trivial
      · rfl)).mpr (by
        intro p hp
        simp only [readingStep, Option.getD_some, List.mem_cons, List.not_mem_nil, or_false] at hp
        rcases hp with rfl | rfl
        · exact .inl rfl
        · exact ⟨_, rfl, .inl rfl⟩)).1

/-- A parameter that the caller did not supply, of a name that objects inherit: the
step reads a function. -/
theorem inherited_parameter_read :
    ((resolveStepReads 1 loadedRun (readingStep "constructor")).run
      (platform.handle ⟨0, .rejected, id, fun _ => .refl _⟩ (fun _ => false) loadedDb) {}).1 =
        .ok [("x", .method .object "constructor"), ("y", .json (.bool true))] ∧
      suppliedValue loadedRun.input (([("load", [("rows", .bool true)])] :
        List (String × JsonObject)).lookup ·) (.request "constructor") = .undefined := ⟨rfl, rfl⟩

end WorkflowPlatform
