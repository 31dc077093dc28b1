import WorkflowPlatform.DescriptorSlots

/-!
# Positional slots

A registration gives each positional parameter an index of its own, and leaves it
to the function which of them a step binds. The worker sends the bound ones as a
list without gaps. So a path arrives in the slot of its parameter exactly if the
bound indexes have no gap.
-/
namespace WorkflowPlatform

/-- Different numbers in ascending order, from `start` on and without a gap. -/
theorem eq_range'_of_closed {l : List ℕ} {start : ℕ} (hsorted : l.Pairwise (· < ·))
    (hstart : ∀ n ∈ l, start ≤ n) (hclosed : ∀ n ∈ l, ∀ m, start ≤ m → m < n → m ∈ l) :
    l = List.range' start l.length := by
  induction l generalizing start with
  | nil => rfl
  | cons a rest ih =>
      rw [List.pairwise_cons] at hsorted
      have ha : a = start := by
        have hle := hstart a List.mem_cons_self
        by_contra hne
        have hmem := hclosed a List.mem_cons_self start le_rfl (by omega)
        rcases List.mem_cons.mp hmem with heq | hrest
        · exact hne heq.symm
        · have hlt := hsorted.1 start hrest
          omega
      subst ha
      rw [List.length_cons, List.range'_succ]
      congr 1
      apply ih hsorted.2
      · exact fun n hn => hsorted.1 n hn
      · intro n hn m hm hmn
        rcases List.mem_cons.mp (hclosed n (List.mem_cons_of_mem _ hn) m (by omega) hmn) with rfl | h
        · omega
        · exact h

section
variable {params : BuildInvokeRequestParams} {request : InvokeRequest}

/-- The step binds the parameter that is declared with this index to this path. -/
def BoundAt (params : BuildInvokeRequestParams) (i : ℕ) (path : String) : Prop :=
  ∃ e ∈ params.capability.invocationDescriptor, e.style = .positional ∧
    e.positionIndex = some i ∧ boundPath params.resolvedInput e = some path

/-- Wherever a positional parameter is bound, so are those with a lower index. -/
def NoGap (params : BuildInvokeRequestParams) : Prop :=
  ∀ i path, BoundAt params i path → ∀ j < i, ∃ path', BoundAt params j path'

/-- The positional arguments, in the request and behind the flags of the command
line, are the paths of the bound parameters, each at its index. -/
def SlotsKept (params : BuildInvokeRequestParams) (request : InvokeRequest) : Prop :=
  (∃ pairs, Agent.buildArgs request.onWire =
    .ok (Agent.flagTokens pairs ++ request.onWire.positionalArgs)) ∧
  ∀ i path, request.onWire.positionalArgs[i]? = some path ↔ BoundAt params i path

theorem mem_slots_iff (hdeclared : DeclaredOnce params.capability.invocationDescriptor) {i : ℕ}
    {path : String} :
    (i, path) ∈ params.capability.invocationDescriptor.filterMap (slotOf params.resolvedInput) ↔
      BoundAt params i path := by
  rw [List.mem_filterMap]
  constructor
  · rintro ⟨e, he, hslot⟩
    cases hstyle : e.style with
    | flag => simp [slotOf, hstyle] at hslot
    | stdin => simp [slotOf, hstyle] at hslot
    | positional =>
        obtain ⟨j, hj⟩ := hdeclared.positions e he hstyle
        simp only [slotOf, hstyle, hj, Option.getD_some, Option.map_eq_some_iff, Prod.mk.injEq]
          at hslot
        obtain ⟨path', hpath, rfl, rfl⟩ := hslot
        exact ⟨e, he, hstyle, hj, hpath⟩
  · rintro ⟨e, he, hstyle, hi, hpath⟩
    refine ⟨e, he, ?_⟩
    simp [slotOf, hstyle, hi, hpath]

theorem slotsKept_iff_noGap (hdeclared : DeclaredOnce params.capability.invocationDescriptor)
    (h : buildInvokeRequest params = .ok request) : SlotsKept params request ↔ NoGap params := by
  obtain ⟨slots, hperm, hsorted, hpositional⟩ := buildInvokeRequest_positional h
  have hmem : ∀ i path, (i, path) ∈ slots ↔ BoundAt params i path := fun i path =>
    hperm.mem_iff.trans (mem_slots_iff hdeclared)
  constructor
  · rintro ⟨-, hkept⟩ i path hbound j hj
    obtain ⟨hlength, -⟩ := List.getElem?_eq_some_iff.mp ((hkept i path).mpr hbound)
    exact ⟨_, (hkept j _).mp (List.getElem?_eq_getElem (hj.trans hlength))⟩
  · intro hgap
    obtain ⟨argv, hargv⟩ := buildArgs_accepts hdeclared.toAcceptedDescriptor h
    obtain ⟨rfl, -⟩ := Agent.buildArgs_eq hargv
    have hrange : slots.map Prod.fst = List.range' 0 (slots.map Prod.fst).length := by
      apply eq_range'_of_closed hsorted
      · exact fun n _ => Nat.zero_le n
      · intro n hn m _ hmn
        obtain ⟨⟨k, path⟩, hslot, rfl⟩ := List.mem_map.mp hn
        obtain ⟨path', hpath'⟩ := hgap k path ((hmem k path).mp hslot) m hmn
        exact List.mem_map.mpr ⟨(m, path'), (hmem m path').mpr hpath', rfl⟩
    -- the pair at a place has that place for its index
    have hindex : ∀ k (hk : k < slots.length), slots[k].1 = k := by
      intro k hk
      have hat : (slots.map Prod.fst)[k]? = (List.range' 0 (slots.map Prod.fst).length)[k]? :=
        congrArg (·[k]?) hrange
      simpa [hk] using hat
    refine ⟨⟨_, hargv⟩, fun i path => ?_⟩
    rw [hpositional, ← hmem]
    constructor
    · intro hat
      rw [List.getElem?_map, Option.map_eq_some_iff] at hat
      obtain ⟨slot, hslot, rfl⟩ := hat
      obtain ⟨hi, rfl⟩ := List.getElem?_eq_some_iff.mp hslot
      have hpair : (i, slots[i].2) = slots[i] := Prod.ext (hindex i hi).symm rfl
      rw [hpair]
      exact List.getElem_mem hi
    · intro hslot
      obtain ⟨k, hk, hpair⟩ := List.getElem_of_mem hslot
      have hki : k = i := by
        rw [← hindex k hk, hpair]
      subst hki
      rw [List.getElem?_map, List.getElem?_eq_getElem hk, hpair]
      rfl

end

/-- A path that the worker renders for an accepted registration arrives in the slot
of its parameter exactly if no positional parameter is bound without those before
it. -/
theorem positional_slots_kept_iff {payload : RegistrationPayload} {capabilities : JsonObject}
    {fnName : String} {cap : Json} {params : BuildInvokeRequestParams} {request : InvokeRequest}
    (hvalid : validateRegistration payload = .ok [])
    (hcapabilities : payload.capabilityMetadata = some (.obj capabilities))
    (hcap : (fnName, cap) ∈ capabilities)
    (hdescriptor : descriptorOf cap = some params.capability.invocationDescriptor)
    (hrequest : buildInvokeRequest params = .ok request) :
    SlotsKept params request ↔ NoGap params :=
  slotsKept_iff_noGap (validateRegistration_declares hvalid hcapabilities hcap hdescriptor) hrequest

/-- A function that takes a source and a target by position. -/
def copierCapability : Json := .obj [("mutates", .bool false),
  ("materializationCostClass", .str "heavy"), ("cowSupport", .bool false),
  ("changeDetectionSupport", .bool false), ("nestingDeclaration", .null),
  ("invocationDescriptor", .arr [
    .obj [("param", .str "source"), ("style", .str "positional"),
      ("positionIndex", .num .zero)],
    .obj [("param", .str "target"), ("style", .str "positional"),
      ("positionIndex", .num ⟨1, 0, .inl (by decide)⟩)]]),
  ("stateReuse", .str "none"), ("additiveWarmUpdate", .bool false)]

def copierPayload : RegistrationPayload where
  digest := some (.str "sha256:a")
  ociRef := some (.str "registry/copier")
  openapiSpec := some (.obj [("paths", .obj [("/copy", .obj [("post",
    .obj [("operationId", .str "copy")])])])])
  capabilityMetadata := some (.obj [("copy", copierCapability)])

/-- The worker's parameters for a step that binds some of the two. -/
def copierParams (resolvedInput : List (String × JsValue)) : BuildInvokeRequestParams where
  executionId := 1
  step := { id := "s", service := "copier", function := "copy" }
  resolvedInput
  timeoutMs := 1000
  capability := { invocationDescriptor := [
    { param := "source", style := .positional, positionIndex := some 0 },
    { param := "target", style := .positional, positionIndex := some 1 }] }

def copierRequest (positionalArgs : List String) : InvokeRequest where
  executionId := "1"
  stepId := "s"
  function := "copy"
  args := []
  positionalArgs := some positionalArgs
  dataFiles := none
  timeoutMs := 1000

theorem positional_slots_kept_both :
    SlotsKept (copierParams [("target", .json (.str "/b")), ("source", .json (.str "/a"))])
        (copierRequest ["/a", "/b"]) ↔
      NoGap (copierParams [("target", .json (.str "/b")), ("source", .json (.str "/a"))]) :=
  positional_slots_kept_iff (show validateRegistration copierPayload = .ok [] from rfl) rfl
    (List.mem_singleton_self ("copy", copierCapability)) rfl rfl

/-- Without a source, the target arrives in its slot. -/
theorem target_in_slot_of_source :
    validateRegistration copierPayload = .ok [] ∧
      descriptorOf copierCapability = some (copierParams []).capability.invocationDescriptor ∧
      buildInvokeRequest (copierParams [("target", .json (.str "/b"))]) =
        .ok (copierRequest ["/b"]) ∧
      ¬ SlotsKept (copierParams [("target", .json (.str "/b"))]) (copierRequest ["/b"]) := by
  refine ⟨rfl, rfl, rfl, ?_⟩
  rintro ⟨-, hkept⟩
  obtain ⟨e, he, -, hindex, hpath⟩ := (hkept 0 "/b").mp rfl
  simp only [copierParams, List.mem_cons, List.not_mem_nil, or_false] at he
  rcases he with rfl | rfl
  · exact absurd hpath (by decide)
  · exact absurd hindex (by decide)

end WorkflowPlatform
