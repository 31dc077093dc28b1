import WorkflowPlatform.DescriptorValidation

/-!
# The registrations that are accepted

What the complaints of `validateRegistration` amount to is one predicate on the
payload, `WellFormedRegistration`: a registration without a complaint is a
well-formed one. It throws where a complaint quotes a parameter that has no text:
one about the style of an entry, or the one that lists the positional parameters
of a function that reuses state.
-/
namespace WorkflowPlatform

/-- The call with a value from outside; its destructuring throws on `null`. -/
def validateRegistrationOf (payload : Json) : Messages :=
  match payload with
  | .null => .error .typeError
  | payload => validateRegistration {
      digest := payload.property "digest"
      ociRef := payload.property "ociRef"
      openapiSpec := payload.property "openapiSpec"
      capabilityMetadata := payload.property "capabilityMetadata"
      hardwareRequirements := payload.property "hardwareRequirements" }

/-! ### Well-formed registrations -/

def WellFormedNesting (nesting : Option Json) : Prop :=
  nesting = none ∨ nesting = some .null ∨ ∃ fields, nesting = some (.obj fields) ∧
    Json.isOneOf NESTING_TRANSPORTS (fields.lookup "via") = true ∧
    (fields.lookup "targets" = some (.str "open") ∨
      ∃ names : List String, fields.lookup "targets" = some (.arr (names.map .str)))

/-- A function that reuses state has a binding to key it by, none of them by position. -/
def KeysState (descriptor : Option Json) : Prop :=
  ∀ entries, descriptor = some (.arr entries) →
    entries ≠ [] ∧ ∀ entry ∈ entries, hasStyle "positional" entry = false

structure WellFormedCapability (cap : Json) : Prop where
  mutates : Json.isBoolean (cap.property "mutates") = true
  materializationCostClass :
    Json.isOneOf MATERIALIZATION_COST_CLASSES (cap.property "materializationCostClass") = true
  cowSupport : Json.isBoolean (cap.property "cowSupport") = true
  changeDetectionSupport : Json.isBoolean (cap.property "changeDetectionSupport") = true
  nestingDeclaration : WellFormedNesting (cap.property "nestingDeclaration")
  invocationDescriptor : WellFormedDescriptor (cap.property "invocationDescriptor")
  stateReuse : Json.isOneOf STATE_REUSE_KINDS (cap.property "stateReuse") = true
  additiveWarmUpdate : Json.isBoolean (cap.property "additiveWarmUpdate") = true
  additive : cap.property "additiveWarmUpdate" = some (.bool true) →
    cap.property "stateReuse" = some (.str "stateIdKeyed")
  keyed : cap.property "stateReuse" = some (.str "stateIdKeyed") →
    KeysState (cap.property "invocationDescriptor")

/-- The name is the `operationId` of an operation under a path of the spec. -/
def DeclaresOperation (openapiSpec : Option Json) (fnName : String) : Prop :=
  ∃ spec paths pathItem op, openapiSpec = some spec ∧ spec.property "paths" = some paths ∧
    pathItem ∈ paths.values ∧ op ∈ pathItem.values ∧ op.property "operationId" = some (.str fnName)

structure WellFormedRegistration (payload : Json) : Prop where
  digest : IsNonEmptyString (payload.property "digest")
  ociRef : IsNonEmptyString (payload.property "ociRef")
  openapiSpec : (payload.property "openapiSpec").any Json.isObject = true
  hardwareRequirements : payload.property "hardwareRequirements" = none ∨
    ∃ fields, payload.property "hardwareRequirements" = some (.obj fields)
  capabilityMetadata : ∃ capabilities, payload.property "capabilityMetadata" = some (.obj capabilities) ∧
    ∀ fnName cap, (fnName, cap) ∈ capabilities → fnName ≠ "" ∧
      DeclaresOperation (payload.property "openapiSpec") fnName ∧ WellFormedCapability cap

/-! ### Single values -/

section
variable {value : Option Json} {cap : Json} {fnName : String}

theorem isStateIdKeyed_iff :
    isStateIdKeyed cap = true ↔ cap.property "stateReuse" = some (.str "stateIdKeyed") := by
  rw [isStateIdKeyed, isOneOf_iff]
  simp

theorem requireNonEmptyString_eq_nil {name : String} :
    requireNonEmptyString name value = [] ↔ IsNonEmptyString value := by
  unfold requireNonEmptyString IsNonEmptyString
  rw [complain_eq_nil]
  split
  · next s => simp
  · next hnot =>
      simp only [Bool.true_eq_false, false_iff, not_exists, not_and]
      intro s h
      exact (hnot s h).elim

theorem validateHardwareRequirements_eq_nil :
    validateHardwareRequirements value = [] ↔ value = none ∨ ∃ fields, value = some (.obj fields) := by
  cases value with
  | none => simp [validateHardwareRequirements]
  | some x => cases x <;> simp [validateHardwareRequirements]

theorem all_strings_iff (isString : Json → Bool) (h : ∀ j, isString j = true ↔ ∃ s, j = .str s)
    (items : List Json) : items.all isString = true ↔ ∃ names : List String, items = names.map .str := by
  induction items with
  | nil => simp
  | cons item rest ih =>
      rw [List.all_cons, Bool.and_eq_true, ih, h]
      constructor
      · intro ⟨⟨s, hs⟩, names, hnames⟩
        exact ⟨s :: names, by rw [hs, hnames]; rfl⟩
      · intro ⟨names, hnames⟩
        cases names with
        | nil => cases hnames
        | cons s names => exact ⟨⟨s, (List.cons.inj hnames).1⟩, names, (List.cons.inj hnames).2⟩

theorem validateNestingDeclaration_eq_nil :
    validateNestingDeclaration value fnName = [] ↔ WellFormedNesting value := by
  unfold validateNestingDeclaration WellFormedNesting
  split
  · simp
  · simp
  · next fields =>
      rw [List.append_eq_nil_iff, complain_eq_nil, complain_eq_nil, Bool.not_eq_false',
        Bool.not_eq_false']
      simp only [Option.some.injEq, Json.obj.injEq, reduceCtorEq, false_or, exists_eq_left']
      apply and_congr_right
      intro _
      generalize fields.lookup "targets" = targets
      cases targets with
      | none => simp
      | some targets =>
          cases targets with
          | arr items =>
              refine (all_strings_iff _ ?_ items).trans (by simp)
              intro j
              cases j <;> simp
          | _ => simp
  · next nesting hnull hobj =>
      simp only [List.cons_ne_self, reduceCtorEq, Option.some.injEq, false_iff, false_or, not_or,
        not_exists, not_and]
      exact ⟨hnull, fun fields h => (hobj fields h).elim⟩

end

/-! ### A function -/

section
variable {cap : Json} {fnName : String}

theorem joinParams_throws {params : List (Option Json)} :
    Throws (joinParams params) ↔ ∃ param ∈ params, Textless param := by
  rw [joinParams, throws_bind, throws_mapM]
  simp only [not_throws_ok, and_false, exists_false, or_false]
  apply exists_congr
  intro param
  apply and_congr_right'
  split
  · simp [Textless]
  · simp [Textless, Json.toText]
  · exact throws_textOf

theorem positionalParams_eq_nil {entries : List Json} : (positionalParams entries).isEmpty = true ↔
    ∀ entry ∈ entries, hasStyle "positional" entry = false := by
  rw [List.isEmpty_iff, positionalParams, List.map_eq_nil_iff, List.filter_eq_nil_iff]
  simp only [Bool.not_eq_true]
  rfl

theorem mem_positionalParams {entries : List Json} {param : Option Json} :
    param ∈ positionalParams entries ↔
      ∃ entry ∈ entries, hasStyle "positional" entry = true ∧ entry.property "param" = param := by
  rw [positionalParams, List.mem_map]
  simp only [List.mem_filter, and_assoc]
  rfl

theorem validateStateReuse_eq_ok_nil : validateStateReuse fnName cap = .ok [] ↔
    (cap.property "stateReuse" = some (.str "stateIdKeyed") →
      KeysState (cap.property "invocationDescriptor")) := by
  rw [← isStateIdKeyed_iff]
  unfold validateStateReuse KeysState
  split
  · next entries hentries =>
      simp only [hentries, Option.some.injEq, Json.arr.injEq, forall_eq']
      split_ifs with hkeyed hempty hnone
      · rw [Bool.not_eq_true'] at hkeyed
        simp [hkeyed]
      · rw [Bool.not_eq_true', Bool.not_eq_false] at hkeyed
        simp [List.isEmpty_iff.mp hempty, hkeyed]
      · refine iff_of_true rfl fun _ => ⟨?_, positionalParams_eq_nil.mp hnone⟩
        exact fun h => hempty (List.isEmpty_iff.mpr h)
      · refine iff_of_false ?_ fun h => hnone (positionalParams_eq_nil.mpr (h (by simpa using hkeyed)).2)
        intro h
        obtain ⟨params, _, hmessage⟩ := bind_eq_ok.mp h
        cases hmessage
  · next hnot =>
      refine iff_of_true rfl ?_
      intro _ entries h
      exact (hnot entries h).elim

theorem validateStateReuse_throws : Throws (validateStateReuse fnName cap) ↔
    cap.property "stateReuse" = some (.str "stateIdKeyed") ∧
      ∃ entries, cap.property "invocationDescriptor" = some (.arr entries) ∧
        ∃ entry ∈ entries, hasStyle "positional" entry = true ∧ Textless (entry.property "param") := by
  rw [← isStateIdKeyed_iff]
  unfold validateStateReuse
  split
  · next entries hentries =>
      simp only [hentries, Option.some.injEq, Json.arr.injEq, exists_eq_left']
      split_ifs with hkeyed hempty hnone
      · rw [Bool.not_eq_true'] at hkeyed
        simp [hkeyed]
      · simp [List.isEmpty_iff.mp hempty]
      · refine iff_of_false (not_throws_ok _) ?_
        rintro ⟨-, entry, hmem, hstyle, -⟩
        rw [positionalParams_eq_nil.mp hnone entry hmem] at hstyle
        cases hstyle
      · rw [throws_bind, joinParams_throws]
        simp only [not_throws_ok, and_false, exists_false, or_false, mem_positionalParams]
        rw [Bool.not_eq_true', Bool.not_eq_false] at hkeyed
        rw [and_iff_right hkeyed]
        constructor
        · rintro ⟨_, ⟨entry, hmem, hstyle, hparam⟩, htextless⟩
          exact ⟨entry, hmem, hstyle, hparam ▸ htextless⟩
        · rintro ⟨entry, hmem, hstyle, htextless⟩
          exact ⟨_, ⟨entry, hmem, hstyle, rfl⟩, htextless⟩
  · next hnot =>
      refine iff_of_false (not_throws_ok _) ?_
      rintro ⟨_, entries, h, _⟩
      exact hnot entries h

theorem requireBoolean_eq_nil {key : String} :
    requireBoolean fnName key cap = [] ↔ Json.isBoolean (cap.property key) = true := by
  rw [requireBoolean, complain_eq_nil, Bool.not_eq_false']

theorem requireOneOf_eq_nil {key : String} {names : List String} :
    requireOneOf fnName key names cap = [] ↔ Json.isOneOf names (cap.property key) = true := by
  rw [requireOneOf, complain_eq_nil, Bool.not_eq_false']

theorem validateAdditiveWarmUpdate_eq_nil : validateAdditiveWarmUpdate fnName cap = [] ↔
    Json.isBoolean (cap.property "additiveWarmUpdate") = true ∧
      (cap.property "additiveWarmUpdate" = some (.bool true) →
        cap.property "stateReuse" = some (.str "stateIdKeyed")) := by
  rw [← isStateIdKeyed_iff]
  unfold validateAdditiveWarmUpdate
  split
  · next additive h =>
      rw [h, complain_eq_nil]
      cases additive <;> simp [Json.isBoolean]
  · next hnot =>
      refine iff_of_false (List.cons_ne_nil _ _) ?_
      intro ⟨h, _⟩
      unfold Json.isBoolean at h
      split at h
      · next b heq => exact hnot b heq
      · cases h

/-- A function's capability is checked without a complaint. -/
theorem validateCapability_eq_ok_nil : validateCapability fnName cap = .ok [] ↔
    fnName ≠ "" ∧ WellFormedCapability cap := by
  unfold validateCapability
  dsimp only
  split_ifs with hobject
  · refine iff_of_false ?_ ?_
    · intro h
      exact absurd (List.append_eq_nil_iff.mp (Except.ok.inj h)).2 (List.cons_ne_nil _ _)
    · intro ⟨_, h⟩
      have hmutates := h.mutates
      cases cap <;> simp [Json.property, Json.isBoolean, Json.isObject] at hmutates hobject
  · constructor
    · intro h
      obtain ⟨descriptorErrors, hdescriptor, h⟩ := bind_eq_ok.mp h
      obtain ⟨stateErrors, hstate, h⟩ := bind_eq_ok.mp h
      have hall := Except.ok.inj h
      simp only [List.append_eq_nil_iff, complain_eq_nil, requireBoolean_eq_nil,
        requireOneOf_eq_nil, validateNestingDeclaration_eq_nil, validateAdditiveWarmUpdate_eq_nil,
        decide_eq_false_iff_not] at hall
      obtain ⟨⟨⟨⟨⟨⟨⟨⟨⟨hname, hmutates⟩, hcost⟩, hcow⟩, hchange⟩, hnesting⟩, hnil⟩, hreuse⟩,
        hadditive⟩, hnil'⟩ := hall
      subst hnil hnil'
      exact ⟨hname, hmutates, hcost, hcow, hchange, hnesting,
        validateInvocationDescriptor_eq_ok_nil.mp hdescriptor, hreuse, hadditive.1, hadditive.2,
        validateStateReuse_eq_ok_nil.mp hstate⟩
    · intro ⟨hname, h⟩
      rw [validateInvocationDescriptor_eq_ok_nil.mpr h.invocationDescriptor,
        validateStateReuse_eq_ok_nil.mpr h.keyed]
      apply congrArg Except.ok
      simp only [List.append_eq_nil_iff, complain_eq_nil, requireBoolean_eq_nil,
        requireOneOf_eq_nil, validateNestingDeclaration_eq_nil, validateAdditiveWarmUpdate_eq_nil,
        decide_eq_false_iff_not]
      exact ⟨⟨⟨⟨⟨⟨⟨⟨⟨hname, h.mutates⟩, h.materializationCostClass⟩, h.cowSupport⟩,
        h.changeDetectionSupport⟩, h.nestingDeclaration⟩, trivial⟩, h.stateReuse⟩,
        h.additiveWarmUpdate, h.additive⟩, trivial⟩

/-- A complaint about the function quotes a parameter without a text: about the
style of an entry, or that it goes by position in a function that reuses state. -/
def QuotesTextless (cap : Json) : Prop :=
  ∃ earlier entry later,
    cap.property "invocationDescriptor" = some (.arr (earlier ++ entry :: later)) ∧
    Textless (entry.property "param") ∧
    (¬ StyleFits (indexesOf earlier) entry ∨
      cap.property "stateReuse" = some (.str "stateIdKeyed") ∧ hasStyle "positional" entry = true)

theorem validateCapability_throws : Throws (validateCapability fnName cap) ↔ QuotesTextless cap := by
  have hboth : Throws (validateInvocationDescriptor (cap.property "invocationDescriptor") fnName) ∨
      Throws (validateStateReuse fnName cap) ↔ QuotesTextless cap := by
    rw [validateInvocationDescriptor_throws, validateStateReuse_throws]
    constructor
    · intro h
      rcases h with ⟨earlier, entry, later, hd, htextless, hnot⟩ |
        ⟨hkeyed, entries, hd, entry, hmem, hstyle, htextless⟩
      · exact ⟨earlier, entry, later, hd, htextless, .inl hnot⟩
      · obtain ⟨earlier, later, hsplit⟩ := List.append_of_mem hmem
        exact ⟨earlier, entry, later, hsplit ▸ hd, htextless, .inr ⟨hkeyed, hstyle⟩⟩
    · rintro ⟨earlier, entry, later, hd, htextless, h⟩
      rcases h with hnot | ⟨hkeyed, hstyle⟩
      · exact .inl ⟨earlier, entry, later, hd, htextless, hnot⟩
      · exact .inr ⟨hkeyed, _, hd, entry, by simp, hstyle, htextless⟩
  rw [← hboth]
  unfold validateCapability
  dsimp only
  split_ifs with hobject
  · refine iff_of_false (not_throws_ok _) fun h => ?_
    obtain ⟨earlier, entry, later, hd, -⟩ := hboth.mp h
    cases cap <;> simp [Json.property, Json.isObject] at hd hobject
  · simp only [throws_bind, not_throws_ok, and_false, exists_false, or_false]
    constructor
    · rintro (h | ⟨-, -, hstate⟩)
      · exact .inl h
      · exact .inr hstate
    · intro h
      rcases ok_or_throws (validateInvocationDescriptor (cap.property "invocationDescriptor") fnName)
        with ⟨messages, hmessages⟩ | hthrows
      · exact h.imp_right fun hstate => ⟨messages, hmessages, hstate⟩
      · exact .inl hthrows

end

/-! ### A registration -/

section
variable {payload : Json} {openapiSpec : Option Json}

theorem mem_operationIdsFromOpenApi {spec : Json} {fnName : String} :
    fnName ∈ operationIdsFromOpenApi spec ↔ DeclaresOperation (some spec) fnName := by
  have hop : ∀ op, operationIdOf op = some fnName ↔ op.property "operationId" = some (.str fnName) := by
    intro op
    unfold operationIdOf
    split
    · next id h => simp [h]
    · next hnot => simpa using fun h => hnot fnName h
  unfold operationIdsFromOpenApi DeclaresOperation
  split
  · next h => simp [h]
  · next paths h =>
      rw [List.mem_eraseDups]
      simp only [List.mem_flatMap, List.mem_filterMap, hop, Option.some.injEq]
      constructor
      · intro ⟨pathItem, hitem, op, hmem, hid⟩
        exact ⟨spec, paths, pathItem, op, rfl, h, hitem, hmem, hid⟩
      · intro ⟨_, _, pathItem, op, hspec, hpaths, hitem, hmem, hid⟩
        subst hspec
        rw [h] at hpaths
        cases hpaths
        exact ⟨pathItem, hitem, op, hmem, hid⟩

theorem undeclaredErrors_eq_nil {fnNames : List String}
    (hspec : openapiSpec.any Json.isObject = true) : undeclaredErrors openapiSpec fnNames = [] ↔
      ∀ fnName ∈ fnNames, DeclaresOperation openapiSpec fnName := by
  obtain ⟨spec, hsome, hobject⟩ := Option.any_eq_true _ _ |>.mp hspec
  subst hsome
  unfold undeclaredErrors
  dsimp only
  rw [if_neg (by simp [hobject]), List.flatMap_eq_nil_iff]
  simp only [complain_eq_nil, decide_eq_false_iff_not, not_not, mem_operationIdsFromOpenApi]

theorem validateRegistrationOf_eq_ok_nil :
    validateRegistrationOf payload = .ok [] ↔ WellFormedRegistration payload := by
  unfold validateRegistrationOf
  split
  · refine iff_of_false (by simp) fun h => ?_
    obtain ⟨s, hs, -⟩ := h.digest
    cases hs
  · unfold validateRegistration
    dsimp only
    split
    · next capabilities hcapabilities =>
        constructor
        · intro h
          obtain ⟨perFunction, hper, hmessages⟩ := bind_eq_ok.mp h
          have hall := Except.ok.inj hmessages
          simp only [List.append_eq_nil_iff, requireNonEmptyString_eq_nil, complain_eq_nil,
            Bool.not_eq_false', validateHardwareRequirements_eq_nil] at hall
          obtain ⟨⟨⟨⟨⟨hdigest, hoci⟩, hspec⟩, hhardware⟩, hflat⟩, hdeclared⟩ := hall
          rw [undeclaredErrors_eq_nil hspec] at hdeclared
          have hfunctions := mapM_flatten_eq_nil.mp ⟨perFunction, hper, hflat⟩
          refine ⟨hdigest, hoci, hspec, hhardware, capabilities, hcapabilities, fun fnName cap hmem => ?_⟩
          obtain ⟨hname, hformed⟩ := validateCapability_eq_ok_nil.mp (hfunctions _ hmem)
          exact ⟨hname, hdeclared fnName (List.mem_map_of_mem hmem), hformed⟩
        · intro h
          obtain ⟨capabilities', heq, hfunctions⟩ := h.capabilityMetadata
          rw [hcapabilities] at heq
          cases heq
          obtain ⟨perFunction, hper, hflat⟩ := mapM_flatten_eq_nil.mpr
            (fun p (hp : p ∈ capabilities) => validateCapability_eq_ok_nil.mpr
              ⟨(hfunctions p.1 p.2 hp).1, (hfunctions p.1 p.2 hp).2.2⟩)
          rw [hper]
          apply congrArg Except.ok
          simp only [List.append_eq_nil_iff, requireNonEmptyString_eq_nil, complain_eq_nil,
            Bool.not_eq_false', validateHardwareRequirements_eq_nil,
            undeclaredErrors_eq_nil h.openapiSpec]
          refine ⟨⟨⟨⟨⟨h.digest, h.ociRef⟩, h.openapiSpec⟩, h.hardwareRequirements⟩, hflat⟩, ?_⟩
          intro fnName hmem
          obtain ⟨p, hp, hname⟩ := List.mem_map.mp hmem
          subst hname
          exact (hfunctions p.1 p.2 hp).2.1
    · next hnot =>
        constructor
        · intro h
          exact absurd (List.append_eq_nil_iff.mp (Except.ok.inj h)).2 (List.cons_ne_nil _ _)
        · intro h
          obtain ⟨capabilities, heq, -⟩ := h.capabilityMetadata
          exact (hnot capabilities heq).elim

/-- Some complaint about a function quotes a parameter without a text. -/
def RegistrationQuotesTextless (payload : Json) : Prop :=
  ∃ capabilities fnName cap, payload.property "capabilityMetadata" = some (.obj capabilities) ∧
    (fnName, cap) ∈ capabilities ∧ QuotesTextless cap

theorem validateRegistrationOf_throws :
    Throws (validateRegistrationOf payload) ↔ payload = .null ∨ RegistrationQuotesTextless payload := by
  unfold validateRegistrationOf
  split
  · simp
  · next hnull =>
      rw [or_iff_right hnull]
      unfold validateRegistration RegistrationQuotesTextless
      dsimp only
      split
      · next capabilities hcapabilities =>
          rw [throws_bind, throws_mapM]
          simp only [not_throws_ok, and_false, exists_false, or_false, validateCapability_throws,
            hcapabilities, Option.some.injEq, Json.obj.injEq, exists_and_left, exists_eq_left',
            Prod.exists]
      · next hnot =>
          refine iff_of_false (not_throws_ok _) ?_
          rintro ⟨capabilities, _, _, h, _⟩
          exact hnot capabilities h

/-- Validation answers a value that is not `null`, and its answer is right, exactly
if no complaint quotes a parameter that has no text. An answer is always right. -/
theorem validateRegistration_total_iff (payload : Json) :
    (validateRegistrationOf payload = .ok [] ↔ WellFormedRegistration payload) ∧
        ¬ Throws (validateRegistrationOf payload) ↔
      payload ≠ .null ∧ ¬ RegistrationQuotesTextless payload := by
  rw [and_iff_right validateRegistrationOf_eq_ok_nil, validateRegistrationOf_throws, not_or]

end

/-- An entry of an unknown style whose `param` is an object with a `toString` of its own. -/
def unquotableRegistration : Json := .obj [
  ("digest", .str "sha256:a"),
  ("ociRef", .str "registry/loader"),
  ("openapiSpec", .obj [("paths", .obj [("/load", .obj [("post",
    .obj [("operationId", .str "load")])])])]),
  ("capabilityMetadata", .obj [("load", .obj [("mutates", .bool false),
    ("materializationCostClass", .str "heavy"), ("cowSupport", .bool false),
    ("changeDetectionSupport", .bool false), ("stateReuse", .str "none"),
    ("additiveWarmUpdate", .bool false),
    ("invocationDescriptor", .arr [.obj [("param", .obj [("toString", .null)]),
      ("style", .str "file")]])])])]

theorem unquotable_param_throws :
    ¬ ((validateRegistrationOf unquotableRegistration = .ok [] ↔
        WellFormedRegistration unquotableRegistration) ∧
      ¬ Throws (validateRegistrationOf unquotableRegistration)) := by
  intro ⟨_, hnot⟩
  exact hnot ⟨.typeError, rfl⟩

end WorkflowPlatform
