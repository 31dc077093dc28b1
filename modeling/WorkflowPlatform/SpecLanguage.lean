import WorkflowPlatform.SpecDocument

/-!
# The language of the schema

What the schema accepts are the documents of the valid specifications. For each
definition of the schema this is one equation between what its keywords say, given
the languages of the definitions they refer to, and the documents of a type; the
alternatives for bindings and for nodes are told apart by one property.
-/
namespace WorkflowPlatform
open Json (Image Matches encodeList encodeMap)
open Schema (check oracle FieldHolds)

theorem bindingMapValid_iff {bindings : List (String × Binding)} :
    bindingMapValid bindings = true ↔ ∀ p ∈ bindings, p.2.schemaValid = true := by
  induction bindings with
  | nil => simp [bindingMapValid]
  | cons p rest ih =>
      obtain ⟨key, b⟩ := p
      simp [bindingMapValid, ih]

theorem nodesValid_iff {nodes : List Node} :
    nodesValid nodes = true ↔ ∀ node ∈ nodes, nodeValid node = true := by
  induction nodes with
  | nil => simp [nodesValid]
  | cons node rest ih => simp [nodesValid, ih]

def CaseBody.schemaValid : CaseBody → Bool
  | .mk steps yields => !steps.isEmpty && nodesValid steps && bindingMapValid (yields.getD [])

theorem casesValid_iff {cases : List (String × CaseBody)} :
    casesValid cases = true ↔ ∀ p ∈ cases, p.2.schemaValid = true := by
  induction cases with
  | nil => simp [casesValid]
  | cons p rest ih =>
      obtain ⟨key, steps, yields⟩ := p
      simp [casesValid, CaseBody.schemaValid, ih]

/-- The alternative of the schema for the constructor. -/
def Binding.definition : Binding → SpecDefinition
  | .static _ => .bindingStatic
  | .session _ => .bindingSession
  | .request _ => .bindingRequest
  | .step .. => .bindingStep
  | .item => .bindingItem
  | .literal _ => .bindingLiteral
  | .compute .. => .bindingCompute
  | .itemResource .. => .bindingItemResource

def Node.definition : Node → SpecDefinition
  | .step _ => .step
  | .branch .. => .branchNode
  | .map .. => .mapNode

def SessionStateDeclaration.schemaValid (d : SessionStateDeclaration) : Bool :=
  d.fallback.all Binding.schemaValid

/-- The documents of each definition: those of the valid values of its type. -/
def specLanguage : SpecDefinition → Json → Prop
  | .workflowSpec => Image encodeWorkflowSpec fun spec => spec.schemaValid = true
  | .flatName => Image .str fun s => flatName s = true
  | .datasetUrn => Image .str fun s => matchesPattern datasetUrnPattern s = true
  | .ociDigestRef => Image .str fun s => matchesPattern ociDigestRefPattern s = true
  | .jsonPointer => Image .str fun s => matchesPattern jsonPointerPattern s = true
  | .sessionStateDecl => Image encodeSessionStateDeclaration fun d => d.schemaValid = true
  | .sessionWriteTarget => Image encodeSessionWriteTarget fun w => isNonEmpty w.key = true
  | .secretRef => Image encodeSecretRef fun r => isNonEmpty r.name = true
  | .binding => Image encodeBinding fun b => b.schemaValid = true
  | .node => Image encodeNode fun n => nodeValid n = true
  | .caseBody => Image encodeCaseBody fun c => c.schemaValid = true
  | .step => Image encodeNode fun n => nodeValid n = true ∧ n.definition = .step
  | .branchNode => Image encodeNode fun n => nodeValid n = true ∧ n.definition = .branchNode
  | .mapNode => Image encodeNode fun n => nodeValid n = true ∧ n.definition = .mapNode
  | alternative => Image encodeBinding fun b => b.schemaValid = true ∧ b.definition = alternative

section
variable {j x : Json} {own : JsonObject}

/-! ### Texts -/

theorem one_le_length_iff {s : String} : 1 ≤ s.length ↔ isNonEmpty s = true := by
  rw [isNonEmpty, decide_eq_true_iff, ← String.length_toList, Nat.one_le_iff_ne_zero, Ne,
    List.length_eq_zero_iff, String.toList_eq_nil_iff]

theorem image_str {valid : String → Prop} :
    Image .str valid x ↔ ∃ s, x = .str s ∧ valid s := by
  simp only [Image, Json.same_str]
  constructor
  · rintro ⟨s, hs, rfl⟩
    exact ⟨s, rfl, hs⟩
  · rintro ⟨s, rfl, hs⟩
    exact ⟨s, hs, rfl⟩

variable {call : SpecDefinition → Json → Option Bool}

theorem check_const {value : String} :
    check call (.const value) x = some true ↔ x = .str value := by
  cases x <;> simp [Schema.const, check]

theorem check_string : check call (.type .string) x = some true ↔ Image .str (fun _ => True) x := by
  rw [Schema.check_type, Schema.includes_string, image_str]
  simp

theorem check_nonEmptyString :
    check call nonEmptyString x = some true ↔ Image .str (fun s => isNonEmpty s = true) x := by
  rw [nonEmptyString, Schema.check_all, List.forall_mem_cons, List.forall_mem_singleton,
    Schema.check_type, Schema.includes_string, image_str]
  constructor
  · rintro ⟨⟨s, rfl⟩, hlength⟩
    simp only [check, Option.some.injEq, decide_eq_true_iff] at hlength
    exact ⟨s, rfl, one_le_length_iff.mp hlength⟩
  · rintro ⟨s, rfl, hs⟩
    refine ⟨⟨s, rfl⟩, ?_⟩
    simp only [check, Option.some.injEq, decide_eq_true_iff]
    exact one_le_length_iff.mpr hs

theorem check_pattern {p : Pattern Char} :
    check call (.all [.type .string, .pattern p]) x = some true ↔
      Image .str (fun s => matchesPattern p s = true) x := by
  rw [Schema.check_all, List.forall_mem_cons, List.forall_mem_singleton, Schema.check_type,
    Schema.includes_string, image_str]
  constructor
  · rintro ⟨⟨s, rfl⟩, hpattern⟩
    rw [check, Option.some.injEq] at hpattern
    exact ⟨s, rfl, hpattern⟩
  · rintro ⟨s, rfl, hs⟩
    refine ⟨⟨s, rfl⟩, ?_⟩
    rw [check, Option.some.injEq]
    exact hs

theorem check_flatName :
    check call (workflowSpecSchema .flatName) x = some true ↔ specLanguage .flatName x := by
  change check call (.all [.type .string, .minLength 1, .pattern flatNamePattern]) x = some true ↔ _
  rw [specLanguage, image_str, Schema.check_all, List.forall_mem_cons, List.forall_mem_cons,
    List.forall_mem_singleton, Schema.check_type, Schema.includes_string]
  constructor
  · rintro ⟨⟨s, rfl⟩, hlength, hpattern⟩
    simp only [check, Option.some.injEq, decide_eq_true_iff] at hlength hpattern
    refine ⟨s, rfl, ?_⟩
    rw [flatName, one_le_length_iff.mp hlength, Bool.true_and]
    exact hpattern
  · rintro ⟨s, rfl, hs⟩
    rw [flatName, Bool.and_eq_true] at hs
    refine ⟨⟨s, rfl⟩, ?_, ?_⟩
    · simp only [check, Option.some.injEq, decide_eq_true_iff]
      exact one_le_length_iff.mpr hs.1
    · rw [check, Option.some.injEq]
      exact hs.2

theorem check_enum {values : List String} :
    check call (.all [.type .string, .enum values]) x = some true ↔
      ∃ s ∈ values, x = .str s := by
  rw [Schema.check_all, List.forall_mem_cons, List.forall_mem_singleton, Schema.check_type,
    Schema.includes_string]
  constructor
  · rintro ⟨⟨s, rfl⟩, henum⟩
    simp only [check, Option.some.injEq, decide_eq_true_iff] at henum
    exact ⟨s, henum, rfl⟩
  · rintro ⟨s, hs, rfl⟩
    refine ⟨⟨s, rfl⟩, ?_⟩
    simp only [check, Option.some.injEq, decide_eq_true_iff]
    exact hs

/-! ### Closed objects -/

variable {α : Type} {encode : α → Json} {valid : α → Prop} {key : String} {name : SpecDefinition}

/-- A closed object is the image of a type when its properties are the fields of a
value of that type. -/
theorem closed_iff_image {required : List String}
    {properties : List (String × Schema SpecDefinition)} (fields : α → List (String × Option Json))
    (hencode : ∀ a, encode a = Json.object (fields a))
    (hnames : ∀ a, (fields a).map Prod.fst = properties.map Prod.fst)
    (hnodup : (properties.map Prod.fst).Nodup) (hrequired : required ⊆ properties.map Prod.fst)
    (hj : j.namesDistinct = true)
    (hfields : ∀ own, (Json.obj own).namesDistinct = true →
      ((∀ p ∈ properties, FieldHolds call required own p) ↔
        ∃ a, valid a ∧ ∀ p ∈ fields a, Matches p.2 (own.lookup p.1))) :
    check call (.closed required properties) j = some true ↔ Image encode valid j := by
  have hobject : ∀ a, (encode a).same j = true ↔ ∃ own, j = .obj own ∧
      (∀ p ∈ fields a, Matches p.2 (own.lookup p.1)) ∧
      ∀ p ∈ own, p.1 ∈ properties.map Prod.fst := by
    intro a
    rw [hencode, Json.same_object ((hnames a).symm ▸ hnodup), hnames]
  rw [Schema.check_closed hnodup hrequired hj]
  constructor
  · rintro ⟨own, rfl, hholds, hown⟩
    obtain ⟨a, ha, hmatches⟩ := (hfields own hj).mp hholds
    exact ⟨a, ha, (hobject a).mpr ⟨own, rfl, hmatches, hown⟩⟩
  · intro ⟨a, ha, hsame⟩
    obtain ⟨own, rfl, hmatches, hown⟩ := (hobject a).mp hsame
    exact ⟨own, rfl, (hfields own hj).mpr ⟨a, ha, hmatches⟩, hown⟩

theorem lookup_distinct (hown : (Json.obj own).namesDistinct = true)
    (h : own.lookup key = some x) : x.namesDistinct = true := by
  obtain ⟨hnames, hparts⟩ := Json.namesDistinct_obj.mp hown
  exact hparts (key, x) ((AssocList.lookup_eq_some_iff_mem hnames).mp h)

/-- A property that may be absent and is a map of values of a type. -/
theorem optional_mapOf (hname : ∀ x, specLanguage name x ↔ Image encode valid x)
    (hown : (Json.obj own).namesDistinct = true) :
    (∀ x, own.lookup key = some x →
      check (oracle specLanguage) (.mapOf (.ref name)) x = some true) ↔
    ∃ o : Option (List (String × α)), (∀ m ∈ o, ∀ p ∈ m, valid p.2) ∧
      Matches (o.map (encodeMap encode)) (own.lookup key) := by
  rw [← Json.image_optional]
  apply forall_congr'
  intro x
  apply imp_congr_right
  intro hx
  rw [Schema.check_mapOf, ← Json.image_fields (lookup_distinct hown hx)]
  simp only [Schema.check_ref, hname]

/-! ### Lists and maps -/

theorem check_nodes : check (oracle specLanguage) (.arrayOf (.ref .node)) x = some true ↔
    Image (encodeList encodeNode) (fun l => ∀ n ∈ l, nodeValid n = true) x := by
  rw [Schema.check_arrayOf, ← Json.image_items]
  simp only [Schema.check_ref, specLanguage]

theorem check_nonEmptyStrings : check call (.arrayOf nonEmptyString) x = some true ↔
    Image (encodeList .str) (fun l => ∀ s ∈ l, isNonEmpty s = true) x := by
  rw [Schema.check_arrayOf, ← Json.image_items]
  simp only [check_nonEmptyString]

/-- A list with at least one node. -/
theorem check_body :
    check (oracle specLanguage) (.all [.type .array, .minItems 1, .items (.ref .node)]) x = some true ↔
      Image (encodeList encodeNode) (fun l => (∀ n ∈ l, nodeValid n = true) ∧ l ≠ []) x := by
  have hlist : check (oracle specLanguage)
      (.all [.type .array, .minItems 1, .items (.ref .node)]) x = some true ↔
        check (oracle specLanguage) (.arrayOf (.ref .node)) x = some true ∧ x ≠ .arr [] := by
    simp only [Schema.arrayOf, Schema.check_all, List.forall_mem_cons, List.not_mem_nil,
      false_implies, implies_true, and_true, Schema.check_type, Schema.includes_array]
    constructor
    · rintro ⟨⟨elements, rfl⟩, hlength, hitems⟩
      simp only [check, Option.some.injEq, decide_eq_true_iff] at hlength
      refine ⟨⟨⟨elements, rfl⟩, hitems⟩, ?_⟩
      intro heq
      cases heq
      simp at hlength
    · rintro ⟨⟨⟨elements, rfl⟩, hitems⟩, hne⟩
      refine ⟨⟨elements, rfl⟩, ?_, hitems⟩
      simp only [check, Option.some.injEq, decide_eq_true_iff]
      exact List.length_pos_iff.mpr fun heq => hne (heq ▸ rfl)
  rw [hlist, check_nodes]
  constructor
  · rintro ⟨⟨l, hl, hsame⟩, hne⟩
    exact ⟨l, ⟨hl, fun heq => hne ((Json.encodeList_same hsame).mpr heq)⟩, hsame⟩
  · rintro ⟨l, ⟨hl, hne⟩, hsame⟩
    exact ⟨⟨l, hl, hsame⟩, fun heq => hne ((Json.encodeList_same hsame).mp heq)⟩

/-- A map with at least one case. -/
theorem check_cases (hx : x.namesDistinct = true) :
    check (oracle specLanguage)
        (.all [.type .object, .minProperties 1, .properties [] (.ref .caseBody)]) x = some true ↔
      Image (encodeMap encodeCaseBody)
        (fun m => (∀ p ∈ m, p.2.schemaValid = true) ∧ m ≠ []) x := by
  have hmap : check (oracle specLanguage)
      (.all [.type .object, .minProperties 1, .properties [] (.ref .caseBody)]) x = some true ↔
        check (oracle specLanguage) (.mapOf (.ref .caseBody)) x = some true ∧ x ≠ .obj [] := by
    simp only [Schema.mapOf, Schema.check_all, List.forall_mem_cons, List.not_mem_nil,
      false_implies, implies_true, and_true, Schema.check_type, Schema.includes_object]
    constructor
    · rintro ⟨⟨own, rfl⟩, hlength, hparts⟩
      simp only [check, Option.some.injEq, decide_eq_true_iff] at hlength
      refine ⟨⟨⟨own, rfl⟩, hparts⟩, ?_⟩
      intro heq
      cases heq
      simp at hlength
    · rintro ⟨⟨⟨own, rfl⟩, hparts⟩, hne⟩
      refine ⟨⟨own, rfl⟩, ?_, hparts⟩
      simp only [check, Option.some.injEq, decide_eq_true_iff]
      exact List.length_pos_iff.mpr fun heq => hne (heq ▸ rfl)
  have hlanguage : check (oracle specLanguage) (.mapOf (.ref .caseBody)) x = some true ↔
      Image (encodeMap encodeCaseBody) (fun m => ∀ p ∈ m, p.2.schemaValid = true) x := by
    rw [Schema.check_mapOf]
    simp only [Schema.check_ref, specLanguage]
    exact Json.image_fields hx
  rw [hmap, hlanguage]
  constructor
  · rintro ⟨⟨m, hm, hsame⟩, hne⟩
    exact ⟨m, ⟨hm, fun heq => hne ((Json.encodeMap_same hsame).mpr heq)⟩, hsame⟩
  · rintro ⟨m, ⟨hm, hne⟩, hsame⟩
    exact ⟨⟨m, hm, hsame⟩, fun heq => hne ((Json.encodeMap_same hsame).mp heq)⟩

theorem forall₂_str {l : List String} {elements : List Json} :
    List.Forall₂ (fun s y => y = Json.str s) l elements ↔ elements = l.map .str := by
  induction l generalizing elements with
  | nil => cases elements <;> simp
  | cons s rest ih => cases elements <;> simp [ih]

theorem encodeList_str_same {l : List String} :
    (encodeList .str l).same x = true ↔ x = encodeList .str l := by
  rw [encodeList, Json.same_arr]
  simp only [List.forall₂_map_left_iff, Json.same_str, forall₂_str, exists_eq_right]

/-- A list of flat names without repetition. -/
theorem check_inputParameters :
    check (oracle specLanguage) (.all [.type .array, .items (.ref .flatName), .uniqueItems]) x =
        some true ↔
      Image (encodeList .str) (fun l => (∀ s ∈ l, flatName s = true) ∧ l.Nodup) x := by
  have hlist : check (oracle specLanguage) (.arrayOf (.ref .flatName)) x = some true ↔
      Image (encodeList .str) (fun l => ∀ s ∈ l, flatName s = true) x := by
    rw [Schema.check_arrayOf, ← Json.image_items]
    simp only [Schema.check_ref, specLanguage]
  have hunique : ∀ l : List String, check (oracle specLanguage) .uniqueItems (encodeList .str l) =
      some true ↔ l.Nodup := by
    intro l
    rw [encodeList, check, Option.some.injEq, decide_eq_true_iff, List.pairwise_map]
    apply List.Pairwise.iff
    intro s t
    simp [Json.same]
  have hsplit : check (oracle specLanguage)
      (.all [.type .array, .items (.ref .flatName), .uniqueItems]) x = some true ↔
        check (oracle specLanguage) (.arrayOf (.ref .flatName)) x = some true ∧
          check (oracle specLanguage) .uniqueItems x = some true := by
    simp only [Schema.arrayOf, Schema.check_all, List.forall_mem_cons, List.not_mem_nil,
      false_implies, implies_true, and_true, and_assoc]
  rw [hsplit, hlist]
  constructor
  · rintro ⟨⟨l, hl, hsame⟩, hitems⟩
    rw [encodeList_str_same.mp hsame, hunique] at hitems
    exact ⟨l, ⟨hl, hitems⟩, hsame⟩
  · rintro ⟨l, ⟨hl, hnodup⟩, hsame⟩
    refine ⟨⟨l, hl, hsame⟩, ?_⟩
    rw [encodeList_str_same.mp hsame, hunique]
    exact hnodup

/-! ### The definitions -/

/-- The value is described by the schema exactly if it is in the language. -/
def Described (name : SpecDefinition) (j : Json) : Prop :=
  check (oracle specLanguage) (workflowSpecSchema name) j = some true ↔ specLanguage name j

theorem describes_sessionStateDecl (hj : j.namesDistinct = true) :
    Described .sessionStateDecl j := by
  rw [Described, workflowSpecSchema, specLanguage]
  apply closed_iff_image _ (fun _ => rfl) (fun _ => rfl) (by decide) (by decide) hj
  intro own hown
  simp only [List.forall_mem_cons, List.not_mem_nil, false_implies, implies_true, and_true]
  simp only [FieldHolds, List.mem_cons, if_true, check_enum, Schema.check_ref, specLanguage,
    Json.image_optional, Json.matches_str, List.not_mem_nil, or_false,
    String.reduceEq, if_false]
  constructor
  · rintro ⟨⟨x, hx, s, hs, rfl⟩, o, ho, hmatches⟩
    have hvalid : ∀ i, (SessionStateDeclaration.mk i o).schemaValid = true := by
      intro i
      cases o with
      | none => rfl
      | some b => exact ho b rfl
    rcases hs with rfl | rfl
    · exact ⟨⟨.interactive, o⟩, hvalid _, hx, hmatches⟩
    · exact ⟨⟨.batch, o⟩, hvalid _, hx, hmatches⟩
  · rintro ⟨⟨i, o⟩, hvalid, hx, hmatches⟩
    refine ⟨⟨_, hx, _, ?_, rfl⟩, o, ?_, hmatches⟩
    · cases i <;> simp
    · rintro b rfl
      exact hvalid

theorem describes_sessionWriteTarget (hj : j.namesDistinct = true) :
    Described .sessionWriteTarget j := by
  rw [Described, workflowSpecSchema, specLanguage]
  apply closed_iff_image _ (fun _ => rfl) (fun _ => rfl) (by decide) (by decide) hj
  intro own hown
  simp only [List.forall_mem_cons, List.not_mem_nil, false_implies, implies_true, and_true]
  simp only [FieldHolds, List.mem_cons, true_or, or_true, if_true, check_const,
    check_nonEmptyString, Json.image_required, exists_eq_right, Json.matches_str]
  constructor
  · intro ⟨hto, key, hkey, hmatches⟩
    exact ⟨⟨key⟩, hkey, hto, hmatches⟩
  · intro ⟨w, hkey, hto, hmatches⟩
    exact ⟨hto, w.key, hkey, hmatches⟩

theorem describes_secretRef (hj : j.namesDistinct = true) : Described .secretRef j := by
  rw [Described, workflowSpecSchema, specLanguage]
  apply closed_iff_image _ (fun _ => rfl) (fun _ => rfl) (by decide) (by decide) hj
  intro own hown
  simp only [List.forall_mem_cons, List.not_mem_nil, false_implies, implies_true, and_true]
  simp only [FieldHolds, List.mem_cons, true_or, or_true, if_true, check_enum,
    check_nonEmptyString, Json.image_required, Json.matches_str, List.not_mem_nil, or_false]
  constructor
  · rintro ⟨⟨x, hx, s, hs, rfl⟩, name, hname, hmatches⟩
    rcases hs with rfl | rfl
    · exact ⟨⟨.writer, name⟩, hname, hx, hmatches⟩
    · exact ⟨⟨.user, name⟩, hname, hx, hmatches⟩
  · rintro ⟨⟨scope, name⟩, hname, hx, hmatches⟩
    refine ⟨⟨_, hx, _, ?_, rfl⟩, name, hname, hmatches⟩
    cases scope <;> simp

/-! ### Bindings -/

theorem describes_bindingStatic (hj : j.namesDistinct = true) : Described .bindingStatic j := by
  have himage : specLanguage .bindingStatic j ↔ Image (fun ref => encodeBinding (.static ref))
      (fun ref => (Binding.static ref).schemaValid = true) j :=
    Json.image_constructor fun b => by cases b <;> simp [Binding.definition]
  rw [Described, workflowSpecSchema, himage]
  apply closed_iff_image _ (fun _ => rfl) (fun _ => rfl) (by decide) (by decide) hj
  intro own hown
  simp only [List.forall_mem_cons, List.not_mem_nil, false_implies, implies_true, and_true]
  simp only [FieldHolds, List.mem_cons, true_or, or_true, if_true, check_const, Schema.check_ref,
    specLanguage, Json.image_required, exists_eq_right, Json.matches_str, Binding.schemaValid]
  constructor
  · intro ⟨hfrom, ref, href, hmatches⟩
    exact ⟨ref, href, hfrom, hmatches⟩
  · intro ⟨ref, href, hfrom, hmatches⟩
    exact ⟨hfrom, ref, href, hmatches⟩

theorem describes_bindingSession (hj : j.namesDistinct = true) : Described .bindingSession j := by
  have himage : specLanguage .bindingSession j ↔ Image (fun key => encodeBinding (.session key))
      (fun key => (Binding.session key).schemaValid = true) j :=
    Json.image_constructor fun b => by cases b <;> simp [Binding.definition]
  rw [Described, workflowSpecSchema, himage]
  apply closed_iff_image _ (fun _ => rfl) (fun _ => rfl) (by decide) (by decide) hj
  intro own hown
  simp only [List.forall_mem_cons, List.not_mem_nil, false_implies, implies_true, and_true]
  simp only [FieldHolds, List.mem_cons, true_or, or_true, if_true, check_const,
    check_nonEmptyString, Json.image_required, exists_eq_right, Json.matches_str,
    Binding.schemaValid]
  constructor
  · intro ⟨hfrom, key, hkey, hmatches⟩
    exact ⟨key, hkey, hfrom, hmatches⟩
  · intro ⟨key, hkey, hfrom, hmatches⟩
    exact ⟨hfrom, key, hkey, hmatches⟩

theorem describes_bindingRequest (hj : j.namesDistinct = true) : Described .bindingRequest j := by
  have himage : specLanguage .bindingRequest j ↔ Image (fun param => encodeBinding (.request param))
      (fun param => (Binding.request param).schemaValid = true) j :=
    Json.image_constructor fun b => by cases b <;> simp [Binding.definition]
  rw [Described, workflowSpecSchema, himage]
  apply closed_iff_image _ (fun _ => rfl) (fun _ => rfl) (by decide) (by decide) hj
  intro own hown
  simp only [List.forall_mem_cons, List.not_mem_nil, false_implies, implies_true, and_true]
  simp only [FieldHolds, List.mem_cons, true_or, or_true, if_true, check_const, Schema.check_ref,
    specLanguage, Json.image_required, exists_eq_right, Json.matches_str, Binding.schemaValid]
  constructor
  · intro ⟨hfrom, param, hparam, hmatches⟩
    exact ⟨param, hparam, hfrom, hmatches⟩
  · intro ⟨param, hparam, hfrom, hmatches⟩
    exact ⟨hfrom, param, hparam, hmatches⟩

theorem describes_bindingStep (hj : j.namesDistinct = true) : Described .bindingStep j := by
  have himage : specLanguage .bindingStep j ↔
      Image (fun p : String × String => encodeBinding (.step p.1 p.2))
        (fun p => (Binding.step p.1 p.2).schemaValid = true) j :=
    Json.image_constructor fun b => by cases b <;> simp [Binding.definition]
  rw [Described, workflowSpecSchema, himage]
  apply closed_iff_image _ (fun _ => rfl) (fun _ => rfl) (by decide) (by decide) hj
  intro own hown
  simp only [List.forall_mem_cons, List.not_mem_nil, false_implies, implies_true, and_true]
  simp only [FieldHolds, List.mem_cons, true_or, or_true, if_true, check_const,
    check_nonEmptyString, Json.image_required, exists_eq_right, Json.matches_str,
    Binding.schemaValid, Bool.and_eq_true]
  constructor
  · intro ⟨hfrom, ⟨id, hid, hmatchesId⟩, output, houtput, hmatches⟩
    exact ⟨(id, output), ⟨hid, houtput⟩, hfrom, hmatchesId, hmatches⟩
  · intro ⟨p, ⟨hid, houtput⟩, hfrom, hmatchesId, hmatches⟩
    exact ⟨hfrom, ⟨p.1, hid, hmatchesId⟩, p.2, houtput, hmatches⟩

theorem describes_bindingItem (hj : j.namesDistinct = true) : Described .bindingItem j := by
  have himage : specLanguage .bindingItem j ↔ Image (fun _ : Unit => encodeBinding .item)
      (fun _ => Binding.item.schemaValid = true) j :=
    Json.image_constructor fun b => by cases b <;> simp [Binding.definition]
  rw [Described, workflowSpecSchema, himage]
  apply closed_iff_image _ (fun _ => rfl) (fun _ => rfl) (by decide) (by decide) hj
  intro own hown
  simp only [List.forall_mem_cons, List.not_mem_nil, false_implies, implies_true, and_true]
  simp [FieldHolds, check_const, Binding.schemaValid]

theorem describes_bindingLiteral (hj : j.namesDistinct = true) : Described .bindingLiteral j := by
  have himage : specLanguage .bindingLiteral j ↔ Image (fun value => encodeBinding (.literal value))
      (fun value => (Binding.literal value).schemaValid = true) j :=
    Json.image_constructor fun b => by cases b <;> simp [Binding.definition]
  rw [Described, workflowSpecSchema, himage]
  apply closed_iff_image _ (fun _ => rfl) (fun _ => rfl) (by decide) (by decide) hj
  intro own hown
  simp only [List.forall_mem_cons, List.not_mem_nil, false_implies, implies_true, and_true]
  simp only [FieldHolds, List.mem_cons, true_or, if_true, check, Binding.schemaValid, true_and,
    and_true]
  constructor
  · rintro ⟨value, hvalue⟩
    refine ⟨value, ?_⟩
    rw [hvalue]
    exact .some (Json.same_refl value (lookup_distinct hown hvalue))
  · rintro ⟨value, hmatches⟩
    obtain ⟨y, hy, -⟩ := Json.matches_some.mp hmatches
    exact ⟨y, hy⟩

theorem encodeBinding_compute (expression : JsonObject)
    (bindings : Option (List (String × Binding))) :
    encodeBinding (.compute expression bindings) = Json.object
      [("compute", some (.obj expression)), ("using", bindings.map (encodeMap encodeBinding))] := by
  cases bindings with
  | none => rfl
  | some bindings => rw [encodeBinding, obj_encodeBindings, Option.map_some]

theorem compute_valid_iff {expression : JsonObject} {bindings : Option (List (String × Binding))} :
    (Binding.compute expression bindings).schemaValid = true ↔
      ∀ m ∈ bindings, ∀ p ∈ m, p.2.schemaValid = true := by
  cases bindings with
  | none => simp [Binding.schemaValid]
  | some bindings =>
      rw [Binding.schemaValid, bindingMapValid_iff]
      simp

theorem describes_bindingCompute (hj : j.namesDistinct = true) : Described .bindingCompute j := by
  have himage : specLanguage .bindingCompute j ↔
      Image (fun p : JsonObject × Option (List (String × Binding)) =>
        encodeBinding (.compute p.1 p.2)) (fun p => (Binding.compute p.1 p.2).schemaValid = true) j :=
    Json.image_constructor fun b => by cases b <;> simp [Binding.definition]
  rw [Described, workflowSpecSchema, himage]
  apply closed_iff_image (fun p => [("compute", some (.obj p.1)),
    ("using", p.2.map (encodeMap encodeBinding))]) (fun p => encodeBinding_compute p.1 p.2)
    (fun _ => rfl) (by decide) (by decide) hj
  intro own hown
  simp only [List.forall_mem_cons, List.not_mem_nil, false_implies, implies_true, and_true]
  simp only [FieldHolds, List.mem_cons, if_true, Schema.check_type, Schema.includes_object,
    List.not_mem_nil, or_false, String.reduceEq, if_false, compute_valid_iff]
  rw [optional_mapOf (fun _ => Iff.rfl) hown]
  constructor
  · rintro ⟨⟨x, hx, expression, rfl⟩, o, ho, hmatches⟩
    refine ⟨(expression, o), ho, ?_, hmatches⟩
    rw [hx]
    exact .some (Json.same_refl _ (lookup_distinct hown hx))
  · rintro ⟨⟨expression, o⟩, ho, hcompute, hmatches⟩
    obtain ⟨y, hy, hsame⟩ := Json.matches_some.mp hcompute
    obtain ⟨expression', rfl, -⟩ := Json.same_obj.mp hsame
    exact ⟨⟨_, hy, expression', rfl⟩, o, ho, hmatches⟩

theorem describes_bindingItemResource (hj : j.namesDistinct = true) :
    Described .bindingItemResource j := by
  have himage : specLanguage .bindingItemResource j ↔
      Image (fun p : Binding × String => encodeBinding (.itemResource p.1 p.2))
        (fun p => (Binding.itemResource p.1 p.2).schemaValid = true) j :=
    Json.image_constructor fun b => by cases b <;> simp [Binding.definition]
  rw [Described, workflowSpecSchema, himage]
  apply closed_iff_image _ (fun _ => rfl) (fun _ => rfl) (by decide) (by decide) hj
  intro own hown
  simp only [List.forall_mem_cons, List.not_mem_nil, false_implies, implies_true, and_true]
  simp only [FieldHolds, List.mem_cons, true_or, or_true, if_true, check_const, Schema.check_ref,
    specLanguage, Json.image_required, exists_eq_right, Json.matches_str, Binding.schemaValid,
    Bool.and_eq_true]
  constructor
  · intro ⟨hfrom, ⟨itemId, hitem, hmatchesItem⟩, path, hpath, hmatches⟩
    exact ⟨(itemId, path), ⟨hitem, hpath⟩, hfrom, hmatchesItem, hmatches⟩
  · intro ⟨p, ⟨hitem, hpath⟩, hfrom, hmatchesItem, hmatches⟩
    exact ⟨hfrom, ⟨p.1, hitem, hmatchesItem⟩, p.2, hpath, hmatches⟩

/-- The text under `from`, for the bindings that have one. -/
def Binding.source : Binding → Option String
  | .static _ => some "static"
  | .session _ => some "session"
  | .request _ => some "request"
  | .step .. => some "step"
  | .item => some "item"
  | .literal _ => none
  | .compute .. => none
  | .itemResource .. => some "itemResource"

theorem binding_source {b : Binding} (h : (encodeBinding b).same (.obj own) = true) :
    own.lookup "from" = b.source.map .str ∧
      ((own.lookup "literal").isSome = true ↔ b.definition = .bindingLiteral) := by
  cases b with
  | compute expression bindings =>
      cases bindings <;> rw [encodeBinding] at h
      all_goals
        have hlookup := Json.lookup_of_same (by simp) h
        have hfrom : own.lookup "from" = none := Json.matches_none.mp (hlookup "from")
        have hliteral : own.lookup "literal" = none := Json.matches_none.mp (hlookup "literal")
        rw [hfrom, hliteral]
        simp [Binding.source, Binding.definition]
  | literal value =>
      rw [encodeBinding] at h
      have hlookup := Json.lookup_of_same (by simp) h
      have hfrom : own.lookup "from" = none := Json.matches_none.mp (hlookup "from")
      obtain ⟨y, hy, -⟩ := Json.matches_some.mp (hlookup "literal")
      rw [hfrom, hy]
      simp [Binding.source, Binding.definition]
  | _ =>
      rw [encodeBinding] at h
      have hlookup := Json.lookup_of_same (by simp) h
      have hfrom := Json.matches_str.mp (hlookup "from")
      have hliteral : own.lookup "literal" = none := Json.matches_none.mp (hlookup "literal")
      rw [hfrom, hliteral]
      simp [Binding.source, Binding.definition]

theorem object_same {fields : List (String × Option Json)}
    (h : (Json.object fields).same j = true) : ∃ own, j = .obj own := by
  rw [Json.object, Json.same_obj] at h
  obtain ⟨own, hj, -⟩ := h
  exact ⟨own, hj⟩

theorem binding_object {b : Binding} (h : (encodeBinding b).same j = true) :
    ∃ own, j = .obj own := by
  cases b with
  | compute expression bindings =>
      cases bindings <;> rw [encodeBinding] at h
      all_goals exact object_same h
  | _ =>
      rw [encodeBinding] at h
      exact object_same h

/-- Two bindings of one document are of one kind. -/
theorem binding_definition_unique {b b' : Binding} (h : (encodeBinding b).same j = true)
    (h' : (encodeBinding b').same j = true) : b.definition = b'.definition := by
  obtain ⟨own, rfl⟩ := binding_object h
  obtain ⟨hfrom, hliteral⟩ := binding_source h
  obtain ⟨hfrom', hliteral'⟩ := binding_source h'
  have hsource : b.source = b'.source := by
    have heq : b.source.map Json.str = b'.source.map Json.str := hfrom.symm.trans hfrom'
    exact Option.map_injective (fun _ _ => Json.str.inj) heq
  have hkind : b.definition = .bindingLiteral ↔ b'.definition = .bindingLiteral :=
    hliteral.symm.trans hliteral'
  cases b <;> cases b' <;> simp_all [Binding.source, Binding.definition]

theorem bindingAlternative_iff (hname : name ∈ bindingAlternatives) : specLanguage name j ↔
    Image encodeBinding (fun b => b.schemaValid = true ∧ b.definition = name) j := by
  simp only [bindingAlternatives, List.mem_cons, List.not_mem_nil, or_false] at hname
  rcases hname with rfl | rfl | rfl | rfl | rfl | rfl | rfl | rfl <;> rfl

/-- No document is a binding of two kinds. -/
theorem bindingAlternatives_disjoint {name other : SpecDefinition}
    (hname : name ∈ bindingAlternatives) (hother : other ∈ bindingAlternatives)
    (h : specLanguage name j) (h' : specLanguage other j) : name = other := by
  obtain ⟨b, ⟨-, rfl⟩, hb⟩ := (bindingAlternative_iff hname).mp h
  obtain ⟨b', ⟨-, rfl⟩, hb'⟩ := (bindingAlternative_iff hother).mp h'
  exact binding_definition_unique hb hb'

theorem Binding.definition_mem (b : Binding) : b.definition ∈ bindingAlternatives := by
  cases b <;> simp [Binding.definition, bindingAlternatives]

theorem describes_binding : Described .binding j := by
  rw [Described, workflowSpecSchema, specLanguage, Schema.check_all, List.forall_mem_cons,
    List.forall_mem_singleton, Schema.check_type, Schema.includes_object,
    Schema.check_oneOf_ref (by decide) fun _ ha _ hb => bindingAlternatives_disjoint ha hb]
  constructor
  · rintro ⟨-, name, hname, hl⟩
    obtain ⟨b, ⟨hb, -⟩, hsame⟩ := (bindingAlternative_iff hname).mp hl
    exact ⟨b, hb, hsame⟩
  · intro ⟨b, hb, hsame⟩
    exact ⟨binding_object hsame, b.definition, b.definition_mem,
      (bindingAlternative_iff b.definition_mem).mpr ⟨b, ⟨hb, rfl⟩, hsame⟩⟩

/-! ### Nodes -/

theorem forall_getD {β : Type} {o : Option (List β)} {valid : β → Prop} :
    (∀ a ∈ o.getD [], valid a) ↔ ∀ l ∈ o, ∀ a ∈ l, valid a := by
  cases o <;> simp

theorem absent_iff :
    (∀ x, own.lookup key = some x → check call (.bool false) x = some true) ↔
      Matches none (own.lookup key) := by
  rw [Json.matches_none, Option.eq_none_iff_forall_ne_some]
  simp [check]

theorem step_valid_iff {s : Step} : s.schemaValid = true ↔ isNonEmpty s.id = true ∧
    matchesPattern ociDigestRefPattern s.service = true ∧ isNonEmpty s.function = true ∧
      (∀ l ∈ s.dependsOn, ∀ id ∈ l, isNonEmpty id = true) ∧
      (∀ m ∈ s.reads, ∀ p ∈ m, p.2.schemaValid = true) ∧
      (∀ m ∈ s.writes, ∀ p ∈ m, isNonEmpty p.2.key = true) ∧
      ∀ m ∈ s.secrets, ∀ p ∈ m, isNonEmpty p.2.name = true := by
  simp only [Step.schemaValid, Bool.and_eq_true, bindingMapValid_iff, List.all_eq_true,
    forall_getD, and_assoc]

theorem describes_step (hj : j.namesDistinct = true) : Described .step j := by
  have himage : specLanguage .step j ↔ Image (fun s => encodeNode (.step s))
      (fun s => nodeValid (.step s) = true) j :=
    Json.image_constructor fun n => by cases n <;> simp [Node.definition]
  rw [Described, workflowSpecSchema, himage]
  apply closed_iff_image _ (fun _ => rfl) (fun _ => rfl) (by decide) (by decide) hj
  intro own hown
  simp only [List.forall_mem_cons, List.not_mem_nil, false_implies, implies_true, and_true]
  simp only [FieldHolds, List.mem_cons, or_true, if_true, check_nonEmptyString,
    check_nonEmptyStrings, Schema.check_ref, specLanguage, Json.image_required,
    Json.image_optional, Json.matches_str, List.not_mem_nil, or_false, String.reduceEq, if_false,
    absent_iff, nodeValid, step_valid_iff]
  rw [optional_mapOf (fun _ => Iff.rfl) hown, optional_mapOf (fun _ => Iff.rfl) hown,
    optional_mapOf (fun _ => Iff.rfl) hown]
  constructor
  · rintro ⟨⟨id, hid, hmatchId⟩, hkind, ⟨service, hservice, hmatchService⟩,
      ⟨function, hfunction, hmatchFunction⟩, ⟨dependsOn, hdeps, hmatchDeps⟩,
      ⟨reads, hreads, hmatchReads⟩, ⟨writes, hwrites, hmatchWrites⟩,
      secrets, hsecrets, hmatchSecrets⟩
    exact ⟨⟨id, service, function, dependsOn, reads, writes, secrets⟩,
      ⟨hid, hservice, hfunction, hdeps, hreads, hwrites, hsecrets⟩, hmatchId, hkind,
      hmatchService, hmatchFunction, hmatchDeps, hmatchReads, hmatchWrites, hmatchSecrets⟩
  · rintro ⟨s, ⟨hid, hservice, hfunction, hdeps, hreads, hwrites, hsecrets⟩, hmatchId, hkind,
      hmatchService, hmatchFunction, hmatchDeps, hmatchReads, hmatchWrites, hmatchSecrets⟩
    exact ⟨⟨s.id, hid, hmatchId⟩, hkind, ⟨s.service, hservice, hmatchService⟩,
      ⟨s.function, hfunction, hmatchFunction⟩, ⟨s.dependsOn, hdeps, hmatchDeps⟩,
      ⟨s.reads, hreads, hmatchReads⟩, ⟨s.writes, hwrites, hmatchWrites⟩,
      s.secrets, hsecrets, hmatchSecrets⟩

theorem required_body :
    (∃ x, own.lookup key = some x ∧ check (oracle specLanguage)
      (.all [.type .array, .minItems 1, .items (.ref .node)]) x = some true) ↔
    ∃ l : List Node, ((∀ n ∈ l, nodeValid n = true) ∧ l ≠ []) ∧
      Matches (some (encodeList encodeNode l)) (own.lookup key) := by
  simp only [check_body]
  exact Json.image_required

theorem required_cases (hown : (Json.obj own).namesDistinct = true) :
    (∃ x, own.lookup key = some x ∧ check (oracle specLanguage)
      (.all [.type .object, .minProperties 1, .properties [] (.ref .caseBody)]) x = some true) ↔
    ∃ m : List (String × CaseBody), ((∀ p ∈ m, p.2.schemaValid = true) ∧ m ≠ []) ∧
      Matches (some (encodeMap encodeCaseBody m)) (own.lookup key) := by
  rw [← Json.image_required]
  apply exists_congr
  intro x
  apply and_congr_right
  intro hx
  exact check_cases (lookup_distinct hown hx)

theorem describes_branchNode (hj : j.namesDistinct = true) : Described .branchNode j := by
  have himage : specLanguage .branchNode j ↔
      Image (fun p : String × Binding × List (String × CaseBody) =>
        encodeNode (.branch p.1 p.2.1 p.2.2))
        (fun p => nodeValid (.branch p.1 p.2.1 p.2.2) = true) j :=
    Json.image_constructor fun n => by cases n <;> simp [Node.definition]
  rw [Described, workflowSpecSchema, himage]
  apply closed_iff_image _ (fun _ => by rw [encodeNode, obj_encodeCases]) (fun _ => rfl)
    (by decide) (by decide) hj
  intro own hown
  simp only [List.forall_mem_cons, List.not_mem_nil, false_implies, implies_true, and_true]
  simp only [FieldHolds, List.mem_cons, true_or, or_true, if_true, check_nonEmptyString,
    check_const, Schema.check_ref, specLanguage, Json.image_required, Json.matches_str,
    exists_eq_right, nodeValid, Bool.and_eq_true, casesValid_iff, Bool.not_eq_true',
    List.isEmpty_eq_false_iff]
  rw [required_cases hown]
  constructor
  · rintro ⟨⟨id, hid, hmatchId⟩, hkind, ⟨selector, hselector, hmatchSelector⟩,
      cases, ⟨hcases, hne⟩, hmatchCases⟩
    exact ⟨(id, selector, cases), ⟨⟨⟨hid, hselector⟩, hne⟩, hcases⟩, hmatchId, hkind,
      hmatchSelector, hmatchCases⟩
  · rintro ⟨p, ⟨⟨⟨hid, hselector⟩, hne⟩, hcases⟩, hmatchId, hkind, hmatchSelector, hmatchCases⟩
    exact ⟨⟨p.1, hid, hmatchId⟩, hkind, ⟨p.2.1, hselector, hmatchSelector⟩,
      p.2.2, ⟨hcases, hne⟩, hmatchCases⟩

theorem describes_caseBody (hj : j.namesDistinct = true) : Described .caseBody j := by
  have himage : specLanguage .caseBody j ↔
      Image (fun p : List Node × Option (List (String × Binding)) => encodeCaseBody (.mk p.1 p.2))
        (fun p => (CaseBody.mk p.1 p.2).schemaValid = true) j := by
    constructor
    · rintro ⟨⟨steps, yields⟩, hvalid, hsame⟩
      exact ⟨(steps, yields), hvalid, hsame⟩
    · rintro ⟨p, hvalid, hsame⟩
      exact ⟨.mk p.1 p.2, hvalid, hsame⟩
  rw [Described, workflowSpecSchema, himage]
  apply closed_iff_image _ (fun _ => by rw [encodeCaseBody, arr_encodeNodes]) (fun _ => rfl)
    (by decide) (by decide) hj
  intro own hown
  simp only [List.forall_mem_cons, List.not_mem_nil, false_implies, implies_true, and_true]
  simp only [FieldHolds, List.mem_cons, if_true, required_body, List.not_mem_nil, or_false,
    String.reduceEq, if_false, CaseBody.schemaValid, Bool.and_eq_true, nodesValid_iff,
    bindingMapValid_iff, forall_getD, Bool.not_eq_true', List.isEmpty_eq_false_iff]
  rw [optional_mapOf (fun _ => Iff.rfl) hown]
  constructor
  · rintro ⟨⟨steps, ⟨hsteps, hne⟩, hmatchSteps⟩, yields, hyields, hmatchYields⟩
    exact ⟨(steps, yields), ⟨⟨hne, hsteps⟩, hyields⟩, hmatchSteps, hmatchYields⟩
  · rintro ⟨p, ⟨⟨hne, hsteps⟩, hyields⟩, hmatchSteps, hmatchYields⟩
    exact ⟨⟨p.1, ⟨hsteps, hne⟩, hmatchSteps⟩, p.2, hyields, hmatchYields⟩

theorem describes_mapNode (hj : j.namesDistinct = true) : Described .mapNode j := by
  have himage : specLanguage .mapNode j ↔
      Image (fun p : String × Binding × List Node × Option (List (String × Binding)) =>
        encodeNode (.map p.1 p.2.1 p.2.2.1 p.2.2.2))
        (fun p => nodeValid (.map p.1 p.2.1 p.2.2.1 p.2.2.2) = true) j :=
    Json.image_constructor fun n => by cases n <;> simp [Node.definition]
  rw [Described, workflowSpecSchema, himage]
  apply closed_iff_image _ (fun _ => by rw [encodeNode, arr_encodeNodes]) (fun _ => rfl)
    (by decide) (by decide) hj
  intro own hown
  simp only [List.forall_mem_cons, List.not_mem_nil, false_implies, implies_true, and_true]
  simp only [FieldHolds, List.mem_cons, or_true, if_true, check_nonEmptyString, check_const,
    Schema.check_ref, specLanguage, Json.image_required, Json.matches_str, exists_eq_right,
    required_body, List.not_mem_nil, or_false, String.reduceEq, if_false,
    nodeValid, Bool.and_eq_true, nodesValid_iff, bindingMapValid_iff, forall_getD,
    Bool.not_eq_true', List.isEmpty_eq_false_iff]
  rw [optional_mapOf (fun _ => Iff.rfl) hown]
  constructor
  · rintro ⟨⟨id, hid, hmatchId⟩, hkind, ⟨source, hsource, hmatchSource⟩,
      ⟨body, ⟨hbody, hne⟩, hmatchBody⟩, yields, hyields, hmatchYields⟩
    exact ⟨(id, source, body, yields), ⟨⟨⟨⟨hid, hsource⟩, hne⟩, hbody⟩, hyields⟩, hmatchId, hkind,
      hmatchSource, hmatchBody, hmatchYields⟩
  · rintro ⟨p, ⟨⟨⟨⟨hid, hsource⟩, hne⟩, hbody⟩, hyields⟩, hmatchId, hkind, hmatchSource,
      hmatchBody, hmatchYields⟩
    exact ⟨⟨p.1, hid, hmatchId⟩, hkind, ⟨p.2.1, hsource, hmatchSource⟩,
      ⟨p.2.2.1, ⟨hbody, hne⟩, hmatchBody⟩, p.2.2.2, hyields, hmatchYields⟩

/-- The text under `kind`, for the nodes that have one. -/
def Node.kind : Node → Option String
  | .step _ => none
  | .branch .. => some "branch"
  | .map .. => some "map"

theorem node_object {n : Node} (h : (encodeNode n).same j = true) : ∃ own, j = .obj own := by
  cases n <;> rw [encodeNode] at h
  all_goals exact object_same h

theorem node_kind {n : Node} (h : (encodeNode n).same (.obj own) = true) :
    own.lookup "kind" = n.kind.map .str := by
  cases n with
  | step s =>
      rw [encodeNode, encodeStep] at h
      exact Json.matches_none.mp (Json.lookup_of_same (by simp) h "kind")
  | branch id selector cases =>
      rw [encodeNode] at h
      exact Json.matches_str.mp (Json.lookup_of_same (by simp) h "kind")
  | map id source body yields =>
      rw [encodeNode] at h
      exact Json.matches_str.mp (Json.lookup_of_same (by simp) h "kind")

/-- Two nodes of one document are of one kind. -/
theorem node_definition_unique {n n' : Node} (h : (encodeNode n).same j = true)
    (h' : (encodeNode n').same j = true) : n.definition = n'.definition := by
  obtain ⟨own, rfl⟩ := node_object h
  have heq : n.kind.map Json.str = n'.kind.map Json.str :=
    (node_kind h).symm.trans (node_kind h')
  have hkind : n.kind = n'.kind := Option.map_injective (fun _ _ => Json.str.inj) heq
  cases n <;> cases n' <;> simp_all [Node.kind, Node.definition]

theorem nodeAlternative_iff (hname : name ∈ nodeAlternatives) : specLanguage name j ↔
    Image encodeNode (fun n => nodeValid n = true ∧ n.definition = name) j := by
  simp only [nodeAlternatives, List.mem_cons, List.not_mem_nil, or_false] at hname
  rcases hname with rfl | rfl | rfl <;> rfl

/-- No document is a node of two kinds. -/
theorem nodeAlternatives_disjoint {name other : SpecDefinition}
    (hname : name ∈ nodeAlternatives) (hother : other ∈ nodeAlternatives)
    (h : specLanguage name j) (h' : specLanguage other j) : name = other := by
  obtain ⟨n, ⟨-, rfl⟩, hn⟩ := (nodeAlternative_iff hname).mp h
  obtain ⟨n', ⟨-, rfl⟩, hn'⟩ := (nodeAlternative_iff hother).mp h'
  exact node_definition_unique hn hn'

theorem Node.definition_mem (n : Node) : n.definition ∈ nodeAlternatives := by
  cases n <;> simp [Node.definition, nodeAlternatives]

theorem describes_node : Described .node j := by
  rw [Described, workflowSpecSchema, specLanguage, Schema.check_all, List.forall_mem_cons,
    List.forall_mem_singleton, Schema.check_type, Schema.includes_object,
    Schema.check_oneOf_ref (by decide) fun _ ha _ hb => nodeAlternatives_disjoint ha hb]
  constructor
  · rintro ⟨-, name, hname, hl⟩
    obtain ⟨n, ⟨hn, -⟩, hsame⟩ := (nodeAlternative_iff hname).mp hl
    exact ⟨n, hn, hsame⟩
  · intro ⟨n, hn, hsame⟩
    exact ⟨node_object hsame, n.definition, n.definition_mem,
      (nodeAlternative_iff n.definition_mem).mpr ⟨n, ⟨hn, rfl⟩, hsame⟩⟩

/-! ### The document itself -/

/-- An integer of at least 1. -/
theorem check_version : check call (.all [.type .integer, .minimum 1]) x = some true ↔
    ∃ version : ℤ, 1 ≤ version ∧ x = .num (.ofInt version) := by
  simp only [Schema.check_all, List.forall_mem_cons, List.not_mem_nil, false_implies, implies_true,
    and_true, Schema.check_type]
  constructor
  · intro ⟨htype, hminimum⟩
    cases x with
    | num n =>
        have hinteger : 0 ≤ n.exponent := by simpa [InstanceType.includes, JsNumber.isInteger] using htype
        refine ⟨n.toInt, ?_, by rw [JsNumber.ofInt_toInt hinteger]⟩
        rw [check, Option.some.injEq, JsNumber.atLeast, if_pos hinteger, decide_eq_true_iff]
          at hminimum
        exact hminimum
    | _ => cases htype
  · rintro ⟨version, hversion, rfl⟩
    have hinteger := JsNumber.ofInt_exponent version
    refine ⟨by simpa [InstanceType.includes, JsNumber.isInteger] using hinteger, ?_⟩
    rw [check, Option.some.injEq, JsNumber.atLeast, if_pos hinteger, decide_eq_true_iff]
    have hvalue := JsNumber.toInt_ofInt version
    rw [JsNumber.toInt] at hvalue
    rw [hvalue]
    exact hversion

theorem spec_valid_iff {spec : WorkflowSpec} : spec.schemaValid = true ↔
    1 ≤ spec.workflowSpecVersion ∧ isNonEmpty spec.name = true ∧
      (∀ l ∈ spec.inputParameters, (∀ s ∈ l, flatName s = true) ∧ l.Nodup) ∧
      (∀ m ∈ spec.sessionState, ∀ p ∈ m, p.2.schemaValid = true) ∧
      (∀ n ∈ spec.steps, nodeValid n = true) ∧
      ∀ m ∈ spec.outputs, ∀ p ∈ m, p.2.schemaValid = true := by
  have hparameters : ((∀ s ∈ spec.inputParameters.getD [], flatName s = true) ∧
      (spec.inputParameters.getD []).Nodup) ↔
        ∀ l ∈ spec.inputParameters, (∀ s ∈ l, flatName s = true) ∧ l.Nodup := by
    cases spec.inputParameters <;> simp
  simp only [WorkflowSpec.schemaValid, Bool.and_eq_true, decide_eq_true_iff, bindingMapValid_iff,
    nodesValid_iff, List.all_eq_true, and_assoc, ← hparameters]
  simp only [forall_getD, SessionStateDeclaration.schemaValid]

theorem describes_workflowSpec (hj : j.namesDistinct = true) : Described .workflowSpec j := by
  rw [Described, workflowSpecSchema, specLanguage]
  apply closed_iff_image _ (fun _ => rfl) (fun _ => rfl) (by decide) (by decide) hj
  intro own hown
  simp only [List.forall_mem_cons, List.not_mem_nil, false_implies, implies_true, and_true]
  simp only [FieldHolds, List.mem_cons, or_true, if_true, check_version, check_nonEmptyString,
    check_string, check_inputParameters, check_nodes, Json.image_required, Json.image_optional,
    Json.matches_str, List.not_mem_nil, or_false, String.reduceEq, if_false, spec_valid_iff]
  rw [optional_mapOf (fun _ => Iff.rfl) hown, optional_mapOf (fun _ => Iff.rfl) hown]
  constructor
  · rintro ⟨⟨x, hx, version, hversion, rfl⟩, ⟨name, hname, hmatchName⟩,
      ⟨description, -, hmatchDescription⟩, ⟨inputParameters, hparameters, hmatchParameters⟩,
      ⟨sessionState, hstate, hmatchState⟩, ⟨steps, hsteps, hmatchSteps⟩,
      outputs, houtputs, hmatchOutputs⟩
    refine ⟨⟨version, name, description, inputParameters, sessionState, steps, outputs⟩,
      ⟨hversion, hname, hparameters, hstate, hsteps, houtputs⟩, ?_, hmatchName, hmatchDescription,
      hmatchParameters, hmatchState, hmatchSteps, hmatchOutputs⟩
    rw [hx]
    exact .some (Json.same_num.mpr rfl)
  · rintro ⟨spec, ⟨hversion, hname, hparameters, hstate, hsteps, houtputs⟩, hmatchVersion,
      hmatchName, hmatchDescription, hmatchParameters, hmatchState, hmatchSteps, hmatchOutputs⟩
    obtain ⟨x, hx, hsame⟩ := Json.matches_some.mp hmatchVersion
    exact ⟨⟨x, hx, spec.workflowSpecVersion, hversion, Json.same_num.mp hsame⟩,
      ⟨spec.name, hname, hmatchName⟩, ⟨spec.description, fun _ _ => trivial, hmatchDescription⟩,
      ⟨spec.inputParameters, hparameters, hmatchParameters⟩,
      ⟨spec.sessionState, hstate, hmatchState⟩, ⟨spec.steps, hsteps, hmatchSteps⟩,
      spec.outputs, houtputs, hmatchOutputs⟩

/-- The schema describes the documents of the valid specifications, and of the valid
values of the types that they consist of. -/
theorem workflowSpecSchema_describes : Schema.Describes workflowSpecSchema specLanguage := by
  intro name j hj
  cases name with
  | workflowSpec => exact describes_workflowSpec hj
  | flatName => exact check_flatName
  | datasetUrn => exact check_pattern
  | ociDigestRef => exact check_pattern
  | jsonPointer => exact check_pattern
  | sessionStateDecl => exact describes_sessionStateDecl hj
  | sessionWriteTarget => exact describes_sessionWriteTarget hj
  | secretRef => exact describes_secretRef hj
  | binding => exact describes_binding
  | bindingStatic => exact describes_bindingStatic hj
  | bindingSession => exact describes_bindingSession hj
  | bindingRequest => exact describes_bindingRequest hj
  | bindingStep => exact describes_bindingStep hj
  | bindingItem => exact describes_bindingItem hj
  | bindingLiteral => exact describes_bindingLiteral hj
  | bindingCompute => exact describes_bindingCompute hj
  | bindingItemResource => exact describes_bindingItemResource hj
  | node => exact describes_node
  | step => exact describes_step hj
  | branchNode => exact describes_branchNode hj
  | caseBody => exact describes_caseBody hj
  | mapNode => exact describes_mapNode hj

end
end WorkflowPlatform
