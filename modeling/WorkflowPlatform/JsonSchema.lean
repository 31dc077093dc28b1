import WorkflowPlatform.JsonDocuments
import WorkflowPlatform.Pattern

/-!
# JSON schemas

A schema is a set of keywords; `ref` points to a definition by name, and
definitions may be recursive. A validator calls itself for every reference, so it
can run out of stack: `run` has a stack of a given depth and answers nothing
beyond it. A family of languages that the definitions describe in terms of one
another is what `run` decides, and a stack in proportion to the nesting of the
document is enough.
-/
namespace WorkflowPlatform

/-- Whether the number is at least the bound. -/
def JsNumber.atLeast (n : JsNumber) (bound : ℤ) : Bool :=
  if 0 ≤ n.exponent then bound ≤ n.mantissa * 10 ^ n.exponent.toNat
  else bound * 10 ^ (-n.exponent).toNat ≤ n.mantissa

/-- A number without a fractional part. -/
def JsNumber.isInteger (n : JsNumber) : Bool := 0 ≤ n.exponent

inductive InstanceType where
  | object
  | array
  | string
  | integer

def InstanceType.includes : InstanceType → Json → Bool
  | .object, .obj _ => true
  | .array, .arr _ => true
  | .string, .str _ => true
  | .integer, .num n => n.isInteger
  | _, _ => false

/-- A keyword, or several of them in `all`; `properties` is together with the
`additionalProperties` beside it. -/
inductive Schema (ν : Type) where
  | bool (accept : Bool)
  | type (type : InstanceType)
  | enum (values : List String)
  | minimum (bound : ℤ)
  | minLength (length : ℕ)
  | pattern (pattern : Pattern Char)
  | minItems (length : ℕ)
  | uniqueItems
  | items (schema : Schema ν)
  | minProperties (length : ℕ)
  | required (names : List String)
  | properties (properties : List (String × Schema ν)) (additionalProperties : Schema ν)
  | oneOf (alternatives : List (Schema ν))
  | ref (name : ν)
  | all (keywords : List (Schema ν))

namespace Schema
variable {ν α : Type}

def const (value : String) : Schema ν := .enum [value]

/-- `{ "type": "object", "additionalProperties": schema }` -/
def mapOf (schema : Schema ν) : Schema ν := .all [.type .object, .properties [] schema]

/-- `{ "type": "array", "items": schema }` -/
def arrayOf (schema : Schema ν) : Schema ν := .all [.type .array, .items schema]

/-- `{ "type": "object", "additionalProperties": false, "required": required,
"properties": properties }` -/
def closed (required : List String) (properties : List (String × Schema ν)) : Schema ν :=
  .all [.type .object, .required required, .properties properties (.bool false)]

/-- The properties that a closed object declares. -/
def declared : Schema ν → List (String × Schema ν)
  | .all [.type .object, .required _, .properties schemas (.bool false)] => schemas
  | _ => []

/-- Whether all answers are `true`, where all questions have an answer. -/
def every (ask : α → Option Bool) : List α → Option Bool
  | [] => some true
  | a :: rest => do
      let answer ← ask a
      let answers ← every ask rest
      return answer && answers

mutual

/-- The answer of a validator that calls `call` at a reference. -/
def check (call : ν → Json → Option Bool) : Schema ν → Json → Option Bool
  | .bool accept, _ => some accept
  | .type t, j => some (t.includes j)
  | .enum values, .str s => some (decide (s ∈ values))
  | .enum _, _ => some false
  | .minimum bound, .num n => some (n.atLeast bound)
  | .minLength length, .str s => some (decide (length ≤ s.length))
  | .pattern p, .str s => some (p.accepts s.toList)
  | .minItems length, .arr elements => some (decide (length ≤ elements.length))
  | .uniqueItems, .arr elements => some (decide (elements.Pairwise fun x y => x.same y = false))
  | .items schema, .arr elements => every (check call schema) elements
  | .minProperties length, .obj fields => some (decide (length ≤ fields.length))
  | .required names, .obj fields => some (names.all fun name => (fields.lookup name).isSome)
  | .properties declared additional, .obj fields =>
      every (fun p => checkProperty call declared (check call additional) p.1 p.2) fields
  | .oneOf alternatives, j =>
      (checkEach call alternatives j).map fun answers => decide (answers.count true = 1)
  | .ref name, j => call name j
  | .all keywords, j => (checkEach call keywords j).map fun answers => answers.all id
  -- A keyword about one type of values says nothing about the others.
  | _, _ => some true

def checkEach (call : ν → Json → Option Bool) : List (Schema ν) → Json → Option (List Bool)
  | [], _ => some []
  | schema :: rest, j => do
      let answer ← check call schema j
      let answers ← checkEach call rest j
      return answer :: answers

/-- The schema of the property, or the one for additional properties. -/
def checkProperty (call : ν → Json → Option Bool) :
    List (String × Schema ν) → (Json → Option Bool) → String → Json → Option Bool
  | [], additional, _, j => additional j
  | (name, schema) :: rest, additional, key, j =>
      if key = name then check call schema j else checkProperty call rest additional key j

end

/-- The validator with a stack for so many calls. -/
def run (definitions : ν → Schema ν) : ℕ → ν → Json → Option Bool
  | 0, _, _ => none
  | stack + 1, name, j => check (run definitions stack) (definitions name) j

/-- The validator accepts the value when its stack is deep enough. -/
def Accepts (definitions : ν → Schema ν) (name : ν) (j : Json) : Prop :=
  ∃ stack, run definitions stack name j = some true

mutual

/-- The references that a value is checked against itself, not in one of its parts. -/
def references : Schema ν → List ν
  | .ref name => [name]
  | .oneOf alternatives => referencesOfEach alternatives
  | .all keywords => referencesOfEach keywords
  | _ => []

def referencesOfEach : List (Schema ν) → List ν
  | [] => []
  | schema :: rest => references schema ++ referencesOfEach rest

end

variable {call call' : ν → Json → Option Bool} {j : Json} {definitions : ν → Schema ν}

/-! ### Accepted values -/

theorem every_eq_true {ask : α → Option Bool} {l : List α} :
    every ask l = some true ↔ ∀ a ∈ l, ask a = some true := by
  induction l with
  | nil => simp [every]
  | cons a rest ih =>
      rw [List.forall_mem_cons, ← ih, every]
      rcases ask a with _ | answer
      · simp
      · rcases every ask rest with _ | answers <;> simp

theorem every_mono {ask ask' : α → Option Bool} {l : List α}
    (h : ∀ a ∈ l, ∀ r, ask a = some r → ask' a = some r) {r : Bool}
    (hr : every ask l = some r) : every ask' l = some r := by
  induction l generalizing r with
  | nil => exact hr
  | cons a rest ih =>
      simp only [every, Option.bind_eq_bind, Option.bind_eq_some_iff] at hr ⊢
      obtain ⟨answer, ha, answers, hrest, heq⟩ := hr
      exact ⟨answer, h a List.mem_cons_self _ ha, answers,
        ih (fun b hb => h b (List.mem_cons_of_mem _ hb)) hrest, heq⟩

theorem every_isSome {ask : α → Option Bool} {l : List α} (h : ∀ a ∈ l, (ask a).isSome) :
    (every ask l).isSome := by
  induction l with
  | nil => rfl
  | cons a rest ih =>
      obtain ⟨answer, ha⟩ := Option.isSome_iff_exists.mp (h a List.mem_cons_self)
      obtain ⟨answers, hrest⟩ := Option.isSome_iff_exists.mp
        (ih fun b hb => h b (List.mem_cons_of_mem _ hb))
      simp [every, ha, hrest]

theorem checkEach_all {schemas : List (Schema ν)} :
    (∃ answers, checkEach call schemas j = some answers ∧ answers.all id = true) ↔
      ∀ schema ∈ schemas, check call schema j = some true := by
  induction schemas with
  | nil => simp [checkEach]
  | cons schema rest ih =>
      rw [List.forall_mem_cons, ← ih, checkEach]
      rcases check call schema j with _ | answer
      · simp
      · rcases checkEach call rest j with _ | answers <;> simp

/-- A schema accepts what all its keywords accept. -/
theorem check_all {keywords : List (Schema ν)} :
    check call (.all keywords) j = some true ↔ ∀ s ∈ keywords, check call s j = some true := by
  rw [check, Option.map_eq_some_iff, checkEach_all]

theorem checkProperty_eq {properties : List (String × Schema ν)}
    {additional : Json → Option Bool} {key : String} :
    checkProperty call properties additional key j =
      match properties.lookup key with
      | some schema => check call schema j
      | none => additional j := by
  induction properties with
  | nil => rw [checkProperty, List.lookup_nil]
  | cons p rest ih =>
      obtain ⟨name, schema⟩ := p
      rw [checkProperty, AssocList.lookup_cons_ite, ih]
      by_cases h : key = name <;> simp [h]

theorem check_type {t : InstanceType} :
    check call (.type t) j = some true ↔ t.includes j = true := by
  rw [check, Option.some.injEq]

theorem includes_object : InstanceType.object.includes j = true ↔ ∃ own, j = .obj own := by
  cases j <;> simp [InstanceType.includes]

theorem includes_array : InstanceType.array.includes j = true ↔ ∃ elements, j = .arr elements := by
  cases j <;> simp [InstanceType.includes]

theorem includes_string : InstanceType.string.includes j = true ↔ ∃ s, j = .str s := by
  cases j <;> simp [InstanceType.includes]

theorem check_mapOf {schema : Schema ν} : check call (mapOf schema) j = some true ↔
    ∃ own, j = .obj own ∧ ∀ p ∈ own, check call schema p.2 = some true := by
  rw [mapOf, check_all, List.forall_mem_cons, List.forall_mem_singleton, check_type,
    includes_object]
  constructor
  · rintro ⟨⟨own, rfl⟩, hparts⟩
    rw [check, every_eq_true] at hparts
    exact ⟨own, rfl, hparts⟩
  · rintro ⟨own, rfl, hparts⟩
    refine ⟨⟨own, rfl⟩, ?_⟩
    rw [check, every_eq_true]
    exact hparts

theorem check_arrayOf {schema : Schema ν} : check call (arrayOf schema) j = some true ↔
    ∃ elements, j = .arr elements ∧ ∀ x ∈ elements, check call schema x = some true := by
  rw [arrayOf, check_all, List.forall_mem_cons, List.forall_mem_singleton, check_type,
    includes_array]
  constructor
  · rintro ⟨⟨elements, rfl⟩, hparts⟩
    rw [check, every_eq_true] at hparts
    exact ⟨elements, rfl, hparts⟩
  · rintro ⟨elements, rfl, hparts⟩
    refine ⟨⟨elements, rfl⟩, ?_⟩
    rw [check, every_eq_true]
    exact hparts

/-- What a property of a closed object has to satisfy. -/
def FieldHolds (call : ν → Json → Option Bool) (required : List String) (own : JsonObject)
    (property : String × Schema ν) : Prop :=
  if property.1 ∈ required then
    ∃ x, own.lookup property.1 = some x ∧ check call property.2 x = some true
  else ∀ x, own.lookup property.1 = some x → check call property.2 x = some true

/-- A closed object has the properties it must have, each as its schema says, and no
property that is not declared. -/
theorem check_closed {required : List String} {properties : List (String × Schema ν)}
    (hnames : (properties.map Prod.fst).Nodup) (hrequired : required ⊆ properties.map Prod.fst)
    (hdistinct : j.namesDistinct = true) :
    check call (closed required properties) j = some true ↔ ∃ own, j = .obj own ∧
      (∀ p ∈ properties, FieldHolds call required own p) ∧
      ∀ p ∈ own, p.1 ∈ properties.map Prod.fst := by
  simp only [closed, check_all, List.forall_mem_cons, List.not_mem_nil, false_implies,
    implies_true, and_true, check_type, includes_object]
  constructor
  · rintro ⟨⟨own, rfl⟩, hhas, hparts⟩
    rw [check, every_eq_true] at hparts
    rw [check, Option.some.injEq, List.all_eq_true] at hhas
    have hown : (own.map Prod.fst).Nodup := (Json.namesDistinct_obj.mp hdistinct).1
    have hdeclared : ∀ p ∈ own, ∃ schema, (p.1, schema) ∈ properties ∧
        check call schema p.2 = some true := by
      intro p hp
      have hpart := hparts p hp
      rw [checkProperty_eq] at hpart
      cases hlookup : properties.lookup p.1 with
      | none => simp [hlookup, check] at hpart
      | some schema =>
          rw [hlookup] at hpart
          exact ⟨schema, (AssocList.lookup_eq_some_iff_mem hnames).mp hlookup, hpart⟩
    have hholds : ∀ p ∈ properties, ∀ x, own.lookup p.1 = some x →
        check call p.2 x = some true := by
      intro p hp x hx
      obtain ⟨schema, hmem, hpart⟩ :=
        hdeclared (p.1, x) ((AssocList.lookup_eq_some_iff_mem hown).mp hx)
      have heq := List.inj_on_of_nodup_map hnames hmem hp rfl
      rwa [← heq]
    refine ⟨own, rfl, ?_, ?_⟩
    · intro p hp
      unfold FieldHolds
      split
      · next hreq =>
          obtain ⟨x, hx⟩ := Option.isSome_iff_exists.mp (hhas p.1 hreq)
          exact ⟨x, hx, hholds p hp x hx⟩
      · exact hholds p hp
    · intro p hp
      obtain ⟨schema, hmem, _⟩ := hdeclared p hp
      exact List.mem_map_of_mem hmem
  · rintro ⟨own, rfl, hfields, hdeclared⟩
    have hown : (own.map Prod.fst).Nodup := (Json.namesDistinct_obj.mp hdistinct).1
    refine ⟨⟨own, rfl⟩, ?_, ?_⟩
    · rw [check, Option.some.injEq, List.all_eq_true]
      intro name hname
      obtain ⟨p, hp, heq⟩ := List.mem_map.mp (hrequired hname)
      have hfield := hfields p hp
      rw [FieldHolds, if_pos (heq ▸ hname)] at hfield
      obtain ⟨x, hx, _⟩ := hfield
      rw [← heq, hx, Option.isSome_some]
    · rw [check, every_eq_true]
      intro p hp
      obtain ⟨q, hq, heq⟩ := List.mem_map.mp (hdeclared p hp)
      have hlookup : properties.lookup p.1 = some q.2 := by
        rw [← heq]
        exact (AssocList.lookup_eq_some_iff_mem hnames).mpr hq
      have hx : own.lookup q.1 = some p.2 := by
        rw [heq]
        exact (AssocList.lookup_eq_some_iff_mem hown).mpr hp
      have hfield := hfields q hq
      rw [checkProperty_eq, hlookup]
      unfold FieldHolds at hfield
      split at hfield
      · obtain ⟨x, hx', hpart⟩ := hfield
        rw [hx] at hx'
        cases hx'
        exact hpart
      · exact hfield p.2 hx

/-- A property of an accepted closed object is declared, and its schema accepts it. -/
theorem check_closed_property {required : List String} {properties : List (String × Schema ν)}
    {own : JsonObject} {key : String} {x : Json}
    (h : check call (closed required properties) (.obj own) = some true)
    (hdistinct : (Json.obj own).namesDistinct = true) (hx : own.lookup key = some x) :
    ∃ schema, properties.lookup key = some schema ∧ check call schema x = some true := by
  have hown : (own.map Prod.fst).Nodup := (Json.namesDistinct_obj.mp hdistinct).1
  rw [closed, check_all] at h
  have hparts := h (.properties properties (.bool false)) (by simp)
  rw [check, every_eq_true] at hparts
  have hpart := hparts (key, x) ((AssocList.lookup_eq_some_iff_mem hown).mp hx)
  rw [checkProperty_eq] at hpart
  cases hlookup : properties.lookup key with
  | none => simp [hlookup, check] at hpart
  | some schema =>
      rw [hlookup] at hpart
      exact ⟨schema, rfl, hpart⟩

/-! ### Longer stacks and languages -/

/-- The second callee gives every answer that the first gives. -/
def Refines (call call' : ν → Json → Option Bool) : Prop :=
  ∀ name j, j.namesDistinct = true → ∀ r, call name j = some r → call' name j = some r

mutual

theorem Refines.check (h : Refines call call') : (schema : Schema ν) → {j : Json} →
    j.namesDistinct = true → {r : Bool} → Schema.check call schema j = some r →
    Schema.check call' schema j = some r
  | .ref name, j, hj, r, hr => h name j hj r hr
  | .oneOf alternatives, j, hj, r, hr => by
      rw [Schema.check, Option.map_eq_some_iff] at hr ⊢
      obtain ⟨answers, hanswers, heq⟩ := hr
      exact ⟨answers, h.checkEach alternatives hj hanswers, heq⟩
  | .all keywords, j, hj, r, hr => by
      rw [Schema.check, Option.map_eq_some_iff] at hr ⊢
      obtain ⟨answers, hanswers, heq⟩ := hr
      exact ⟨answers, h.checkEach keywords hj hanswers, heq⟩
  | .items schema, .arr elements, hj, r, hr => by
      rw [Schema.check] at hr ⊢
      exact every_mono
        (fun x hx _ => h.check schema (Json.namesDistinct_arr.mp hj x hx)) hr
  | .properties declared additional, .obj fields, hj, r, hr => by
      rw [Schema.check] at hr ⊢
      exact every_mono (fun p hp _ => h.checkProperty declared
        (fun _ => h.check additional ((Json.namesDistinct_obj.mp hj).2 p hp))
        ((Json.namesDistinct_obj.mp hj).2 p hp)) hr
  | .items _, .null, _, _, hr | .items _, .bool _, _, _, hr | .items _, .num _, _, _, hr
  | .items _, .str _, _, _, hr | .items _, .obj _, _, _, hr => by
      simpa [Schema.check] using hr
  | .properties .., .null, _, _, hr | .properties .., .bool _, _, _, hr
  | .properties .., .num _, _, _, hr | .properties .., .str _, _, _, hr
  | .properties .., .arr _, _, _, hr => by simpa [Schema.check] using hr
  | .bool _, _, _, _, hr | .type _, _, _, _, hr => by simpa [Schema.check] using hr
  | .enum _, j, _, _, hr | .minimum _, j, _, _, hr | .minLength _, j, _, _, hr
  | .pattern _, j, _, _, hr | .minItems _, j, _, _, hr | .uniqueItems, j, _, _, hr
  | .minProperties _, j, _, _, hr | .required _, j, _, _, hr => by
      cases j <;> simpa [Schema.check] using hr

theorem Refines.checkEach (h : Refines call call') : (schemas : List (Schema ν)) → {j : Json} →
    j.namesDistinct = true → {answers : List Bool} →
    Schema.checkEach call schemas j = some answers →
    Schema.checkEach call' schemas j = some answers
  | [], _, _, _, hr => hr
  | schema :: rest, j, hj, answers, hr => by
      simp only [Schema.checkEach, Option.bind_eq_bind, Option.bind_eq_some_iff] at hr ⊢
      obtain ⟨answer, hfirst, others, hrest, heq⟩ := hr
      exact ⟨answer, h.check schema hj hfirst, others, h.checkEach rest hj hrest, heq⟩

theorem Refines.checkProperty (h : Refines call call') :
    (declared : List (String × Schema ν)) → {additional additional' : Json → Option Bool} →
    {key : String} → {j : Json} → (∀ r, additional j = some r → additional' j = some r) →
    j.namesDistinct = true → {r : Bool} →
    Schema.checkProperty call declared additional key j = some r →
    Schema.checkProperty call' declared additional' key j = some r
  | [], _, _, _, _, hadd, _, _, hr => hadd _ hr
  | (name, schema) :: rest, additional, _, key, j, hadd, hj, r, hr => by
      rw [Schema.checkProperty] at hr ⊢
      split
      · next heq =>
          rw [if_pos heq] at hr
          exact h.check schema hj hr
      · next hne =>
          rw [if_neg hne] at hr
          exact h.checkProperty rest hadd hj hr

end

open Classical in
/-- The callee that knows the languages of the definitions. -/
noncomputable def oracle (language : ν → Json → Prop) (name : ν) (j : Json) : Option Bool :=
  some (decide (language name j))

/-- The definitions describe these languages in terms of one another. -/
def Describes (definitions : ν → Schema ν) (language : ν → Json → Prop) : Prop :=
  ∀ name j, j.namesDistinct = true →
    (check (oracle language) (definitions name) j = some true ↔ language name j)

variable {language : ν → Json → Prop}

theorem oracle_eq_some {name : ν} {r : Bool} :
    oracle language name j = some r ↔ (r = true ↔ language name j) := by
  by_cases hl : language name j <;> cases r <;> simp [oracle, hl]

theorem check_ref {name : ν} :
    check (oracle language) (.ref name) j = some true ↔ language name j := by
  rw [check, oracle_eq_some, eq_self_iff_true, true_iff]

/-- Whatever the validator answers is the truth about the languages. -/
theorem Describes.refines (h : Describes definitions language) (stack : ℕ) :
    Refines (run definitions stack) (oracle language) := by
  induction stack with
  | zero => exact fun _ _ _ _ hr => nomatch hr
  | succ stack ih =>
      intro name j hj r hr
      rw [oracle_eq_some, ← h name j hj, ih.check (definitions name) hj hr, Option.some.injEq]

theorem Describes.run_eq_true (h : Describes definitions language) {stack : ℕ} {name : ν}
    {r : Bool} (hj : j.namesDistinct = true) (hr : run definitions stack name j = some r) :
    r = true ↔ language name j :=
  oracle_eq_some.mp (h.refines stack name j hj r hr)

/-! ### Depth of the stack -/

mutual

/-- A schema has an answer if the references that are checked against the value itself
have one, and all references one for the parts of the value. -/
theorem check_isSome {j : Json}
    (hparts : ∀ x, x.depth < j.depth → ∀ name, (call name x).isSome) :
    (schema : Schema ν) → (∀ name ∈ schema.references, (call name j).isSome) →
    (check call schema j).isSome
  | .ref name, hrefs => hrefs name (by simp [references])
  | .oneOf alternatives, hrefs => by
      rw [check, Option.isSome_map]
      exact checkEach_isSome hparts alternatives hrefs
  | .all keywords, hrefs => by
      rw [check, Option.isSome_map]
      exact checkEach_isSome hparts keywords hrefs
  | .items schema, _ => by
      cases j with
      | arr elements =>
          rw [check]
          apply every_isSome
          intro x hx
          have hlt := Json.depth_item_lt hx
          exact check_isSome (fun y hy => hparts y (hy.trans hlt)) schema
            fun name _ => hparts x hlt name
      | _ => rfl
  | .properties declared additional, _ => by
      cases j with
      | obj fields =>
          rw [check]
          apply every_isSome
          intro p hp
          have hlt := Json.depth_field_lt hp
          have hdeeper : ∀ x, x.depth < p.2.depth → ∀ name, (call name x).isSome :=
            fun x hx => hparts x (hx.trans hlt)
          exact checkProperty_isSome hdeeper declared (hparts p.2 hlt)
            (check_isSome hdeeper additional fun name _ => hparts p.2 hlt name)
      | _ => rfl
  | .bool _, _ | .type _, _ => rfl
  | .enum _, _ | .minimum _, _ | .minLength _, _ | .pattern _, _ | .minItems _, _
  | .uniqueItems, _ | .minProperties _, _ | .required _, _ => by cases j <;> rfl

theorem checkEach_isSome {j : Json}
    (hparts : ∀ x, x.depth < j.depth → ∀ name, (call name x).isSome) :
    (schemas : List (Schema ν)) → (∀ name ∈ referencesOfEach schemas, (call name j).isSome) →
    (checkEach call schemas j).isSome
  | [], _ => rfl
  | schema :: rest, hrefs => by
      rw [referencesOfEach, List.forall_mem_append] at hrefs
      obtain ⟨answer, hfirst⟩ :=
        Option.isSome_iff_exists.mp (check_isSome hparts schema hrefs.1)
      obtain ⟨answers, hrest⟩ :=
        Option.isSome_iff_exists.mp (checkEach_isSome hparts rest hrefs.2)
      simp [checkEach, hfirst, hrest]

theorem checkProperty_isSome {j : Json} {key : String} {additional : Json → Option Bool}
    (hparts : ∀ x, x.depth < j.depth → ∀ name, (call name x).isSome) :
    (declared : List (String × Schema ν)) → (∀ name, (call name j).isSome) →
    (additional j).isSome → (checkProperty call declared additional key j).isSome
  | [], _, hadd => hadd
  | (name, schema) :: rest, hcall, hadd => by
      rw [checkProperty]
      split
      · exact check_isSome hparts schema fun name _ => hcall name
      · exact checkProperty_isSome hparts rest hcall hadd

end

/-- A stack that grows with the nesting of the value is deep enough, where chains of
references to the same value are bounded by a rank. -/
theorem run_isSome {rank : ν → ℕ} {bound : ℕ} (hbound : ∀ name, rank name ≤ bound)
    (hrank : ∀ name, ∀ other ∈ (definitions name).references, rank other < rank name)
    {stack : ℕ} {name : ν} {j : Json} (h : (bound + 1) * j.depth + rank name < stack) :
    (run definitions stack name j).isSome := by
  induction stack generalizing name j with
  | zero => omega
  | succ stack ih =>
      apply check_isSome
      · intro x hx other
        apply ih
        have hother := hbound other
        have hmul : (bound + 1) * (x.depth + 1) ≤ (bound + 1) * j.depth :=
          Nat.mul_le_mul_left _ hx
        rw [Nat.mul_succ] at hmul
        omega
      · intro other hother
        apply ih
        have hlt := hrank name other hother
        omega

/-- The validator accepts the words of the language. -/
theorem Describes.accepts_iff (h : Describes definitions language) {rank : ν → ℕ} {bound : ℕ}
    (hbound : ∀ name, rank name ≤ bound)
    (hrank : ∀ name, ∀ other ∈ (definitions name).references, rank other < rank name)
    {name : ν} (hj : j.namesDistinct = true) :
    Accepts definitions name j ↔ language name j := by
  constructor
  · intro ⟨stack, hr⟩
    exact (h.run_eq_true hj hr).mp rfl
  · intro hl
    obtain ⟨r, hr⟩ := Option.isSome_iff_exists.mp
      (run_isSome hbound hrank (Nat.lt_succ_self ((bound + 1) * j.depth + rank name)))
    have hr' := (h.run_eq_true hj hr).mpr hl
    exact ⟨_, hr' ▸ hr⟩

/-! ### Discriminated alternatives -/

open Classical in
theorem checkEach_ref (names : List ν) : checkEach (oracle language) (names.map .ref) j =
    some (names.map fun name => decide (language name j)) := by
  induction names with
  | nil => rfl
  | cons name rest ih => simp [checkEach, check, oracle, ih]

open Classical in
theorem count_eq_one_iff {names : List ν} (hnames : names.Nodup)
    (hdisjoint : ∀ a ∈ names, ∀ b ∈ names, language a j → language b j → a = b) :
    (names.map fun name => decide (language name j)).count true = 1 ↔
      ∃ name ∈ names, language name j := by
  induction names with
  | nil => simp
  | cons name rest ih =>
      obtain ⟨hfresh, hrest⟩ := List.nodup_cons.mp hnames
      by_cases hl : language name j
      · have hnone : true ∉ rest.map fun name => decide (language name j) := by
          intro hmem
          obtain ⟨other, hother, heq⟩ := List.mem_map.mp hmem
          have hsame := hdisjoint name List.mem_cons_self other
            (List.mem_cons_of_mem _ hother) hl (of_decide_eq_true heq)
          exact hfresh (hsame ▸ hother)
        simp [hl, List.count_eq_zero.mpr hnone]
      · have hih := ih hrest fun a ha b hb =>
          hdisjoint a (List.mem_cons_of_mem _ ha) b (List.mem_cons_of_mem _ hb)
        simp [hl, hih]

/-- Alternatives of which no two accept the value are a disjunction. -/
theorem check_oneOf_ref {names : List ν} (hnames : names.Nodup)
    (hdisjoint : ∀ a ∈ names, ∀ b ∈ names, language a j → language b j → a = b) :
    check (oracle language) (.oneOf (names.map .ref)) j = some true ↔
      ∃ name ∈ names, language name j := by
  classical
  rw [check, checkEach_ref, Option.map_some, Option.some.injEq, decide_eq_true_iff]
  exact count_eq_one_iff hnames hdisjoint

end Schema
end WorkflowPlatform
