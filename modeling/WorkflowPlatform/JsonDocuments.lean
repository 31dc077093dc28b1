import WorkflowPlatform.AssocList
import WorkflowPlatform.Json

/-!
# JSON documents

An object is a set of named values. `same` compares two values and ignores the
order in which their objects list the fields; `namesDistinct` says that no object
of a value has two fields of one name, which a parsed document never has.
-/
namespace WorkflowPlatform
namespace Json

mutual

/-- Equal up to the order of the fields of objects. -/
def same : Json → Json → Bool
  | .null, .null => true
  | .bool a, .bool b => a = b
  | .num m, .num n => m = n
  | .str s, .str t => s = t
  | .arr items, .arr items' => sameItems items items'
  | .obj fields, .obj fields' =>
      sameFields fields fields' && fields'.all fun p => (fields.lookup p.1).isSome
  | _, _ => false

def sameItems : List Json → List Json → Bool
  | [], [] => true
  | x :: rest, y :: rest' => same x y && sameItems rest rest'
  | _, _ => false

def sameFields : List (String × Json) → List (String × Json) → Bool
  | [], _ => true
  | (key, x) :: rest, fields =>
      (match fields.lookup key with
        | some y => same x y
        | none => false) && sameFields rest fields

end

mutual

def namesDistinct : Json → Bool
  | .arr items => itemsDistinct items
  | .obj fields => (fields.map Prod.fst).Nodup && fieldsDistinct fields
  | _ => true

def itemsDistinct : List Json → Bool
  | [] => true
  | j :: rest => namesDistinct j && itemsDistinct rest

def fieldsDistinct : List (String × Json) → Bool
  | [] => true
  | (_, j) :: rest => namesDistinct j && fieldsDistinct rest

end

mutual

/-- The number of arrays and objects around the innermost value. -/
def depth : Json → ℕ
  | .arr items => itemsDepth items + 1
  | .obj fields => fieldsDepth fields + 1
  | _ => 0

def itemsDepth : List Json → ℕ
  | [] => 0
  | j :: rest => max (depth j) (itemsDepth rest)

def fieldsDepth : List (String × Json) → ℕ
  | [] => 0
  | (_, j) :: rest => max (depth j) (fieldsDepth rest)

end

/-- The object of the fields that have a value. -/
def object (fields : List (String × Option Json)) : Json :=
  .obj (fields.filterMap fun p => p.2.map (p.1, ·))

variable {j : Json} {items : List Json} {fields : List (String × Json)}

/-! ### Parts of a value -/

theorem itemsDistinct_iff : itemsDistinct items = true ↔ ∀ x ∈ items, x.namesDistinct = true := by
  induction items with
  | nil => simp [itemsDistinct]
  | cons x rest ih => simp [itemsDistinct, ih]

theorem fieldsDistinct_iff :
    fieldsDistinct fields = true ↔ ∀ p ∈ fields, p.2.namesDistinct = true := by
  induction fields with
  | nil => simp [fieldsDistinct]
  | cons p rest ih =>
      obtain ⟨key, x⟩ := p
      simp [fieldsDistinct, ih]

theorem namesDistinct_arr :
    (Json.arr items).namesDistinct = true ↔ ∀ x ∈ items, x.namesDistinct = true := by
  rw [namesDistinct, itemsDistinct_iff]

theorem namesDistinct_obj : (Json.obj fields).namesDistinct = true ↔
    (fields.map Prod.fst).Nodup ∧ ∀ p ∈ fields, p.2.namesDistinct = true := by
  rw [namesDistinct, Bool.and_eq_true, decide_eq_true_iff, fieldsDistinct_iff]

theorem depth_item_lt {x : Json} (h : x ∈ items) : x.depth < (Json.arr items).depth := by
  rw [depth]
  induction items with
  | nil => cases h
  | cons y rest ih =>
      rw [itemsDepth]
      rcases List.mem_cons.mp h with heq | hmem
      · rw [heq]
        omega
      · have hlt := ih hmem
        omega

theorem depth_field_lt {p : String × Json} (h : p ∈ fields) :
    p.2.depth < (Json.obj fields).depth := by
  rw [depth]
  induction fields with
  | nil => cases h
  | cons q rest ih =>
      obtain ⟨key, y⟩ := q
      rw [fieldsDepth]
      rcases List.mem_cons.mp h with heq | hmem
      · subst heq
        exact Nat.lt_succ_of_le (Nat.le_max_left _ _)
      · have hlt := ih hmem
        omega

/-! ### Equality up to the order of fields -/

@[simp] theorem same_str {s : String} : same (.str s) j = true ↔ j = .str s := by
  cases j with
  | str t => simp [same, eq_comm]
  | _ => simp [same]

@[simp] theorem same_num {n : JsNumber} : same (.num n) j = true ↔ j = .num n := by
  cases j with
  | num m => simp [same, eq_comm]
  | _ => simp [same]

theorem sameItems_iff {items' : List Json} :
    sameItems items items' = true ↔ List.Forall₂ (fun x y => same x y = true) items items' := by
  induction items generalizing items' with
  | nil => cases items' <;> simp [sameItems]
  | cons x rest ih => cases items' <;> simp [sameItems, ih]

theorem same_arr : same (.arr items) j = true ↔
    ∃ items', j = .arr items' ∧ List.Forall₂ (fun x y => same x y = true) items items' := by
  cases j with
  | arr items' => simp [same, sameItems_iff]
  | _ => simp [same]

theorem sameFields_iff {fields' : List (String × Json)} : sameFields fields fields' = true ↔
    ∀ p ∈ fields, ∃ y, fields'.lookup p.1 = some y ∧ same p.2 y = true := by
  induction fields with
  | nil => simp [sameFields]
  | cons p rest ih =>
      obtain ⟨key, x⟩ := p
      rw [sameFields, Bool.and_eq_true, ih, List.forall_mem_cons]
      apply and_congr_left
      intro _
      cases fields'.lookup key <;> simp

/-- The same names, and the same values under them. -/
theorem same_obj : same (.obj fields) j = true ↔ ∃ fields', j = .obj fields' ∧
    (∀ p ∈ fields, ∃ y, fields'.lookup p.1 = some y ∧ same p.2 y = true) ∧
    ∀ p ∈ fields', p.1 ∈ fields.map Prod.fst := by
  cases j with
  | obj fields' =>
      simp only [same, Bool.and_eq_true, sameFields_iff, List.all_eq_true,
        AssocList.lookup_isSome_iff, obj.injEq, exists_eq_left']
  | _ => simp [same]

/-- Both are absent, or both are there and the same. -/
def Matches : Option Json → Option Json → Prop := Option.Rel fun x y => same x y = true

theorem mem_present {fields : List (String × Option Json)} {key : String} {x : Json} :
    (key, x) ∈ fields.filterMap (fun p => p.2.map (p.1, ·)) ↔ (key, some x) ∈ fields := by
  simp only [List.mem_filterMap, Option.map_eq_some_iff, Prod.mk.injEq]
  constructor
  · rintro ⟨⟨k, o⟩, hmem, y, hy, rfl, rfl⟩
    exact hy ▸ hmem
  · intro hmem
    exact ⟨(key, some x), hmem, x, rfl, rfl, rfl⟩

/-- A value is the object of these fields if each of them is there or absent as they
say, and no other. -/
theorem same_object {fields : List (String × Option Json)} (hnames : (fields.map Prod.fst).Nodup) :
    same (object fields) j = true ↔ ∃ own, j = .obj own ∧
      (∀ p ∈ fields, Matches p.2 (own.lookup p.1)) ∧
      ∀ p ∈ own, p.1 ∈ fields.map Prod.fst := by
  rw [object, same_obj]
  apply exists_congr
  intro own
  apply and_congr_right
  intro _
  constructor
  · intro ⟨hhas, hown⟩
    have hpresent : ∀ p ∈ own, ∃ x, (p.1, some x) ∈ fields := by
      intro p hp
      obtain ⟨q, hq, hname⟩ := List.mem_map.mp (hown p hp)
      exact ⟨q.2, hname ▸ mem_present.mp hq⟩
    constructor
    · intro p hp
      obtain ⟨key, o⟩ := p
      cases o with
      | some x =>
          obtain ⟨y, hlookup, hsame⟩ := hhas (key, x) (mem_present.mpr hp)
          rw [hlookup]
          exact .some hsame
      | none =>
          have habsent : own.lookup key = none := by
            apply AssocList.lookup_eq_none
            intro hmem
            obtain ⟨q, hq, hkey⟩ := List.mem_map.mp hmem
            obtain ⟨x, hx⟩ := hpresent q hq
            have heq := List.inj_on_of_nodup_map hnames hx hp hkey
            cases heq
          rw [habsent]
          exact .none
    · intro p hp
      obtain ⟨x, hx⟩ := hpresent p hp
      exact List.mem_map_of_mem hx
  · intro ⟨hrel, hown⟩
    constructor
    · intro p hp
      have hvalue := hrel (p.1, some p.2) (mem_present.mp hp)
      cases hlookup : own.lookup p.1 with
      | none =>
          rw [hlookup] at hvalue
          cases hvalue
      | some y =>
          rw [hlookup] at hvalue
          cases hvalue with
          | some hsame => exact ⟨y, rfl, hsame⟩
    · intro p hp
      obtain ⟨q, hq, hname⟩ := List.mem_map.mp (hown p hp)
      have hvalue := hrel q hq
      obtain ⟨y, hy⟩ := Option.isSome_iff_exists.mp
        (AssocList.lookup_isSome_iff.mpr (List.mem_map_of_mem (f := Prod.fst) hp))
      rw [hname, hy] at hvalue
      obtain ⟨key, o⟩ := q
      cases hvalue with
      | some _ => exact List.mem_map.mpr ⟨_, mem_present.mpr hq, hname⟩

theorem same_object_obj {fields : List (String × Option Json)} {own : JsonObject}
    (hnames : (fields.map Prod.fst).Nodup) : same (object fields) (.obj own) = true ↔
      (∀ p ∈ fields, Matches p.2 (own.lookup p.1)) ∧ ∀ p ∈ own, p.1 ∈ fields.map Prod.fst := by
  rw [same_object hnames]
  simp only [obj.injEq, exists_eq_left']

theorem lookup_of_same {fields : List (String × Option Json)} {own : JsonObject}
    (hnames : (fields.map Prod.fst).Nodup) (h : same (object fields) (.obj own) = true)
    (key : String) : Matches (fields.lookup key).join (own.lookup key) := by
  obtain ⟨hfields, hown⟩ := (same_object_obj hnames).mp h
  cases hlookup : fields.lookup key with
  | some o => exact hfields (key, o) ((AssocList.lookup_eq_some_iff_mem hnames).mp hlookup)
  | none =>
      have habsent : own.lookup key = none := by
        apply AssocList.lookup_eq_none
        intro hmem
        obtain ⟨p, hp, rfl⟩ := List.mem_map.mp hmem
        have hsome := AssocList.lookup_isSome_iff.mpr (hown p hp)
        rw [hlookup] at hsome
        cases hsome
      rw [habsent]
      exact .none

/-! ### Documents are the same as themselves -/

mutual

theorem same_refl : (j : Json) → j.namesDistinct = true → same j j = true
  | .null, _ => rfl
  | .bool b, _ => by simp [same]
  | .num n, _ => by simp
  | .str s, _ => by simp
  | .arr items, h => by
      rw [same]
      exact sameItems_refl items (by rwa [namesDistinct] at h)
  | .obj fields, h => by
      obtain ⟨hnames, hparts⟩ := namesDistinct_obj.mp h
      refine same_obj.mpr ⟨fields, rfl, ?_, fun p hp => List.mem_map_of_mem hp⟩
      intro p hp
      exact ⟨p.2, (AssocList.lookup_eq_some_iff_mem hnames).mpr hp,
        fields_refl fields (fieldsDistinct_iff.mpr hparts) p hp⟩

theorem sameItems_refl : (items : List Json) → itemsDistinct items = true →
    sameItems items items = true
  | [], _ => rfl
  | x :: rest, h => by
      rw [itemsDistinct, Bool.and_eq_true] at h
      rw [sameItems, same_refl x h.1, sameItems_refl rest h.2, Bool.and_self]

theorem fields_refl : (fields : List (String × Json)) → fieldsDistinct fields = true →
    ∀ p ∈ fields, same p.2 p.2 = true
  | [], _, _, hp => by cases hp
  | (key, x) :: rest, h, p, hp => by
      rw [fieldsDistinct, Bool.and_eq_true] at h
      rcases List.mem_cons.mp hp with heq | hmem
      · rw [heq]
        exact same_refl x h.1
      · exact fields_refl rest h.2 p hmem

end

/-! ### Images of typed values -/

section
variable {α : Type} {encode : α → Json} {valid : α → Prop} {own : JsonObject} {key : String}

/-- The value is one of these, encoded. -/
def Image (encode : α → Json) (valid : α → Prop) (j : Json) : Prop :=
  ∃ a, valid a ∧ same (encode a) j = true

def encodeList (encode : α → Json) (l : List α) : Json := .arr (l.map encode)

def encodeMap (encode : α → Json) (m : List (String × α)) : Json :=
  .obj (m.map fun p => (p.1, encode p.2))

theorem matches_some {x : Json} {o : Option Json} :
    Matches (some x) o ↔ ∃ y, o = some y ∧ same x y = true := by
  constructor
  · intro h
    cases h with
    | some hsame => exact ⟨_, rfl, hsame⟩
  · rintro ⟨y, rfl, hsame⟩
    exact .some hsame

@[simp] theorem matches_none {o : Option Json} : Matches none o ↔ o = none := by
  constructor
  · intro h
    cases h
    rfl
  · intro h
    exact h ▸ .none

@[simp] theorem matches_str {s : String} {o : Option Json} :
    Matches (some (.str s)) o ↔ o = some (.str s) := by
  simp [matches_some]

/-- The image of one constructor of a type. -/
theorem image_constructor {β : Type} {make : β → α} {is : α → Prop}
    (h : ∀ a, is a ↔ ∃ b, make b = a) : Image encode (fun a => valid a ∧ is a) j ↔
      Image (fun b => encode (make b)) (fun b => valid (make b)) j := by
  constructor
  · rintro ⟨a, ⟨ha, his⟩, hsame⟩
    obtain ⟨b, rfl⟩ := (h a).mp his
    exact ⟨b, ha, hsame⟩
  · intro ⟨b, hb, hsame⟩
    exact ⟨make b, ⟨hb, (h _).mpr ⟨b, rfl⟩⟩, hsame⟩

/-- A property that is there, in the image of a type. -/
theorem image_required : (∃ x, own.lookup key = some x ∧ Image encode valid x) ↔
    ∃ a, valid a ∧ Matches (some (encode a)) (own.lookup key) := by
  simp only [matches_some]
  constructor
  · intro ⟨x, hx, a, ha, hsame⟩
    exact ⟨a, ha, x, hx, hsame⟩
  · intro ⟨a, ha, x, hx, hsame⟩
    exact ⟨x, hx, a, ha, hsame⟩

/-- A property that is in the image of a type if it is there. -/
theorem image_optional : (∀ x, own.lookup key = some x → Image encode valid x) ↔
    ∃ o : Option α, (∀ a ∈ o, valid a) ∧ Matches (o.map encode) (own.lookup key) := by
  constructor
  · intro h
    cases hlookup : own.lookup key with
    | none => exact ⟨none, by simp, by simp⟩
    | some x =>
        obtain ⟨a, ha, hsame⟩ := h x hlookup
        exact ⟨some a, by simpa using ha, .some hsame⟩
  · intro ⟨o, ho, hmatches⟩ x hx
    rw [hx] at hmatches
    cases o with
    | none => cases hmatches
    | some a =>
        cases hmatches with
        | some hsame => exact ⟨a, ho a rfl, hsame⟩

theorem image_items :
    (∃ elements, j = .arr elements ∧ ∀ x ∈ elements, Image encode valid x) ↔
      Image (encodeList encode) (fun l => ∀ a ∈ l, valid a) j := by
  simp only [Image, encodeList, same_arr]
  constructor
  · rintro ⟨elements, rfl, h⟩
    have hall : ∃ l : List α, (∀ a ∈ l, valid a) ∧
        List.Forall₂ (fun x y => same x y = true) (l.map encode) elements := by
      induction elements with
      | nil => exact ⟨[], by simp, .nil⟩
      | cons x rest ih =>
          obtain ⟨⟨a, ha, hsame⟩, hrest⟩ := List.forall_mem_cons.mp h
          obtain ⟨l, hl, hforall⟩ := ih hrest
          exact ⟨a :: l, List.forall_mem_cons.mpr ⟨ha, hl⟩, .cons hsame hforall⟩
    obtain ⟨l, hl, hforall⟩ := hall
    exact ⟨l, hl, elements, rfl, hforall⟩
  · rintro ⟨l, hl, elements, rfl, hforall⟩
    refine ⟨elements, rfl, ?_⟩
    induction l generalizing elements with
    | nil =>
        cases hforall
        simp
    | cons a rest ih =>
        cases hforall with
        | cons hsame hrest =>
            obtain ⟨ha, hl⟩ := List.forall_mem_cons.mp hl
            exact List.forall_mem_cons.mpr ⟨⟨a, ha, hsame⟩, ih hl _ hrest⟩

theorem encodeList_same {l : List α} (h : (encodeList encode l).same j = true) :
    j = .arr [] ↔ l = [] := by
  obtain ⟨elements, rfl, hforall⟩ := same_arr.mp h
  have hlength := hforall.length_eq
  rw [arr.injEq, ← List.length_eq_zero_iff, ← hlength, List.length_map, List.length_eq_zero_iff]

theorem encodeMap_same {m : List (String × α)} (h : (encodeMap encode m).same j = true) :
    j = .obj [] ↔ m = [] := by
  obtain ⟨own, rfl, hvalues, hkeys⟩ := same_obj.mp h
  rw [obj.injEq]
  constructor
  · rintro rfl
    rw [List.eq_nil_iff_forall_not_mem]
    intro p hp
    obtain ⟨y, hy, -⟩ := hvalues _ (List.mem_map_of_mem hp)
    simp at hy
  · rintro rfl
    rw [List.eq_nil_iff_forall_not_mem]
    intro p hp
    exact absurd (hkeys p hp) (by simp)

theorem image_fields (hj : j.namesDistinct = true) :
    (∃ own, j = .obj own ∧ ∀ p ∈ own, Image encode valid p.2) ↔
      Image (encodeMap encode) (fun m => ∀ p ∈ m, valid p.2) j := by
  simp only [Image, encodeMap, same_obj]
  constructor
  · rintro ⟨own, rfl, h⟩
    have hnames : (own.map Prod.fst).Nodup := (namesDistinct_obj.mp hj).1
    have hall : ∀ l, l ⊆ own → ∃ m : List (String × α), (∀ p ∈ m, valid p.2) ∧
        m.map Prod.fst = l.map Prod.fst ∧
        ∀ p ∈ m, ∃ y, (p.1, y) ∈ own ∧ same (encode p.2) y = true := by
      intro l hl
      induction l with
      | nil => exact ⟨[], by simp, rfl, by simp⟩
      | cons p rest ih =>
          obtain ⟨hp, hrest⟩ := List.cons_subset.mp hl
          obtain ⟨a, ha, hsame⟩ := h p hp
          obtain ⟨m, hm, hkeys, hvalues⟩ := ih hrest
          exact ⟨(p.1, a) :: m, List.forall_mem_cons.mpr ⟨ha, hm⟩, by simp [hkeys],
            List.forall_mem_cons.mpr ⟨⟨p.2, hp, hsame⟩, hvalues⟩⟩
    obtain ⟨m, hm, hkeys, hvalues⟩ := hall own (List.Subset.refl own)
    refine ⟨m, hm, own, rfl, ?_, ?_⟩
    · intro q hq
      obtain ⟨p, hp, rfl⟩ := List.mem_map.mp hq
      obtain ⟨y, hy, hsame⟩ := hvalues p hp
      exact ⟨y, (AssocList.lookup_eq_some_iff_mem hnames).mpr hy, hsame⟩
    · intro p hp
      rw [List.map_map, Function.comp_def, hkeys]
      exact List.mem_map_of_mem hp
  · rintro ⟨m, hm, own, rfl, hvalues, hkeys⟩
    have hnames : (own.map Prod.fst).Nodup := (namesDistinct_obj.mp hj).1
    refine ⟨own, rfl, ?_⟩
    intro p hp
    obtain ⟨q, hq, hkey⟩ := List.mem_map.mp (hkeys p hp)
    obtain ⟨r, hr, rfl⟩ := List.mem_map.mp hq
    obtain ⟨y, hy, hsame⟩ := hvalues _ hq
    rw [hkey, (AssocList.lookup_eq_some_iff_mem hnames).mpr hp] at hy
    cases hy
    exact ⟨r.2, hm r hr, hsame⟩

end

end Json

/-- A JSON value whose objects have distinct names. -/
structure JsonDocument where
  value : Json
  distinct : value.namesDistinct = true

end WorkflowPlatform
