import WorkflowPlatform.JsonDocuments

/-!
# Reading typed values out of documents

A reader of a type takes a document apart field by field. `Decodes` says that on a
document of a valid value it returns a valid value with that document.
-/
namespace WorkflowPlatform
namespace Json

variable {α β : Type} {decode : Json → Option α} {encode : α → Json} {valid : α → Prop}
variable {own : JsonObject} {key : String} {j : Json}

def decodeString : Json → Option String
  | .str s => some s
  | _ => none

def decodeObject : Json → Option JsonObject
  | .obj own => some own
  | _ => none

def decodeList (decode : Json → Option α) : Json → Option (List α)
  | .arr elements => elements.mapM decode
  | _ => none

def decodeMap (decode : Json → Option α) : Json → Option (List (String × α))
  | .obj own => own.mapM fun p => (decode p.2).map (p.1, ·)
  | _ => none

/-- A property that has to be there. -/
def readField (own : JsonObject) (key : String) (decode : Json → Option α) : Option α :=
  (own.lookup key).bind decode

/-- A property that may be absent. -/
def readOptional (own : JsonObject) (key : String) (decode : Json → Option α) :
    Option (Option α) :=
  match own.lookup key with
  | none => some none
  | some x => (decode x).map some

/-- If the document is one of a valid value, reading it succeeds with such a value. -/
def Decodes (decode : Json → Option α) (encode : α → Json) (valid : α → Prop) (j : Json) : Prop :=
  Image encode valid j → ∃ a, decode j = some a ∧ valid a ∧ same (encode a) j = true

theorem decodes_string {valid : String → Prop} : Decodes decodeString .str valid j := by
  rintro ⟨s, hs, hsame⟩
  rw [same_str] at hsame
  subst hsame
  exact ⟨s, rfl, hs, same_str.mpr rfl⟩

theorem decodes_list (h : ∀ elements, j = .arr elements → ∀ x ∈ elements,
    Decodes decode encode valid x) :
    Decodes (decodeList decode) (encodeList encode) (fun l => ∀ a ∈ l, valid a) j := by
  intro himage
  obtain ⟨elements, rfl, hparts⟩ := image_items.mpr himage
  have helements := h elements rfl
  clear h himage
  have hread : ∃ l, elements.mapM decode = some l ∧ (∀ a ∈ l, valid a) ∧
      List.Forall₂ (fun x y => same x y = true) (l.map encode) elements := by
    induction elements with
    | nil => exact ⟨[], rfl, by simp, .nil⟩
    | cons x rest ih =>
        obtain ⟨hx, hrest⟩ := List.forall_mem_cons.mp helements
        obtain ⟨himage, hparts⟩ := List.forall_mem_cons.mp hparts
        obtain ⟨a, hdecode, ha, hsame⟩ := hx himage
        obtain ⟨l, hread, hl, hforall⟩ := ih hparts hrest
        exact ⟨a :: l, by simp [List.mapM_cons, hdecode, hread],
          List.forall_mem_cons.mpr ⟨ha, hl⟩, .cons hsame hforall⟩
  obtain ⟨l, hread, hl, hforall⟩ := hread
  exact ⟨l, hread, hl, same_arr.mpr ⟨elements, rfl, hforall⟩⟩

theorem decodes_map (hj : j.namesDistinct = true) (h : ∀ own, j = .obj own → ∀ p ∈ own,
    Decodes decode encode valid p.2) :
    Decodes (decodeMap decode) (encodeMap encode) (fun m => ∀ p ∈ m, valid p.2) j := by
  intro himage
  obtain ⟨own, rfl, hparts⟩ := (image_fields hj).mpr himage
  have hown := h own rfl
  have hnames : (own.map Prod.fst).Nodup := (namesDistinct_obj.mp hj).1
  clear h himage
  have hread : ∀ l, l ⊆ own → ∃ m : List (String × α),
      l.mapM (fun p => (decode p.2).map (p.1, ·)) = some m ∧ (∀ p ∈ m, valid p.2) ∧
        m.map Prod.fst = l.map Prod.fst ∧
        ∀ p ∈ m, ∃ y, (p.1, y) ∈ own ∧ same (encode p.2) y = true := by
    intro l hl
    induction l with
    | nil => exact ⟨[], rfl, by simp, rfl, by simp⟩
    | cons p rest ih =>
        obtain ⟨hp, hrest⟩ := List.cons_subset.mp hl
        obtain ⟨a, hdecode, ha, hsame⟩ := hown p hp (hparts p hp)
        obtain ⟨m, hread, hm, hkeys, hvalues⟩ := ih hrest
        exact ⟨(p.1, a) :: m, by simp [List.mapM_cons, hdecode, hread],
          List.forall_mem_cons.mpr ⟨ha, hm⟩, by simp [hkeys],
          List.forall_mem_cons.mpr ⟨⟨p.2, hp, hsame⟩, hvalues⟩⟩
  obtain ⟨m, hread, hm, hkeys, hvalues⟩ := hread own (List.Subset.refl own)
  refine ⟨m, hread, hm, same_obj.mpr ⟨own, rfl, ?_, ?_⟩⟩
  · intro q hq
    obtain ⟨p, hp, rfl⟩ := List.mem_map.mp hq
    obtain ⟨y, hy, hsame⟩ := hvalues p hp
    exact ⟨y, (AssocList.lookup_eq_some_iff_mem hnames).mpr hy, hsame⟩
  · intro p hp
    rw [List.map_map, Function.comp_def, hkeys]
    exact List.mem_map_of_mem hp

theorem readField_decodes (h : ∀ x, own.lookup key = some x → Decodes decode encode valid x)
    {a : α} (ha : valid a) (hmatches : Matches (some (encode a)) (own.lookup key)) :
    ∃ a', readField own key decode = some a' ∧ valid a' ∧
      Matches (some (encode a')) (own.lookup key) := by
  obtain ⟨y, hy, hsame⟩ := matches_some.mp hmatches
  obtain ⟨a', hdecode, ha', hsame'⟩ := h y hy ⟨a, ha, hsame⟩
  exact ⟨a', by rw [readField, hy, Option.bind_some, hdecode], ha',
    matches_some.mpr ⟨y, hy, hsame'⟩⟩

theorem readOptional_decodes (h : ∀ x, own.lookup key = some x → Decodes decode encode valid x)
    {o : Option α} (ho : ∀ a ∈ o, valid a) (hmatches : Matches (o.map encode) (own.lookup key)) :
    ∃ o', readOptional own key decode = some o' ∧ (∀ a ∈ o', valid a) ∧
      Matches (o'.map encode) (own.lookup key) := by
  cases o with
  | none =>
      have habsent := matches_none.mp hmatches
      exact ⟨none, by rw [readOptional, habsent], by simp, hmatches⟩
  | some a =>
      obtain ⟨y, hy, hsame⟩ := matches_some.mp hmatches
      obtain ⟨a', hdecode, ha', hsame'⟩ := h y hy ⟨a, ho a rfl, hsame⟩
      exact ⟨some a', by simp [readOptional, hy, hdecode], by simpa using ha',
        matches_some.mpr ⟨y, hy, hsame'⟩⟩

/-- A type whose values are the objects of these fields is decoded if the fields are. -/
theorem decodes_object (fields : α → List (String × Option Json)) (names : List String)
    (hencode : ∀ a, encode a = object (fields a)) (hnames : ∀ a, (fields a).map Prod.fst = names)
    (hnodup : names.Nodup) (h : ∀ own, j = .obj own → ∀ a, valid a →
      (∀ p ∈ fields a, Matches p.2 (own.lookup p.1)) → ∃ a', decode j = some a' ∧ valid a' ∧
        ∀ p ∈ fields a', Matches p.2 (own.lookup p.1)) : Decodes decode encode valid j := by
  intro ⟨a, ha, hsame⟩
  rw [hencode] at hsame
  obtain ⟨own, rfl, hmatches, hown⟩ := (same_object ((hnames a).symm ▸ hnodup)).mp hsame
  obtain ⟨a', hdecode, ha', hmatches'⟩ := h own rfl a ha hmatches
  refine ⟨a', hdecode, ha', ?_⟩
  rw [hencode]
  apply (same_object ((hnames a').symm ▸ hnodup)).mpr
  exact ⟨own, rfl, hmatches', fun p hp => (hnames a').symm ▸ hnames a ▸ hown p hp⟩

end Json
end WorkflowPlatform
