import WorkflowPlatform.Json
import WorkflowPlatform.Utf16

/-!
# What `JSON.parse` makes of a text

A response body can denote more than a `jsonb` column holds. A JavaScript string is
a sequence of 16-bit units, and an escape can put a surrogate into it without its
partner; a numeral that is too large is read as an infinity. `JSON.stringify` writes
such a surrogate as an escape again, which `jsonb` refuses as it refuses the one of
U+0000, and it writes `null` for an infinity.

`stored` is what a column then gives back, where the text is not refused. Limits on
memory, on the stack and on the size of a column are left out.
-/
namespace WorkflowPlatform

/-- A sequence of 16-bit units: a text, or one in which a surrogate stands alone. -/
inductive JsString where
  | text (s : String)
  | unpaired (units : List UInt16) (h : Utf16.wellFormed units = false)
deriving DecidableEq

namespace JsString

def units : JsString → List UInt16
  | .text s => Utf16.encode s.toList
  | .unpaired units _ => units

def ofUnits (units : List UInt16) : JsString :=
  if h : Utf16.wellFormed units = true then .text (String.ofList (Utf16.decode units))
  else .unpaired units (Bool.eq_false_iff.mpr h)

/-- Any units are those of one string, and a string is known by its units. -/
theorem units_ofUnits (units : List UInt16) : (ofUnits units).units = units := by
  unfold ofUnits
  split_ifs with h
  · rw [JsString.units, String.toList_ofList, Utf16.encode_decode h]
  · rfl

theorem ofUnits_units (s : JsString) : ofUnits s.units = s := by
  cases s with
  | text s =>
      rw [units, ofUnits, dif_pos (Utf16.wellFormed_encode s.toList), Utf16.decode_encode,
        String.ofList_toList]
  | unpaired units h =>
      rw [JsString.units, ofUnits, dif_neg (by simp [h])]

/-- `s.slice(0, length)` -/
def take (length : ℕ) (s : JsString) : JsString := ofUnits (s.units.take length)

/-- The string has U+0000 or a surrogate that stands alone. -/
def refused : JsString → Bool
  | .text s => Json.stringHasNul s
  | .unpaired .. => true

/-- The text of a string that is not refused. -/
def stored : JsString → String
  | .text s => s
  | .unpaired units _ => String.ofList (Utf16.decode units)

theorem text_stored {s : JsString} (h : s.refused = false) : .text s.stored = s := by
  cases s with
  | text s => rfl
  | unpaired units hunits => cases h

end JsString

/-- A number as `JSON.parse` reads it. -/
inductive ParsedNumber where
  | finite (n : JsNumber)
  | infinite (negative : Bool)
deriving DecidableEq

inductive ParsedJson where
  | null
  | bool (b : Bool)
  | num (n : ParsedNumber)
  | str (s : JsString)
  | arr (items : List ParsedJson)
  | obj (fields : List (JsString × ParsedJson))

abbrev ParsedObject := List (JsString × ParsedJson)

namespace ParsedJson

mutual

/-- Whether `jsonb` refuses the text of the value. -/
def refused : ParsedJson → Bool
  | .null => false
  | .bool _ => false
  | .num _ => false
  | .str s => s.refused
  | .arr items => itemsRefused items
  | .obj fields => fieldsRefused fields

def itemsRefused : List ParsedJson → Bool
  | [] => false
  | value :: rest => refused value || itemsRefused rest

def fieldsRefused : List (JsString × ParsedJson) → Bool
  | [] => false
  | (key, value) :: rest => key.refused || refused value || fieldsRefused rest

end

mutual

/-- Whether none of its numbers is an infinity. -/
def finite : ParsedJson → Bool
  | .null => true
  | .bool _ => true
  | .num (.finite _) => true
  | .num (.infinite _) => false
  | .str _ => true
  | .arr items => itemsFinite items
  | .obj fields => fieldsFinite fields

def itemsFinite : List ParsedJson → Bool
  | [] => true
  | value :: rest => finite value && itemsFinite rest

def fieldsFinite : List (JsString × ParsedJson) → Bool
  | [] => true
  | (_, value) :: rest => finite value && fieldsFinite rest

end

mutual

/-- The value of the text that `JSON.stringify` writes. -/
def stored : ParsedJson → Json
  | .null => .null
  | .bool b => .bool b
  | .num (.finite n) => .num n
  | .num (.infinite _) => .null
  | .str s => .str s.stored
  | .arr items => .arr (storedItems items)
  | .obj fields => .obj (storedFields fields)

def storedItems : List ParsedJson → List Json
  | [] => []
  | value :: rest => stored value :: storedItems rest

def storedFields : List (JsString × ParsedJson) → List (String × Json)
  | [] => []
  | (key, value) :: rest => (key.stored, stored value) :: storedFields rest

end

mutual

/-- A value that is read back from a column, or from a text without such escapes. -/
def ofJson : Json → ParsedJson
  | .null => .null
  | .bool b => .bool b
  | .num n => .num (.finite n)
  | .str s => .str (.text s)
  | .arr items => .arr (ofItems items)
  | .obj fields => .obj (ofFields fields)

def ofItems : List Json → List ParsedJson
  | [] => []
  | value :: rest => ofJson value :: ofItems rest

def ofFields : List (String × Json) → List (JsString × ParsedJson)
  | [] => []
  | (key, value) :: rest => (.text key, ofJson value) :: ofFields rest

end

mutual

theorem stored_ofJson (j : Json) : stored (ofJson j) = j := by
  cases j with
  | null => rfl
  | bool b => rfl
  | num n => rfl
  | str s => rfl
  | arr items => exact congrArg Json.arr (storedItems_ofItems items)
  | obj fields => exact congrArg Json.obj (storedFields_ofFields fields)

theorem storedItems_ofItems (items : List Json) : storedItems (ofItems items) = items := by
  cases items with
  | nil => rfl
  | cons value rest => rw [ofItems, storedItems, stored_ofJson value, storedItems_ofItems rest]

theorem storedFields_ofFields (fields : List (String × Json)) :
    storedFields (ofFields fields) = fields := by
  cases fields with
  | nil => rfl
  | cons field rest =>
      rw [ofFields, storedFields, stored_ofJson field.2, storedFields_ofFields rest]
      rfl

end

mutual

theorem refused_ofJson (j : Json) : refused (ofJson j) = j.hasNul := by
  cases j with
  | null => rfl
  | bool b => rfl
  | num n => rfl
  | str s => rfl
  | arr items => exact itemsRefused_ofItems items
  | obj fields => exact fieldsRefused_ofFields fields

theorem itemsRefused_ofItems (items : List Json) :
    itemsRefused (ofItems items) = Json.itemsHaveNul items := by
  cases items with
  | nil => rfl
  | cons value rest =>
      rw [ofItems, itemsRefused, Json.itemsHaveNul, refused_ofJson value,
        itemsRefused_ofItems rest]

theorem fieldsRefused_ofFields (fields : List (String × Json)) :
    fieldsRefused (ofFields fields) = Json.fieldsHaveNul fields := by
  cases fields with
  | nil => rfl
  | cons field rest =>
      rw [ofFields, fieldsRefused, Json.fieldsHaveNul, refused_ofJson field.2,
        fieldsRefused_ofFields rest]
      rfl

end

mutual

theorem finite_ofJson (j : Json) : finite (ofJson j) = true := by
  cases j with
  | null => rfl
  | bool b => rfl
  | num n => rfl
  | str s => rfl
  | arr items => exact itemsFinite_ofItems items
  | obj fields => exact fieldsFinite_ofFields fields

theorem itemsFinite_ofItems (items : List Json) : itemsFinite (ofItems items) = true := by
  cases items with
  | nil => rfl
  | cons value rest =>
      rw [ofItems, itemsFinite, finite_ofJson value, itemsFinite_ofItems rest]
      rfl

theorem fieldsFinite_ofFields (fields : List (String × Json)) :
    fieldsFinite (ofFields fields) = true := by
  cases fields with
  | nil => rfl
  | cons field rest =>
      rw [ofFields, fieldsFinite, finite_ofJson field.2, fieldsFinite_ofFields rest]
      rfl

end

mutual

/-- What a column gives back is the value itself, if it is not refused and has no
infinity. -/
theorem ofJson_stored {value : ParsedJson} (h : refused value = false)
    (hfinite : finite value = true) : ofJson (stored value) = value := by
  cases value with
  | null => rfl
  | bool b => rfl
  | num n =>
      cases n with
      | finite n => rfl
      | infinite negative => cases hfinite
  | str s => exact congrArg ParsedJson.str (JsString.text_stored h)
  | arr items => exact congrArg ParsedJson.arr (ofItems_storedItems h hfinite)
  | obj fields => exact congrArg ParsedJson.obj (ofFields_storedFields h hfinite)

theorem ofItems_storedItems {items : List ParsedJson} (h : itemsRefused items = false)
    (hfinite : itemsFinite items = true) : ofItems (storedItems items) = items := by
  cases items with
  | nil => rfl
  | cons value rest =>
      rw [itemsRefused, Bool.or_eq_false_iff] at h
      rw [itemsFinite, Bool.and_eq_true] at hfinite
      rw [storedItems, ofItems, ofJson_stored h.1 hfinite.1, ofItems_storedItems h.2 hfinite.2]

theorem ofFields_storedFields {fields : List (JsString × ParsedJson)}
    (h : fieldsRefused fields = false) (hfinite : fieldsFinite fields = true) :
    ofFields (storedFields fields) = fields := by
  cases fields with
  | nil => rfl
  | cons field rest =>
      rw [fieldsRefused, Bool.or_eq_false_iff, Bool.or_eq_false_iff] at h
      rw [fieldsFinite, Bool.and_eq_true] at hfinite
      rw [storedFields, ofFields, JsString.text_stored h.1.1, ofJson_stored h.1.2 hfinite.1,
        ofFields_storedFields h.2 hfinite.2]

end

/-- `value[key]` for a key that no built-in object has; reading a property of `null`
is a `TypeError`. The inner `none` is `undefined`. -/
def property : ParsedJson → String → Option (Option ParsedJson)
  | .null, _ => none
  | .obj fields, key => some (fields.lookup (.text key))
  | _, _ => some none

end ParsedJson
end WorkflowPlatform
