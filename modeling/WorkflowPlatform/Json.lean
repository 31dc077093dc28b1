import Mathlib.Algebra.Group.Int.Defs
import Mathlib.Algebra.Group.Nat.Defs
import Mathlib.Data.Int.Notation
import Mathlib.Tactic.Common

/-!
# JSON and the values JavaScript reads out of it

`Json` is what a `jsonb` column or a document holds; a response body can denote
more, which is a type of its own. Reading a property of a JSON value in JavaScript
can also produce `undefined`, one of the built-in prototype objects or one of their
methods, because a key that an object does not have itself is looked up on its
prototype. `JsValue` has these values and `property` is that lookup.

`NodeOutputs` is an object literal filled by assignment, `nodeOutputs[id] = v`.
Assigning under the key `__proto__` does not make a property but replaces the
prototype, and later lookups find what the new prototype has.
-/
namespace WorkflowPlatform

/-- A finite number as the shortest decimal that denotes it: no trailing zero in
the mantissa. -/
structure JsNumber where
  mantissa : ℤ
  exponent : ℤ
  shortest : mantissa % 10 ≠ 0 ∨ mantissa = 0 ∧ exponent = 0
deriving DecidableEq

namespace JsNumber

def zero : JsNumber := ⟨0, 0, .inr ⟨rfl, rfl⟩⟩

/-- `String(n)`: plain notation for a decimal point between the seventh place
after the point and the twenty-first digit, exponential notation beyond. -/
def toString (n : JsNumber) : String :=
  let digits := (Nat.repr n.mantissa.natAbs).toList
  let k : ℤ := digits.length
  let point := k + n.exponent
  let sign := if n.mantissa < 0 then "-" else ""
  let zeros (m : ℤ) := List.replicate m.toNat '0'
  if 0 ≤ n.exponent ∧ point ≤ 21 then sign ++ String.ofList (digits ++ zeros n.exponent)
  else if 0 < point ∧ point ≤ 21 then
    sign ++ String.ofList (digits.take point.toNat ++ '.' :: digits.drop point.toNat)
  else if -6 < point ∧ point ≤ 0 then
    sign ++ String.ofList ('0' :: '.' :: (zeros (-point) ++ digits))
  else
    let e := point - 1
    let tail := if digits.length = 1 then [] else '.' :: digits.drop 1
    sign ++ String.ofList (digits.take 1 ++ tail) ++ "e" ++ (if 0 ≤ e then "+" else "-") ++
      Nat.repr e.natAbs

end JsNumber

inductive Json where
  | null
  | bool (b : Bool)
  | num (n : JsNumber)
  | str (s : String)
  | arr (items : List Json)
  | obj (fields : List (String × Json))

/-- The fields of a JSON object, with distinct names as a parser leaves them. -/
abbrev JsonObject := List (String × Json)

namespace Json

/-- A character inside a string literal of `JSON.stringify`. -/
def escapeChar (c : Char) : List Char :=
  if c = '"' then ['\\', '"']
  else if c = '\\' then ['\\', '\\']
  else if c = '\n' then ['\\', 'n']
  else if c = '\r' then ['\\', 'r']
  else if c = '\t' then ['\\', 't']
  else if c.toNat = 8 then ['\\', 'b']
  else if c.toNat = 12 then ['\\', 'f']
  else if c.toNat < 32 then
    ['\\', 'u', '0', '0', Nat.digitChar (c.toNat / 16), Nat.digitChar (c.toNat % 16)]
  else [c]

def quote (s : String) : String :=
  "\"" ++ String.ofList (s.toList.flatMap escapeChar) ++ "\""

mutual

/-- `JSON.stringify` -/
def stringify : Json → String
  | .null => "null"
  | .bool b => if b then "true" else "false"
  | .num n => n.toString
  | .str s => quote s
  | .arr items => "[" ++ ",".intercalate (stringifyItems items) ++ "]"
  | .obj fields => "\x7b" ++ ",".intercalate (stringifyFields fields) ++ "\x7d"

def stringifyItems : List Json → List String
  | [] => []
  | j :: rest => stringify j :: stringifyItems rest

def stringifyFields : List (String × Json) → List String
  | [] => []
  | (k, j) :: rest => (quote k ++ ":" ++ stringify j) :: stringifyFields rest

end

def stringHasNul (s : String) : Bool := s.toList.any fun c => c.toNat = 0

mutual

/-- Whether the text of the value contains the escape of U+0000, which a `jsonb`
column rejects. -/
def hasNul : Json → Bool
  | .null => false
  | .bool _ => false
  | .num _ => false
  | .str s => stringHasNul s
  | .arr items => itemsHaveNul items
  | .obj fields => fieldsHaveNul fields

def itemsHaveNul : List Json → Bool
  | [] => false
  | j :: rest => hasNul j || itemsHaveNul rest

def fieldsHaveNul : List (String × Json) → Bool
  | [] => false
  | (k, j) :: rest => stringHasNul k || hasNul j || fieldsHaveNul rest

end

end Json

/-- The built-in objects a property lookup can end at. -/
inductive Builtin where
  | object
  | array
  | string
  | number
  | boolean
  | function
deriving DecidableEq

/-- What each built-in prototype has itself, `__proto__` apart. -/
def Builtin.members : Builtin → List String
  | .object => ["constructor", "__defineGetter__", "__defineSetter__", "hasOwnProperty",
      "__lookupGetter__", "__lookupSetter__", "isPrototypeOf", "propertyIsEnumerable",
      "toString", "valueOf", "toLocaleString"]
  | .array => ["at", "concat", "constructor", "copyWithin", "entries", "every", "fill", "filter",
      "find", "findIndex", "findLast", "findLastIndex", "flat", "flatMap", "forEach", "includes",
      "indexOf", "join", "keys", "lastIndexOf", "map", "pop", "push", "reduce", "reduceRight",
      "reverse", "shift", "slice", "some", "sort", "splice", "toLocaleString", "toReversed",
      "toSorted", "toSpliced", "toString", "unshift", "values", "with"]
  | .string => ["anchor", "at", "big", "blink", "bold", "charAt", "charCodeAt", "codePointAt",
      "concat", "constructor", "endsWith", "fixed", "fontcolor", "fontsize", "includes",
      "indexOf", "isWellFormed", "italics", "lastIndexOf", "link", "localeCompare", "match",
      "matchAll", "normalize", "padEnd", "padStart", "repeat", "replace", "replaceAll", "search",
      "slice", "small", "split", "startsWith", "strike", "sub", "substr", "substring", "sup",
      "toLocaleLowerCase", "toLocaleUpperCase", "toLowerCase", "toString", "toUpperCase",
      "toWellFormed", "trim", "trimEnd", "trimLeft", "trimRight", "trimStart", "valueOf"]
  | .number => ["constructor", "toExponential", "toFixed", "toLocaleString", "toPrecision",
      "toString", "valueOf"]
  | .boolean => ["constructor", "toString", "valueOf"]
  | .function => ["apply", "arguments", "bind", "call", "caller", "constructor", "length", "name",
      "toString"]

inductive JsValue where
  | undefined
  | json (value : Json)
  | prototype (kind : Builtin)
  | method (kind : Builtin) (name : String)

namespace JsValue

/-- A key found on the prototype chain that starts at a built-in prototype. -/
def inherited (kind : Builtin) (key : String) : JsValue :=
  if key = "__proto__" then .prototype kind
  else if key ∈ kind.members then .method kind key
  else if key ∈ Builtin.object.members then .method .object key
  else .undefined

def ofOption : Option Json → JsValue
  | some j => .json j
  | none => .undefined

/-- A field of a JSON object, its own or inherited. -/
def field (fields : JsonObject) (key : String) : JsValue :=
  match fields.lookup key with
  | some j => .json j
  | none => inherited .object key

def utf16Units (s : String) : List Char :=
  s.toList.flatMap fun c => if c.toNat ≤ 0xFFFF then [c] else ['\uFFFD', '\uFFFD']

def natNumber (n : ℕ) : JsNumber :=
  if h : (n : ℤ) % 10 ≠ 0 then ⟨n, 0, .inl h⟩
  else
    -- Only lengths pass through here; their trailing zeros go to the exponent.
    let zeros := ((Nat.repr n).toList.reverse.takeWhile (· = '0')).length
    if h : ((n / 10 ^ zeros : ℕ) : ℤ) % 10 ≠ 0 then ⟨(n / 10 ^ zeros : ℕ), zeros, .inl h⟩
    else .zero

/-- `items[key]` for a key that is the decimal form of an index. -/
def item {α : Type} (items : List α) (key : String) : Option α :=
  (items.zipIdx.find? fun p => Nat.repr p.2 = key).map Prod.fst

/-- `value[key]`; reading a property of `undefined` or `null` is a `TypeError`. -/
def property : JsValue → String → Option JsValue
  | .undefined, _ => none
  | .json .null, _ => none
  | .json (.obj fields), key => some (field fields key)
  | .json (.arr items), key => some (
      if key = "length" then .json (.num (natNumber items.length))
      else match item items key with
        | some j => .json j
        | none => inherited .array key)
  | .json (.str s), key => some (
      if key = "length" then .json (.num (natNumber (utf16Units s).length))
      else match item (utf16Units s) key with
        | some c => .json (.str (String.ofList [c]))
        | none => inherited .string key)
  | .json (.num _), key => some (inherited .number key)
  | .json (.bool _), key => some (inherited .boolean key)
  | .prototype kind, key => some (
      if key = "__proto__" then if kind = .object then .json .null else .prototype .object
      else inherited kind key)
  | .method _ _, key => some (inherited .function key)

def truthy : JsValue → Bool
  | .undefined => false
  | .json .null => false
  | .json (.bool b) => b
  | .json (.num n) => n.mantissa ≠ 0
  | .json (.str s) => s ≠ ""
  | _ => true

/-- `JSON.stringify(value)`, which is `undefined` for a function. -/
def stringify : JsValue → Option String
  | .undefined => none
  | .json j => some j.stringify
  | .prototype .object => some "\x7b\x7d"
  | .prototype .array => some "[]"
  | .prototype .string => some "\"\""
  | .prototype .number => some "0"
  | .prototype .boolean => some "false"
  | .prototype .function => none
  | .method _ _ => none

end JsValue

/-- The object `nodeOutputs`: the properties assigned to it and the prototype
an assignment under `__proto__` has given it. -/
structure NodeOutputs where
  own : List (String × JsonObject) := []
  proto : Option JsonObject := none

namespace NodeOutputs

/-- `nodeOutputs[id] = output` -/
def assign (n : NodeOutputs) (id : String) (output : JsonObject) : NodeOutputs :=
  if id = "__proto__" then { n with proto := some output }
  else { n with own := (id, output) :: n.own }

/-- `nodeOutputs[id]` -/
def get (n : NodeOutputs) (id : String) : JsValue :=
  match n.own.lookup id with
  | some output => .json (.obj output)
  | none => match n.proto with
    | none => JsValue.inherited .object id
    | some p => match p.lookup id with
      | some j => .json j
      | none => if id = "__proto__" then .json (.obj p) else JsValue.inherited .object id

/-- An assignment leaves every other key that has been assigned alone. -/
theorem get_assign_other {n : NodeOutputs} {id id' : String} {output output' : JsonObject}
    (hne : id ≠ id') (h : n.own.lookup id = some output) :
    (n.assign id' output').own.lookup id = some output := by
  by_cases hp : id' = "__proto__"
  · simpa [assign, hp] using h
  · have hb : (id == id') = false := by simpa using hne
    simp only [assign, hp, if_false, List.lookup_cons, hb]
    exact h

/-- The output of a node named `__proto__` is read back through the prototype,
and a property of that name of its own hides it. -/
theorem get_proto {n : NodeOutputs} {p : JsonObject} (hown : n.own.lookup "__proto__" = none)
    (hp : n.proto = some p) : n.get "__proto__" = match p.lookup "__proto__" with
      | some j => .json j
      | none => .json (.obj p) := by
  simp only [get, hown, hp, if_true]

end NodeOutputs
end WorkflowPlatform
