import Mathlib.Data.List.DropRight
import Mathlib.Data.List.Induction
import WorkflowPlatform.ParsedJson

/-!
# Reading a JSON text byte by byte

The scanner is a state machine with a stack of open arrays and objects. It is
given one byte at a time and builds the value as it goes. Once the outermost
value is closed it takes nothing but space, so no proper prefix of the text of
an object is a text, and the space behind a text does not matter.

What a numeral or the inside of a string literal denotes is left open.
-/
namespace WorkflowPlatform.JsonScanner

/-- What the bytes of a numeral, or those between two quotation marks, denote. -/
structure Readings where
  number : List UInt8 → ParsedNumber
  string : List UInt8 → JsString

inductive Frame where
  | array (items : List ParsedJson)
  | object (fields : ParsedObject)
  | member (fields : ParsedObject) (key : JsString)

/-- How far a numeral has been read. -/
inductive NumeralState where
  | neg
  | zero
  | digits
  | point
  | fraction
  | exponent
  | exponentSign
  | exponentDigits
deriving DecidableEq

/-- The three values that are written as words. -/
inductive Word where
  | true
  | false
  | null

inductive Mode where
  | beginValue
  | beginValueOrEmpty
  | beginString
  | beginStringOrEmpty
  | beforeColon
  | endValue
  | endTop (value : ParsedJson)
  | inString (raw : List UInt8)
  | inStringEsc (raw : List UInt8)
  | inStringEscU (raw : List UInt8) (left : ℕ)
  | inNumber (state : NumeralState) (raw : List UInt8)
  | inWord (word : Word) (seen : ℕ)

structure Scanner where
  mode : Mode := .beginValue
  stack : List Frame := []

def byte (c : Char) : UInt8 := c.toUInt8

def Word.bytes : Word → List UInt8
  | .true => [byte 't', byte 'r', byte 'u', byte 'e']
  | .false => [byte 'f', byte 'a', byte 'l', byte 's', byte 'e']
  | .null => [byte 'n', byte 'u', byte 'l', byte 'l']

def Word.value : Word → ParsedJson
  | .true => .bool Bool.true
  | .false => .bool Bool.false
  | .null => .null

def isSpace (c : UInt8) : Bool :=
  c = byte ' ' || c = byte '\t' || c = byte '\r' || c = byte '\n'

def isDigit (c : UInt8) : Bool := byte '0' ≤ c && c ≤ byte '9'

def isHexDigit (c : UInt8) : Bool :=
  isDigit c || (byte 'a' ≤ c && c ≤ byte 'f') || (byte 'A' ≤ c && c ≤ byte 'F')

/-- The escapes of one byte. -/
def isEscape (c : UInt8) : Bool :=
  c ∈ [byte 'b', byte 'f', byte 'n', byte 'r', byte 't', byte '\\', byte '/', byte '"']

def NumeralState.next (state : NumeralState) (c : UInt8) : Option NumeralState :=
  let digit (next : NumeralState) := if isDigit c then some next else none
  let power := if c = byte 'e' || c = byte 'E' then some .exponent else none
  match state with
  | .neg => if c = byte '0' then some .zero else digit .digits
  | .zero => if c = byte '.' then some .point else power
  | .digits => if c = byte '.' then some .point else (digit .digits).or power
  | .point => digit .fraction
  | .fraction => (digit .fraction).or power
  | .exponent =>
      if c = byte '+' || c = byte '-' then some .exponentSign else digit .exponentDigits
  | .exponentSign => digit .exponentDigits
  | .exponentDigits => digit .exponentDigits

def NumeralState.complete : NumeralState → Bool
  | .zero => true
  | .digits => true
  | .fraction => true
  | .exponentDigits => true
  | _ => false

/-- A field of an object. A later one of the same name takes the place of the
first. -/
def setField : ParsedObject → JsString → ParsedJson → ParsedObject
  | [], key, value => [(key, value)]
  | (k, v) :: rest, key, value =>
      if k = key then (k, value) :: rest else (k, v) :: setField rest key value

/-- A value that has been read to its end. -/
def closeValue (value : ParsedJson) : List Frame → Option Scanner
  | [] => some { mode := .endTop value }
  | .array items :: stack => some { mode := .endValue, stack := .array (items ++ [value]) :: stack }
  | .member fields key :: stack =>
      some { mode := .endValue, stack := .object (setField fields key value) :: stack }
  | .object _ :: _ => none

/-- A string is a key where the open object waits for one. -/
def closeString (text : JsString) : List Frame → Option Scanner
  | .object fields :: stack => some { mode := .beforeColon, stack := .member fields text :: stack }
  | stack => closeValue (.str text) stack

/-- The first byte of a value. -/
def openValue (c : UInt8) (stack : List Frame) : Option Scanner :=
  if c = byte '{' then some { mode := .beginStringOrEmpty, stack := .object [] :: stack }
  else if c = byte '[' then some { mode := .beginValueOrEmpty, stack := .array [] :: stack }
  else if c = byte '"' then some { mode := .inString [], stack }
  else if c = byte '-' then some { mode := .inNumber .neg [c], stack }
  else if c = byte '0' then some { mode := .inNumber .zero [c], stack }
  else if isDigit c then some { mode := .inNumber .digits [c], stack }
  else if c = byte 't' then some { mode := .inWord .true 1, stack }
  else if c = byte 'f' then some { mode := .inWord .false 1, stack }
  else if c = byte 'n' then some { mode := .inWord .null 1, stack }
  else none

def afterValue (c : UInt8) (s : Scanner) : Option Scanner :=
  if isSpace c then some s
  else match s.mode, s.stack with
    | .endValue, .array items :: stack =>
        if c = byte ',' then some { mode := .beginValue, stack := .array items :: stack }
        else if c = byte ']' then closeValue (.arr items) stack
        else none
    | .endValue, .object fields :: stack =>
        if c = byte ',' then some { mode := .beginString, stack := .object fields :: stack }
        else if c = byte '}' then closeValue (.obj fields) stack
        else none
    | _, _ => none

section
variable (read : Readings)

def step (s : Scanner) (c : UInt8) : Option Scanner :=
  match s.mode with
  | .beginValue => if isSpace c then some s else openValue c s.stack
  | .beginValueOrEmpty =>
      if isSpace c then some s
      else if c = byte ']' then afterValue c { s with mode := .endValue }
      else openValue c s.stack
  | .beginString =>
      if isSpace c then some s
      else if c = byte '"' then some { s with mode := .inString [] }
      else none
  | .beginStringOrEmpty =>
      if isSpace c then some s
      else if c = byte '}' then afterValue c { s with mode := .endValue }
      else if c = byte '"' then some { s with mode := .inString [] }
      else none
  | .beforeColon =>
      if isSpace c then some s
      else if c = byte ':' then some { s with mode := .beginValue }
      else none
  | .endValue => afterValue c s
  | .endTop _ => afterValue c s
  | .inString raw =>
      if c = byte '"' then closeString (read.string raw) s.stack
      else if c = byte '\\' then some { s with mode := .inStringEsc (raw ++ [c]) }
      else if c < byte ' ' then none
      else some { s with mode := .inString (raw ++ [c]) }
  | .inStringEsc raw =>
      if isEscape c then some { s with mode := .inString (raw ++ [c]) }
      else if c = byte 'u' then some { s with mode := .inStringEscU (raw ++ [c]) 3 }
      else none
  | .inStringEscU raw left =>
      if !isHexDigit c then none
      else match left with
        | 0 => some { s with mode := .inString (raw ++ [c]) }
        | left + 1 => some { s with mode := .inStringEscU (raw ++ [c]) left }
  | .inNumber state raw =>
      match state.next c with
      | some state => some { s with mode := .inNumber state (raw ++ [c]) }
      | none =>
          if state.complete then (closeValue (.num (read.number raw)) s.stack).bind (afterValue c)
          else none
  | .inWord word seen =>
      match word.bytes.drop seen with
      | [] => none
      | [d] => if c = d then closeValue word.value s.stack else none
      | d :: _ :: _ => if c = d then some { s with mode := .inWord word (seen + 1) } else none

def scanFrom (s : Scanner) (text : List UInt8) : Option Scanner := text.foldlM (step read) s

/-- The value of a text that ends here. -/
def eof (s : Scanner) : Option ParsedJson :=
  match step read s (byte ' ') with
  | some { mode := .endTop value, .. } => some value
  | _ => none

/-- The value of a text, if it is one. -/
def parse (text : List UInt8) : Option ParsedJson := (scanFrom read {} text).bind (eof read)

/-- The most values that are open at once. -/
def nestingFrom (s : Scanner) : List UInt8 → ℕ
  | [] => s.stack.length
  | c :: rest => match step read s c with
    | some s' => max s.stack.length (nestingFrom s' rest)
    | none => s.stack.length

def nesting (text : List UInt8) : ℕ := nestingFrom read {} text

end

/-! ### Where a text ends -/

section
variable {read : Readings} {s s' : Scanner} {c : UInt8} {v v' : ParsedJson}

theorem space_cases (hc : isSpace c = true) :
    c = byte ' ' ∨ c = byte '\t' ∨ c = byte '\r' ∨ c = byte '\n' := by
  simpa [isSpace, or_assoc] using hc

theorem word_not_space {word : Word} (hc : isSpace c = true) : c ∉ word.bytes := by
  rcases space_cases hc with rfl | rfl | rfl | rfl <;> cases word <;> decide

theorem NumeralState.next_space (state : NumeralState) (hc : isSpace c = true) :
    state.next c = none := by
  rcases space_cases hc with rfl | rfl | rfl | rfl <;> cases state <;> rfl

theorem afterValue_space (hc : isSpace c = true) : afterValue c s = some s := by
  rw [afterValue, if_pos hc]

theorem closeValue_length {value : ParsedJson} {stack : List Frame}
    (h : closeValue value stack = some s) : s.stack.length = stack.length := by
  unfold closeValue at h
  split at h <;> cases h <;> rfl

theorem closeValue_mode {value : ParsedJson} {stack : List Frame}
    (h : closeValue value stack = some s) :
    s.mode = .endValue ∨ stack = [] ∧ s = { mode := .endTop value } := by
  unfold closeValue at h
  split at h
  · cases h
    exact .inr ⟨rfl, rfl⟩
  · cases h
    exact .inl rfl
  · cases h
    exact .inl rfl
  · cases h

/-- What space does, mode by mode. -/
theorem step_space (hc : isSpace c = true) (h : step read s c = some s') :
    s' = s ∨ (∃ raw, s.mode = .inString raw ∧ s' = { s with mode := .inString (raw ++ [c]) }) ∨
      ∃ state raw, s.mode = .inNumber state raw ∧ state.complete = true ∧
        closeValue (.num (read.number raw)) s.stack = some s' := by
  unfold step at h
  split at h
  · rw [if_pos hc] at h
    exact .inl (Option.some.inj h).symm
  · rw [if_pos hc] at h
    exact .inl (Option.some.inj h).symm
  · rw [if_pos hc] at h
    exact .inl (Option.some.inj h).symm
  · rw [if_pos hc] at h
    exact .inl (Option.some.inj h).symm
  · rw [if_pos hc] at h
    exact .inl (Option.some.inj h).symm
  · rw [afterValue_space hc] at h
    exact .inl (Option.some.inj h).symm
  · rw [afterValue_space hc] at h
    exact .inl (Option.some.inj h).symm
  · next raw hmode =>
      have hquote : c ≠ byte '"' := by rcases space_cases hc with rfl | rfl | rfl | rfl <;> decide
      have hslash : c ≠ byte '\\' := by rcases space_cases hc with rfl | rfl | rfl | rfl <;> decide
      rw [if_neg hquote, if_neg hslash] at h
      split_ifs at h
      cases h
      exact .inr (.inl ⟨raw, hmode, rfl⟩)
  · have hescape : isEscape c = false := by
      rcases space_cases hc with rfl | rfl | rfl | rfl <;> rfl
    have hunicode : c ≠ byte 'u' := by rcases space_cases hc with rfl | rfl | rfl | rfl <;> decide
    simp [hescape, hunicode] at h
  · have hhex : isHexDigit c = false := by
      rcases space_cases hc with rfl | rfl | rfl | rfl <;> rfl
    simp [hhex] at h
  · next state raw hmode =>
      rw [state.next_space hc] at h
      dsimp only at h
      split_ifs at h with hcomplete
      obtain ⟨s'', hclose, h⟩ := Option.bind_eq_some_iff.mp h
      rw [afterValue_space hc] at h
      cases h
      exact .inr (.inr ⟨state, raw, hmode, hcomplete, hclose⟩)
  · next word seen hmode =>
      have hword : ∀ d ∈ word.bytes.drop seen, c ≠ d := fun d hd heq =>
        word_not_space hc (heq ▸ List.mem_of_mem_drop hd)
      split at h
      · cases h
      · next d hdrop => simp [hword d (by simp [hdrop])] at h
      · next d _ _ hdrop => simp [hword d (by simp [hdrop])] at h

/-- A text can end after its value, or in a numeral that is a value of its own. -/
theorem eof_eq_some_iff : eof read s = some v ↔ s.mode = .endTop v ∨
    ∃ state raw, s.mode = .inNumber state raw ∧ state.complete = true ∧ s.stack = [] ∧
      v = .num (read.number raw) := by
  constructor
  · intro h
    unfold eof at h
    split at h
    · next value stack hstep =>
        cases h
        rcases step_space (by rfl) hstep with hsame | ⟨raw, -, hstring⟩ |
          ⟨state, raw, hmode, hcomplete, hclose⟩
        · rw [← hsame]
          exact .inl rfl
        · cases hstring
        · rcases closeValue_mode hclose with hend | ⟨hstack, htop⟩
          · cases hend
          · cases htop
            exact .inr ⟨state, raw, hmode, hcomplete, hstack, rfl⟩
    · cases h
  · rintro (hmode | ⟨state, raw, hmode, hcomplete, hstack, rfl⟩)
    · obtain ⟨mode, stack⟩ := s
      cases hmode
      rfl
    · obtain ⟨mode, stack⟩ := s
      cases hmode
      cases hstack
      have hblank : isSpace (byte ' ') = true := rfl
      simp only [eof, step, state.next_space hblank, hcomplete, if_true, closeValue,
        Option.bind_some, afterValue_space hblank]

/-- Space behind a text leaves its value as it is. -/
theorem eof_step_space (hc : isSpace c = true) (h : eof read s = some v) :
    ∃ s', step read s c = some s' ∧ eof read s' = some v := by
  rcases eof_eq_some_iff.mp h with hmode | ⟨state, raw, hmode, hcomplete, hstack, rfl⟩
  · exact ⟨s, by simp only [step, hmode, afterValue_space hc], h⟩
  · refine ⟨{ mode := .endTop (.num (read.number raw)) }, ?_, rfl⟩
    simp only [step, hmode, state.next_space hc, hcomplete, if_true, hstack, closeValue,
      Option.bind_some, afterValue_space hc]

/-- It is not what makes it a text either. -/
theorem eof_of_step_space (hc : isSpace c = true) (hstep : step read s c = some s')
    (h : eof read s' = some v) : eof read s = some v := by
  rcases step_space hc hstep with rfl | ⟨raw, -, rfl⟩ | ⟨state, raw, hmode, hcomplete, hclose⟩
  · exact h
  · rcases eof_eq_some_iff.mp h with hmode | ⟨state, raw', hmode, -⟩ <;> cases hmode
  · rcases closeValue_mode hclose with hend | ⟨hstack, rfl⟩
    · rcases eof_eq_some_iff.mp h with hmode' | ⟨state', raw', hmode', -⟩
      · rw [hend] at hmode'
        cases hmode'
      · rw [hend] at hmode'
        cases hmode'
    · cases h
      exact eof_eq_some_iff.mpr (.inr ⟨state, raw, hmode, hcomplete, hstack, rfl⟩)

theorem scanFrom_append (s : Scanner) (text rest : List UInt8) :
    scanFrom read s (text ++ rest) = (scanFrom read s text).bind fun s' => scanFrom read s' rest :=
  List.foldlM_append

theorem scanFrom_snoc (s : Scanner) (text : List UInt8) (c : UInt8) :
    scanFrom read s (text ++ [c]) = (scanFrom read s text).bind fun s' => step read s' c := by
  rw [scanFrom_append]
  congr 1
  funext s'
  exact bind_pure (step read s' c)

theorem parse_snoc_space (text : List UInt8) (hc : isSpace c = true) :
    parse read (text ++ [c]) = some v ↔ parse read text = some v := by
  rw [parse, parse, scanFrom_snoc]
  cases hscan : scanFrom read {} text with
  | none => rfl
  | some s =>
      simp only [Option.bind_some]
      constructor
      · intro h
        obtain ⟨s', hstep, heof⟩ := Option.bind_eq_some_iff.mp h
        exact eof_of_step_space hc hstep heof
      · intro h
        obtain ⟨s', hstep, heof⟩ := eof_step_space hc h
        rw [hstep]
        exact heof

theorem parse_append_space (text : List UInt8) {space : List UInt8}
    (hspace : ∀ c ∈ space, isSpace c = true) :
    parse read (text ++ space) = some v ↔ parse read text = some v := by
  induction space using List.reverseRecOn with
  | nil => rw [List.append_nil]
  | append_singleton space c ih =>
      rw [← List.append_assoc, parse_snoc_space _ (hspace c (by simp))]
      exact ih fun d hd => hspace d (by simp [hd])

/-- Nothing but space follows a value that is closed. -/
theorem scanFrom_endTop {text : List UInt8} (hmode : s.mode = .endTop v)
    (h : scanFrom read s text = some s') : ∀ c ∈ text, isSpace c = true := by
  induction text with
  | nil => exact fun c hc => absurd hc List.not_mem_nil
  | cons c rest ih =>
      obtain ⟨mid, hstep, hrest⟩ := Option.bind_eq_some_iff.mp h
      have hafter : afterValue c s = some mid := by
        simpa only [step, hmode] using hstep
      rw [afterValue, hmode] at hafter
      by_cases hc : isSpace c = true
      · rw [if_pos hc] at hafter
        cases hafter
        intro d hd
        rcases List.mem_cons.mp hd with rfl | hd
        · exact hc
        · exact ih hrest d hd
      · rw [if_neg hc] at hafter
        cases hafter

/-- A numeral that no array and no object is open around. -/
def TopNumeral (s : Scanner) : Prop :=
  (∃ state raw, s.mode = .inNumber state raw ∧ s.stack = []) ∨ ∃ n, s.mode = .endTop (.num n)

theorem TopNumeral.step (hs : TopNumeral s) (h : JsonScanner.step read s c = some s') :
    TopNumeral s' := by
  rcases hs with ⟨state, raw, hmode, hstack⟩ | ⟨n, hmode⟩
  · simp only [JsonScanner.step, hmode, hstack] at h
    split at h
    · cases h
      exact .inl ⟨_, _, rfl, rfl⟩
    · split_ifs at h
      simp only [closeValue, Option.bind_some, afterValue] at h
      split_ifs at h
      cases h
      exact .inr ⟨_, rfl⟩
  · simp only [JsonScanner.step, hmode, afterValue] at h
    split_ifs at h
    cases h
    exact .inr ⟨n, hmode⟩

theorem TopNumeral.scan (hs : TopNumeral s) {text : List UInt8}
    (h : scanFrom read s text = some s') : TopNumeral s' := by
  induction text generalizing s with
  | nil =>
      cases h
      exact hs
  | cons c rest ih =>
      obtain ⟨mid, hstep, hrest⟩ := Option.bind_eq_some_iff.mp h
      exact ih (hs.step hstep) hrest

theorem TopNumeral.eof (hs : TopNumeral s) (h : JsonScanner.eof read s = some v) :
    ∃ n, v = .num n := by
  rcases eof_eq_some_iff.mp h with hmode | ⟨state, raw, -, -, -, rfl⟩
  · rcases hs with ⟨state, raw, hmode', -⟩ | ⟨n, hmode'⟩
    · rw [hmode] at hmode'
      cases hmode'
    · rw [hmode] at hmode'
      cases hmode'
      exact ⟨n, rfl⟩
  · exact ⟨_, rfl⟩

/-- A text that is no numeral and begins with another text is that text and space. -/
theorem space_of_parse_prefix {text rest : List UInt8} (hshort : parse read text = some v')
    (h : parse read (text ++ rest) = some v) (hv : ∀ n, v ≠ .num n) :
    ∀ c ∈ rest, isSpace c = true := by
  obtain ⟨s, hscan, heof⟩ := Option.bind_eq_some_iff.mp hshort
  obtain ⟨s', hscan', heof'⟩ := Option.bind_eq_some_iff.mp h
  rw [scanFrom_append, hscan, Option.bind_some] at hscan'
  rcases eof_eq_some_iff.mp heof with hmode | ⟨state, raw, hmode, -, hstack, -⟩
  · exact scanFrom_endTop hmode hscan'
  · have htop : TopNumeral s := .inl ⟨state, raw, hmode, hstack⟩
    obtain ⟨n, hn⟩ := (htop.scan hscan').eof heof'
    exact absurd hn (hv n)

/-- A text without the space behind it. -/
def trimEnd (text : List UInt8) : List UInt8 := text.rdropWhile isSpace

theorem trimEnd_append_space (text : List UInt8) {space : List UInt8}
    (hspace : ∀ c ∈ space, isSpace c = true) : trimEnd (text ++ space) = trimEnd text := by
  induction space using List.reverseRecOn with
  | nil => rw [List.append_nil]
  | append_singleton space c ih =>
      rw [← List.append_assoc, trimEnd, List.rdropWhile_concat_pos _ _ _ (hspace c (by simp))]
      exact ih fun d hd => hspace d (by simp [hd])

/-- The first bytes of a text are a text only if nothing but space is cut off. -/
theorem parse_take {text : List UInt8} {limit : ℕ} (h : parse read text = some v)
    (hv : ∀ n, v ≠ .num n) :
    parse read (text.take limit) = if (trimEnd text).length ≤ limit then some v else none := by
  split_ifs with hlimit
  · have hspace : ∀ c ∈ text.rtakeWhile isSpace, isSpace c = true :=
      fun c hc => List.mem_rtakeWhile_imp hc
    have htext : trimEnd text ++ text.rtakeWhile isSpace = text :=
      List.rdropWhile_append_rtakeWhile ..
    have htrim : parse read (trimEnd text) = some v := by
      rwa [← htext, parse_append_space _ hspace] at h
    rw [← htext, List.take_append, List.take_of_length_le hlimit,
      parse_append_space _ fun c hc => hspace c (List.mem_of_mem_take hc)]
    exact htrim
  · cases hcut : parse read (text.take limit) with
    | none => rfl
    | some v' =>
        rw [← List.take_append_drop limit text] at h
        have hspace := space_of_parse_prefix hcut h hv
        have hlength : (trimEnd text).length ≤ limit := by
          rw [← List.take_append_drop limit text, trimEnd_append_space _ hspace]
          exact (List.rdropWhile_prefix isSpace _).length_le.trans (List.length_take_le ..)
        exact absurd hlength hlimit

theorem step_space_length (hc : isSpace c = true) (h : step read s c = some s') :
    s'.stack.length = s.stack.length := by
  rcases step_space hc h with rfl | ⟨raw, -, rfl⟩ | ⟨state, raw, -, -, hclose⟩
  · rfl
  · rfl
  · exact closeValue_length hclose

theorem nestingFrom_space {space : List UInt8} (hspace : ∀ c ∈ space, isSpace c = true) :
    nestingFrom read s space = s.stack.length := by
  induction space generalizing s with
  | nil => rfl
  | cons c rest ih =>
      unfold nestingFrom
      split
      · next s' hstep =>
          rw [ih fun d hd => hspace d (List.mem_cons_of_mem _ hd),
            step_space_length (hspace c List.mem_cons_self) hstep, Nat.max_self]
      · rfl

theorem nestingFrom_append_space (text : List UInt8) {space : List UInt8}
    (hspace : ∀ c ∈ space, isSpace c = true) :
    nestingFrom read s (text ++ space) = nestingFrom read s text := by
  induction text generalizing s with
  | nil => exact nestingFrom_space hspace
  | cons c rest ih =>
      rw [List.cons_append, nestingFrom, nestingFrom]
      split
      · next s' hstep => rw [ih]
      · rfl

end

example : parse
    ⟨fun _ => .finite .zero, fun raw => .text (String.ofList (raw.map fun c => Char.ofNat c.toNat))⟩
    ("\x7b\"a\": [0, true], \"a\":\x7b\x7d\x7d ".toList.map byte) =
      some (.obj [(.text "a", .obj [])]) := by
  rfl

end WorkflowPlatform.JsonScanner
