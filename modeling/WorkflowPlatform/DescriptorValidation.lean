import WorkflowPlatform.DescriptorSlots
import WorkflowPlatform.SpecSchema

/-!
# The descriptors that are accepted

`validateInvocationDescriptor` goes over the entries of a descriptor and notes
their parameters and indexes, so that a later entry cannot use one again. It has
nothing to complain of exactly in a well-formed descriptor. A complaint about the
style of an entry quotes the entry's `param` with `String(param)`, whatever it
is: where that value has no text, validation throws instead of answering.
-/
namespace WorkflowPlatform

/-! ### Well-formed descriptors -/

def IsNonEmptyString (value : Option Json) : Prop := ∃ s, value = some (.str s) ∧ s ≠ ""

/-- The entry is of the style. -/
def hasStyle (style : String) (entry : Json) : Bool := Json.isOneOf [style] (entry.property "style")

/-- `/^--[a-zA-Z][a-zA-Z0-9-]*$/` -/
def flagNamePattern : Pattern Char :=
  .seq (literalText "--") (.seq (.one Char.isAlpha) (.star (.one fun c => c.isAlphanum || c = '-')))

def IsFlagName (value : Option Json) : Prop :=
  ∃ name, value = some (.str name) ∧ matchesPattern flagNamePattern name = true

/-- A non-negative integer. -/
def IsIndex (value : Option Json) : Prop :=
  ∃ n : JsNumber, value = some (.num n) ∧ 0 ≤ n.exponent ∧ 0 ≤ n.mantissa

structure WellFormedEntry (entry : Json) : Prop where
  param : IsNonEmptyString (entry.property "param")
  style : Json.isOneOf INVOCATION_STYLES (entry.property "style") = true
  flag : hasStyle "flag" entry = true → IsFlagName (entry.property "flagName")
  positional : hasStyle "positional" entry = true → IsIndex (entry.property "positionIndex")

def paramsOf (entries : List Json) : List (Option Json) := entries.map (·.property "param")

def indexesOf (entries : List Json) : List (Option Json) :=
  (entries.filter (hasStyle "positional")).map (·.property "positionIndex")

structure WellFormedEntries (entries : List Json) : Prop where
  each : ∀ entry ∈ entries, WellFormedEntry entry
  params : (paramsOf entries).Nodup
  indexes : (indexesOf entries).Nodup
  stdin : entries.countP (hasStyle "stdin") ≤ 1

def WellFormedDescriptor (descriptor : Option Json) : Prop :=
  ∃ entries, descriptor = some (.arr entries) ∧ WellFormedEntries entries

/-! ### Single values -/

section
variable {value : Option Json} {entry : Json}

theorem isOneOf_iff {names : List String} :
    Json.isOneOf names value = true ↔ ∃ s ∈ names, value = some (.str s) := by
  unfold Json.isOneOf
  split
  · simp
  · next hnot =>
      simp only [Bool.false_eq_true, false_iff, not_exists, not_and]
      intro s _ h
      exact hnot s h

theorem hasStyle_iff {style : String} :
    hasStyle style entry = true ↔ entry.property "style" = some (.str style) := by
  rw [hasStyle, isOneOf_iff]
  simp

theorem matchesFlagNamePattern_iff {name : String} :
    matchesFlagNamePattern name = true ↔ matchesPattern flagNamePattern name = true := by
  rw [matchesPattern, Pattern.accepts_iff, flagNamePattern, literalText, Pattern.mem_word_seq]
  simp only [Pattern.mem_one_seq, Pattern.mem_star_one]
  unfold matchesFlagNamePattern
  split
  · next rest hname =>
      rw [hname, validArgFlagName, String.toList_ofList]
      cases rest with
      | nil => simp
      | cons c rest => simp [List.all_eq_true]
  · next hnot =>
      simp only [Bool.false_eq_true, false_iff, not_exists, not_and]
      intro rest _ h
      exact hnot rest h

theorem isPositionIndex_iff {n : JsNumber} :
    DescriptorScan.isPositionIndex n = true ↔ 0 ≤ n.exponent ∧ 0 ≤ n.mantissa := by
  rw [DescriptorScan.isPositionIndex, Bool.and_eq_true, decide_eq_true_iff, decide_eq_true_iff]

end

/-! ### Answers and errors -/

def Throws {α : Type} (m : Except Failure α) : Prop := ∃ e, m = .error e

/-- There is a value, and `String` of it throws. -/
def Textless (value : Option Json) : Prop := ∃ j, value = some j ∧ j.toText = none

section
variable {α β : Type} {m : Except Failure α} {f : α → Except Failure β}

@[simp] theorem not_throws_ok (a : α) : ¬ Throws (.ok a : Except Failure α) := fun ⟨_, h⟩ => by cases h

@[simp] theorem throws_error (e : Failure) : Throws (.error e : Except Failure α) := ⟨e, rfl⟩

theorem throws_bind : Throws (m >>= f) ↔ Throws m ∨ ∃ a, m = .ok a ∧ Throws (f a) := by
  cases m with
  | error e => exact iff_of_true (throws_error e) (.inl (throws_error e))
  | ok a =>
      constructor
      · exact fun h => .inr ⟨a, rfl, h⟩
      · intro h
        rcases h with h | ⟨b, hb, h⟩
        · exact (not_throws_ok a h).elim
        · cases hb
          exact h

theorem ok_or_throws (m : Except Failure α) : (∃ a, m = .ok a) ∨ Throws m := by
  cases m with
  | ok a => exact .inl ⟨a, rfl⟩
  | error e => exact .inr (throws_error e)

theorem throws_textOf {value : Option Json} : Throws (textOf value) ↔ Textless value := by
  unfold textOf
  cases value with
  | none => simp [Textless]
  | some j => cases h : j.toText <;> simp [Textless, h]

theorem throws_mapM {g : α → Except Failure β} {l : List α} :
    Throws (l.mapM g) ↔ ∃ a ∈ l, Throws (g a) := by
  induction l with
  | nil => exact iff_of_false (not_throws_ok _) fun ⟨_, h, _⟩ => by cases h
  | cons a rest ih =>
      rw [List.mapM_cons, throws_bind, List.exists_mem_cons_iff]
      apply or_congr_right'
      intro hnot
      obtain ⟨b, hb⟩ := (ok_or_throws (g a)).resolve_right hnot
      rw [hb]
      constructor
      · intro ⟨_, _, h⟩
        rcases throws_bind.mp h with h | ⟨_, _, h⟩
        · exact ih.mp h
        · exact (not_throws_ok _ h).elim
      · exact fun h => ⟨b, rfl, throws_bind.mpr (.inl (ih.mpr h))⟩

theorem mapM_flatten_eq_nil {g : α → Except Failure (List β)} {l : List α} :
    (∃ r, l.mapM g = .ok r ∧ r.flatten = []) ↔ ∀ a ∈ l, g a = .ok [] := by
  constructor
  · intro ⟨r, hr, hflat⟩ a ha
    obtain ⟨b, hb, hg⟩ := mapM_ok hr a ha
    rw [hg, List.flatten_eq_nil_iff.mp hflat b hb]
  · intro hall
    induction l with
    | nil => exact ⟨[], rfl, rfl⟩
    | cons a rest ih =>
        obtain ⟨ha, hrest⟩ := List.forall_mem_cons.mp hall
        obtain ⟨r, hr, hflat⟩ := ih hrest
        refine ⟨[] :: r, ?_, by simpa using hflat⟩
        rw [List.mapM_cons, ha, hr]
        rfl

end

/-! ### One entry of a descriptor -/

namespace DescriptorScan
variable {fnName : String} {scan scan' : DescriptorScan} {entry : Json}
variable {param flagName positionIndex : Option Json} {message : String → String}

/-- What the scan has noted, as the entries have it. -/
def params (scan : DescriptorScan) : List (Option Json) := scan.seenParams.map fun p => some (.str p)

def indexes (scan : DescriptorScan) : List (Option Json) :=
  scan.seenPositionIndexes.map fun n => some (.num n)

/-- A complaint that quotes the parameter. -/
theorem not_clean_quoted : ¬ ((do
    let text ← textOf param
    .ok (scan.complain (message text)) : Except Failure DescriptorScan) = .ok scan' ∧
      scan'.errors = []) := by
  intro ⟨h, hclean⟩
  obtain ⟨text, -, hscan⟩ := bind_eq_ok.mp h
  cases hscan
  exact complain_errors _ _ hclean

theorem throws_quoted : Throws (do
    let text ← textOf param
    .ok (scan.complain (message text)) : Except Failure DescriptorScan) ↔ Textless param := by
  rw [throws_bind, throws_textOf]
  simp

theorem readParam_indexes : (scan.readParam fnName param).indexes = scan.indexes := by
  unfold readParam
  split
  · split_ifs <;> rfl
  · rfl

theorem readParam_stdin :
    (scan.readParam fnName param).stdinEntryCount = scan.stdinEntryCount := by
  unfold readParam
  split
  · split_ifs <;> rfl
  · rfl

theorem readParam_clean : (scan.readParam fnName param).errors = [] ↔
    scan.errors = [] ∧ IsNonEmptyString param ∧ param ∉ scan.params := by
  unfold readParam IsNonEmptyString params
  split
  · next p =>
      split_ifs with hempty hseen
      · exact iff_of_false (complain_errors _ _) (by simp [hempty])
      · exact iff_of_false (complain_errors _ _) (by simp [hseen])
      · simp [hempty, hseen]
  · next hnot =>
      refine iff_of_false (complain_errors _ _) ?_
      intro ⟨_, ⟨s, h, _⟩, _⟩
      exact hnot s h

theorem readParam_params (h : (scan.readParam fnName param).errors = []) :
    (scan.readParam fnName param).params = scan.params ++ [param] := by
  obtain ⟨p, hp, -, hseen⟩ := readParam_declares h
  rw [params, hseen, hp, List.map_append]
  rfl

theorem readFlag_clean : (∃ scan', scan.readFlag fnName param flagName = .ok scan' ∧
    scan'.errors = []) ↔ scan.errors = [] ∧ IsFlagName flagName := by
  unfold readFlag IsFlagName
  split
  · next name =>
      simp only [← matchesFlagNamePattern_iff, Option.some.injEq, Json.str.injEq, exists_eq_left']
      split_ifs with hempty hmatch
      · refine iff_of_false (fun ⟨_, h⟩ => not_clean_quoted h) ?_
        intro ⟨_, hname⟩
        rw [hempty] at hname
        cases hname
      · simp [hmatch]
      · exact iff_of_false (fun ⟨_, h⟩ => not_clean_quoted h) (by simp [hmatch])
  · next hnot =>
      refine iff_of_false (fun ⟨_, h⟩ => not_clean_quoted h) ?_
      intro ⟨_, name, h, _⟩
      exact hnot name h

theorem readFlag_throws :
    Throws (scan.readFlag fnName param flagName) ↔ Textless param ∧ ¬ IsFlagName flagName := by
  unfold readFlag IsFlagName
  split
  · next name =>
      simp only [← matchesFlagNamePattern_iff, Option.some.injEq, Json.str.injEq, exists_eq_left']
      split_ifs with hempty hmatch
      · subst hempty
        rw [throws_quoted]
        exact (and_iff_left (by decide)).symm
      · simp [hmatch]
      · rw [throws_quoted]
        exact (and_iff_left hmatch).symm
  · next hnot =>
      rw [throws_quoted]
      refine (and_iff_left ?_).symm
      intro ⟨name, h, _⟩
      exact hnot name h

/-- A complaint notes nothing. -/
theorem complained_of_quoted (h : (do
    let text ← textOf param
    .ok (scan.complain (message text)) : Except Failure DescriptorScan) = .ok scan') :
    ∃ text, scan' = scan.complain text := by
  obtain ⟨text, -, hscan⟩ := bind_eq_ok.mp h
  cases hscan
  exact ⟨_, rfl⟩

theorem readFlag_notes (h : scan.readFlag fnName param flagName = .ok scan') :
    scan' = scan ∨ ∃ text, scan' = scan.complain text := by
  unfold readFlag at h
  split at h
  · split_ifs at h
    · exact .inr (complained_of_quoted h)
    · cases h
      exact .inl rfl
    · exact .inr (complained_of_quoted h)
  · exact .inr (complained_of_quoted h)

theorem readPositional_clean : (∃ scan', scan.readPositional fnName param positionIndex = .ok scan' ∧
    scan'.errors = []) ↔ scan.errors = [] ∧ IsIndex positionIndex ∧ positionIndex ∉ scan.indexes := by
  unfold readPositional IsIndex indexes
  split
  · next n =>
      simp only [← isPositionIndex_iff, Option.some.injEq, Json.num.injEq, exists_eq_left']
      split_ifs with hindex hseen
      · rw [Bool.not_eq_true'] at hindex
        exact iff_of_false (fun ⟨_, h⟩ => not_clean_quoted h) (by simp [hindex])
      · exact iff_of_false (fun ⟨_, h⟩ => not_clean_quoted h) (by simp [hseen])
      · simp only [Bool.not_eq_true, Bool.not_eq_false'] at hindex
        simp [hindex, hseen]
  · next hnot =>
      refine iff_of_false (fun ⟨_, h⟩ => not_clean_quoted h) ?_
      intro ⟨_, ⟨n, h, _⟩, _⟩
      exact hnot n h

theorem readPositional_throws : Throws (scan.readPositional fnName param positionIndex) ↔
    Textless param ∧ ¬ (IsIndex positionIndex ∧ positionIndex ∉ scan.indexes) := by
  unfold readPositional IsIndex indexes
  split
  · next n =>
      simp only [← isPositionIndex_iff, Option.some.injEq, Json.num.injEq, exists_eq_left']
      split_ifs with hindex hseen
      · rw [Bool.not_eq_true'] at hindex
        rw [throws_quoted]
        exact (and_iff_left (by simp [hindex])).symm
      · rw [throws_quoted]
        exact (and_iff_left (by simp [hseen])).symm
      · simp only [Bool.not_eq_true, Bool.not_eq_false'] at hindex
        simp [hindex, hseen]
  · next hnot =>
      rw [throws_quoted]
      refine (and_iff_left ?_).symm
      intro ⟨⟨n, h, _⟩, _⟩
      exact hnot n h

theorem readPositional_notes (h : scan.readPositional fnName param positionIndex = .ok scan') :
    (∃ n, positionIndex = some (.num n) ∧
      scan' = { scan with seenPositionIndexes := scan.seenPositionIndexes ++ [n] }) ∨
    ((IsIndex positionIndex → positionIndex ∈ scan.indexes) ∧ ∃ text, scan' = scan.complain text) := by
  unfold readPositional at h
  split at h
  · next n =>
      split_ifs at h with hindex hseen
      · refine .inr ⟨fun ⟨m, hm, hm'⟩ => ?_, complained_of_quoted h⟩
        cases hm
        rw [isPositionIndex_iff.mpr hm'] at hindex
        cases hindex
      · exact .inr ⟨fun _ => List.mem_map.mpr ⟨n, hseen, rfl⟩, complained_of_quoted h⟩
      · cases h
        exact .inl ⟨n, rfl, rfl⟩
  · next hnot =>
      exact .inr ⟨fun ⟨n, hn, _⟩ => (hnot n hn).elim, complained_of_quoted h⟩

end DescriptorScan

/-- Nothing is wrong with the style of an entry where these indexes are taken. -/
structure StyleFits (taken : List (Option Json)) (entry : Json) : Prop where
  style : Json.isOneOf INVOCATION_STYLES (entry.property "style") = true
  flag : hasStyle "flag" entry = true → IsFlagName (entry.property "flagName")
  positional : hasStyle "positional" entry = true →
    IsIndex (entry.property "positionIndex") ∧ entry.property "positionIndex" ∉ taken

theorem indexesOf_cons (entry : Json) (rest : List Json) :
    indexesOf (entry :: rest) = indexesOf [entry] ++ indexesOf rest := by
  rw [← List.singleton_append, indexesOf, List.filter_append, List.map_append]
  rfl

theorem indexesOf_singleton (entry : Json) : indexesOf [entry] =
    if hasStyle "positional" entry then [entry.property "positionIndex"] else [] := by
  cases h : hasStyle "positional" entry <;> simp [indexesOf, h]

namespace DescriptorScan
variable {fnName : String} {scan scan' : DescriptorScan} {entry : Json}

/-- How the scan has moved on over an entry of the style. -/
structure StyleNoted (entry : Json) (scan scan' : DescriptorScan) : Prop where
  params : scan'.params = scan.params
  stdin : scan'.stdinEntryCount = scan.stdinEntryCount + if hasStyle "stdin" entry then 1 else 0
  indexes : scan'.errors = [] → scan'.indexes = scan.indexes ++ indexesOf [entry]
  taken : ∀ i, IsIndex i → (i ∈ scan'.indexes ↔ i ∈ scan.indexes ∨ i ∈ indexesOf [entry])

theorem StyleNoted.complained {message : String} (hstdin : hasStyle "stdin" entry = false)
    (htaken : ∀ i, IsIndex i → i ∈ indexesOf [entry] → i ∈ scan.indexes) :
    StyleNoted entry scan (scan.complain message) where
  params := rfl
  stdin := by simp [hstdin, complain]
  indexes h := (complain_errors _ _ h).elim
  taken i hi := (or_iff_left_of_imp (htaken i hi)).symm

theorem StyleNoted.same (hstdin : hasStyle "stdin" entry = false)
    (hpositional : hasStyle "positional" entry = false) : StyleNoted entry scan scan where
  params := rfl
  stdin := by simp [hstdin]
  indexes _ := by simp [indexesOf_singleton, hpositional]
  taken i _ := by simp [indexesOf_singleton, hpositional]

theorem hasStyle_of_eq {style : String} (other : String)
    (h : entry.property "style" = some (.str style)) :
    hasStyle other entry = decide (style = other) := by
  rw [hasStyle, h]
  simp [Json.isOneOf]

theorem styleFits_flag {taken : List (Option Json)}
    (h : entry.property "style" = some (.str "flag")) :
    StyleFits taken entry ↔ IsFlagName (entry.property "flagName") := by
  constructor
  · exact fun hfits => hfits.flag (by simp [hasStyle_of_eq _ h])
  · intro hname
    exact ⟨by rw [h]; rfl, fun _ => hname, fun hp => by simp [hasStyle_of_eq _ h] at hp⟩

theorem styleFits_positional {taken : List (Option Json)}
    (h : entry.property "style" = some (.str "positional")) : StyleFits taken entry ↔
      IsIndex (entry.property "positionIndex") ∧ entry.property "positionIndex" ∉ taken := by
  constructor
  · exact fun hfits => hfits.positional (by simp [hasStyle_of_eq _ h])
  · intro hindex
    exact ⟨by rw [h]; rfl, fun hp => by simp [hasStyle_of_eq _ h] at hp, fun _ => hindex⟩

theorem styleFits_stdin {taken : List (Option Json)}
    (h : entry.property "style" = some (.str "stdin")) : StyleFits taken entry where
  style := by rw [h]; rfl
  flag hp := by simp [hasStyle_of_eq _ h] at hp
  positional hp := by simp [hasStyle_of_eq _ h] at hp

theorem not_styleFits {taken : List (Option Json)}
    (hflag : entry.property "style" ≠ some (.str "flag"))
    (hpositional : entry.property "style" ≠ some (.str "positional"))
    (hstdin : entry.property "style" ≠ some (.str "stdin")) : ¬ StyleFits taken entry := by
  intro hfits
  obtain ⟨s, hs, hstyle⟩ := isOneOf_iff.mp hfits.style
  simp only [INVOCATION_STYLES, List.mem_cons, List.not_mem_nil, or_false] at hs
  rcases hs with rfl | rfl | rfl
  · exact hflag hstyle
  · exact hpositional hstyle
  · exact hstdin hstyle

theorem hasStyle_of_ne {style : String} (h : entry.property "style" ≠ some (.str style)) :
    hasStyle style entry = false := by
  rw [Bool.eq_false_iff]
  exact fun hstyle => h (hasStyle_iff.mp hstyle)

theorem readStyle_clean : (∃ scan', scan.readStyle fnName entry = .ok scan' ∧ scan'.errors = []) ↔
    scan.errors = [] ∧ StyleFits scan.indexes entry := by
  unfold readStyle
  split
  · next h => rw [readFlag_clean, styleFits_flag h]
  · next h => rw [readPositional_clean, styleFits_positional h]
  · next h =>
      rw [and_iff_left (styleFits_stdin h)]
      constructor
      · intro ⟨scan', hscan, hclean⟩
        cases hscan
        exact hclean
      · exact fun hclean => ⟨_, rfl, hclean⟩
  · next hflag hpositional hstdin =>
      exact iff_of_false (fun ⟨_, h⟩ => not_clean_quoted h)
        fun h => not_styleFits hflag hpositional hstdin h.2

theorem readStyle_throws : Throws (scan.readStyle fnName entry) ↔
    Textless (entry.property "param") ∧ ¬ StyleFits scan.indexes entry := by
  unfold readStyle
  split
  · next h => rw [readFlag_throws, styleFits_flag h]
  · next h => rw [readPositional_throws, styleFits_positional h]
  · next h => exact iff_of_false (not_throws_ok _) fun ⟨_, hnot⟩ => hnot (styleFits_stdin h)
  · next hflag hpositional hstdin =>
      rw [throws_quoted, and_iff_left (not_styleFits hflag hpositional hstdin)]

theorem readStyle_notes (h : scan.readStyle fnName entry = .ok scan') :
    StyleNoted entry scan scan' := by
  unfold readStyle at h
  split at h
  · next hstyle =>
      have hstdin : hasStyle "stdin" entry = false := by simp [hasStyle_of_eq _ hstyle]
      have hpositional : hasStyle "positional" entry = false := by simp [hasStyle_of_eq _ hstyle]
      rcases readFlag_notes h with hsame | ⟨text, hcomplained⟩
      · rw [hsame]
        exact .same hstdin hpositional
      · rw [hcomplained]
        exact .complained hstdin (by simp [indexesOf_singleton, hpositional])
  · next hstyle =>
      have hstdin : hasStyle "stdin" entry = false := by simp [hasStyle_of_eq _ hstyle]
      have hindexes : indexesOf [entry] = [entry.property "positionIndex"] := by
        simp [indexesOf_singleton, hasStyle_of_eq _ hstyle]
      rcases readPositional_notes h with ⟨n, hn, hscan⟩ | ⟨htaken, text, hcomplained⟩
      · have hnoted : scan'.indexes = scan.indexes ++ indexesOf [entry] := by
          rw [hindexes, hn, hscan, indexes, List.map_append]
          rfl
        refine ⟨by rw [hscan]; rfl, by simp [hscan, hstdin], fun _ => hnoted, fun i _ => ?_⟩
        rw [hnoted, List.mem_append]
      · rw [hcomplained]
        refine .complained hstdin fun i hi hmem => ?_
        rw [hindexes, List.mem_singleton] at hmem
        rw [hmem] at hi ⊢
        exact htaken hi
  · next hstyle =>
      cases h
      have hpositional : hasStyle "positional" entry = false := by simp [hasStyle_of_eq _ hstyle]
      refine ⟨rfl, by simp [hasStyle_of_eq _ hstyle], fun _ => ?_, fun i _ => ?_⟩
      · simp [indexesOf_singleton, hpositional, indexes]
      · simp [indexesOf_singleton, hpositional, indexes]
  · next hflag hpositional hstdin =>
      obtain ⟨text, hcomplained⟩ := complained_of_quoted h
      rw [hcomplained]
      exact .complained (hasStyle_of_ne hstdin)
        (by simp [indexesOf_singleton, hasStyle_of_ne hpositional])

/-- Nothing of an entry that is no object can be read. -/
theorem property_eq_none (h : ∀ fields, entry ≠ .obj fields) (key : String) :
    entry.property key = none := by
  cases entry with
  | obj fields => exact (h fields rfl).elim
  | _ => rfl

theorem readEntry_clean : (∃ scan', readEntry fnName scan entry = .ok scan' ∧ scan'.errors = []) ↔
    scan.errors = [] ∧ IsNonEmptyString (entry.property "param") ∧
      entry.property "param" ∉ scan.params ∧ StyleFits scan.indexes entry := by
  unfold readEntry
  split
  · rw [readStyle_clean, readParam_clean, readParam_indexes, and_assoc, and_assoc]
  · next hnot =>
      constructor
      · intro ⟨scan', hscan, hclean⟩
        cases hscan
        exact (complain_errors _ _ hclean).elim
      · intro ⟨_, ⟨s, hs, _⟩, _⟩
        rw [property_eq_none hnot] at hs
        cases hs

theorem readEntry_throws : Throws (readEntry fnName scan entry) ↔
    Textless (entry.property "param") ∧ ¬ StyleFits scan.indexes entry := by
  unfold readEntry
  split
  · rw [readStyle_throws, readParam_indexes]
  · next hnot =>
      refine iff_of_false (not_throws_ok _) ?_
      intro ⟨⟨j, hj, _⟩, _⟩
      rw [property_eq_none hnot] at hj
      cases hj

theorem readEntry_taken (h : readEntry fnName scan entry = .ok scan') {i : Option Json}
    (hi : IsIndex i) : i ∈ scan'.indexes ↔ i ∈ scan.indexes ∨ i ∈ indexesOf [entry] := by
  unfold readEntry at h
  split at h
  · rw [(readStyle_notes h).taken i hi, readParam_indexes]
  · next hnot =>
      cases h
      have hnone : indexesOf [entry] = [] := by
        simp [indexesOf_singleton, hasStyle, property_eq_none hnot, Json.isOneOf]
      rw [hnone, or_iff_left List.not_mem_nil]
      rfl

theorem readEntry_notes (h : readEntry fnName scan entry = .ok scan') (hclean : scan'.errors = []) :
    scan'.params = scan.params ++ [entry.property "param"] ∧
      scan'.indexes = scan.indexes ++ indexesOf [entry] ∧
      scan'.stdinEntryCount = scan.stdinEntryCount + if hasStyle "stdin" entry then 1 else 0 := by
  unfold readEntry at h
  split at h
  · have hnoted := readStyle_notes h
    have hparam := (readStyle_clean.mp ⟨scan', h, hclean⟩).1
    exact ⟨hnoted.params.trans (readParam_params hparam),
      (hnoted.indexes hclean).trans (by rw [readParam_indexes]),
      hnoted.stdin.trans (by rw [readParam_stdin])⟩
  · cases h
    exact (complain_errors _ _ hclean).elim

/-! ### All entries -/

theorem nodup_concat_iff {l : List (Option Json)} {x : Option Json} (h : l.Nodup) :
    (l ++ [x]).Nodup ↔ x ∉ l := by
  rw [List.nodup_append]
  constructor
  · exact fun ⟨_, _, hne⟩ hx => hne x hx x (List.mem_singleton_self x) rfl
  · intro hx
    refine ⟨h, List.nodup_singleton x, fun a ha b hb hab => ?_⟩
    rw [List.mem_singleton.mp hb] at hab
    exact hx (hab ▸ ha)

/-- A style that fits is a well-formed one with a new index. -/
theorem styleFits_iff {taken : List (Option Json)} (htaken : taken.Nodup)
    (hparam : IsNonEmptyString (entry.property "param")) :
    StyleFits taken entry ↔ WellFormedEntry entry ∧ (taken ++ indexesOf [entry]).Nodup := by
  have hindexes : (taken ++ indexesOf [entry]).Nodup ↔
      (hasStyle "positional" entry = true → entry.property "positionIndex" ∉ taken) := by
    rw [indexesOf_singleton]
    cases hasStyle "positional" entry with
    | true => simpa using nodup_concat_iff htaken
    | false => simpa using htaken
  rw [hindexes]
  constructor
  · intro h
    exact ⟨⟨hparam, h.style, h.flag, fun hp => (h.positional hp).1⟩, fun hp => (h.positional hp).2⟩
  · intro ⟨h, hnew⟩
    exact ⟨h.style, h.flag, fun hp => ⟨h.positional hp, hnew hp⟩⟩

/-- The entries pass without a complaint after those the scan has noted. -/
theorem readEntries_clean {entries : List Json} (hparams : scan.params.Nodup)
    (hindexes : scan.indexes.Nodup) :
    (∃ scan', entries.foldlM (readEntry fnName) scan = .ok scan' ∧ scan'.errors = [] ∧
      scan'.stdinEntryCount ≤ 1) ↔
    scan.errors = [] ∧ (∀ entry ∈ entries, WellFormedEntry entry) ∧
      (scan.params ++ paramsOf entries).Nodup ∧ (scan.indexes ++ indexesOf entries).Nodup ∧
      scan.stdinEntryCount + entries.countP (hasStyle "stdin") ≤ 1 := by
  induction entries generalizing scan with
  | nil =>
      simp only [List.foldlM_nil, paramsOf, indexesOf, List.filter_nil, List.map_nil,
        List.append_nil, hparams, hindexes, List.countP_nil, Nat.add_zero, true_and,
        List.not_mem_nil, false_implies, implies_true]
      constructor
      · intro ⟨scan', hscan, h⟩
        cases hscan
        exact h
      · exact fun h => ⟨scan, rfl, h⟩
  | cons entry rest ih =>
      have hsplit : ∀ scan', (entry :: rest).foldlM (readEntry fnName) scan = .ok scan' ↔
          ∃ mid, readEntry fnName scan entry = .ok mid ∧
            rest.foldlM (readEntry fnName) mid = .ok scan' := by
        intro scan'
        rw [List.foldlM_cons, bind_eq_ok]
      have hcount : ∀ n, n + (entry :: rest).countP (hasStyle "stdin") =
          n + (if hasStyle "stdin" entry then 1 else 0) + rest.countP (hasStyle "stdin") := by
        intro n
        rw [List.countP_cons]
        omega
      rw [List.forall_mem_cons, hcount, indexesOf_cons, ← List.append_assoc,
        show paramsOf (entry :: rest) = [entry.property "param"] ++ paramsOf rest from rfl,
        ← List.append_assoc]
      constructor
      · intro ⟨scan', hscan, hclean, hstdin⟩
        obtain ⟨mid, hentry, hrest⟩ := (hsplit scan').mp hscan
        have hmid := (readEntries_accepts hrest hclean).1
        obtain ⟨herrors, hparam, hnew, hfits⟩ := readEntry_clean.mp ⟨mid, hentry, hmid⟩
        obtain ⟨hmidParams, hmidIndexes, hmidStdin⟩ := readEntry_notes hentry hmid
        obtain ⟨hformed, hnodup⟩ := (styleFits_iff hindexes hparam).mp hfits
        have hih := (ih (hmidParams ▸ (nodup_concat_iff hparams).mpr hnew)
          (hmidIndexes ▸ hnodup)).mp ⟨scan', hrest, hclean, hstdin⟩
        rw [hmidParams, hmidIndexes, hmidStdin] at hih
        exact ⟨herrors, ⟨hformed, hih.2.1⟩, hih.2.2⟩
      · intro ⟨herrors, ⟨hformed, hrest⟩, hallParams, hallIndexes, hstdin⟩
        have hnewParams := (List.nodup_append.mp hallParams).1
        have hnewIndexes := (List.nodup_append.mp hallIndexes).1
        obtain ⟨mid, hentry, hmid⟩ := readEntry_clean.mpr ⟨herrors, hformed.param,
          (nodup_concat_iff hparams).mp hnewParams,
          (styleFits_iff hindexes hformed.param).mpr ⟨hformed, hnewIndexes⟩⟩
        obtain ⟨hmidParams, hmidIndexes, hmidStdin⟩ := readEntry_notes hentry hmid
        rw [← hmidParams] at hnewParams hallParams
        rw [← hmidIndexes] at hnewIndexes hallIndexes
        rw [← hmidStdin] at hstdin
        obtain ⟨scan', hscan, h⟩ :=
          (ih hnewParams hnewIndexes).mpr ⟨hmid, hrest, hallParams, hallIndexes, hstdin⟩
        exact ⟨scan', (hsplit scan').mpr ⟨mid, hentry, hscan⟩, h⟩

theorem styleFits_congr {taken taken' : List (Option Json)}
    (h : ∀ i, IsIndex i → (i ∈ taken ↔ i ∈ taken')) (hfits : StyleFits taken entry) :
    StyleFits taken' entry where
  style := hfits.style
  flag := hfits.flag
  positional hp := by
    obtain ⟨hindex, hnew⟩ := hfits.positional hp
    exact ⟨hindex, fun hmem => hnew ((h _ hindex).mpr hmem)⟩

/-- The scan throws at the first entry whose style it complains of and whose
parameter has no text. -/
theorem readEntries_throws {entries : List Json} {taken : List (Option Json)}
    (htaken : ∀ i, IsIndex i → (i ∈ scan.indexes ↔ i ∈ taken)) :
    Throws (entries.foldlM (readEntry fnName) scan) ↔
      ∃ earlier entry later, entries = earlier ++ entry :: later ∧
        Textless (entry.property "param") ∧ ¬ StyleFits (taken ++ indexesOf earlier) entry := by
  induction entries generalizing scan taken with
  | nil =>
      refine iff_of_false (not_throws_ok _) ?_
      intro ⟨earlier, entry, later, h, _⟩
      simp at h
  | cons first rest ih =>
      have hfirst : Throws (readEntry fnName scan first) ↔
          Textless (first.property "param") ∧ ¬ StyleFits taken first := by
        rw [readEntry_throws]
        apply and_congr_right'
        exact not_congr ⟨styleFits_congr htaken, styleFits_congr fun i hi => (htaken i hi).symm⟩
      have hmid : ∀ {mid}, readEntry fnName scan first = .ok mid →
          ∀ i, IsIndex i → (i ∈ mid.indexes ↔ i ∈ taken ++ indexesOf [first]) := by
        intro mid hread i hi
        rw [readEntry_taken hread hi, htaken i hi, List.mem_append]
      rw [List.foldlM_cons, throws_bind]
      constructor
      · intro h
        rcases h with h | ⟨mid, hread, hrest⟩
        · exact ⟨[], first, rest, rfl, by simpa [indexesOf] using hfirst.mp h⟩
        · obtain ⟨earlier, entry, later, heq, htextless, hnot⟩ := (ih (hmid hread)).mp hrest
          refine ⟨first :: earlier, entry, later, by rw [heq]; rfl, htextless, ?_⟩
          rwa [indexesOf_cons, ← List.append_assoc]
      · intro ⟨earlier, entry, later, heq, htextless, hnot⟩
        rcases ok_or_throws (readEntry fnName scan first) with ⟨mid, hread⟩ | hthrows
        · cases earlier with
          | nil =>
              cases heq
              exact .inl (hfirst.mpr ⟨htextless, by simpa [indexesOf] using hnot⟩)
          | cons head earlier =>
              cases heq
              rw [indexesOf_cons, ← List.append_assoc] at hnot
              exact .inr ⟨mid, hread, (ih (hmid hread)).mpr
                ⟨earlier, entry, later, rfl, htextless, hnot⟩⟩
        · exact .inl hthrows

end DescriptorScan

/-! ### A descriptor -/

section
variable {fnName : String} {descriptor : Option Json}

theorem validateInvocationDescriptor_eq_ok_nil :
    validateInvocationDescriptor descriptor fnName = .ok [] ↔ WellFormedDescriptor descriptor := by
  unfold validateInvocationDescriptor WellFormedDescriptor
  split
  · next entries =>
      have hclean :=
        @DescriptorScan.readEntries_clean fnName {} entries List.nodup_nil List.nodup_nil
      simp only [Option.some.injEq, Json.arr.injEq, exists_eq_left']
      constructor
      · intro h
        obtain ⟨scan, hscan, hmessages⟩ := bind_eq_ok.mp h
        obtain ⟨herrors, hcount⟩ := List.append_eq_nil_iff.mp (Except.ok.inj hmessages)
        rw [complain_eq_nil, decide_eq_false_iff_not, Nat.not_lt] at hcount
        obtain ⟨-, heach, hparams, hindexes, hstdin⟩ := hclean.mp ⟨scan, hscan, herrors, hcount⟩
        exact ⟨heach, hparams, hindexes, by simpa using hstdin⟩
      · intro h
        obtain ⟨scan, hscan, herrors, hcount⟩ :=
          hclean.mpr ⟨rfl, h.each, h.params, h.indexes, by simpa using h.stdin⟩
        rw [hscan]
        change Except.ok (scan.errors ++ complain _ _) = _
        rw [herrors, complain_eq_nil.mpr (by simpa using hcount)]
        rfl
  · next hnot =>
      refine iff_of_false (by simp) ?_
      intro ⟨entries, h, _⟩
      exact hnot entries h

theorem validateInvocationDescriptor_throws :
    Throws (validateInvocationDescriptor descriptor fnName) ↔
      ∃ earlier entry later, descriptor = some (.arr (earlier ++ entry :: later)) ∧
        Textless (entry.property "param") ∧ ¬ StyleFits (indexesOf earlier) entry := by
  unfold validateInvocationDescriptor
  split
  · next entries =>
      have hentries :=
        @DescriptorScan.readEntries_throws fnName {} entries [] fun _ _ => Iff.rfl
      rw [throws_bind, hentries]
      simp
  · next hnot =>
      refine iff_of_false (not_throws_ok _) ?_
      intro ⟨earlier, entry, later, h, _⟩
      exact hnot _ h

end

end WorkflowPlatform
