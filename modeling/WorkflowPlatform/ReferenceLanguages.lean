import Mathlib.Data.List.Basic
import WorkflowPlatform.DocumentValidation

/-!
# Datasets and services

A static binding names a dataset by a URN, a step names its service by a reference
pinned to a digest. Each has its own pattern. A URN may be pinned to a digest as
well, and what stands before a service's digest may be anything: a pinned URN whose
digest is hexadecimal is a reference to a service too, and nothing else is both.
-/
namespace WorkflowPlatform

/-! ### The words of the two patterns -/

/-- A platform or a resource type. -/
def IsUrnPart (l : List Char) : Prop :=
  ∃ first rest, isLetterOrDigit first = true ∧
    (∀ c ∈ rest, (isLetterOrDigit c || c = '-') = true) ∧ l = first :: rest

/-- A namespace, a name or a tag. -/
def IsUrnName (l : List Char) : Prop :=
  l ≠ [] ∧ ∀ c ∈ l, (isLetterOrDigit c || c = '.' || c = '_' || c = '-') = true

def IsAlphanumeric (l : List Char) : Prop := l ≠ [] ∧ ∀ c ∈ l, isLetterOrDigit c = true

def IsHexadecimal (l : List Char) : Prop := l ≠ [] ∧ ∀ c ∈ l, isHexDigit c = true

/-- What stands before the digest of a service. -/
def IsImage (l : List Char) : Prop := l ≠ [] ∧ ∀ c ∈ l, (c ≠ '@' && !isWhiteSpace c) = true

/-- `@<alg>:<digest>` -/
def pin (alg digest : List Char) : List Char := '@' :: (alg ++ ':' :: digest)

/-- A dataset, without its version. -/
structure DatasetName where
  platform : List Char
  resourceType : List Char
  nameSpace : List Char
  name : List Char
  isPlatform : IsUrnPart platform
  isResourceType : IsUrnPart resourceType
  isNameSpace : IsUrnName nameSpace
  isName : IsUrnName name

def DatasetName.urn (d : DatasetName) : List Char :=
  "urn:".toList ++ (d.platform ++ ':' :: (d.resourceType ++ ':' :: (d.nameSpace ++ '/' :: d.name)))

/-- Nothing, a tag or a digest. -/
def IsVersion (l : List Char) : Prop :=
  l = [] ∨ (∃ tag, IsUrnName tag ∧ l = ':' :: tag) ∨
    ∃ alg digest, (IsAlphanumeric alg ∧ IsAlphanumeric digest) ∧ l = pin alg digest

section
variable {l : List Char} {c : Char}

theorem literalText_singleton (c : Char) : literalText (String.singleton c) = .word [c] := by
  simp [literalText]

theorem mem_datasetUrnPattern : l ∈ datasetUrnPattern.language ↔
    ∃ (d : DatasetName) (version : List Char), IsVersion version ∧ l = d.urn ++ version := by
  have hcolon : literalText ":" = .word [':'] := literalText_singleton ':'
  have hat : literalText "@" = .word ['@'] := literalText_singleton '@'
  have hslash : literalText "/" = .word ['/'] := literalText_singleton '/'
  have hurn : literalText "urn:" = .word "urn:".toList := rfl
  simp only [datasetUrnPattern, hcolon, hat, hslash, hurn]
  simp only [Pattern.mem_seq_mark, Pattern.mem_seq (q := Pattern.optional _), Pattern.mem_optional,
    Pattern.mem_alt, Pattern.mem_plus_one, Pattern.mem_word_seq]
  simp only [Pattern.mem_one_seq, Pattern.mem_star_one]
  constructor
  · intro ⟨_, ⟨platform, hplatform, _, ⟨resourceType, htype, _, ⟨nameSpace, hspace, _,
      ⟨name, hname, version, hversion, hlast⟩, hrest⟩, hrest'⟩, hrest''⟩, hl⟩
    refine ⟨⟨platform, resourceType, nameSpace, name, hplatform, htype, hspace, hname⟩, version,
      ?_, ?_⟩
    · rcases hversion with hnone | ⟨tag, htag, h⟩ | ⟨_, ⟨alg, halg, digest, hdigest, hpin⟩, h⟩
      · exact .inl hnone
      · exact .inr (.inl ⟨tag, htag, h⟩)
      · exact .inr (.inr ⟨alg, digest, ⟨halg, hdigest⟩, by rw [h, hpin]; rfl⟩)
    · rw [hl, hrest'', hrest', hrest, ← hlast, DatasetName.urn]
      simp
  · intro ⟨d, version, hversion, hl⟩
    refine ⟨_, ⟨d.platform, d.isPlatform, _, ⟨d.resourceType, d.isResourceType, _,
      ⟨d.nameSpace, d.isNameSpace, _, ⟨d.name, d.isName, version, ?_, rfl⟩, rfl⟩, rfl⟩, rfl⟩, ?_⟩
    · rcases hversion with hnone | ⟨tag, htag, h⟩ | ⟨alg, digest, ⟨halg, hdigest⟩, h⟩
      · exact .inl hnone
      · exact .inr (.inl ⟨tag, htag, h⟩)
      · exact .inr (.inr ⟨_, ⟨alg, halg, digest, hdigest, rfl⟩, h⟩)
    · rw [hl, DatasetName.urn]
      simp

theorem mem_ociDigestRefPattern : l ∈ ociDigestRefPattern.language ↔
    ∃ image alg digest, IsImage image ∧ (IsAlphanumeric alg ∧ IsHexadecimal digest) ∧
      l = image ++ pin alg digest := by
  have hcolon : literalText ":" = .word [':'] := literalText_singleton ':'
  have hat : literalText "@" = .word ['@'] := literalText_singleton '@'
  simp only [ociDigestRefPattern, hcolon, hat, Pattern.mem_seq_mark, Pattern.mem_plus_one]
  constructor
  · intro ⟨image, himage, _, ⟨alg, halg, digest, hdigest, hpin⟩, hl⟩
    exact ⟨image, alg, digest, himage, ⟨halg, hdigest⟩, by rw [hl, hpin]; rfl⟩
  · intro ⟨image, alg, digest, himage, ⟨halg, hdigest⟩, hl⟩
    exact ⟨image, himage, _, ⟨alg, halg, digest, hdigest, rfl⟩, hl⟩

/-! ### What the patterns share -/

theorem isLetterOrDigit_iff : isLetterOrDigit c = true ↔
    (65 ≤ c.toNat ∧ c.toNat ≤ 90) ∨ (97 ≤ c.toNat ∧ c.toNat ≤ 122) ∨
      (48 ≤ c.toNat ∧ c.toNat ≤ 57) := by
  change (decide (c.val ≥ 65 ∧ c.val ≤ 90) || (decide (c.val ≥ 97) && decide (c.val ≤ 122)) ||
    (decide (c.val ≥ 48) && decide (c.val ≤ 57))) = true ↔ _
  simp [UInt32.le_iff_toNat_le, or_assoc]

theorem isHexDigit_iff : isHexDigit c = true ↔
    (48 ≤ c.toNat ∧ c.toNat ≤ 57) ∨ (97 ≤ c.toNat ∧ c.toNat ≤ 102) ∨
      (65 ≤ c.toNat ∧ c.toNat ≤ 70) := by
  simp [isHexDigit, Char.isDigit, Char.le_def, UInt32.le_iff_toNat_le, or_assoc]

theorem isLetterOrDigit_of_isHexDigit (h : isHexDigit c = true) : isLetterOrDigit c = true := by
  rw [isHexDigit_iff] at h
  rw [isLetterOrDigit_iff]
  omega

/-- What the texts before the version are made of. -/
def isUrnChar (c : Char) : Bool := isLetterOrDigit c || c ∈ ['.', '_', '-', ':', '/']

theorem isUrnChar_range (h : isUrnChar c = true) : 45 ≤ c.toNat ∧ c.toNat ≤ 122 ∧ c.toNat ≠ 64 := by
  rw [isUrnChar, Bool.or_eq_true, isLetterOrDigit_iff, decide_eq_true_iff] at h
  rcases h with hrange | hmark
  · omega
  · simp only [List.mem_cons, List.not_mem_nil, or_false] at hmark
    rcases hmark with rfl | rfl | rfl | rfl | rfl <;> decide

theorem image_of_isUrnChar (h : isUrnChar c = true) : (c ≠ '@' && !isWhiteSpace c) = true := by
  have hrange := isUrnChar_range h
  have hat : c ≠ '@' := by
    intro hc
    subst hc
    exact hrange.2.2 rfl
  have hspace : isWhiteSpace c = false := by
    rw [Bool.eq_false_iff]
    intro hspace
    simp only [isWhiteSpace, List.mem_cons, List.not_mem_nil, or_false, Bool.or_eq_true,
      Bool.and_eq_true, decide_eq_true_iff] at hspace
    omega
  simp [hat, hspace]

theorem IsUrnPart.chars (h : IsUrnPart l) : ∀ c ∈ l, isUrnChar c = true := by
  obtain ⟨first, rest, hfirst, hrest, rfl⟩ := h
  refine List.forall_mem_cons.mpr ⟨by simp [isUrnChar, hfirst], fun c hc => ?_⟩
  have hmem := hrest c hc
  rw [Bool.or_eq_true, decide_eq_true_iff] at hmem
  rcases hmem with hletter | hdash
  · simp [isUrnChar, hletter]
  · subst hdash
    rfl

theorem IsUrnName.chars (h : IsUrnName l) : ∀ c ∈ l, isUrnChar c = true := by
  intro c hc
  have hmem := h.2 c hc
  simp only [Bool.or_eq_true, decide_eq_true_iff] at hmem
  rcases hmem with ((hletter | rfl) | rfl) | rfl
  · simp [isUrnChar, hletter]
  · rfl
  · rfl
  · rfl

theorem DatasetName.urn_chars (d : DatasetName) : ∀ c ∈ d.urn, isUrnChar c = true := by
  have hscheme : ∀ c ∈ "urn:".toList, isUrnChar c = true := List.all_eq_true.mp rfl
  simp only [DatasetName.urn, List.forall_mem_append, List.forall_mem_cons]
  exact ⟨hscheme, d.isPlatform.chars, rfl, d.isResourceType.chars, rfl, d.isNameSpace.chars, rfl,
    d.isName.chars⟩

theorem DatasetName.isImage (d : DatasetName) : IsImage d.urn :=
  ⟨List.append_ne_nil_of_left_ne_nil (by decide) _, fun c hc => image_of_isUrnChar (d.urn_chars c hc)⟩

theorem at_notMem {f : Char → Bool} (hat : f '@' = false) (h : ∀ c ∈ l, f c = true) : '@' ∉ l := by
  intro hmem
  rw [h _ hmem] at hat
  cases hat

/-- Only a digest puts an `@` into the text of a dataset. -/
theorem IsVersion.pinned {d : DatasetName} (h : IsVersion l) (hat : '@' ∈ d.urn ++ l) :
    ∃ alg digest, l = pin alg digest := by
  have hnotUrn : '@' ∉ d.urn := at_notMem rfl d.urn_chars
  rcases h with rfl | ⟨tag, htag, rfl⟩ | ⟨alg, digest, _, rfl⟩
  · rw [List.append_nil] at hat
    exact (hnotUrn hat).elim
  · have hnotTag : '@' ∉ tag := at_notMem rfl htag.2
    rw [List.mem_append, List.mem_cons] at hat
    rcases hat with hmem | hcolon | hmem
    · exact (hnotUrn hmem).elim
    · exact absurd hcolon (by decide)
    · exact (hnotTag hmem).elim
  · exact ⟨alg, digest, rfl⟩

/-- The image of a service ends where its only `@` stands. -/
theorem image_unique {image rest alg digest alg' digest' : List Char} (himage : IsImage image)
    (halg : IsAlphanumeric alg) (hdigest : IsHexadecimal digest)
    (h : image ++ pin alg digest = rest ++ pin alg' digest') : image = rest := by
  have hnotImage : '@' ∉ image := at_notMem rfl himage.2
  have hnotPin : '@' ∉ alg ++ ':' :: digest := by
    rw [List.mem_append, List.mem_cons]
    rintro (hmem | hcolon | hmem)
    · exact at_notMem rfl halg.2 hmem
    · exact absurd hcolon (by decide)
    · exact at_notMem rfl hdigest.2 hmem
  exact ((List.append_cons_inj_of_notMem hnotImage hnotPin).mp h).1

/-- A dataset whose version is a digest in hexadecimal. -/
def IsHexPinnedUrn (l : List Char) : Prop :=
  ∃ (d : DatasetName) (alg digest : List Char),
    (IsAlphanumeric alg ∧ IsHexadecimal digest) ∧ l = d.urn ++ pin alg digest

/-- The two languages have the pinned datasets in common whose digest is hexadecimal. -/
theorem mem_both_iff :
    l ∈ datasetUrnPattern.language ∧ l ∈ ociDigestRefPattern.language ↔ IsHexPinnedUrn l := by
  rw [mem_datasetUrnPattern, mem_ociDigestRefPattern]
  constructor
  · intro ⟨⟨d, version, hversion, hurn⟩, image, alg, digest, himage, hpin, hservice⟩
    have hat : '@' ∈ d.urn ++ version := by
      rw [← hurn, hservice]
      exact List.mem_append_right _ List.mem_cons_self
    obtain ⟨alg', digest', rfl⟩ := hversion.pinned hat
    obtain rfl := image_unique himage hpin.1 hpin.2 (hservice.symm.trans hurn)
    exact ⟨d, alg, digest, hpin, hservice⟩
  · intro ⟨d, alg, digest, ⟨halg, hdigest⟩, hl⟩
    have halphanumeric : IsAlphanumeric digest :=
      ⟨hdigest.1, fun c hc => isLetterOrDigit_of_isHexDigit (hdigest.2 c hc)⟩
    exact ⟨⟨d, pin alg digest, .inr (.inr ⟨alg, digest, ⟨halg, halphanumeric⟩, rfl⟩), hl⟩,
      d.urn, alg, digest, d.isImage, ⟨halg, hdigest⟩, hl⟩

end

/-! ### In a document -/

def ServiceAt (doc : Json) (s : String) : Prop :=
  ∃ own, NodeAt doc (.obj own) ∧ own.lookup "service" = some (.str s)

def StaticRefAt (doc : Json) (s : String) : Prop :=
  ∃ own, BindingAt doc (.obj own) ∧ own.lookup "from" = some (.str "static") ∧
    own.lookup "ref" = some (.str s)

section
variable {s : String} {doc : Json} {stack : ℕ} {errors : Json → List ValidationError}

theorem matches_both_iff : matchesPattern datasetUrnPattern s = true ∧
    matchesPattern ociDigestRefPattern s = true ↔ IsHexPinnedUrn s.toList := by
  rw [matchesPattern, matchesPattern, Pattern.accepts_iff, Pattern.accepts_iff, mem_both_iff]

theorem fits_ociDigestRef (h : Fits .ociDigestRef (.str s)) :
    matchesPattern ociDigestRefPattern s = true := by
  obtain ⟨s', hs, hmatch⟩ := image_str.mp h.language
  rwa [Json.str.inj hs]

theorem fits_datasetUrn (h : Fits .datasetUrn (.str s)) :
    matchesPattern datasetUrnPattern s = true := by
  obtain ⟨s', hs, hmatch⟩ := image_str.mp h.language
  rwa [Json.str.inj hs]

theorem ServiceAt.matches (hdoc : Fits .workflowSpec doc) (h : ServiceAt doc s) :
    matchesPattern ociDigestRefPattern s = true := by
  obtain ⟨own, hnode, hservice⟩ := h
  have hnode := (hnode.fits hdoc).alternative
  exact fits_ociDigestRef (fits_ref (fits_property hnode nodeAlternatives_closed hservice rfl))

theorem StaticRefAt.matches (hdoc : Fits .workflowSpec doc) (h : StaticRefAt doc s) :
    matchesPattern datasetUrnPattern s = true := by
  obtain ⟨own, hbinding, -, href⟩ := h
  have hbinding := (hbinding.fits hdoc).bindingAlternative
  exact fits_datasetUrn (fits_ref (fits_property hbinding bindingAlternatives_closed href rfl))

theorem fits_of_valid (hdistinct : doc.namesDistinct = true)
    (h : (validateDocument stack errors doc).valid = true) : Fits .workflowSpec doc := by
  refine ⟨hdistinct, (validateDocument_valid hdistinct ?_).mp h⟩
  cases hrun : validateFn stack doc with
  | some r => rfl
  | none =>
      rw [validateDocument, hrun] at h
      cases h

theorem valid_of_schemaValid {spec : WorkflowSpec} (hspec : spec.schemaValid = true)
    (hdistinct : (encodeWorkflowSpec spec).namesDistinct = true)
    (hstack : 2 * (encodeWorkflowSpec spec).depth < stack) :
    (validateDocument stack errors (encodeWorkflowSpec spec)).valid = true :=
  (validateDocument_valid hdistinct (validateFn_isSome hstack)).mpr
    ⟨spec, hspec, Json.same_refl _ hdistinct⟩

end

/-- No text is both the name of a dataset and a reference to a service, and in an
accepted document neither stands for the other, unless it is the URN of a dataset
that is pinned to a digest in hexadecimal. -/
theorem references_apart_iff (stack : ℕ) (errors : Json → List ValidationError)
    (doc : JsonDocument) :
    (∀ s, ¬ (matchesPattern datasetUrnPattern s = true ∧
        matchesPattern ociDigestRefPattern s = true) ↔ ¬ IsHexPinnedUrn s.toList) ∧
    ((validateDocument stack errors doc.value).valid = true →
      ((∀ s, ServiceAt doc.value s → matchesPattern datasetUrnPattern s = false) ∧
          (∀ s, StaticRefAt doc.value s → matchesPattern ociDigestRefPattern s = false) ↔
        ∀ s, ServiceAt doc.value s ∨ StaticRefAt doc.value s → ¬ IsHexPinnedUrn s.toList)) := by
  refine ⟨fun s => not_congr matches_both_iff, fun h => ?_⟩
  have hdoc := fits_of_valid doc.distinct h
  constructor
  · intro ⟨hservices, hrefs⟩ s hs hpinned
    obtain ⟨hdataset, hoci⟩ := matches_both_iff.mpr hpinned
    rcases hs with hs | hs
    · rw [hservices s hs] at hdataset
      cases hdataset
    · rw [hrefs s hs] at hoci
      cases hoci
  · intro hnone
    constructor
    · intro s hs
      rw [Bool.eq_false_iff]
      intro hdataset
      exact hnone s (.inl hs) (matches_both_iff.mp ⟨hdataset, hs.matches hdoc⟩)
    · intro s hs
      rw [Bool.eq_false_iff]
      intro hoci
      exact hnone s (.inr hs) (matches_both_iff.mp ⟨hs.matches hdoc, hoci⟩)

theorem greeting_references_apart :
    (validateDocument 20 (fun _ => []) greetingDocument.value).valid = true ∧
    ((∀ s, ServiceAt greetingDocument.value s → matchesPattern datasetUrnPattern s = false) ∧
        (∀ s, StaticRefAt greetingDocument.value s →
          matchesPattern ociDigestRefPattern s = false) ↔
      ∀ s, ServiceAt greetingDocument.value s ∨ StaticRefAt greetingDocument.value s →
        ¬ IsHexPinnedUrn s.toList) := by
  have hvalid : (validateDocument 20 (fun _ => []) greetingDocument.value).valid = true :=
    valid_of_schemaValid (by decide +kernel) greetingDocument.distinct (by decide)
  exact ⟨hvalid, (references_apart_iff 20 (fun _ => []) greetingDocument).2 hvalid⟩

/-- The reference in the test of digest-form URNs. -/
def pinnedUrn : String := "urn:workflow-platform:dataset:team/name@sha256:abcd1234"

/-- A step that has the dataset for its service, and reads it too. -/
def sharedSpec : WorkflowSpec where
  workflowSpecVersion := 1
  name := "shared"
  steps := [.step {
    id := "load", service := pinnedUrn, function := "load",
    reads := some [("data", .static pinnedUrn)] }]

def sharedDocument : JsonDocument where
  value := encodeWorkflowSpec sharedSpec
  distinct := by decide

theorem pinned_urn_is_both :
    matchesPattern datasetUrnPattern pinnedUrn = true ∧
    matchesPattern ociDigestRefPattern pinnedUrn = true ∧
    (validateDocument 20 (fun _ => []) sharedDocument.value).valid = true ∧
    ServiceAt sharedDocument.value pinnedUrn ∧ StaticRefAt sharedDocument.value pinnedUrn := by
  refine ⟨by decide +kernel, by decide +kernel, ?_, ?_, ?_⟩
  · exact valid_of_schemaValid (by decide +kernel) sharedDocument.distinct (by decide)
  · exact ⟨_, .step rfl rfl (List.mem_singleton_self _), rfl⟩
  · exact ⟨_, .read (.step rfl rfl (List.mem_singleton_self _)) rfl (List.mem_singleton_self _),
      rfl, rfl⟩

end WorkflowPlatform
