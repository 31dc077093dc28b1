import WorkflowPlatform.AssocList
import WorkflowPlatform.Errors
import WorkflowPlatform.RegistrationValidation

/-!
# The registry of service images

One row for each image, keyed by digest, and one for each function of it, keyed
by digest and function name. `registerImage` is the only way in: it checks the
payload and then, in one transaction, upserts the image and replaces the rows of
its functions. There are two ways to look a function up. `getPlacementFacts`
joins the two tables on a digest and a name; `getEntry` collects all functions
of a digest in an object literal, by assignment, keyed by their names.
-/
namespace WorkflowPlatform

inductive TrustTier where
  | unverified
  | conformancePassed
  | productionProven
deriving DecidableEq

structure ServiceImage where
  ociRef : String
  openapiSpec : Json
  hardwareRequirements : Json
  trustTier : TrustTier := .unverified

structure FunctionCapabilityInput where
  mutates : Bool
  materializationCostClass : MaterializationCostClass
  cowSupport : Bool
  changeDetectionSupport : Bool
  nestingDeclaration : Option Json := none
  invocationDescriptor : Json
  stateReuse : StateReuse
  additiveWarmUpdate : Bool

structure RegistryDb where
  serviceImages : String → Option ServiceImage
  functionCapabilities : String → List (String × FunctionCapabilityInput)

/-- The foreign key and the unique key of the functions. -/
structure RegistryDb.Valid (db : RegistryDb) : Prop where
  digest_fkey : ∀ digest, db.functionCapabilities digest ≠ [] →
    (db.serviceImages digest).isSome
  function_unique : ∀ digest, ((db.functionCapabilities digest).map Prod.fst).Nodup

def RegistryDb.empty : RegistryDb := ⟨fun _ => none, fun _ => []⟩

theorem RegistryDb.empty_valid : RegistryDb.empty.Valid where
  digest_fkey := fun _ h => absurd rfl h
  function_unique := fun _ => List.nodup_nil

/-! ### Registering an image -/

structure RegisterImageInput where
  digest : Option Json
  ociRef : Option Json
  openapiSpec : Option Json
  capabilityMetadata : Option Json := none
  hardwareRequirements : Option Json := none

structure RegisteredImage where
  digest : String
  trustTier : TrustTier

/-- `value ?? {}` -/
def orEmptyObject : Option Json → Json
  | none => .obj []
  | some .null => .obj []
  | some value => value

def columnText : Option Json → Except Failure String
  | some (.str s) => if Json.stringHasNul s then .error .database else .ok s
  | _ => .error .database

/-- A `jsonb` parameter, refused when its text has the escape of U+0000. -/
def columnJson : Option Json → Except Failure Json
  | some value => if value.hasNul then .error .database else .ok value
  | none => .error .database

def columnBool : Option Json → Except Failure Bool
  | some (.bool b) => .ok b
  | _ => .error .database

def columnCostClass : Option Json → Except Failure MaterializationCostClass
  | some (.str "negligible") => .ok .negligible
  | some (.str "heavy") => .ok .heavy
  | _ => .error .database

def columnStateReuse : Option Json → Except Failure StateReuse
  | some (.str "none") => .ok .none
  | some (.str "stateIdKeyed") => .ok .stateIdKeyed
  | _ => .error .database

def columnNesting : Option Json → Except Failure (Option Json)
  | none => .ok none
  | some .null => .ok none
  | some value => (columnJson (some value)).map some

/-- The row of one function, as `SQL_INSERT_FUNCTION_CAPABILITY` checks it. -/
def capabilityRow (cap : Json) : Except Failure FunctionCapabilityInput := do
  let mutates ← columnBool (cap.property "mutates")
  let materializationCostClass ← columnCostClass (cap.property "materializationCostClass")
  let cowSupport ← columnBool (cap.property "cowSupport")
  let changeDetectionSupport ← columnBool (cap.property "changeDetectionSupport")
  let nestingDeclaration ← columnNesting (cap.property "nestingDeclaration")
  let invocationDescriptor ← columnJson (cap.property "invocationDescriptor")
  let stateReuse ← columnStateReuse (cap.property "stateReuse")
  let additiveWarmUpdate ← columnBool (cap.property "additiveWarmUpdate")
  .ok { mutates, materializationCostClass, cowSupport, changeDetectionSupport,
        nestingDeclaration, invocationDescriptor, stateReuse, additiveWarmUpdate }

namespace RegistryDb

/-- `SQL_UPSERT_SERVICE_IMAGE`: the trust tier of a row that exists stays. -/
def upsertImage (digest : String) (ociRef : String) (openapiSpec hardwareRequirements : Json)
    (db : RegistryDb) : RegistryDb :=
  let trustTier := match db.serviceImages digest with
    | some image => image.trustTier
    | none => .unverified
  { db with
    serviceImages := Function.update db.serviceImages digest
      (some { ociRef, openapiSpec, hardwareRequirements, trustTier }) }

def deleteFunctions (digest : String) (db : RegistryDb) : RegistryDb :=
  { db with functionCapabilities := Function.update db.functionCapabilities digest [] }

/-- `SQL_INSERT_FUNCTION_CAPABILITY`: an image of the digest must exist, and no
row of the same function. -/
def insertFunction (digest functionName : String) (row : FunctionCapabilityInput)
    (db : RegistryDb) : Except Failure RegistryDb :=
  if (db.serviceImages digest).isNone ||
      functionName ∈ (db.functionCapabilities digest).map Prod.fst then .error .database
  else .ok { db with
    functionCapabilities := Function.update db.functionCapabilities digest
      (db.functionCapabilities digest ++ [(functionName, row)]) }

def insertCapability (digest : String) (db : RegistryDb) (entry : String × Json) :
    Except Failure RegistryDb := do
  let functionName ← columnText (some (.str entry.1))
  let row ← capabilityRow entry.2
  db.insertFunction digest functionName row

def replaceForDigest (digest : String) (capabilityMetadata : List (String × Json))
    (db : RegistryDb) : Except Failure RegistryDb :=
  capabilityMetadata.foldlM (insertCapability digest) (db.deleteFunctions digest)

end RegistryDb

def capabilitiesOf : Json → List (String × Json)
  | .obj fields => fields
  | _ => []

def registerImage (input : RegisterImageInput) (db : RegistryDb) :
    Except Failure (RegisteredImage × RegistryDb) := do
  let capabilityMetadata := orEmptyObject input.capabilityMetadata
  let hardwareRequirements := orEmptyObject input.hardwareRequirements
  let errors ← validateRegistration {
    digest := input.digest
    ociRef := input.ociRef
    openapiSpec := input.openapiSpec
    capabilityMetadata := some capabilityMetadata
    hardwareRequirements := some hardwareRequirements }
  if errors.isEmpty then do
    let digest ← columnText input.digest
    let ociRef ← columnText input.ociRef
    let openapiSpec ← columnJson input.openapiSpec
    let hardwareRequirements ← columnJson (some hardwareRequirements)
    let upserted := db.upsertImage digest ociRef openapiSpec hardwareRequirements
    let db' ← upserted.replaceForDigest digest (capabilitiesOf capabilityMetadata)
    let trustTier := match db'.serviceImages digest with
      | some image => image.trustTier
      | none => .unverified
    .ok (⟨digest, trustTier⟩, db')
  else
    .error (.fatal .REGISTRY_VALIDATION_FAILED
      [("digest", .value (.ofOption input.digest)),
       ("errors", .value (.json (.arr (errors.map .str))))])

/-- One call; what it throws leaves the registry as it was. -/
def RegistryDb.after (db : RegistryDb) (input : RegisterImageInput) : RegistryDb :=
  match registerImage input db with
  | .ok (_, db') => db'
  | .error _ => db

/-- The registry after calls of `registerImage`, one after the other. -/
def registryAfter (calls : List RegisterImageInput) : RegistryDb :=
  calls.foldl RegistryDb.after .empty

/-! ### Looking a function up -/

/-- An object literal filled by assignment: the properties of its own, and the
prototype an assignment under `__proto__` has given it. -/
structure AssignedObject (V : Type) where
  own : List (String × V) := []
  proto : Option V := none

namespace AssignedObject
variable {V : Type}

/-- `object[key] = value`, for an object as the value -/
def assign (o : AssignedObject V) (key : String) (value : V) : AssignedObject V :=
  if key = "__proto__" then { o with proto := some value }
  else { o with own := (key, value) :: o.own }

/-- `Object.hasOwn(object, key)` -/
def hasOwn (o : AssignedObject V) (key : String) : Bool := (o.own.lookup key).isSome

end AssignedObject

structure RegistryEntry where
  image : ServiceImage
  functions : AssignedObject FunctionCapabilityInput

/-- `ORDER BY function_name` -/
def listByDigest (db : RegistryDb) (digest : String) : List (String × FunctionCapabilityInput) :=
  (db.functionCapabilities digest).insertionSort fun a b => a.1 ≤ b.1

def getEntry (db : RegistryDb) (digest : String) : Option RegistryEntry :=
  match db.serviceImages digest with
  | none => none
  | some image =>
      some { image, functions := (listByDigest db digest).foldl (fun o cap => o.assign cap.1 cap.2) {} }

structure PlacementFacts where
  digest : String
  function : String
  capability : FunctionCapabilityInput
  trustTier : TrustTier
  hardwareRequirements : Json

def getPlacementFacts (db : RegistryDb) (digest functionName : String) : Option PlacementFacts :=
  match db.serviceImages digest, (db.functionCapabilities digest).lookup functionName with
  | some image, some capability =>
      some { digest, function := functionName, capability, trustTier := image.trustTier,
             hardwareRequirements := image.hardwareRequirements }
  | _, _ => none

/-! ### The keys hold after every registration -/

namespace RegistryDb
variable {db db' : RegistryDb} {digest : String}

theorem upsertImage_valid (h : db.Valid) (ociRef : String) (openapiSpec hardware : Json) :
    (db.upsertImage digest ociRef openapiSpec hardware).Valid where
  digest_fkey := fun d hd => by
    by_cases heq : d = digest
    · subst heq
      simp [upsertImage]
    · simpa [upsertImage, heq] using h.digest_fkey d hd
  function_unique := h.function_unique

theorem deleteFunctions_valid (h : db.Valid) : (db.deleteFunctions digest).Valid where
  digest_fkey := fun d hd => by
    by_cases heq : d = digest
    · subst heq
      simp [deleteFunctions] at hd
    · exact h.digest_fkey d (by simpa [deleteFunctions, heq] using hd)
  function_unique := fun d => by
    by_cases heq : d = digest
    · subst heq
      simp [deleteFunctions]
    · simpa [deleteFunctions, heq] using h.function_unique d

theorem insertFunction_valid {functionName : String} {row : FunctionCapabilityInput}
    (h : db.Valid) (hok : db.insertFunction digest functionName row = .ok db') : db'.Valid := by
  unfold insertFunction at hok
  split at hok
  · cases hok
  · next hcheck =>
      obtain ⟨himage, hfresh⟩ : (db.serviceImages digest).isSome ∧
          functionName ∉ (db.functionCapabilities digest).map Prod.fst := by
        simpa [Option.isSome_iff_ne_none] using hcheck
      cases hok
      constructor
      · intro d hd
        by_cases heq : d = digest
        · subst heq
          exact himage
        · exact h.digest_fkey d (by simpa [heq] using hd)
      · intro d
        by_cases heq : d = digest
        · subst heq
          simp only [Function.update_self, List.map_append]
          refine List.Nodup.append (h.function_unique d) (by simp) ?_
          simpa using hfresh
        · simpa [heq] using h.function_unique d

theorem replaceForDigest_valid {capabilities : List (String × Json)} (h : db.Valid)
    (hok : db.replaceForDigest digest capabilities = .ok db') : db'.Valid := by
  have hfold : ∀ (l : List (String × Json)) (db₀ : RegistryDb), db₀.Valid →
      l.foldlM (insertCapability digest) db₀ = .ok db' → db'.Valid := by
    intro l
    induction l with
    | nil =>
        intro db₀ h₀ hok
        cases hok
        exact h₀
    | cons entry rest ih =>
        intro db₀ h₀ hok
        rw [List.foldlM_cons] at hok
        obtain ⟨db₁, hins, hrest⟩ := bind_eq_ok.mp hok
        simp only [insertCapability, bind_eq_ok] at hins
        obtain ⟨name, -, row, -, hrow⟩ := hins
        exact ih db₁ (insertFunction_valid h₀ hrow) hrest
  exact hfold capabilities _ (deleteFunctions_valid h) hok

theorem registerImage_valid {input : RegisterImageInput} {image : RegisteredImage} (h : db.Valid)
    (hok : registerImage input db = .ok (image, db')) : db'.Valid := by
  simp only [registerImage, bind_eq_ok] at hok
  obtain ⟨errors, -, hok⟩ := hok
  split at hok
  · simp only [bind_eq_ok, Except.ok.injEq, Prod.mk.injEq] at hok
    obtain ⟨digest, -, ociRef, -, spec, -, hardware, -, db₁, hreplace, -, rfl⟩ := hok
    exact replaceForDigest_valid (upsertImage_valid h ociRef spec hardware) hreplace
  · cases hok

theorem after_valid (h : db.Valid) (input : RegisterImageInput) : (db.after input).Valid := by
  unfold after
  split
  · next hok => exact registerImage_valid h hok
  · exact h

end RegistryDb

theorem registryAfter_valid (calls : List RegisterImageInput) : (registryAfter calls).Valid := by
  have hfold : ∀ (l : List RegisterImageInput) (db : RegistryDb), db.Valid →
      (l.foldl RegistryDb.after db).Valid := by
    intro l
    induction l with
    | nil => exact fun _ h => h
    | cons input rest ih => exact fun db h => ih _ (RegistryDb.after_valid h input)
  exact hfold calls _ RegistryDb.empty_valid

/-! ### What the two ways to look a function up find -/

namespace AssignedObject
variable {V : Type}

theorem assign_lookup (o : AssignedObject V) (k key : String) (value : V) :
    (o.assign k value).own.lookup key =
      if key = k ∧ k ≠ "__proto__" then some value else o.own.lookup key := by
  unfold assign
  by_cases hp : k = "__proto__"
  · simp [hp]
  · by_cases hk : key = k
    · simp [hp, hk]
    · have hb : (key == k) = false := by simpa using hk
      simp [hp, hk, List.lookup_cons, hb]

/-- Assigning each of some entries of distinct keys makes a property of all of
them but `__proto__`. -/
theorem foldl_assign_lookup {entries : List (String × V)} (hnodup : (entries.map Prod.fst).Nodup)
    (o : AssignedObject V) (key : String) :
    (entries.foldl (fun o e => o.assign e.1 e.2) o).own.lookup key =
      if key = "__proto__" then o.own.lookup key
      else (entries.lookup key).or (o.own.lookup key) := by
  induction entries generalizing o with
  | nil => simp
  | cons e rest ih =>
      obtain ⟨k, value⟩ := e
      obtain ⟨hfresh, hrest⟩ := List.nodup_cons.mp hnodup
      rw [List.foldl_cons, ih hrest, assign_lookup]
      by_cases hp : key = "__proto__"
      · subst hp
        have h : ¬ ("__proto__" = k ∧ k ≠ "__proto__") := fun h => h.2 h.1.symm
        simp [h]
      · by_cases hk : key = k
        · subst hk
          have habsent : rest.lookup key = none := AssocList.lookup_eq_none hfresh
          simp [hp, habsent]
        · have hb : (key == k) = false := by simpa using hk
          simp [hp, hk, List.lookup_cons, hb]

end AssignedObject

theorem listByDigest_perm (db : RegistryDb) (digest : String) :
    (listByDigest db digest).Perm (db.functionCapabilities digest) := List.perm_insertionSort _ _

/-- `getEntry` has a function exactly when its row is there, one named
`__proto__` apart. -/
theorem getEntry_lookup {db : RegistryDb} (h : db.Valid) {digest : String} {entry : RegistryEntry}
    (hentry : getEntry db digest = some entry) (name : String) :
    entry.functions.own.lookup name =
      if name = "__proto__" then none else (db.functionCapabilities digest).lookup name := by
  unfold getEntry at hentry
  split at hentry
  · cases hentry
  · cases hentry
    have hperm := listByDigest_perm db digest
    have hnodup := (hperm.map Prod.fst).nodup_iff.mpr (h.function_unique digest)
    rw [AssignedObject.foldl_assign_lookup hnodup, AssocList.lookup_eq_of_perm hperm hnodup]
    simp

theorem getEntry_isSome {db : RegistryDb} {digest : String} :
    (getEntry db digest).isSome = (db.serviceImages digest).isSome := by
  unfold getEntry
  cases db.serviceImages digest <;> rfl

/-- The join finds a row for every function of the digest. -/
theorem getPlacementFacts_lookup {db : RegistryDb} (h : db.Valid) (digest name : String) :
    (getPlacementFacts db digest name).map (·.capability) =
      (db.functionCapabilities digest).lookup name := by
  unfold getPlacementFacts
  cases himage : db.serviceImages digest with
  | some image => cases (db.functionCapabilities digest).lookup name <;> rfl
  | none =>
      have hempty : db.functionCapabilities digest = [] := by
        by_contra hne
        have := h.digest_fkey digest hne
        simp [himage] at this
      simp [hempty]

end WorkflowPlatform
