import WorkflowPlatform.Registry
import WorkflowPlatform.Transaction

/-!
# The statements of the registry

The upsert of an image, the change of its trust tier, and the replacement of the
rows of its functions, statement by statement and row by row. A registration is
one transaction of them, and a change of the tier is one of a single statement.

`registrationOf` is what a payload comes to when it is stored. It does not depend
on the rows that are there, so a payload is accepted or rejected by itself.
-/
namespace WorkflowPlatform

def TRUST_TIERS : List String := ["unverified", "conformance-passed", "production-proven"]

def validateTrustTier (tier : Json) : List String :=
  complain (!Json.isOneOf TRUST_TIERS (some tier))
    s!"trust tier must be one of {choices TRUST_TIERS} (got {tier.stringify})"

def trustTierOf : Json → Option TrustTier
  | .str "unverified" => some .unverified
  | .str "conformance-passed" => some .conformancePassed
  | .str "production-proven" => some .productionProven
  | _ => none

/-! ### What a payload comes to -/

/-- The columns of an image that a registration sets. -/
structure ImageColumns where
  ociRef : String
  openapiSpec : Json
  hardwareRequirements : Json

/-- Everything that a registration stores under its digest. -/
structure Registration extends ImageColumns where
  functions : List (String × FunctionCapabilityInput)

def imageColumns (digest ociRef openapiSpec : Option Json) (hardwareRequirements : Json) :
    Except Failure (String × ImageColumns) := do
  let digest ← columnText digest
  let ociRef ← columnText ociRef
  let openapiSpec ← columnJson openapiSpec
  let hardwareRequirements ← columnJson (some hardwareRequirements)
  .ok (digest, { ociRef, openapiSpec, hardwareRequirements })

def functionRow (entry : String × Json) : Except Failure (String × FunctionCapabilityInput) := do
  let functionName ← columnText (some (.str entry.1))
  let row ← capabilityRow entry.2
  .ok (functionName, row)

/-- A function's row after the others, if none of them has its name. -/
def addFunction (rows : List (String × FunctionCapabilityInput)) (entry : String × Json) :
    Except Failure (List (String × FunctionCapabilityInput)) := do
  let f ← functionRow entry
  if f.1 ∈ rows.map Prod.fst then .error .database else .ok (rows ++ [f])

def RegisterImageInput.validate (input : RegisterImageInput) : Messages :=
  validateRegistration {
    digest := input.digest
    ociRef := input.ociRef
    openapiSpec := input.openapiSpec
    capabilityMetadata := some (orEmptyObject input.capabilityMetadata)
    hardwareRequirements := some (orEmptyObject input.hardwareRequirements) }

def RegisterImageInput.invalid (input : RegisterImageInput) (errors : List String) : Failure :=
  .fatal .REGISTRY_VALIDATION_FAILED
    [("digest", .value (.ofOption input.digest)),
     ("errors", .value (.json (.arr (errors.map .str))))]

/-- The digest of a payload and what is stored under it, or why it is rejected. -/
def registrationOf (input : RegisterImageInput) : Except Failure (String × Registration) := do
  let errors ← input.validate
  if errors.isEmpty then do
    let (digest, columns) ← imageColumns input.digest input.ociRef input.openapiSpec
      (orEmptyObject input.hardwareRequirements)
    let functions ← (capabilitiesOf (orEmptyObject input.capabilityMetadata)).foldlM addFunction []
    .ok (digest, { columns with functions })
  else .error (input.invalid errors)

namespace RegistryDb

/-- The image as the upsert leaves it. -/
def upsertedImage (db : RegistryDb) (digest : String) (columns : ImageColumns) : ServiceImage where
  ociRef := columns.ociRef
  openapiSpec := columns.openapiSpec
  hardwareRequirements := columns.hardwareRequirements
  trustTier := match db.serviceImages digest with
    | some image => image.trustTier
    | none => .unverified

/-- The rows after a registration. -/
def register (db : RegistryDb) (digest : String) (r : Registration) : RegistryDb where
  serviceImages := Function.update db.serviceImages digest
    (some (db.upsertedImage digest r.toImageColumns))
  functionCapabilities := Function.update db.functionCapabilities digest r.functions

/-- `SQL_UPDATE_SERVICE_IMAGE_TRUST_TIER` -/
def setTrustTier (db : RegistryDb) (digest : String) (tier : TrustTier) : RegistryDb :=
  { db with
    serviceImages := Function.update db.serviceImages digest
      ((db.serviceImages digest).map fun image => { image with trustTier := tier }) }

variable {db : RegistryDb} {digest : String}

@[simp] theorem register_image (db : RegistryDb) (digest : String) (r : Registration) :
    (db.register digest r).serviceImages digest =
      some (db.upsertedImage digest r.toImageColumns) := Function.update_self ..

@[simp] theorem register_functions (db : RegistryDb) (digest : String) (r : Registration) :
    (db.register digest r).functionCapabilities digest = r.functions := Function.update_self ..

@[simp] theorem setTrustTier_image (db : RegistryDb) (digest : String) (tier : TrustTier) :
    (db.setTrustTier digest tier).serviceImages digest =
      (db.serviceImages digest).map fun image => { image with trustTier := tier } :=
  Function.update_self ..

theorem upsertImage_eq (db : RegistryDb) (digest : String) (columns : ImageColumns) :
    db.upsertImage digest columns.ociRef columns.openapiSpec columns.hardwareRequirements = { db with
      serviceImages := Function.update db.serviceImages digest
        (some (db.upsertedImage digest columns)) } := rfl

theorem insertCapability_eq (himage : (db.serviceImages digest).isSome) (entry : String × Json) :
    db.insertCapability digest entry =
      (addFunction (db.functionCapabilities digest) entry).map fun rows => { db with
        functionCapabilities := Function.update db.functionCapabilities digest rows } := by
  simp only [insertCapability, addFunction, functionRow, insertFunction]
  cases columnText (some (.str entry.1)) with
  | error e => rfl
  | ok functionName =>
      cases capabilityRow entry.2 with
      | error e => rfl
      | ok row =>
          have hnone : (db.serviceImages digest).isNone = false := by
            simpa [← Option.not_isSome] using himage
          change (if _ then _ else _) = Except.map _ (if _ then _ else _)
          rw [hnone, Bool.false_or]
          by_cases hname : functionName ∈ (db.functionCapabilities digest).map Prod.fst
          · rw [if_pos (decide_eq_true hname), if_pos hname]
            rfl
          · rw [if_neg (by simpa using hname), if_neg hname]
            rfl

theorem insertCapabilities_eq (entries : List (String × Json))
    (himage : (db.serviceImages digest).isSome) :
    entries.foldlM (insertCapability digest) db =
      (entries.foldlM addFunction (db.functionCapabilities digest)).map fun rows => { db with
        functionCapabilities := Function.update db.functionCapabilities digest rows } := by
  induction entries generalizing db with
  | nil => simp [pure, Except.pure, Except.map]
  | cons entry rest ih =>
      rw [List.foldlM_cons, List.foldlM_cons, insertCapability_eq himage]
      cases addFunction (db.functionCapabilities digest) entry with
      | error e => rfl
      | ok rows =>
          refine (@ih { db with
            functionCapabilities := Function.update db.functionCapabilities digest rows }
            himage).trans ?_
          simp only [Function.update_self, Function.update_idem]
          rfl

end RegistryDb

/-- A registration is accepted for its payload alone, and stores it whole. -/
theorem registerImage_eq (input : RegisterImageInput) (db : RegistryDb) :
    registerImage input db = (registrationOf input).map fun (digest, r) =>
      (⟨digest, (db.upsertedImage digest r.toImageColumns).trustTier⟩, db.register digest r) := by
  simp only [registerImage, registrationOf, imageColumns, RegisterImageInput.validate]
  cases validateRegistration _ with
  | error e => rfl
  | ok errors =>
      simp only [bind, Except.bind]
      split_ifs
      · cases columnText input.digest with
        | error e => rfl
        | ok digest =>
            cases columnText input.ociRef with
            | error e => rfl
            | ok ociRef =>
                cases columnJson input.openapiSpec with
                | error e => rfl
                | ok openapiSpec =>
                    cases columnJson (some (orEmptyObject input.hardwareRequirements)) with
                    | error e => rfl
                    | ok hardware =>
                        have hupsert := db.upsertImage_eq digest ⟨ociRef, openapiSpec, hardware⟩
                        have himage : (RegistryDb.deleteFunctions digest (db.upsertImage digest
                            ociRef openapiSpec hardware)).serviceImages digest = some
                            (db.upsertedImage digest ⟨ociRef, openapiSpec, hardware⟩) :=
                          Function.update_self ..
                        have hnone : (RegistryDb.deleteFunctions digest (db.upsertImage digest
                            ociRef openapiSpec hardware)).functionCapabilities digest = [] :=
                          Function.update_self ..
                        dsimp only at hupsert ⊢
                        rw [RegistryDb.replaceForDigest, RegistryDb.insertCapabilities_eq _ (by
                          rw [himage]
                          rfl), hnone]
                        cases List.foldlM addFunction [] _ with
                        | error e => rfl
                        | ok rows =>
                            simp only [Except.map, hupsert, RegistryDb.register,
                              RegistryDb.deleteFunctions, Function.update_self,
                              Function.update_idem]
      · rfl

/-! ### Rows, writes and statements -/

inductive RegistryRow where
  | serviceImage (digest : String)
  | functionCapability (digest functionName : String)
deriving DecidableEq

inductive RegistryWrite where
  | putImage (digest : String) (image : ServiceImage)
  | deleteFunction (digest functionName : String)
  | insertFunction (digest functionName : String) (row : FunctionCapabilityInput)

namespace RegistryWrite

def digest : RegistryWrite → String
  | putImage digest _ => digest
  | deleteFunction digest _ => digest
  | insertFunction digest _ _ => digest

def row : RegistryWrite → RegistryRow
  | putImage digest _ => .serviceImage digest
  | deleteFunction digest functionName => .functionCapability digest functionName
  | insertFunction digest functionName _ => .functionCapability digest functionName

def apply (db : RegistryDb) : RegistryWrite → RegistryDb
  | putImage digest image =>
      { db with serviceImages := Function.update db.serviceImages digest (some image) }
  | deleteFunction digest functionName => { db with
      functionCapabilities := Function.update db.functionCapabilities digest
        ((db.functionCapabilities digest).filter (·.1 ≠ functionName)) }
  | insertFunction digest functionName row => { db with
      functionCapabilities := Function.update db.functionCapabilities digest
        (db.functionCapabilities digest ++ [(functionName, row)]) }

end RegistryWrite

inductive RegistryOp where
  | upsertServiceImage (digest ociRef openapiSpec : Option Json) (hardwareRequirements : Json)
  | updateTrustTier (digest : String) (tier : TrustTier)
  | deleteFunctionCapabilities (digest : Option Json)
  | insertFunctionCapability (digest : Option Json) (functionName : String) (cap : Json)

abbrev RegistryOp.Resp : RegistryOp → Type
  | upsertServiceImage .. => Option (String × ServiceImage)
  | updateTrustTier .. => Option (String × ServiceImage)
  | deleteFunctionCapabilities _ => Unit
  | insertFunctionCapability .. => Option (String × FunctionCapabilityInput)

namespace RegistryDb

/-- The rows a statement waits for. An update only meets rows that it can see; an
insertion also waits for one of the same key that is not committed. -/
def needs (db : RegistryDb) : RegistryOp → List RegistryRow
  | .upsertServiceImage digest .. => match columnText digest with
      | .ok d => [.serviceImage d]
      | .error _ => []
  | .updateTrustTier digest _ =>
      if (db.serviceImages digest).isSome then [.serviceImage digest] else []
  | .deleteFunctionCapabilities digest => match columnText digest with
      | .ok d => (db.functionCapabilities d).map fun f => .functionCapability d f.1
      | .error _ => []
  | .insertFunctionCapability digest functionName _ => match columnText digest with
      | .ok d => [.functionCapability d functionName]
      | .error _ => []

def respond (db : RegistryDb) : (op : RegistryOp) → Option (op.Resp × List RegistryWrite)
  | .upsertServiceImage digest ociRef openapiSpec hardwareRequirements =>
      match imageColumns digest ociRef openapiSpec hardwareRequirements with
      | .ok (d, columns) =>
          some (some (d, db.upsertedImage d columns), [.putImage d (db.upsertedImage d columns)])
      | .error _ => none
  | .updateTrustTier digest tier => match columnText (some (.str digest)) with
      | .ok d => match db.serviceImages d with
          | some image =>
              some (some (d, { image with trustTier := tier }),
                [.putImage d { image with trustTier := tier }])
          | none => some (none, [])
      | .error _ => none
  | .deleteFunctionCapabilities digest => match columnText digest with
      | .ok d => some ((), (db.functionCapabilities d).map fun f => .deleteFunction d f.1)
      | .error _ => none
  | .insertFunctionCapability digest functionName cap =>
      match columnText digest, functionRow (functionName, cap) with
      | .ok d, .ok f =>
          if (db.serviceImages d).isNone || f.1 ∈ (db.functionCapabilities d).map Prod.fst then none
          else some (some f, [.insertFunction d f.1 f.2])
      | _, _ => none

end RegistryDb

def registryStore : Store RegistryDb RegistryOp RegistryWrite RegistryRow Unit Failure
    RegistryOp.Resp where
  write := RegistryWrite.apply
  row := RegistryWrite.row
  external _ := false
  needs := RegistryDb.needs
  refused := .database
  respond _ db _ op := db.respond op

abbrev RegistryTx (α : Type) := Script RegistryOp RegistryOp.Resp Failure α

/-- One statement. -/
@[reducible] def registryQuery (op : RegistryOp) : RegistryTx op.Resp := Script.perform op

/-! ### The repositories and the two ways to write -/

namespace ServiceImagesRepo

def upsert (digest ociRef openapiSpec : Option Json) (hardwareRequirements : Json) :
    RegistryTx (String × ServiceImage) := do
  match ← registryQuery (.upsertServiceImage digest ociRef openapiSpec hardwareRequirements) with
  | some row => pure row
  | none => Script.throw (.fatal .REGISTRY_SERVICE_IMAGE_UPSERT_NO_ROW_RETURNED
      [("digest", .value (.ofOption digest))])

def updateTrustTier (digest : String) (tier : TrustTier) :
    RegistryTx (Option (String × ServiceImage)) := registryQuery (.updateTrustTier digest tier)

end ServiceImagesRepo

namespace FunctionCapabilitiesRepo

def insertEach (digest : Option Json) :
    List (String × Json) → RegistryTx (List (String × FunctionCapabilityInput))
  | [] => pure []
  | (functionName, cap) :: rest => do
      let row ← registryQuery (.insertFunctionCapability digest functionName cap)
      let inserted ← insertEach digest rest
      pure (row.toList ++ inserted)

def replaceForDigest (digest : Option Json) (capabilityMetadata : List (String × Json)) :
    RegistryTx (List (String × FunctionCapabilityInput)) := do
  registryQuery (.deleteFunctionCapabilities digest)
  insertEach digest capabilityMetadata

end FunctionCapabilitiesRepo

inductive RegistryCall where
  | registerImage (input : RegisterImageInput)
  | recordTrustTier (digest : String) (tier : Json)

namespace RegistryCall

def register (input : RegisterImageInput) : RegistryTx RegisteredImage := do
  let errors ← Script.lift input.validate
  if errors.isEmpty then do
    let image ← ServiceImagesRepo.upsert input.digest input.ociRef input.openapiSpec
      (orEmptyObject input.hardwareRequirements)
    let _ ← FunctionCapabilitiesRepo.replaceForDigest input.digest
      (capabilitiesOf (orEmptyObject input.capabilityMetadata))
    pure ⟨image.1, image.2.trustTier⟩
  else Script.throw (input.invalid errors)

def recordTier (digest : String) (tier : Json) : RegistryTx RegisteredImage :=
  match trustTierOf tier with
  | none => Script.throw (.fatal .REGISTRY_TRUST_TIER_INVALID
      [("digest", ErrorContext.ofString digest), ("tier", .value (.json tier)),
       ("errors", .value (.json (.arr ((validateTrustTier tier).map .str))))])
  | some tier => do
      match ← ServiceImagesRepo.updateTrustTier digest tier with
      | some image => pure ⟨image.1, image.2.trustTier⟩
      | none => Script.throw (.fatal .REGISTRY_TRUST_TIER_UNKNOWN_DIGEST
          [("digest", ErrorContext.ofString digest)])

/-- The transaction of a call. Its result is the call. -/
def script : RegistryCall → RegistryTx RegistryCall
  | registerImage input => do
      let _ ← register input
      pure (registerImage input)
  | recordTrustTier digest tier => do
      let _ ← recordTier digest tier
      pure (recordTrustTier digest tier)

/-- What a call registers, if its payload is accepted. -/
def registration : RegistryCall → Option (String × Registration)
  | registerImage input => (registrationOf input).toOption
  | recordTrustTier .. => none

/-- The tier that a call sets, if it is one. -/
def tier : RegistryCall → Option (String × TrustTier)
  | registerImage _ => none
  | recordTrustTier digest tier => (trustTierOf tier).map (digest, ·)

/-- The digest that a call is for. -/
def digest : RegistryCall → Option String
  | registerImage input => (registrationOf input).toOption.map Prod.fst
  | recordTrustTier digest _ => some digest

/-- The payload is valid; or the tier is, and an image has the digest. -/
def Accepted (call : RegistryCall) (db : RegistryDb) : Prop :=
  (∃ p, call.registration = some p) ∨
    ∃ d tier, call.tier = some (d, tier) ∧ (db.serviceImages d).isSome

/-- The rows after a call that nobody interferes with. -/
def effect (call : RegistryCall) (db : RegistryDb) : RegistryDb :=
  match call with
  | registerImage input => db.after input
  | recordTrustTier digest tier => match trustTierOf tier with
      | some tier => db.setTrustTier digest tier
      | none => db

theorem effect_registerImage {input : RegisterImageInput} {d : String} {r : Registration}
    (h : registrationOf input = .ok (d, r)) (db : RegistryDb) :
    (registerImage input).effect db = db.register d r := by
  rw [effect, RegistryDb.after, registerImage_eq, h]
  rfl

end RegistryCall

end WorkflowPlatform
