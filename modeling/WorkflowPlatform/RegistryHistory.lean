import WorkflowPlatform.CommitLog
import WorkflowPlatform.RegistryStore

/-!
# The history of the registry

Registrations and changes of trust tiers at once, any number of them, for any
digests. Each holds the row of the image of its digest from its first write to
the end, and writes rows of that digest only, so the calls for a digest take
effect one after the other, in the order of their commits. What is stored under
a digest is the last registration that has committed, with the last tier that
was set.
-/
namespace WorkflowPlatform

/-- The two states have the same rows of a digest. -/
structure SameEntry (d : String) (db db' : RegistryDb) : Prop where
  image : db'.serviceImages d = db.serviceImages d
  functions : db'.functionCapabilities d = db.functionCapabilities d

/-- Nobody else changes the rows of a digest whose image the transaction holds. -/
def registryProtocol : Protocol registryStore where
  inv _ := True
  rely ws db db' := ∀ d, registryStore.locks ws (.serviceImage d) = true → SameEntry d db db'
  env _ _ := True
  pre _ _ _ := True
  rely_refl _ _ _ _ := ⟨rfl, rfl⟩
  rely_trans _ _ _ _ h h' d hd :=
    ⟨(h' d hd).image.trans (h d hd).image, (h' d hd).functions.trans (h d hd).functions⟩

/-- The transaction of an accepted call: its writes are about the digest of the call,
it holds the row of the image, and the rows that it sees are those after the call. -/
structure Applied (call : RegistryCall) (ws : List RegistryWrite) (db : RegistryDb) : Prop where
  accepted : call.Accepted db
  own : ∀ w ∈ ws, call.digest = some w.digest
  lock : ∀ d, call.digest = some d → registryStore.locks ws (.serviceImage d) = true
  effect : registryStore.view db ws = call.effect db

def RegistryPost (ab : Bool) (r : Except Failure RegistryCall) (ws : List RegistryWrite)
    (db : RegistryDb) : Prop :=
  ab = false → ∀ call, r = .ok call → Applied call ws db

/-- A registration in progress: the image is there, and these functions. -/
structure Storing (d : String) (columns : ImageColumns)
    (functions : List (String × FunctionCapabilityInput)) (ws : List RegistryWrite)
    (db : RegistryDb) : Prop where
  own : ∀ w ∈ ws, w.digest = d
  lock : registryStore.locks ws (.serviceImage d) = true
  image : (registryStore.view db ws).serviceImages d = some (db.upsertedImage d columns)
  functions : (registryStore.view db ws).functionCapabilities d = functions

section
variable {n : ℕ} {ws ws' : List RegistryWrite} {db db' : RegistryDb} {d : String}
variable {columns : ImageColumns} {rows : List (String × FunctionCapabilityInput)}

theorem registryWrite_other {w : RegistryWrite} (hw : w.digest ≠ d) :
    SameEntry d db (w.apply db) := by
  cases w with
  | putImage k image => exact ⟨Function.update_of_ne (Ne.symm hw) _ _, rfl⟩
  | deleteFunction k name => exact ⟨rfl, Function.update_of_ne (Ne.symm hw) _ _⟩
  | insertFunction k name row => exact ⟨rfl, Function.update_of_ne (Ne.symm hw) _ _⟩

theorem register_other (db : RegistryDb) {k : String} (hk : k ≠ d) (r : Registration) :
    SameEntry k db (db.register d r) :=
  ⟨Function.update_of_ne hk _ _, Function.update_of_ne hk _ _⟩

theorem setTrustTier_other (db : RegistryDb) {k : String} (hk : k ≠ d) (tier : TrustTier) :
    SameEntry k db (db.setTrustTier d tier) := ⟨Function.update_of_ne hk _ _, rfl⟩

theorem registryView_other (hws : ∀ w ∈ ws, w.digest ≠ d) :
    SameEntry d db (registryStore.view db ws) := by
  induction ws generalizing db with
  | nil => exact ⟨rfl, rfl⟩
  | cons w rest ih =>
      have hrest := @ih (w.apply db) fun v hv => hws v (List.mem_cons_of_mem _ hv)
      have hw : SameEntry d db (w.apply db) := registryWrite_other (hws w List.mem_cons_self)
      exact ⟨hrest.image.trans hw.image, hrest.functions.trans hw.functions⟩

/-- What a write does to the rows of a digest is read off those rows. -/
theorem registryWrite_congr (w : RegistryWrite) (h : SameEntry d db db') :
    SameEntry d (w.apply db) (w.apply db') := by
  by_cases hw : w.digest = d
  · subst hw
    cases w with
    | putImage k image =>
        constructor
        · simp [RegistryWrite.apply, RegistryWrite.digest]
        · exact h.functions
    | deleteFunction k name =>
        have hf : db'.functionCapabilities k = db.functionCapabilities k := h.functions
        constructor
        · exact h.image
        · simp [RegistryWrite.apply, RegistryWrite.digest, hf]
    | insertFunction k name row =>
        have hf : db'.functionCapabilities k = db.functionCapabilities k := h.functions
        constructor
        · exact h.image
        · simp [RegistryWrite.apply, RegistryWrite.digest, hf]
  · have hold : SameEntry d db (w.apply db) := registryWrite_other hw
    have hnew : SameEntry d db' (w.apply db') := registryWrite_other hw
    exact ⟨hnew.image.trans (h.image.trans hold.image.symm),
      hnew.functions.trans (h.functions.trans hold.functions.symm)⟩

theorem registryView_congr (ws : List RegistryWrite) (h : SameEntry d db db') :
    SameEntry d (registryStore.view db ws) (registryStore.view db' ws) := by
  induction ws generalizing db db' with
  | nil => exact h
  | cons w rest ih => exact ih (registryWrite_congr w h)

theorem SameEntry.upsertedImage (h : SameEntry d db db') (columns : ImageColumns) :
    db'.upsertedImage d columns = db.upsertedImage d columns := by
  simp only [RegistryDb.upsertedImage, h.image]

theorem functionRow_name {entry : String × Json} {f : String × FunctionCapabilityInput}
    (h : functionRow entry = .ok f) : f.1 = entry.1 := by
  simp only [functionRow, bind_eq_ok] at h
  obtain ⟨functionName, hname, row, -, hf⟩ := h
  cases hf
  simp only [columnText] at hname
  split_ifs at hname
  cases hname
  rfl

theorem registryStore_lawful : registryStore.Lawful where
  respond_rows c db locked op r ws hr w hw := by
    left
    have hresp : db.respond op = some (r, ws) := hr
    change w.row ∈ db.needs op
    cases op with
    | upsertServiceImage digest ociRef openapiSpec hardware =>
        simp only [RegistryDb.respond, imageColumns] at hresp
        split at hresp
        · next d columns hcolumns =>
            simp only [bind_eq_ok] at hcolumns
            obtain ⟨d', hd, _, -, _, -, _, -, hpair⟩ := hcolumns
            cases hpair
            cases hresp
            rw [List.mem_singleton.mp hw, RegistryDb.needs, hd]
            exact List.mem_singleton_self _
        · cases hresp
    | updateTrustTier digest tier =>
        simp only [RegistryDb.respond, columnText] at hresp
        split_ifs at hresp
        dsimp only at hresp
        split at hresp
        · next image himage =>
            cases hresp
            rw [List.mem_singleton.mp hw, RegistryDb.needs, himage]
            exact List.mem_singleton_self _
        · cases hresp
          cases hw
    | deleteFunctionCapabilities digest =>
        simp only [RegistryDb.respond] at hresp
        split at hresp
        · next d hd =>
            cases hresp
            obtain ⟨f, hf, rfl⟩ := List.mem_map.mp hw
            rw [RegistryDb.needs, hd]
            exact List.mem_map.mpr ⟨f, hf, rfl⟩
        · cases hresp
    | insertFunctionCapability digest functionName cap =>
        simp only [RegistryDb.respond] at hresp
        split at hresp
        · next d f hd hf =>
            split_ifs at hresp
            cases hresp
            rw [List.mem_singleton.mp hw, RegistryDb.needs, hd]
            have hname : f.1 = functionName := functionRow_name hf
            rw [RegistryWrite.row, hname]
            exact List.mem_singleton_self _
        · cases hresp
  external_silent c db locked op r ws hop hr := by cases hop

theorem Storing.of_rely (h : Storing d columns rows ws db)
    (hr : registryProtocol.rely ws db db') : Storing d columns rows ws db' := by
  have hsame : SameEntry d db db' := hr d h.lock
  have hview := registryView_congr ws hsame
  refine ⟨h.own, h.lock, ?_, ?_⟩
  · rw [hview.image, h.image, hsame.upsertedImage]
  · rw [hview.functions, h.functions]

/-- A statement on the functions of the digest. -/
theorem Storing.append {rows' : List (String × FunctionCapabilityInput)}
    (h : Storing d columns rows ws db) (hown : ∀ w ∈ ws', w.digest = d)
    (himage : (registryStore.view (registryStore.view db ws) ws').serviceImages =
      (registryStore.view db ws).serviceImages)
    (hfunctions : (registryStore.view (registryStore.view db ws) ws').functionCapabilities d =
      rows') : Storing d columns rows' (ws ++ ws') db := by
  refine ⟨?_, ?_, ?_, ?_⟩
  · intro w hw
    rcases List.mem_append.mp hw with hw | hw
    · exact h.own w hw
    · exact hown w hw
  · rw [Store.locks_append, h.lock, Bool.true_or]
  · rw [Store.view_append, himage, h.image]
  · rw [Store.view_append, hfunctions]

/-- A statement whose refusal ends the transaction. -/
theorem registryQuery_ensures {op : RegistryOp} {f : op.Resp → RegistryTx RegistryCall}
    (hnext : ∀ a r ws', registryProtocol.rely ws db a →
      (registryStore.view a ws).respond op = some (r, ws') →
      registryProtocol.Ensures RegistryPost false (f r) (ws ++ ws') a) :
    registryProtocol.Ensures RegistryPost false (registryQuery op >>= f) ws db := by
  apply Protocol.ensures_query
  · intro a _ hab
    cases hab
  · intro a _ hr
    exact ⟨trivial, fun c locked r ws' _ hresp => hnext a r ws' hr hresp⟩

theorem registry_ensures_error (ab : Bool) (e : Failure) (ws : List RegistryWrite)
    (db : RegistryDb) : registryProtocol.Ensures RegistryPost ab (.done (.error e)) ws db :=
  Protocol.ensures_done _ fun _ _ _ _ _ hresult => by cases hresult

/-- The deletions of some functions, one after the other. -/
theorem view_deleteFunctions (db : RegistryDb) (d : String) (names : List String) :
    (registryStore.view db (names.map (RegistryWrite.deleteFunction d))).serviceImages =
        db.serviceImages ∧
      (registryStore.view db (names.map (RegistryWrite.deleteFunction d))).functionCapabilities d =
        (db.functionCapabilities d).filter (·.1 ∉ names) := by
  induction names generalizing db with
  | nil => simp
  | cons name rest ih =>
      obtain ⟨himages, hfunctions⟩ := ih ((RegistryWrite.deleteFunction d name).apply db)
      refine ⟨himages, hfunctions.trans ?_⟩
      simp only [RegistryWrite.apply, Function.update_self, List.filter_filter]
      apply List.filter_congr
      intro f _
      simp [Bool.and_comm]

theorem view_deleteAll (db : RegistryDb) (d : String) :
    (registryStore.view db ((db.functionCapabilities d).map fun f =>
      RegistryWrite.deleteFunction d f.1)).functionCapabilities d = [] := by
  have h := (view_deleteFunctions db d ((db.functionCapabilities d).map Prod.fst)).2
  rw [List.map_map] at h
  refine h.trans (List.filter_eq_nil_iff.mpr ?_)
  intro f hf
  simpa using ⟨f.2, hf⟩

theorem Storing.cleared (h : Storing d columns rows ws db) :
    Storing d columns [] (ws ++ ((registryStore.view db ws).functionCapabilities d).map fun f =>
      RegistryWrite.deleteFunction d f.1) db := by
  apply h.append
  · intro w hw
    obtain ⟨f, -, rfl⟩ := List.mem_map.mp hw
    rfl
  · have hview := (view_deleteFunctions (registryStore.view db ws) d
      (((registryStore.view db ws).functionCapabilities d).map Prod.fst)).1
    rw [List.map_map] at hview
    exact hview
  · exact view_deleteAll _ d

/-- The functions of a payload, inserted one after the other. -/
theorem Storing.insertEach_ensures {digest : Option Json} (hdigest : columnText digest = .ok d)
    {entries : List (String × Json)}
    {f : List (String × FunctionCapabilityInput) → RegistryTx RegistryCall}
    (h : Storing d columns rows ws db)
    (hnext : ∀ a rows' ws' inserted, entries.foldlM addFunction rows = .ok rows' →
      Storing d columns rows' ws' a →
      registryProtocol.Ensures RegistryPost false (f inserted) ws' a) :
    registryProtocol.Ensures RegistryPost false
      (FunctionCapabilitiesRepo.insertEach digest entries >>= f) ws db := by
  induction entries generalizing rows ws db f with
  | nil => exact hnext db rows ws [] rfl h
  | cons entry rest ih =>
      obtain ⟨functionName, cap⟩ := entry
      rw [FunctionCapabilitiesRepo.insertEach, Script.bind_assoc]
      apply registryQuery_ensures
      intro a r ws' hr hresp
      have hst := h.of_rely hr
      simp only [RegistryDb.respond, hdigest] at hresp
      split at hresp
      · next d' row hd hrow =>
          cases hd
          split_ifs at hresp with hfresh
          cases hresp
          have hnew : row.1 ∉ rows.map Prod.fst := by
            rw [← hst.functions]
            intro hmem
            exact hfresh (by simp [hmem])
          have hadd : addFunction rows (functionName, cap) = .ok (rows ++ [row]) := by
            rw [addFunction, hrow]
            exact if_neg hnew
          have hnextStoring : Storing d columns (rows ++ [row])
              (ws ++ [.insertFunction d row.1 row.2]) a := by
            apply hst.append
            · simp [RegistryWrite.digest]
            · rfl
            · rw [← hst.functions]
              exact Function.update_self ..
          rw [Script.bind_assoc]
          apply ih hnextStoring
          intro a' rows' ws' inserted hfold hst'
          apply hnext a' rows' ws' _ _ hst'
          rw [List.foldlM_cons, hadd]
          exact hfold
      · cases hresp

/-! ### What one transaction commits -/

theorem RegistryDb.eq_of_entries (h : ∀ d, SameEntry d db db') : db' = db := by
  have himages : db'.serviceImages = db.serviceImages := funext fun d => (h d).image
  have hfunctions : db'.functionCapabilities = db.functionCapabilities :=
    funext fun d => (h d).functions
  cases db
  cases db'
  simp_all

theorem Storing.applied {input : RegisterImageInput} {r : Registration}
    (hinput : registrationOf input = .ok (d, r))
    (h : Storing d r.toImageColumns r.functions ws db) : Applied (.registerImage input) ws db := by
  have hdigest : (RegistryCall.registerImage input).digest = some d := by
    rw [RegistryCall.digest, hinput]
    rfl
  refine ⟨.inl ⟨(d, r), ?_⟩, ?_, ?_, ?_⟩
  · rw [RegistryCall.registration, hinput]
    rfl
  · intro w hw
    rw [hdigest, h.own w hw]
  · intro k hk
    rw [hdigest] at hk
    cases hk
    exact h.lock
  · rw [RegistryCall.effect_registerImage hinput]
    apply RegistryDb.eq_of_entries
    intro k
    by_cases hk : k = d
    · subst hk
      exact ⟨by rw [h.image, RegistryDb.register_image],
        by rw [h.functions, RegistryDb.register_functions]⟩
    · have hview : SameEntry k db (registryStore.view db ws) :=
        registryView_other fun w hw heq => hk (heq.symm.trans (h.own w hw))
      have hother := register_other db hk r
      exact ⟨hview.image.trans hother.image.symm, hview.functions.trans hother.functions.symm⟩

/-- A registration, whoever works around it. -/
theorem registerImage_ensures (input : RegisterImageInput) (db : RegistryDb) :
    registryProtocol.Ensures RegistryPost false (RegistryCall.registerImage input).script [] db := by
  simp only [RegistryCall.script, RegistryCall.register]
  cases hvalid : input.validate with
  | error e => exact registry_ensures_error _ _ _ _
  | ok errors =>
      simp only [Script.lift_ok, Script.done_ok_bind]
      split_ifs with hempty
      · simp only [ServiceImagesRepo.upsert, Script.bind_assoc]
        apply registryQuery_ensures
        intro a r ws₀ _ hresp
        simp only [RegistryDb.respond] at hresp
        split at hresp
        · next d columns hcolumns =>
            cases hresp
            have hdigest : columnText input.digest = .ok d := by
              simp only [imageColumns, bind_eq_ok] at hcolumns
              obtain ⟨d', hd, _, -, _, -, _, -, hpair⟩ := hcolumns
              cases hpair
              exact hd
            have hst : Storing d columns (a.functionCapabilities d)
                [.putImage d (a.upsertedImage d columns)] a := by
              refine ⟨?_, ?_, Function.update_self .., rfl⟩
              · simp [RegistryWrite.digest]
              · simp [Store.locks, registryStore, RegistryWrite.row]
            simp only [Script.pure_eq, Script.done_ok_bind,
              FunctionCapabilitiesRepo.replaceForDigest, Script.bind_assoc]
            apply registryQuery_ensures
            intro a₁ r₁ ws₁ hr₁ hresp₁
            have hst₁ := hst.of_rely hr₁
            simp only [RegistryDb.respond, hdigest] at hresp₁
            cases hresp₁
            apply hst₁.cleared.insertEach_ensures hdigest
            intro a₂ rows ws₂ inserted hfold hst₂
            refine Protocol.ensures_done _ fun a₃ _ hr₃ _ call hcall => ?_
            cases hcall
            apply (hst₂.of_rely hr₃).applied (r := { columns with functions := rows })
            rw [registrationOf, hvalid]
            simp only [bind, Except.bind, hempty, if_true, hcolumns, hfold]
        · cases hresp
      · exact registry_ensures_error _ _ _ _

theorem recordTrustTier_ensures (digest : String) (tier : Json) (db : RegistryDb) :
    registryProtocol.Ensures RegistryPost false (RegistryCall.recordTrustTier digest tier).script
      [] db := by
  simp only [RegistryCall.script, RegistryCall.recordTier]
  cases htier : trustTierOf tier with
  | none => exact registry_ensures_error _ _ _ _
  | some tier' =>
      simp only [ServiceImagesRepo.updateTrustTier, Script.bind_assoc]
      apply registryQuery_ensures
      intro a r ws₀ _ hresp
      simp only [RegistryDb.respond, columnText] at hresp
      split_ifs at hresp
      dsimp only at hresp
      split at hresp
      · next image himage =>
          cases hresp
          refine Protocol.ensures_done _ fun a₁ _ hr₁ _ call hcall => ?_
          cases hcall
          have hlock : registryStore.locks
              [.putImage digest { image with trustTier := tier' }] (.serviceImage digest) = true := by
            simp [Store.locks, registryStore, RegistryWrite.row]
          have hrow : a₁.serviceImages digest = some image :=
            ((hr₁ digest hlock).image).trans himage
          refine ⟨.inr ⟨digest, tier', ?_, by rw [hrow]; rfl⟩, ?_, ?_, ?_⟩
          · rw [RegistryCall.tier, htier]
            rfl
          · simp [RegistryWrite.digest, RegistryCall.digest]
          · intro k hk
            cases hk
            exact hlock
          · simp only [RegistryCall.effect, htier, RegistryDb.setTrustTier, hrow]
            rfl
      · cases hresp
        exact registry_ensures_error _ _ _ _

theorem call_ensures (call : RegistryCall) (db : RegistryDb) :
    registryProtocol.Ensures RegistryPost false call.script [] db := by
  cases call with
  | registerImage input => exact registerImage_ensures input db
  | recordTrustTier digest tier => exact recordTrustTier_ensures digest tier db

/-- A committed call leaves the rows of every other digest alone. -/
theorem Applied.other {call : RegistryCall} (h : Applied call ws db)
    (hd : call.digest ≠ some d) : SameEntry d db (call.effect db) := by
  rw [← h.effect]
  exact registryView_other fun w hw heq => hd (by rw [h.own w hw, heq])

theorem registry_follows (calls : Fin n → RegistryCall) :
    registryProtocol.Follows RegistryPost fun t => (calls t).script where
  lawful := registryStore_lawful
  start t db _ := call_ensures (calls t) db
  commit := by
    intro call ws db _ hpost
    have happlied : Applied call ws db := hpost rfl call rfl
    refine ⟨trivial, fun ws' hdisjoint k hlock => ?_⟩
    rw [happlied.effect]
    apply happlied.other
    intro hk
    have hfree := hdisjoint _ (happlied.lock k hk)
    rw [hlock] at hfree
    cases hfree

end

/-! ### What a run has committed -/

/-- The committed registrations of a digest, in the order of their commits. -/
def registrationsOf (log : List RegistryCall) (d : String) : List Registration :=
  log.filterMap fun call => call.registration.bind fun (k, r) => if k = d then some r else none

/-- The tiers that have been set for a digest, in the order of their commits. -/
def tiersOf (log : List RegistryCall) (d : String) : List TrustTier :=
  log.filterMap fun call => call.tier.bind fun (k, tier) => if k = d then some tier else none

/-- The rows of a digest are what the committed calls make of them. No tier is set
before a registration. -/
structure RecordedAt (log : List RegistryCall) (db : RegistryDb) (d : String) : Prop where
  image : db.serviceImages d = (registrationsOf log d).getLast?.map fun r =>
    { ociRef := r.ociRef
      openapiSpec := r.openapiSpec
      hardwareRequirements := r.hardwareRequirements
      trustTier := (tiersOf log d).getLast?.getD .unverified }
  functions : db.functionCapabilities d =
    ((registrationsOf log d).getLast?.map (·.functions)).getD []
  untouched : registrationsOf log d = [] → tiersOf log d = []

section
variable {log : List RegistryCall} {call : RegistryCall} {db : RegistryDb} {d k : String}

theorem registration_eq_some {r : Registration} (h : call.registration = some (k, r)) :
    ∃ input, call = .registerImage input ∧ registrationOf input = .ok (k, r) := by
  cases call with
  | registerImage input =>
      refine ⟨input, rfl, ?_⟩
      simp only [RegistryCall.registration] at h
      cases hinput : registrationOf input with
      | error e =>
          rw [hinput] at h
          cases h
      | ok p =>
          rw [hinput] at h
          cases h
          rfl
  | recordTrustTier digest tier => cases h

theorem tier_eq_some {tier : TrustTier} (h : call.tier = some (k, tier)) :
    ∃ value, call = .recordTrustTier k value ∧ trustTierOf value = some tier := by
  cases call with
  | registerImage input => cases h
  | recordTrustTier digest value =>
      simp only [RegistryCall.tier, Option.map_eq_some_iff, Prod.mk.injEq] at h
      obtain ⟨tier', htier, rfl, rfl⟩ := h
      exact ⟨value, rfl, htier⟩

theorem registrationsOf_append : registrationsOf (log ++ [call]) d = registrationsOf log d ++
    (call.registration.bind fun (k, r) => if k = d then some r else none).toList := by
  rw [registrationsOf, registrationsOf, List.filterMap_append]
  cases h : call.registration.bind fun (k, r) => if k = d then some r else none <;> simp [h]

theorem tiersOf_append : tiersOf (log ++ [call]) d = tiersOf log d ++
    (call.tier.bind fun (k, tier) => if k = d then some tier else none).toList := by
  rw [tiersOf, tiersOf, List.filterMap_append]
  cases h : call.tier.bind fun (k, tier) => if k = d then some tier else none <;> simp [h]

theorem RecordedAt.registered (h : RecordedAt log db d) :
    (db.serviceImages d).isSome ↔ ∃ r, r ∈ registrationsOf log d := by
  rw [h.image, Option.isSome_map, List.getLast?_isSome]
  exact ⟨List.exists_mem_of_ne_nil _, fun ⟨r, hr⟩ => List.ne_nil_of_mem hr⟩

/-- A committed registration of `k` is the last one of `k`. -/
theorem RecordedAt.register (h : RecordedAt log db d) {r : Registration}
    (hreg : call.registration = some (k, r)) : RecordedAt (log ++ [call]) (call.effect db) d := by
  obtain ⟨input, rfl, hinput⟩ := registration_eq_some hreg
  have htiers : tiersOf (log ++ [.registerImage input]) d = tiersOf log d := by
    rw [tiersOf_append]
    exact List.append_nil _
  have hregs : registrationsOf (log ++ [.registerImage input]) d =
      registrationsOf log d ++ (if k = d then some r else none).toList := by
    rw [registrationsOf_append, hreg]
    rfl
  rw [RegistryCall.effect_registerImage hinput]
  by_cases hk : k = d
  · subst hk
    rw [if_pos rfl, Option.toList_some] at hregs
    have htier : (db.upsertedImage k r.toImageColumns).trustTier =
        (tiersOf log k).getLast?.getD .unverified := by
      simp only [RegistryDb.upsertedImage]
      rw [h.image]
      cases hlast : (registrationsOf log k).getLast? with
      | none =>
          have hnone := h.untouched (List.getLast?_eq_none_iff.mp hlast)
          rw [hnone]
          rfl
      | some r' => rfl
    constructor
    · rw [RegistryDb.register_image, hregs, htiers, List.getLast?_concat, ← htier]
      rfl
    · rw [RegistryDb.register_functions, hregs, List.getLast?_concat]
      rfl
    · intro hnil
      rw [hregs] at hnil
      simp at hnil
  · rw [if_neg hk, Option.toList_none, List.append_nil] at hregs
    have hother := register_other db (Ne.symm hk) r
    constructor
    · rw [hother.image, h.image, hregs, htiers]
    · rw [hother.functions, h.functions, hregs]
    · rw [hregs, htiers]
      exact h.untouched

/-- A committed tier is the last one of a digest that is there. -/
theorem RecordedAt.recordTier (h : RecordedAt log db d) {tier : TrustTier}
    (htier : call.tier = some (k, tier)) (hsome : (db.serviceImages k).isSome = true) :
    RecordedAt (log ++ [call]) (call.effect db) d := by
  obtain ⟨value, rfl, hvalue⟩ := tier_eq_some htier
  have hregs : registrationsOf (log ++ [.recordTrustTier k value]) d = registrationsOf log d := by
    rw [registrationsOf_append]
    exact List.append_nil _
  have htiers : tiersOf (log ++ [.recordTrustTier k value]) d =
      tiersOf log d ++ (if k = d then some tier else none).toList := by
    rw [tiersOf_append, htier]
    rfl
  have heffect : (RegistryCall.recordTrustTier k value).effect db = db.setTrustTier k tier := by
    rw [RegistryCall.effect, hvalue]
  rw [heffect]
  by_cases hk : k = d
  · subst hk
    rw [if_pos rfl, Option.toList_some] at htiers
    constructor
    · rw [RegistryDb.setTrustTier_image, h.image, hregs, htiers, List.getLast?_concat,
        Option.map_map]
      rfl
    · rw [hregs]
      exact h.functions
    · intro hnil
      rw [hregs] at hnil
      rw [h.image, hnil] at hsome
      cases hsome
  · rw [if_neg hk, Option.toList_none, List.append_nil] at htiers
    have hother := setTrustTier_other db (Ne.symm hk) tier
    constructor
    · rw [hother.image, h.image, hregs, htiers]
    · rw [hother.functions, h.functions, hregs]
    · rw [hregs, htiers]
      exact h.untouched

/-- One more committed call. -/
theorem RecordedAt.step (h : RecordedAt log db d) (haccepted : call.Accepted db) :
    RecordedAt (log ++ [call]) (call.effect db) d := by
  rcases haccepted with ⟨⟨k, r⟩, hreg⟩ | ⟨k, tier, htier, hsome⟩
  · exact h.register hreg
  · exact h.recordTier htier hsome

end

abbrev RegistrySystem (n : ℕ) :=
  System n RegistryOp RegistryOp.Resp Failure RegistryCall RegistryWrite RegistryDb

/-- A run of one worker for each call, from empty tables. A worker may make its call
any number of times. -/
abbrev RegistryRun {n : ℕ} (calls : Fin n → RegistryCall) :
    List RegistryCall → RegistrySystem n → Prop :=
  registryStore.LoggedRun (fun t => (calls t).script) (fun _ _ => True)
    (Store.idle RegistryDb.empty)

section
variable {n : ℕ} {calls : Fin n → RegistryCall} {log : List RegistryCall}
variable {st st' : RegistrySystem n}

theorem RegistryRun.recorded (hrun : RegistryRun calls log st) :
    (∀ d, RecordedAt log st.db d) ∧
      st.db = log.foldl (fun db call => call.effect db) .empty := by
  refine Protocol.log_induction (P := registryProtocol)
    (fun log db => (∀ d, RecordedAt log db d) ∧
      db = log.foldl (fun db call => call.effect db) .empty)
    (registry_follows calls) trivial ⟨fun d => ⟨rfl, rfl, fun _ => rfl⟩, rfl⟩ ?_ hrun
  intro log call ws db _ hpost ⟨hrecorded, hserial⟩
  have happlied : Applied call ws db := hpost rfl call rfl
  rw [happlied.effect]
  refine ⟨fun d => (hrecorded d).step happlied.accepted, ?_⟩
  rw [List.foldl_append, ← hserial]
  rfl

theorem RegistryRun.applied (hrun : RegistryRun calls log st) {t : Fin n} {call : RegistryCall}
    {ws : List RegistryWrite} (ht : st.txns t = some ⟨.done (.ok call), ws, false⟩) :
    Applied call ws st.db := by
  have hidle : registryProtocol.Sound RegistryPost (Store.idle .empty : RegistrySystem n) :=
    Protocol.sound_idle trivial
  have hsound := hidle.reaches (registry_follows calls) hrun.reaches
  exact hsound.ensures t _ ht st.db trivial (registryProtocol.rely_refl _ _) rfl call rfl

theorem call_returns (call : RegistryCall) : call.script.Returns (· = call) := by
  cases call with
  | registerImage input => exact Script.returns_bind fun _ => rfl
  | recordTrustTier digest tier => exact Script.returns_bind fun _ => rfl

/-- A step commits the call of its worker, which is accepted and leaves the rows of
every other digest alone; or it changes nothing. -/
theorem RegistryRun.step (hrun : RegistryRun calls log st) {l : Label n Unit}
    (hs : registryStore.step (fun t => (calls t).script) st l = some st') :
    (Store.committed st l = [] ∧ st'.db = st.db) ∨
      ∃ t, l = .finish t ∧ Store.committed st l = [calls t] ∧ (calls t).Accepted st.db ∧
        st'.db = (calls t).effect st.db ∧
        ∀ d, (calls t).digest ≠ some d → SameEntry d st.db st'.db := by
  cases l with
  | finish t =>
      simp only [Store.step] at hs
      split at hs
      · next call ws ab ht =>
          cases hs
          cases ab with
          | true => exact .inl ⟨by simp [Store.committed, ht], rfl⟩
          | false =>
              have hprogram := Store.inProgram_reaches hrun.reaches
              have hcall : call = calls t := hprogram.returns ht (call_returns (calls t))
              subst hcall
              have happlied := RegistryRun.applied hrun ht
              refine .inr ⟨t, rfl, by simp [Store.committed, ht], happlied.accepted,
                happlied.effect, fun d hd => ?_⟩
              change SameEntry d st.db (registryStore.view st.db ws)
              rw [happlied.effect]
              exact happlied.other hd
      · next ht =>
          cases hs
          exact .inl ⟨by simp [Store.committed, ht], rfl⟩
      · cases hs
  | _ =>
      rcases Store.step_committed hs with hnone | ⟨t, call, ws, -, hlog, -⟩
      · exact .inl hnone
      · cases hlog

/-- The rows are what the committed calls make of them, one after the other. -/
structure RegistryRecorded (log : List RegistryCall) (db : RegistryDb) : Prop where
  registered : ∀ d, (db.serviceImages d).isSome ↔ ∃ r, r ∈ registrationsOf log d
  image : ∀ d, db.serviceImages d = (registrationsOf log d).getLast?.map fun r =>
    { ociRef := r.ociRef
      openapiSpec := r.openapiSpec
      hardwareRequirements := r.hardwareRequirements
      trustTier := (tiersOf log d).getLast?.getD .unverified }
  functions : ∀ d, db.functionCapabilities d =
    ((registrationsOf log d).getLast?.map (·.functions)).getD []
  serial : db = log.foldl (fun db call => call.effect db) .empty

/-- In every state of a run the rows of each digest are those of its last committed
registration, with the last tier that was set; and a step that changes rows commits
an accepted call, and changes those of its digest only. -/
theorem registry_history (hrun : RegistryRun calls log st) :
    RegistryRecorded log st.db ∧ ∀ (l : Label n Unit) (st' : RegistrySystem n),
      registryStore.step (fun t => (calls t).script) st l = some st' →
      (Store.committed st l = [] ∧ st'.db = st.db) ∨
        ∃ t, l = .finish t ∧ Store.committed st l = [calls t] ∧ (calls t).Accepted st.db ∧
          st'.db = (calls t).effect st.db ∧
          ∀ d, (calls t).digest ≠ some d → SameEntry d st.db st'.db := by
  obtain ⟨hrecorded, hserial⟩ := RegistryRun.recorded hrun
  refine ⟨⟨fun d => (hrecorded d).registered, fun d => (hrecorded d).image,
    fun d => (hrecorded d).functions, hserial⟩, ?_⟩
  exact fun l st' hs => RegistryRun.step hrun hs

end

/-- An image with one function. -/
def oneFunction (ociRef : String) : RegisterImageInput where
  digest := some (.str "sha256:a")
  ociRef := some (.str ociRef)
  openapiSpec := some (.obj [("paths", .obj [("/f", .obj [("post",
    .obj [("operationId", .str "f")])])])])
  capabilityMetadata := some (.obj [("f", .obj [("mutates", .bool false),
    ("materializationCostClass", .str "heavy"), ("cowSupport", .bool false),
    ("changeDetectionSupport", .bool false), ("nestingDeclaration", .null),
    ("invocationDescriptor", .arr []), ("stateReuse", .str "none"),
    ("additiveWarmUpdate", .bool false)])])

/-- Two registrations of one digest, and a change of its tier. -/
def threeCalls : Fin 3 → RegistryCall
  | 0 => .registerImage (oneFunction "first")
  | 1 => .registerImage (oneFunction "second")
  | 2 => .recordTrustTier "sha256:a" (.str "production-proven")

/-- The second registration starts within the first and waits for it; the tier is set
between the two. -/
def threeLabels : List (Label 3 Unit) :=
  [.begin 0, .begin 1, .call 0 (), .call 0 (), .call 0 (), .finish 0, .begin 2, .call 2 (), .finish 2,
    .call 1 (), .call 1 (), .call 1 (), .finish 1]

def threeSteps : Option (RegistrySystem 3) :=
  registryStore.steps (fun t => (threeCalls t).script) (Store.idle RegistryDb.empty) threeLabels

theorem registry_history_three : ∃ st, threeSteps = some st ∧
    ∃ image, st.db.serviceImages "sha256:a" = some image ∧ image.ociRef = "second" ∧
      image.trustTier = .productionProven := by
  have hsome : threeSteps.isSome = true := by decide +kernel
  obtain ⟨st, hst⟩ := Option.isSome_iff_exists.mp hsome
  have hrun := Store.LoggedRun.refl.steps_log (fun _ _ => trivial) hst
  have hlog : [] ++ (registryStore.history (fun t => (threeCalls t).script)
      (Store.idle RegistryDb.empty) threeLabels).map Prod.fst =
      [threeCalls 0, threeCalls 2, threeCalls 1] := rfl
  rw [hlog] at hrun
  have himage := (registry_history hrun).1.image "sha256:a"
  exact ⟨st, hst, _, himage, rfl, rfl⟩

end WorkflowPlatform
