import WorkflowPlatform.ArgvTokens
import WorkflowPlatform.AssocList
import WorkflowPlatform.RequestRendering

/-!
# Where the worker renders each parameter

An accepted descriptor has one entry for each parameter, and every positional one
has an index. What the worker makes of the entries can be read off them: each
entry whose parameter is bound gives one data file or one positional argument,
and no two positional ones have the same index.
-/
namespace WorkflowPlatform

namespace DescriptorScan
variable {fnName : String} {scan scan' : DescriptorScan} {entry : Json}

theorem readParam_declares {param : Option Json} (h : (scan.readParam fnName param).errors = []) :
    ∃ p, param = some (.str p) ∧ p ∉ scan.seenParams ∧
      (scan.readParam fnName param).seenParams = scan.seenParams ++ [p] := by
  unfold readParam at h ⊢
  split at h
  · next p =>
      split_ifs at h with hempty hseen
      · exact absurd h (complain_errors _ _)
      · exact absurd h (complain_errors _ _)
      · refine ⟨p, rfl, hseen, ?_⟩
        simp [hempty, hseen]
  · exact absurd h (complain_errors _ _)

theorem readPositional_declares {param positionIndex : Option Json}
    (hread : scan.readPositional fnName param positionIndex = .ok scan') (h : scan'.errors = []) :
    scan'.seenParams = scan.seenParams ∧ ∃ i, positionOf positionIndex = some i := by
  unfold readPositional at hread
  split at hread
  · next n =>
      split_ifs at hread with hindex hseen
      · obtain ⟨text, -, hscan⟩ := bind_eq_ok.mp hread
        cases hscan
        exact absurd h (complain_errors _ _)
      · obtain ⟨text, -, hscan⟩ := bind_eq_ok.mp hread
        cases hscan
        exact absurd h (complain_errors _ _)
      · cases hread
        refine ⟨rfl, ?_⟩
        rw [Bool.not_eq_true, Bool.not_eq_false'] at hindex
        exact ⟨_, if_pos hindex⟩
  · obtain ⟨text, -, hscan⟩ := bind_eq_ok.mp hread
    cases hscan
    exact absurd h (complain_errors _ _)

/-- An entry without a complaint declares a new parameter, and an index if it is
positional. -/
theorem readEntry_declares {e : InvocationDescriptorEntry}
    (hread : readEntry fnName scan entry = .ok scan') (h : scan'.errors = [])
    (he : descriptorEntry entry = some e) :
    e.param ∉ scan.seenParams ∧ scan'.seenParams = scan.seenParams ++ [e.param] ∧
      (e.style = .positional → ∃ i, e.positionIndex = some i) := by
  unfold readEntry at hread
  split at hread
  · next fields =>
      unfold readStyle at hread
      split at hread
      · next hstyle =>
          obtain ⟨rfl, -⟩ := readFlag_accepts hread h
          obtain ⟨p, hp, hnew, hseen⟩ := readParam_declares h
          rw [descriptorEntry, hp, hstyle] at he
          cases he
          exact ⟨hnew, hseen, fun hpositional => by cases hpositional⟩
      · next hstyle =>
          obtain ⟨hkeep, i, hi⟩ := readPositional_declares hread h
          obtain ⟨p, hp, hnew, hseen⟩ := readParam_declares (readPositional_accepts hread h).1
          rw [descriptorEntry, hp, hstyle] at he
          cases he
          exact ⟨hnew, hkeep.trans hseen, fun _ => ⟨i, hi⟩⟩
      · next hstyle =>
          cases hread
          obtain ⟨p, hp, hnew, hseen⟩ := readParam_declares h
          rw [descriptorEntry, hp, hstyle] at he
          cases he
          exact ⟨hnew, hseen, fun hpositional => by cases hpositional⟩
      · obtain ⟨text, -, hscan⟩ := bind_eq_ok.mp hread
        cases hscan
        exact absurd h (complain_errors _ _)
  · cases hread
    exact absurd h (complain_errors _ _)

theorem readEntries_declare {entries : List Json} {descriptor : List InvocationDescriptorEntry}
    (hread : entries.foldlM (readEntry fnName) scan = .ok scan') (h : scan'.errors = [])
    (hentries : entries.mapM descriptorEntry = some descriptor) (hseen : scan.seenParams.Nodup) :
    (scan.seenParams ++ descriptor.map (·.param)).Nodup ∧
      ∀ e ∈ descriptor, e.style = .positional → ∃ i, e.positionIndex = some i := by
  induction entries generalizing scan descriptor with
  | nil =>
      cases hentries
      exact ⟨by simpa using hseen, nofun⟩
  | cons entry rest ih =>
      rw [List.foldlM_cons] at hread
      obtain ⟨mid, hentry, hrest⟩ := bind_eq_ok.mp hread
      rw [List.mapM_cons] at hentries
      obtain ⟨e, he, hentries⟩ := Option.bind_eq_some_iff.mp hentries
      obtain ⟨descriptor', hdescriptor', hentries⟩ := Option.bind_eq_some_iff.mp hentries
      cases hentries
      have hmid := (readEntries_accepts hrest h).1
      obtain ⟨hnew, hsame, hindex⟩ := readEntry_declares hentry hmid he
      have hmidSeen : mid.seenParams.Nodup := by
        rw [hsame, List.nodup_append]
        refine ⟨hseen, List.nodup_singleton _, ?_⟩
        intro a ha b hb hab
        rw [List.mem_singleton] at hb
        exact hnew (hb ▸ hab ▸ ha)
      obtain ⟨hnodup, hpositions⟩ := ih hrest hdescriptor' hmidSeen
      refine ⟨?_, ?_⟩
      · rw [hsame, List.append_assoc] at hnodup
        exact hnodup
      · intro e' he'
        rcases List.mem_cons.mp he' with rfl | he'
        · exact hindex
        · exact hpositions e' he'

end DescriptorScan

/-- What else an accepted descriptor guarantees. -/
structure DeclaredOnce (descriptor : List InvocationDescriptorEntry) : Prop extends
    AcceptedDescriptor descriptor where
  params : (descriptor.map (·.param)).Nodup
  positions : ∀ e ∈ descriptor, e.style = .positional → ∃ i, e.positionIndex = some i

theorem validateInvocationDescriptor_declares {cap : Json} {fnName : String}
    {descriptor : List InvocationDescriptorEntry}
    (hvalid : validateInvocationDescriptor (cap.property "invocationDescriptor") fnName = .ok [])
    (hdescriptor : descriptorOf cap = some descriptor) : DeclaredOnce descriptor := by
  have haccepted := validateInvocationDescriptor_accepts hvalid hdescriptor
  unfold descriptorOf at hdescriptor
  split at hdescriptor
  · next entries hentries =>
      rw [hentries] at hvalid
      obtain ⟨scan, hscan, hmessages⟩ := bind_eq_ok.mp hvalid
      obtain ⟨herrors, -⟩ := List.append_eq_nil_iff.mp (Except.ok.inj hmessages)
      obtain ⟨hparams, hpositions⟩ :=
        DescriptorScan.readEntries_declare hscan herrors hdescriptor List.nodup_nil
      exact ⟨haccepted, hparams, hpositions⟩
  · cases hdescriptor

theorem validateRegistration_declares {payload : RegistrationPayload} {capabilities : JsonObject}
    {fnName : String} {cap : Json} {descriptor : List InvocationDescriptorEntry}
    (hvalid : validateRegistration payload = .ok [])
    (hcapabilities : payload.capabilityMetadata = some (.obj capabilities))
    (hcap : (fnName, cap) ∈ capabilities) (hdescriptor : descriptorOf cap = some descriptor) :
    DeclaredOnce descriptor :=
  validateInvocationDescriptor_declares
    (validateRegistration_descriptor hvalid hcapabilities hcap) hdescriptor

/-! ### What the loop over the entries makes of them -/

/-- The path of a bound parameter. -/
def boundPath (resolvedInput : List (String × JsValue)) (e : InvocationDescriptorEntry) :
    Option String :=
  match resolvedValue resolvedInput e.param with
  | .json (.str path) => some path
  | _ => none

/-- The index and the path of a bound positional entry. -/
def slotOf (resolvedInput : List (String × JsValue)) (e : InvocationDescriptorEntry) :
    Option (ℕ × String) :=
  match e.style with
  | .positional => (boundPath resolvedInput e).map fun path => (e.positionIndex.getD 0, path)
  | _ => none

theorem renderEntries_slots {resolvedInput : List (String × JsValue)} {stateId : Option String}
    {entries : List InvocationDescriptorEntry} {rendered out : RenderedHeavyBindings}
    (h : renderEntries resolvedInput stateId entries rendered = .ok out)
    (hdistinct : (rendered.positionalByIndex.map Prod.fst).Nodup) :
    out.positionalByIndex = rendered.positionalByIndex ++ entries.filterMap (slotOf resolvedInput) ∧
      (out.positionalByIndex.map Prod.fst).Nodup := by
  induction entries generalizing rendered with
  | nil =>
      cases h
      exact ⟨by simp, hdistinct⟩
  | cons e rest ih =>
      unfold renderEntries at h
      split at h
      · next hvalue =>
          have hnone : slotOf resolvedInput e = none := by
            cases hstyle : e.style <;> simp [slotOf, boundPath, hstyle, hvalue]
          rw [List.filterMap_cons_none hnone]
          exact ih h hdistinct
      · obtain ⟨path, hpath, h⟩ := bind_eq_ok.mp h
        obtain ⟨hvalue, -⟩ := assertHeavyBindingIsPath_ok hpath
        split at h
        · next hstyle =>
            rw [List.filterMap_cons_none (by simp [slotOf, hstyle])]
            have hrest := ih h hdistinct
            exact hrest
        · next hstyle =>
            dsimp only at h
            split_ifs at h with htaken
            have hslot : slotOf resolvedInput e = some (e.positionIndex.getD 0, path) := by
              simp [slotOf, boundPath, hstyle, hvalue]
            rw [List.filterMap_cons_some hslot]
            have hnew : e.positionIndex.getD 0 ∉ rendered.positionalByIndex.map Prod.fst := by
              intro hmem
              exact htaken (AssocList.lookup_isSome_iff.mpr hmem)
            have hstep := ih h <| by
              rw [List.map_append, List.nodup_append]
              refine ⟨hdistinct, List.nodup_singleton _, ?_⟩
              intro i hi j hj hij
              obtain rfl : j = e.positionIndex.getD 0 := List.mem_singleton.mp hj
              exact hnew (hij ▸ hi)
            rw [List.append_assoc] at hstep
            exact hstep
        · next hstyle =>
            rw [List.filterMap_cons_none (by simp [slotOf, hstyle])]
            have hrest := ih h hdistinct
            exact hrest

/-- The positional arguments of a request: the bound positional entries by their
indexes, which are all different. -/
theorem buildInvokeRequest_positional {params : BuildInvokeRequestParams} {request : InvokeRequest}
    (h : buildInvokeRequest params = .ok request) :
    ∃ slots : List (ℕ × String),
      slots.Perm (params.capability.invocationDescriptor.filterMap (slotOf params.resolvedInput)) ∧
      (slots.map Prod.fst).Pairwise (· < ·) ∧
      request.onWire.positionalArgs = slots.map Prod.snd := by
  obtain ⟨⟨dataFiles, positionalArgs⟩, hheavy, h⟩ := bind_eq_ok.mp h
  obtain ⟨args, -, h⟩ := bind_eq_ok.mp h
  obtain ⟨out, hout, hheavy⟩ := bind_eq_ok.mp hheavy
  obtain ⟨hslots, hdistinct⟩ := renderEntries_slots hout List.nodup_nil
  cases hheavy
  cases h
  have hperm := List.perm_insertionSort (fun a b : ℕ × String => a.1 ≤ b.1) out.positionalByIndex
  refine ⟨out.positionalByIndex.insertionSort fun a b => a.1 ≤ b.1, ?_, ?_, ?_⟩
  · rw [hslots] at hperm ⊢
    exact hperm
  · have hsorted := List.pairwise_insertionSort (fun a b : ℕ × String => a.1 ≤ b.1)
      out.positionalByIndex
    have hnodup : ((out.positionalByIndex.insertionSort fun a b => a.1 ≤ b.1).map Prod.fst).Nodup :=
      (hperm.map _).nodup_iff.mpr hdistinct
    rw [List.pairwise_map]
    apply (hsorted.and (List.pairwise_map.mp hnodup)).imp
    intro a b hab
    exact lt_of_le_of_ne hab.1 hab.2
  · simp only [InvokeRequest.onWire, getD_some_of_pos]

end WorkflowPlatform
