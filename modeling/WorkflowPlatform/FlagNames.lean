import Mathlib.Data.List.Pairwise
import WorkflowPlatform.DescriptorSlots

/-!
# The names of flags

A light parameter is passed as a flag of its own name, a heavy one as the flag its
entry declares. The worker renders each bound parameter once. The two kinds of
names meet in the command line only: nothing keeps a light parameter from having
the name of a declared flag, or two entries from declaring one flag.
-/
namespace WorkflowPlatform

/-- One thing a request carries for a parameter. -/
inductive Rendered where
  | arg (name text : String)
  | dataFile (flag : Option String) (path : String)
  | positional (path : String)
  | stdin (path : String)

def AgentDataFile.rendered (file : AgentDataFile) : Rendered :=
  if file.stdinFromPath then .stdin file.path else .dataFile file.flag file.path

/-- Everything a request carries. -/
def InvokeRequest.rendered (request : InvokeRequest) : List Rendered :=
  request.args.map (fun a => .arg a.1 a.2) ++
    ((request.dataFiles.getD []).map AgentDataFile.rendered ++
      (request.positionalArgs.getD []).map .positional)

def JsValue.isDefined : JsValue → Bool
  | .undefined => false
  | _ => true

section
variable (params : BuildInvokeRequestParams)

/-- The parameters with a defined value. -/
def definedParams : List String :=
  (params.resolvedInput.filter fun p => p.2.isDefined).map Prod.fst

def heavyParams : List String := params.capability.invocationDescriptor.map (·.param)

/-- What a request may carry for a parameter: its own value, the way the descriptor
says. -/
def Renders (param : String) : Rendered → Prop
  | .arg name text => name = param ∧ param ∉ heavyParams params ∧
      ∃ value, params.resolvedInput.lookup param = some value ∧ stringifyArgValue value = some text
  | .dataFile flag path => ∃ e ∈ params.capability.invocationDescriptor, e.param = param ∧
      e.style = .flag ∧ e.flagName = flag ∧
      params.resolvedInput.lookup param = some (.json (.str path))
  | .positional path => ∃ e ∈ params.capability.invocationDescriptor, e.param = param ∧
      e.style = .positional ∧ params.resolvedInput.lookup param = some (.json (.str path))
  | .stdin path => ∃ e ∈ params.capability.invocationDescriptor, e.param = param ∧
      e.style = .stdin ∧ params.resolvedInput.lookup param = some (.json (.str path))

/-- Each parameter with a defined value is rendered once, and nothing else is. -/
def RendersOnce (request : InvokeRequest) : Prop :=
  ∃ renderings : List (String × Rendered),
    (renderings.map Prod.snd).Perm request.rendered ∧
    (renderings.map Prod.fst).Perm (definedParams params) ∧ (renderings.map Prod.fst).Nodup ∧
    ∀ r ∈ renderings, Renders params r.1 r.2

end

/-! ### Light parameters -/

theorem inherited_ne_json (kind : Builtin) (key : String) (value : Json) :
    JsValue.inherited kind key ≠ .json value := by
  unfold JsValue.inherited
  split_ifs <;> simp

theorem lookup_of_resolvedValue {resolvedInput : List (String × JsValue)} {param : String}
    {value : Json} (h : resolvedValue resolvedInput param = .json value) :
    resolvedInput.lookup param = some (.json value) := by
  unfold resolvedValue at h
  split at h
  · next v hv => rw [hv, h]
  · exact absurd h (inherited_ne_json _ _ _)

theorem resolvedValue_of_lookup {resolvedInput : List (String × JsValue)} {param : String}
    {value : JsValue} (h : resolvedInput.lookup param = some value) :
    resolvedValue resolvedInput param = value := by
  rw [resolvedValue, h]

theorem assertSafeArgValue_ok {key text : String} {value : Option String}
    (h : assertSafeArgValue key value = .ok text) : value = some text := by
  cases value with
  | none => cases h
  | some s =>
      dsimp only [assertSafeArgValue] at h
      split_ifs at h
      cases h
      rfl

/-- A parameter with a defined value that no entry of the descriptor is for. -/
def isLight (heavy : List String) (p : String × JsValue) : Bool :=
  p.2.isDefined && p.1 ∉ heavy

/-- The arguments are the light parameters with a defined value, each under its own
name and with its own text. -/
theorem translateArgs_eq {heavy : List String} {input : List (String × JsValue)}
    {args : List (String × String)} (h : translateArgs heavy input = .ok args) :
    args.map Prod.fst = (input.filter (isLight heavy)).map Prod.fst ∧
      ∀ a ∈ args, ∃ value, (a.1, value) ∈ input ∧ stringifyArgValue value = some a.2 := by
  induction input generalizing args with
  | nil =>
      cases h
      exact ⟨rfl, nofun⟩
  | cons p rest ih =>
      obtain ⟨key, value⟩ := p
      have hskip : ∀ args, translateArgs heavy rest = .ok args →
          isLight heavy (key, value) = false →
          args.map Prod.fst = (((key, value) :: rest).filter (isLight heavy)).map Prod.fst ∧
          ∀ a ∈ args, ∃ value', (a.1, value') ∈ (key, value) :: rest ∧
            stringifyArgValue value' = some a.2 := by
        intro args hargs hlight
        obtain ⟨hnames, htexts⟩ := ih hargs
        rw [List.filter_cons_of_neg (by simp [hlight])]
        refine ⟨hnames, fun a ha => ?_⟩
        obtain ⟨value', hmem, htext⟩ := htexts a ha
        exact ⟨value', List.mem_cons_of_mem _ hmem, htext⟩
      unfold translateArgs at h
      split at h
      · exact hskip args h rfl
      · next hdefined =>
          split_ifs at h with hheavy
          · exact hskip args h (by simp [isLight, hheavy])
          · obtain ⟨_, -, h⟩ := bind_eq_ok.mp h
            obtain ⟨text, htext, h⟩ := bind_eq_ok.mp h
            obtain ⟨tail, htail, h⟩ := bind_eq_ok.mp h
            cases h
            have hvalue : stringifyArgValue value = some text := assertSafeArgValue_ok htext
            have hlight : isLight heavy (key, value) = true := by
              cases value with
              | undefined => exact absurd rfl hdefined
              | _ => simp [isLight, JsValue.isDefined, hheavy]
            obtain ⟨hnames, htexts⟩ := ih htail
            rw [List.filter_cons_of_pos hlight, List.map_cons, List.map_cons, hnames]
            refine ⟨rfl, fun a ha => ?_⟩
            rcases List.mem_cons.mp ha with rfl | ha
            · exact ⟨value, List.mem_cons_self, hvalue⟩
            · obtain ⟨value', hmem, htext'⟩ := htexts a ha
              exact ⟨value', List.mem_cons_of_mem _ hmem, htext'⟩

/-! ### Heavy parameters -/

/-- What the entry of a bound parameter comes to. -/
def renderedOf (resolvedInput : List (String × JsValue)) (e : InvocationDescriptorEntry) :
    Option Rendered :=
  (boundPath resolvedInput e).map fun path => match e.style with
    | .flag => .dataFile e.flagName path
    | .positional => .positional path
    | .stdin => .stdin path

theorem boundPath_eq_some {resolvedInput : List (String × JsValue)} {e : InvocationDescriptorEntry}
    {path : String} (h : boundPath resolvedInput e = some path) :
    resolvedInput.lookup e.param = some (.json (.str path)) := by
  unfold boundPath at h
  split at h
  · next p hvalue =>
      cases h
      exact lookup_of_resolvedValue hvalue
  · cases h

/-- The data files and the slots are what the entries come to, sorted into two. -/
theorem rendered_perm (resolvedInput : List (String × JsValue)) (stateId : Option String)
    (entries : List InvocationDescriptorEntry) :
    ((entries.filterMap (dataFileOf resolvedInput stateId)).map AgentDataFile.rendered ++
      (entries.filterMap (slotOf resolvedInput)).map fun slot => Rendered.positional slot.2).Perm
      (entries.filterMap (renderedOf resolvedInput)) := by
  induction entries with
  | nil => exact List.Perm.refl _
  | cons e rest ih =>
      cases hpath : boundPath resolvedInput e with
      | none =>
          have hfile : dataFileOf resolvedInput stateId e = none := by
            unfold boundPath at hpath
            unfold dataFileOf
            split at hpath
            · cases hpath
            · next hvalue => split <;> simp_all
          rw [List.filterMap_cons_none hfile,
            List.filterMap_cons_none (by cases hstyle : e.style <;> simp [slotOf, hstyle, hpath]),
            List.filterMap_cons_none (by simp [renderedOf, hpath])]
          exact ih
      | some path =>
          have hvalue : resolvedValue resolvedInput e.param = .json (.str path) :=
            resolvedValue_of_lookup (boundPath_eq_some hpath)
          cases hstyle : e.style with
          | flag =>
              have hfile : dataFileOf resolvedInput stateId e =
                  some { flag := e.flagName, path, stateId } := by simp only [dataFileOf, hstyle, hvalue]
              have hall : renderedOf resolvedInput e = some (.dataFile e.flagName path) := by
                simp only [renderedOf, hstyle, hpath, Option.map_some]
              rw [List.filterMap_cons_some hfile, List.filterMap_cons_some hall,
                List.filterMap_cons_none (by simp [slotOf, hstyle])]
              exact ih.cons _
          | stdin =>
              have hfile : dataFileOf resolvedInput stateId e =
                  some { path, stateId, stdinFromPath := true } := by
                simp only [dataFileOf, hstyle, hvalue]
              have hall : renderedOf resolvedInput e = some (.stdin path) := by
                simp only [renderedOf, hstyle, hpath, Option.map_some]
              rw [List.filterMap_cons_some hfile, List.filterMap_cons_some hall,
                List.filterMap_cons_none (by simp [slotOf, hstyle])]
              exact ih.cons _
          | positional =>
              have hslot : slotOf resolvedInput e = some (e.positionIndex.getD 0, path) := by
                simp only [slotOf, hstyle, hpath, Option.map_some]
              have hall : renderedOf resolvedInput e = some (.positional path) := by
                simp only [renderedOf, hstyle, hpath, Option.map_some]
              rw [List.filterMap_cons_none (by simp [dataFileOf, hstyle]),
                List.filterMap_cons_some hslot, List.filterMap_cons_some hall]
              exact List.perm_middle.trans (ih.cons _)

section
variable {params : BuildInvokeRequestParams} {request : InvokeRequest}

/-- A request taken apart: its arguments, and for each entry what it comes to. -/
theorem buildInvokeRequest_rendered (h : buildInvokeRequest params = .ok request) :
    translateArgs (heavyParams params) params.resolvedInput = .ok request.args ∧
      (∀ e ∈ params.capability.invocationDescriptor, ReadsPath params.resolvedInput e) ∧
      request.rendered.Perm (request.args.map (fun a => .arg a.1 a.2) ++
        params.capability.invocationDescriptor.filterMap (renderedOf params.resolvedInput)) := by
  obtain ⟨⟨dataFiles, positionalArgs⟩, hheavy, h⟩ := bind_eq_ok.mp h
  obtain ⟨args, hargs, h⟩ := bind_eq_ok.mp h
  obtain ⟨out, hout, hheavy⟩ := bind_eq_ok.mp hheavy
  obtain ⟨hslots, -⟩ := renderEntries_slots hout List.nodup_nil
  obtain ⟨hreads, hfiles, -⟩ := renderEntries_ok hout
  cases hheavy
  cases h
  refine ⟨hargs, hreads, ?_⟩
  simp only [InvokeRequest.rendered, getD_some_of_pos]
  apply List.Perm.append_left
  have hsorted := List.perm_insertionSort (fun a b : ℕ × String => a.1 ≤ b.1) out.positionalByIndex
  refine List.Perm.trans (List.Perm.append_left _ ((hsorted.map _).map _)) ?_
  rw [hslots, hfiles, List.map_map]
  exact rendered_perm ..

/-- What an entry comes to, under the name of its parameter. -/
def keyedRendering (resolvedInput : List (String × JsValue)) (e : InvocationDescriptorEntry) :
    Option (String × Rendered) := (renderedOf resolvedInput e).map fun r => (e.param, r)

theorem definedParams_nodup (hkeys : (params.resolvedInput.map Prod.fst).Nodup) :
    (definedParams params).Nodup := hkeys.sublist (List.filter_sublist.map _)

theorem mem_definedParams {key : String} : key ∈ definedParams params ↔
    ∃ value, (key, value) ∈ params.resolvedInput ∧ value.isDefined = true := by
  simp [definedParams]

theorem mem_boundParams {key : String} :
    key ∈ (params.capability.invocationDescriptor.filterMap
        (keyedRendering params.resolvedInput)).map Prod.fst ↔
      ∃ e ∈ params.capability.invocationDescriptor, e.param = key ∧
        (boundPath params.resolvedInput e).isSome = true := by
  simp only [List.mem_map, List.mem_filterMap, keyedRendering, renderedOf, Option.map_map,
    Option.map_eq_some_iff, Option.isSome_iff_exists]
  constructor
  · rintro ⟨-, ⟨e, he, path, hpath, rfl⟩, rfl⟩
    exact ⟨e, he, rfl, path, hpath⟩
  · rintro ⟨e, he, rfl, path, hpath⟩
    exact ⟨_, ⟨e, he, path, hpath, rfl⟩, rfl⟩

theorem boundParams_sublist (entries : List InvocationDescriptorEntry)
    (resolvedInput : List (String × JsValue)) :
    ((entries.filterMap (keyedRendering resolvedInput)).map Prod.fst).Sublist
      (entries.map (·.param)) := by
  induction entries with
  | nil => exact List.Sublist.slnil
  | cons e rest ih =>
      cases hr : renderedOf resolvedInput e with
      | none =>
          have hnone : keyedRendering resolvedInput e = none := by rw [keyedRendering, hr]; rfl
          rw [List.filterMap_cons_none hnone]
          exact ih.cons _
      | some r =>
          have hsome : keyedRendering resolvedInput e = some (e.param, r) := by
            rw [keyedRendering, hr]
            rfl
          rw [List.filterMap_cons_some hsome]
          exact ih.cons_cons _

/-- A bound parameter of the descriptor has a path. -/
theorem bound_of_defined (hkeys : (params.resolvedInput.map Prod.fst).Nodup)
    {e : InvocationDescriptorEntry} (hreads : ReadsPath params.resolvedInput e)
    (hdefined : e.param ∈ definedParams params) :
    (boundPath params.resolvedInput e).isSome = true := by
  obtain ⟨value, hmem, hvalue⟩ := mem_definedParams.mp hdefined
  have hresolved := resolvedValue_of_lookup ((AssocList.lookup_eq_some_iff_mem hkeys).mpr hmem)
  rcases hreads with hundefined | ⟨path, hpath, -⟩
  · rw [hresolved] at hundefined
    rw [hundefined] at hvalue
    cases hvalue
  · rw [boundPath, hpath]
    rfl

/-- The names of the arguments are those of the light parameters. -/
theorem light_iff {key : String}
    (hargs : translateArgs (heavyParams params) params.resolvedInput = .ok request.args) :
    key ∈ request.args.map Prod.fst ↔
      key ∈ definedParams params ∧ key ∉ heavyParams params := by
  rw [(translateArgs_eq hargs).1, mem_definedParams]
  simp only [List.mem_map, List.mem_filter, isLight, Bool.and_eq_true, decide_eq_true_eq]
  constructor
  · rintro ⟨p, ⟨hp, hdefined, hheavy⟩, rfl⟩
    exact ⟨⟨p.2, hp, hdefined⟩, hheavy⟩
  · rintro ⟨⟨value, hp, hdefined⟩, hheavy⟩
    exact ⟨(key, value), ⟨hp, hdefined, hheavy⟩, rfl⟩

/-- What a request carries, each under the name of its parameter. -/
def renderings (params : BuildInvokeRequestParams) (request : InvokeRequest) :
    List (String × Rendered) :=
  (request.args.map fun a => (a.1, .arg a.1 a.2)) ++
    params.capability.invocationDescriptor.filterMap (keyedRendering params.resolvedInput)

theorem renderings_perm (h : buildInvokeRequest params = .ok request) :
    ((renderings params request).map Prod.snd).Perm request.rendered := by
  obtain ⟨-, -, hperm⟩ := buildInvokeRequest_rendered h
  refine List.Perm.trans ?_ hperm.symm
  rw [renderings, List.map_append, List.map_map, List.map_filterMap]
  apply List.Perm.of_eq
  congr 1
  apply List.filterMap_congr
  intro e _
  rw [keyedRendering, Option.map_map]
  exact Option.map_id'

theorem mem_renderings_params (hkeys : (params.resolvedInput.map Prod.fst).Nodup)
    (h : buildInvokeRequest params = .ok request) {key : String} :
    key ∈ (renderings params request).map Prod.fst ↔ key ∈ definedParams params := by
  obtain ⟨hargs, hreads, -⟩ := buildInvokeRequest_rendered h
  rw [renderings, List.map_append, List.map_map, List.mem_append]
  change key ∈ request.args.map Prod.fst ∨ _ ↔ _
  rw [light_iff hargs, mem_boundParams]
  constructor
  · rintro (⟨hdefined, -⟩ | ⟨e, -, rfl, hbound⟩)
    · exact hdefined
    · obtain ⟨path, hpath⟩ := Option.isSome_iff_exists.mp hbound
      have hlookup := boundPath_eq_some hpath
      exact mem_definedParams.mpr
        ⟨_, (AssocList.lookup_eq_some_iff_mem hkeys).mp hlookup, rfl⟩
  · intro hdefined
    by_cases hheavy : key ∈ heavyParams params
    · obtain ⟨e, he, rfl⟩ := List.mem_map.mp hheavy
      exact .inr ⟨e, he, rfl, bound_of_defined hkeys (hreads e he) hdefined⟩
    · exact .inl ⟨hdefined, hheavy⟩

theorem renderings_render (hkeys : (params.resolvedInput.map Prod.fst).Nodup)
    (h : buildInvokeRequest params = .ok request) :
    ∀ r ∈ renderings params request, Renders params r.1 r.2 := by
  obtain ⟨hargs, -⟩ := buildInvokeRequest_rendered h
  intro r hr
  rcases List.mem_append.mp hr with hr | hr
  · obtain ⟨a, ha, rfl⟩ := List.mem_map.mp hr
    obtain ⟨value, hmem, htext⟩ := (translateArgs_eq hargs).2 a ha
    exact ⟨rfl, ((light_iff hargs).mp (List.mem_map_of_mem ha)).2, value,
      (AssocList.lookup_eq_some_iff_mem hkeys).mpr hmem, htext⟩
  · obtain ⟨e, he, hr⟩ := List.mem_filterMap.mp hr
    obtain ⟨rendered, hrendered, rfl⟩ := Option.map_eq_some_iff.mp hr
    obtain ⟨path, hpath, rfl⟩ := Option.map_eq_some_iff.mp hrendered
    have hlookup := boundPath_eq_some hpath
    cases hstyle : e.style with
    | flag => exact ⟨e, he, rfl, hstyle, rfl, hlookup⟩
    | positional => exact ⟨e, he, rfl, hstyle, hlookup⟩
    | stdin => exact ⟨e, he, rfl, hstyle, hlookup⟩

theorem buildInvokeRequest_rendersOnce (hkeys : (params.resolvedInput.map Prod.fst).Nodup)
    (hdeclared : DeclaredOnce params.capability.invocationDescriptor)
    (h : buildInvokeRequest params = .ok request) : RendersOnce params request := by
  obtain ⟨hargs, -⟩ := buildInvokeRequest_rendered h
  have hnodup : ((renderings params request).map Prod.fst).Nodup := by
    rw [renderings, List.map_append, List.map_map, List.nodup_append]
    refine ⟨?_, hdeclared.params.sublist (boundParams_sublist _ _), ?_⟩
    · change (request.args.map Prod.fst).Nodup
      rw [(translateArgs_eq hargs).1]
      exact hkeys.sublist (List.filter_sublist.map _)
    · intro key hkey key' hkey' heq
      subst heq
      exact ((light_iff hargs).mp hkey).2 ((boundParams_sublist _ _).subset hkey')
  refine ⟨renderings params request, renderings_perm h, ?_, hnodup, renderings_render hkeys h⟩
  rw [List.perm_ext_iff_of_nodup hnodup (definedParams_nodup hkeys)]
  exact fun key => mem_renderings_params hkeys h

/-! ### The names in the command line -/

/-- The entry declares a flag and its parameter is bound. -/
def FlagBound (params : BuildInvokeRequestParams) (e : InvocationDescriptorEntry) : Prop :=
  e ∈ params.capability.invocationDescriptor ∧ e.style = .flag ∧
    (boundPath params.resolvedInput e).isSome = true

/-- No two bound parameters have one flag: not two that declare theirs, and not a
light one that is named like a declared flag. -/
structure FlagsApart (params : BuildInvokeRequestParams) : Prop where
  declared : ∀ e e', FlagBound params e → FlagBound params e' → e.flagName = e'.flagName → e = e'
  light : ∀ e, FlagBound params e → ∀ key ∈ definedParams params, key ∉ heavyParams params →
    e.flagName ≠ some ("--" ++ key)

/-- The command line consists of flags with different names, each with its value,
and of the positional arguments. -/
def DistinctFlags (request : InvokeRequest) : Prop :=
  ∃ pairs : List (String × String), Agent.buildArgs request.onWire =
    .ok (Agent.flagTokens pairs ++ request.onWire.positionalArgs) ∧ (pairs.map Prod.fst).Nodup

theorem stripFlagPrefix_eq {flag name : String} (h : Agent.stripFlagPrefix flag = some name) :
    flag = "--" ++ name := by
  unfold Agent.stripFlagPrefix at h
  split at h
  · next c rest hlist =>
      cases h
      apply String.toList_injective
      simp [hlist]
  · cases h

/-- The name that a bound entry gives its flag, without the dashes. -/
def entryFlag (resolvedInput : List (String × JsValue)) (e : InvocationDescriptorEntry) :
    Option (String × String) :=
  match e.style, boundPath resolvedInput e with
  | .flag, some path => (Agent.stripFlagPrefix (e.flagName.getD "")).map fun name => (name, path)
  | _, _ => none

theorem filePair_onWire {resolvedInput : List (String × JsValue)} {stateId : Option String}
    (entries : List InvocationDescriptorEntry) :
    ((entries.filterMap (dataFileOf resolvedInput stateId)).map AgentDataFile.onWire).filterMap
      Agent.filePair = entries.filterMap (entryFlag resolvedInput) := by
  rw [List.filterMap_map, List.filterMap_filterMap]
  apply List.filterMap_congr
  intro e _
  unfold dataFileOf entryFlag boundPath
  cases hstyle : e.style <;> cases hvalue : resolvedValue resolvedInput e.param <;> try rfl
  all_goals
    rename_i value
    cases value <;> rfl

theorem entryFlag_eq_some (haccepted : AcceptedDescriptor params.capability.invocationDescriptor)
    {e : InvocationDescriptorEntry} (he : FlagBound params e) :
    ∃ name path, entryFlag params.resolvedInput e = some (name, path) ∧
      e.flagName = some ("--" ++ name) := by
  obtain ⟨hmem, hstyle, hbound⟩ := he
  obtain ⟨path, hpath⟩ := Option.isSome_iff_exists.mp hbound
  obtain ⟨flag, hflag, hmatch⟩ := haccepted.flags e hmem hstyle
  obtain ⟨name, hname, -⟩ := stripFlagPrefix_of_matches hmatch
  refine ⟨name, path, ?_, ?_⟩
  · simp only [entryFlag, hstyle, hpath, hflag, Option.getD_some, hname, Option.map_some]
  · rw [hflag, stripFlagPrefix_eq hname]

theorem flagBound_of_entryFlag {e : InvocationDescriptorEntry} {p : String × String}
    (he : e ∈ params.capability.invocationDescriptor)
    (h : entryFlag params.resolvedInput e = some p) : FlagBound params e := by
  unfold entryFlag at h
  split at h
  · next path hstyle hpath => exact ⟨he, hstyle, by rw [hpath]; rfl⟩
  · cases h

/-- The images of different members under a partial function are different if it is
injective where it is defined. -/
theorem nodup_filterMap_iff {α β : Type} {f : α → Option β} {l : List α} (hl : l.Nodup) :
    (l.filterMap f).Nodup ↔
      ∀ a ∈ l, ∀ b ∈ l, ∀ c, f a = some c → f b = some c → a = b := by
  unfold List.Nodup
  rw [List.pairwise_filterMap]
  constructor
  · intro h a ha b hb c hac hbc
    by_contra hne
    have hsymmetric : Std.Symm fun a a' => ∀ b, f a = some b → ∀ b', f a' = some b' → b ≠ b' :=
      ⟨fun a a' haa b hb b' hb' heq => haa b' hb' b hb heq.symm⟩
    exact h.forall ha hb hne c hac c hbc rfl
  · intro h
    apply hl.pairwise_of_forall_ne
    intro a ha b hb hne c hac c' hbc heq
    subst heq
    exact hne (h a ha b hb c hac hbc)

theorem flagPairs_onWire (h : buildInvokeRequest params = .ok request) :
    Agent.flagPairs request.onWire = request.args ++
      params.capability.invocationDescriptor.filterMap (entryFlag params.resolvedInput) := by
  obtain ⟨stateId, -, hfiles, -⟩ := buildInvokeRequest_ok h
  rw [Agent.flagPairs, hfiles, filePair_onWire]
  rfl

/-- The command line has one reading, so its flags are those of the request. -/
theorem distinctFlags_iff_nodup (hdeclared : DeclaredOnce params.capability.invocationDescriptor)
    (h : buildInvokeRequest params = .ok request) :
    DistinctFlags request ↔ ((Agent.flagPairs request.onWire).map Prod.fst).Nodup := by
  obtain ⟨argv, hargv⟩ := buildArgs_accepts hdeclared.toAcceptedDescriptor h
  obtain ⟨rfl, -⟩ := Agent.buildArgs_eq hargv
  constructor
  · rintro ⟨pairs, hpairs, hnodup⟩
    rw [hargv] at hpairs
    have hsame := Agent.flagTokens_injective (List.append_cancel_right (Except.ok.inj hpairs))
    rw [hsame]
    exact hnodup
  · exact fun hnodup => ⟨_, hargv, hnodup⟩

theorem distinctFlags_iff (hkeys : (params.resolvedInput.map Prod.fst).Nodup)
    (hdeclared : DeclaredOnce params.capability.invocationDescriptor)
    (h : buildInvokeRequest params = .ok request) : DistinctFlags request ↔ FlagsApart params := by
  obtain ⟨hargs, -⟩ := buildInvokeRequest_rendered h
  have hlight : ∀ key, key ∈ request.args.map Prod.fst ↔
      key ∈ definedParams params ∧ key ∉ heavyParams params := fun _ => light_iff hargs
  have hentries : params.capability.invocationDescriptor.Nodup := hdeclared.params.of_map
  rw [distinctFlags_iff_nodup hdeclared h, flagPairs_onWire h, List.map_append, List.nodup_append, List.map_filterMap,
    nodup_filterMap_iff hentries]
  constructor
  · rintro ⟨-, hinjective, hdisjoint⟩
    constructor
    · intro e e' he he' hflag
      obtain ⟨name, path, hentry, hname⟩ := entryFlag_eq_some hdeclared.toAcceptedDescriptor he
      obtain ⟨name', path', hentry', hname'⟩ := entryFlag_eq_some hdeclared.toAcceptedDescriptor he'
      rw [hname, hname'] at hflag
      have hsame : name = name' := by simpa using hflag
      subst hsame
      exact hinjective e he.1 e' he'.1 name (by rw [hentry]; rfl) (by rw [hentry']; rfl)
    · intro e he key hkey hheavy hflag
      obtain ⟨name, path, hentry, hname⟩ := entryFlag_eq_some hdeclared.toAcceptedDescriptor he
      rw [hname] at hflag
      have hsame : name = key := by simpa using hflag
      subst hsame
      refine hdisjoint name ((hlight name).mpr ⟨hkey, hheavy⟩) name ?_ rfl
      exact List.mem_filterMap.mpr ⟨e, he.1, by rw [hentry]; rfl⟩
  · rintro ⟨hdeclaredFlags, hlightFlags⟩
    refine ⟨?_, ?_, ?_⟩
    · rw [(translateArgs_eq hargs).1]
      exact hkeys.sublist (List.filter_sublist.map _)
    · intro e he e' he' name hentry hentry'
      obtain ⟨p, hp, rfl⟩ := Option.map_eq_some_iff.mp hentry
      obtain ⟨p', hp', hpp⟩ := Option.map_eq_some_iff.mp hentry'
      have hbound := flagBound_of_entryFlag he hp
      have hbound' := flagBound_of_entryFlag he' hp'
      apply hdeclaredFlags e e' hbound hbound'
      obtain ⟨name, path, hentry, hname⟩ := entryFlag_eq_some hdeclared.toAcceptedDescriptor hbound
      obtain ⟨name', path', hentry', hname'⟩ :=
        entryFlag_eq_some hdeclared.toAcceptedDescriptor hbound'
      rw [hentry] at hp
      rw [hentry'] at hp'
      cases hp
      cases hp'
      rw [hname, hname']
      exact congrArg (fun s => some ("--" ++ s)) hpp.symm
    · intro key hkey key' hkey' heq
      subst heq
      obtain ⟨e, he, hentry⟩ := List.mem_filterMap.mp hkey'
      obtain ⟨p, hp, rfl⟩ := Option.map_eq_some_iff.mp hentry
      have hbound := flagBound_of_entryFlag he hp
      obtain ⟨hdefined, hheavy⟩ := (hlight p.1).mp hkey
      obtain ⟨name, path, hentry, hname⟩ := entryFlag_eq_some hdeclared.toAcceptedDescriptor hbound
      rw [hentry] at hp
      cases hp
      exact hlightFlags e hbound name hdefined hheavy hname

end

/-- What the worker renders for an accepted registration: each bound parameter once
and nothing else. The flags of the command line have different names exactly if no
two bound parameters have one flag. -/
theorem rendering_exact_iff {payload : RegistrationPayload} {capabilities : JsonObject}
    {fnName : String} {cap : Json} {params : BuildInvokeRequestParams} {request : InvokeRequest}
    (hvalid : validateRegistration payload = .ok [])
    (hcapabilities : payload.capabilityMetadata = some (.obj capabilities))
    (hcap : (fnName, cap) ∈ capabilities)
    (hdescriptor : descriptorOf cap = some params.capability.invocationDescriptor)
    (hkeys : (params.resolvedInput.map Prod.fst).Nodup)
    (hrequest : buildInvokeRequest params = .ok request) :
    RendersOnce params request ∧ DistinctFlags request ↔ FlagsApart params := by
  have hdeclared := validateRegistration_declares hvalid hcapabilities hcap hdescriptor
  rw [distinctFlags_iff hkeys hdeclared hrequest]
  exact and_iff_right (buildInvokeRequest_rendersOnce hkeys hdeclared hrequest)

/-- A function that takes a table behind a flag. -/
def loaderCapability : Json := .obj [("mutates", .bool false),
  ("materializationCostClass", .str "heavy"), ("cowSupport", .bool false),
  ("changeDetectionSupport", .bool false), ("nestingDeclaration", .null),
  ("invocationDescriptor", .arr [.obj [("param", .str "table"), ("style", .str "flag"),
    ("flagName", .str "--input")]]),
  ("stateReuse", .str "none"), ("additiveWarmUpdate", .bool false)]

def loaderPayload : RegistrationPayload where
  digest := some (.str "sha256:a")
  ociRef := some (.str "registry/loader")
  openapiSpec := some (.obj [("paths", .obj [("/load", .obj [("post",
    .obj [("operationId", .str "load")])])])])
  capabilityMetadata := some (.obj [("load", loaderCapability)])

/-- The worker's parameters for a step that passes a table and one more value. -/
def loaderParams (key : String) : BuildInvokeRequestParams where
  executionId := 1
  step := { id := "s", service := "loader", function := "load" }
  resolvedInput := [("table", .json (.str "/t")), (key, .json (.str "fast"))]
  timeoutMs := 1000
  capability := { invocationDescriptor :=
    [{ param := "table", style := .flag, flagName := some "--input" }] }

def loaderRequest (key : String) : InvokeRequest where
  executionId := "1"
  stepId := "s"
  function := "load"
  args := [(key, "fast")]
  positionalArgs := none
  dataFiles := some [{ flag := some "--input", path := "/t" }]
  timeoutMs := 1000

theorem rendering_exact_mode :
    RendersOnce (loaderParams "mode") (loaderRequest "mode") ∧ DistinctFlags (loaderRequest "mode") ↔
      FlagsApart (loaderParams "mode") :=
  rendering_exact_iff (show validateRegistration loaderPayload = .ok [] from rfl) rfl
    (List.mem_singleton_self ("load", loaderCapability)) rfl (by decide) rfl

/-- A value that is named like the flag of the table: the command line has the flag
twice. -/
theorem flag_rendered_twice :
    validateRegistration loaderPayload = .ok [] ∧
      descriptorOf loaderCapability =
        some (loaderParams "input").capability.invocationDescriptor ∧
      buildInvokeRequest (loaderParams "input") = .ok (loaderRequest "input") ∧
      Agent.buildArgs (loaderRequest "input").onWire = .ok ["--input", "fast", "--input", "/t"] ∧
      ¬ DistinctFlags (loaderRequest "input") := by
  refine ⟨rfl, rfl, rfl, rfl, ?_⟩
  rintro ⟨pairs, hpairs, hnodup⟩
  have hsame : [("input", "fast"), ("input", "/t")] = pairs := by
    apply Agent.flagTokens_injective
    have hargv : Agent.buildArgs (loaderRequest "input").onWire =
        .ok (Agent.flagTokens [("input", "fast"), ("input", "/t")] ++ []) := rfl
    rw [hargv] at hpairs
    exact List.append_cancel_right (Except.ok.inj hpairs)
  subst hsame
  exact absurd hnodup (by decide)

end WorkflowPlatform
