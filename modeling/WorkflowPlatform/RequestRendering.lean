import WorkflowPlatform.ExecRunner
import WorkflowPlatform.RegistrationValidation

/-!
# What the worker renders and the agent accepts

A registration that is accepted describes how a function takes its heavy
parameters. The worker renders a request by that description, and the agent
checks the request again: the names of flags, the values behind them, and the
path of the file for standard input. The checks of the worker imply those of the
agent but for one: the agent takes only an absolute path for standard input.
-/
namespace WorkflowPlatform

/-! ### The description that an accepted registration leaves -/

/-- A position as the worker counts it. -/
def positionOf : Option Json → Option ℕ
  | some (.num n) =>
      if DescriptorScan.isPositionIndex n then some (n.mantissa.toNat * 10 ^ n.exponent.toNat)
      else none
  | _ => none

def flagNameOf : Option Json → Option String
  | some (.str name) => some name
  | _ => none

def styleOf : Option Json → Option InvocationStyle
  | some (.str "flag") => some .flag
  | some (.str "positional") => some .positional
  | some (.str "stdin") => some .stdin
  | _ => none

/-- An entry as the worker reads it. Only a flag's name and a position's index are
looked at. -/
def descriptorEntry (entry : Json) : Option InvocationDescriptorEntry :=
  match entry.property "param", styleOf (entry.property "style") with
  | some (.str param), some style => some {
      param, style
      flagName := flagNameOf (entry.property "flagName")
      positionIndex := positionOf (entry.property "positionIndex") }
  | _, _ => none

/-- The descriptor of a capability. -/
def descriptorOf (cap : Json) : Option (List InvocationDescriptorEntry) :=
  match cap.property "invocationDescriptor" with
  | some (.arr entries) => entries.mapM descriptorEntry
  | _ => none

/-- An entry of style flag has a flag that the pattern allows. -/
def InvocationDescriptorEntry.NamesFlag (entry : InvocationDescriptorEntry) : Prop :=
  entry.style = .flag → ∃ name, entry.flagName = some name ∧ matchesFlagNamePattern name = true

namespace DescriptorScan
variable {fnName : String} {scan scan' : DescriptorScan} {entry : Json}

theorem complain_errors (scan : DescriptorScan) (message : String) :
    (scan.complain message).errors ≠ [] := by simp [complain]

theorem readParam_accepts {param : Option Json} (h : (scan.readParam fnName param).errors = []) :
    scan.errors = [] ∧ (∃ p, param = some (.str p)) ∧
      (scan.readParam fnName param).stdinEntryCount = scan.stdinEntryCount := by
  unfold readParam at h ⊢
  split at h
  · next p =>
      split_ifs at h with hempty hseen
      · exact absurd h (complain_errors _ _)
      · exact absurd h (complain_errors _ _)
      · refine ⟨h, ⟨p, rfl⟩, ?_⟩
        simp [hempty, hseen]
  · exact absurd h (complain_errors _ _)

theorem readFlag_accepts {param flagName : Option Json}
    (hread : scan.readFlag fnName param flagName = .ok scan') (h : scan'.errors = []) :
    scan' = scan ∧ ∃ name, flagName = some (.str name) ∧ matchesFlagNamePattern name = true := by
  unfold readFlag at hread
  split at hread
  · next name =>
      split_ifs at hread with hempty hmatch
      · obtain ⟨text, -, hscan⟩ := bind_eq_ok.mp hread
        cases hscan
        exact absurd h (complain_errors _ _)
      · cases hread
        exact ⟨rfl, name, rfl, hmatch⟩
      · obtain ⟨text, -, hscan⟩ := bind_eq_ok.mp hread
        cases hscan
        exact absurd h (complain_errors _ _)
  · obtain ⟨text, -, hscan⟩ := bind_eq_ok.mp hread
    cases hscan
    exact absurd h (complain_errors _ _)

theorem readPositional_accepts {param positionIndex : Option Json}
    (hread : scan.readPositional fnName param positionIndex = .ok scan') (h : scan'.errors = []) :
    scan.errors = [] ∧ scan'.stdinEntryCount = scan.stdinEntryCount := by
  unfold readPositional at hread
  split at hread
  · split_ifs at hread
    · obtain ⟨text, -, hscan⟩ := bind_eq_ok.mp hread
      cases hscan
      exact absurd h (complain_errors _ _)
    · obtain ⟨text, -, hscan⟩ := bind_eq_ok.mp hread
      cases hscan
      exact absurd h (complain_errors _ _)
    · cases hread
      exact ⟨h, rfl⟩
  · obtain ⟨text, -, hscan⟩ := bind_eq_ok.mp hread
    cases hscan
    exact absurd h (complain_errors _ _)

/-- An entry without a complaint is one the worker can read. -/
theorem readEntry_accepts (hread : readEntry fnName scan entry = .ok scan')
    (h : scan'.errors = []) : scan.errors = [] ∧ ∃ e, descriptorEntry entry = some e ∧ e.NamesFlag ∧
      scan'.stdinEntryCount = scan.stdinEntryCount + if e.style = .stdin then 1 else 0 := by
  unfold readEntry at hread
  split at hread
  · next fields =>
      unfold readStyle at hread
      split at hread
      · next hstyle =>
          obtain ⟨rfl, name, hname, hmatch⟩ := readFlag_accepts hread h
          obtain ⟨hscan, ⟨p, hp⟩, hcount⟩ := readParam_accepts h
          refine ⟨hscan, _, by rw [descriptorEntry, hp, hstyle]; rfl, ?_, ?_⟩
          · intro _
            exact ⟨name, by rw [hname]; rfl, hmatch⟩
          · rw [hcount]
            rfl
      · next hstyle =>
          obtain ⟨herrors, hcount'⟩ := readPositional_accepts hread h
          obtain ⟨hscan, ⟨p, hp⟩, hcount⟩ := readParam_accepts herrors
          refine ⟨hscan, _, by rw [descriptorEntry, hp, hstyle]; rfl, (by intro hflag; cases hflag), ?_⟩
          rw [hcount', hcount]
          rfl
      · next hstyle =>
          cases hread
          obtain ⟨hscan, ⟨p, hp⟩, hcount⟩ := readParam_accepts h
          refine ⟨hscan, _, by rw [descriptorEntry, hp, hstyle]; rfl, (by intro hflag; cases hflag), ?_⟩
          change (scan.readParam fnName _).stdinEntryCount + 1 = _
          rw [hcount]
          rfl
      · obtain ⟨text, -, hscan⟩ := bind_eq_ok.mp hread
        cases hscan
        exact absurd h (complain_errors _ _)
  · cases hread
    exact absurd h (complain_errors _ _)

/-- A descriptor without a complaint can be read, and has as many entries of style
stdin as the scan has counted. -/
theorem readEntries_accepts {entries : List Json}
    (hread : entries.foldlM (readEntry fnName) scan = .ok scan') (h : scan'.errors = []) :
    scan.errors = [] ∧ ∃ descriptor, entries.mapM descriptorEntry = some descriptor ∧
      (∀ e ∈ descriptor, e.NamesFlag) ∧
      scan'.stdinEntryCount = scan.stdinEntryCount + descriptor.countP (·.style = .stdin) := by
  induction entries generalizing scan with
  | nil =>
      cases hread
      exact ⟨h, [], rfl, nofun, rfl⟩
  | cons entry rest ih =>
      rw [List.foldlM_cons] at hread
      obtain ⟨mid, hentry, hrest⟩ := bind_eq_ok.mp hread
      obtain ⟨hmid, descriptor, hdescriptor, hflags, hcount⟩ := ih hrest
      obtain ⟨hscan, e, he, hflag, hone⟩ := readEntry_accepts hentry hmid
      refine ⟨hscan, e :: descriptor, ?_, ?_, ?_⟩
      · simp [List.mapM_cons, he, hdescriptor]
      · intro e' he'
        rcases List.mem_cons.mp he' with rfl | he'
        · exact hflag
        · exact hflags e' he'
      · rw [hcount, hone, List.countP_cons]
        simp only [decide_eq_true_eq]
        omega

end DescriptorScan

theorem complain_eq_nil {bad : Bool} {message : String} : complain bad message = [] ↔ bad = false := by
  cases bad <;> simp [complain]

/-- What an accepted descriptor guarantees. -/
structure AcceptedDescriptor (descriptor : List InvocationDescriptorEntry) : Prop where
  flags : ∀ e ∈ descriptor, e.NamesFlag
  stdin : descriptor.countP (·.style = .stdin) ≤ 1

/-- Two members of a list that a predicate holds for are one, if it holds for one
at most. -/
theorem eq_of_countP_le_one {α : Type} {p : α → Bool} {l : List α} {a b : α}
    (h : l.countP p ≤ 1) (ha : a ∈ l) (hpa : p a = true) (hb : b ∈ l) (hpb : p b = true) :
    a = b := by
  rw [List.countP_eq_length_filter] at h
  have ha' : a ∈ l.filter p := List.mem_filter.mpr ⟨ha, hpa⟩
  have hb' : b ∈ l.filter p := List.mem_filter.mpr ⟨hb, hpb⟩
  match hl : l.filter p, ha', hb', h with
  | [c], ha', hb', _ => rw [List.mem_singleton.mp ha', List.mem_singleton.mp hb']

theorem AcceptedDescriptor.stdin_unique {descriptor : List InvocationDescriptorEntry}
    {e e' : InvocationDescriptorEntry} (h : AcceptedDescriptor descriptor)
    (he : e ∈ descriptor) (hstyle : e.style = .stdin) (he' : e' ∈ descriptor)
    (hstyle' : e'.style = .stdin) : e = e' :=
  eq_of_countP_le_one h.stdin he (decide_eq_true hstyle) he' (decide_eq_true hstyle')

theorem validateInvocationDescriptor_accepts {cap : Json} {fnName : String}
    {descriptor : List InvocationDescriptorEntry}
    (hvalid : validateInvocationDescriptor (cap.property "invocationDescriptor") fnName = .ok [])
    (hdescriptor : descriptorOf cap = some descriptor) : AcceptedDescriptor descriptor := by
  unfold descriptorOf at hdescriptor
  split at hdescriptor
  · next entries hentries =>
      rw [hentries] at hvalid
      obtain ⟨scan, hscan, hmessages⟩ := bind_eq_ok.mp hvalid
      obtain ⟨herrors, hcount⟩ := List.append_eq_nil_iff.mp (Except.ok.inj hmessages)
      obtain ⟨-, descriptor', hread, hflags, hstdin⟩ :=
        DescriptorScan.readEntries_accepts hscan herrors
      rw [hdescriptor] at hread
      cases hread
      rw [complain_eq_nil, decide_eq_false_iff_not, hstdin] at hcount
      exact ⟨hflags, by simpa using hcount⟩
  · cases hdescriptor

theorem mapM_ok {α β : Type} {f : α → Except Failure β} {l : List α} {r : List β}
    (h : l.mapM f = .ok r) : ∀ a ∈ l, ∃ b ∈ r, f a = .ok b := by
  induction l generalizing r with
  | nil => nofun
  | cons a rest ih =>
      rw [List.mapM_cons] at h
      obtain ⟨b, hb, h⟩ := bind_eq_ok.mp h
      obtain ⟨bs, hbs, h⟩ := bind_eq_ok.mp h
      cases h
      intro a' ha'
      rcases List.mem_cons.mp ha' with rfl | ha'
      · exact ⟨b, List.mem_cons_self, hb⟩
      · obtain ⟨b', hb', hfb⟩ := ih hbs a' ha'
        exact ⟨b', List.mem_cons_of_mem _ hb', hfb⟩

/-- The descriptor of every function of an accepted registration has been checked
without a complaint. -/
theorem validateRegistration_descriptor {payload : RegistrationPayload} {capabilities : JsonObject}
    {fnName : String} {cap : Json} (hvalid : validateRegistration payload = .ok [])
    (hcapabilities : payload.capabilityMetadata = some (.obj capabilities))
    (hcap : (fnName, cap) ∈ capabilities) :
    validateInvocationDescriptor (cap.property "invocationDescriptor") fnName = .ok [] := by
  simp only [validateRegistration, hcapabilities] at hvalid
  obtain ⟨perFunction, hper, hall⟩ := bind_eq_ok.mp hvalid
  obtain ⟨hfront, -⟩ := List.append_eq_nil_iff.mp (Except.ok.inj hall)
  obtain ⟨-, hflat⟩ := List.append_eq_nil_iff.mp hfront
  obtain ⟨messages, hmem, hone⟩ := mapM_ok hper (fnName, cap) hcap
  have hnil : messages = [] := List.flatten_eq_nil_iff.mp hflat messages hmem
  subst hnil
  simp only [validateCapability] at hone
  split_ifs at hone with hobject
  · exact absurd (List.append_eq_nil_iff.mp (Except.ok.inj hone)).2 (List.cons_ne_nil _ _)
  · obtain ⟨descriptorErrors, hdesc, hone⟩ := bind_eq_ok.mp hone
    obtain ⟨stateErrors, -, hone⟩ := bind_eq_ok.mp hone
    have hempty : descriptorErrors = [] := by
      have hnil := Except.ok.inj hone
      simp only [List.append_eq_nil_iff] at hnil
      tauto
    rw [hdesc, hempty]

/-- Every function of an accepted registration has an accepted descriptor. -/
theorem validateRegistration_accepts {payload : RegistrationPayload} {capabilities : JsonObject}
    {fnName : String} {cap : Json} {descriptor : List InvocationDescriptorEntry}
    (hvalid : validateRegistration payload = .ok [])
    (hcapabilities : payload.capabilityMetadata = some (.obj capabilities))
    (hcap : (fnName, cap) ∈ capabilities) (hdescriptor : descriptorOf cap = some descriptor) :
    AcceptedDescriptor descriptor :=
  validateInvocationDescriptor_accepts
    (validateRegistration_descriptor hvalid hcapabilities hcap) hdescriptor

/-! ### What the worker has checked of a request -/

/-- What the worker guarantees of a value it renders as a path. -/
structure SafePath (path : String) : Prop where
  noDash : path.toList.head? ≠ some '-'
  noParent : hasParentSegment path = false

theorem assertHeavyBindingIsPath_ok {param path : String} {value : JsValue}
    (h : assertHeavyBindingIsPath param value = .ok path) :
    value = .json (.str path) ∧ SafePath path := by
  unfold assertHeavyBindingIsPath at h
  split at h
  · next s =>
      split_ifs at h with hempty
      obtain ⟨p, hsafe, h⟩ := bind_eq_ok.mp h
      simp only [assertSafeArgValue] at hsafe
      split_ifs at hsafe with hdash
      cases hsafe
      split_ifs at h with hparent
      cases h
      exact ⟨rfl, hdash, by simpa using hparent⟩
  · cases h

/-- The data file that an entry comes to. -/
def dataFileOf (resolvedInput : List (String × JsValue)) (stateId : Option String)
    (entry : InvocationDescriptorEntry) : Option AgentDataFile :=
  match entry.style, resolvedValue resolvedInput entry.param with
  | .flag, .json (.str path) => some { flag := entry.flagName, path, stateId }
  | .stdin, .json (.str path) => some { path, stateId, stdinFromPath := true }
  | _, _ => none

/-- What the worker has found of the value of an entry. -/
def ReadsPath (resolvedInput : List (String × JsValue)) (entry : InvocationDescriptorEntry) : Prop :=
  resolvedValue resolvedInput entry.param = .undefined ∨
    ∃ path, resolvedValue resolvedInput entry.param = .json (.str path) ∧ SafePath path

theorem renderEntries_ok {resolvedInput : List (String × JsValue)} {stateId : Option String}
    {entries : List InvocationDescriptorEntry} {rendered out : RenderedHeavyBindings}
    (h : renderEntries resolvedInput stateId entries rendered = .ok out) :
    (∀ e ∈ entries, ReadsPath resolvedInput e) ∧
      out.dataFiles = rendered.dataFiles ++ entries.filterMap (dataFileOf resolvedInput stateId) ∧
      ∀ q ∈ out.positionalByIndex, q ∈ rendered.positionalByIndex ∨ SafePath q.2 := by
  induction entries generalizing rendered with
  | nil =>
      cases h
      exact ⟨nofun, by simp, fun q hq => .inl hq⟩
  | cons e rest ih =>
      unfold renderEntries at h
      split at h
      · next hvalue =>
          obtain ⟨hreads, hfiles, hpositional⟩ := ih h
          refine ⟨?_, ?_, hpositional⟩
          · intro e' he'
            rcases List.mem_cons.mp he' with rfl | he'
            · exact .inl hvalue
            · exact hreads e' he'
          · rw [hfiles, List.filterMap_cons]
            cases hstyle : e.style <;> simp [dataFileOf, hstyle, hvalue]
      · obtain ⟨path, hpath, h⟩ := bind_eq_ok.mp h
        obtain ⟨hvalue, hsafe⟩ := assertHeavyBindingIsPath_ok hpath
        have hreads : ∀ e' ∈ e :: rest, (∀ e'' ∈ rest, ReadsPath resolvedInput e'') →
            ReadsPath resolvedInput e' := by
          intro e' he' hrest
          rcases List.mem_cons.mp he' with rfl | he'
          · exact .inr ⟨path, hvalue, hsafe⟩
          · exact hrest e' he'
        split at h
        · next hstyle =>
            obtain ⟨hrest, hfiles, hpositional⟩ := ih h
            refine ⟨fun e' he' => hreads e' he' hrest, ?_, hpositional⟩
            rw [hfiles, List.filterMap_cons]
            simp [dataFileOf, hstyle, hvalue]
        · next hstyle =>
            dsimp only at h
            split_ifs at h
            obtain ⟨hrest, hfiles, hpositional⟩ := ih h
            refine ⟨fun e' he' => hreads e' he' hrest, ?_, ?_⟩
            · rw [hfiles, List.filterMap_cons]
              simp [dataFileOf, hstyle, hvalue]
            · intro q hq
              rcases hpositional q hq with hq | hq
              · rcases List.mem_append.mp hq with hq | hq
                · exact .inl hq
                · rw [List.mem_singleton.mp hq]
                  exact .inr hsafe
              · exact .inr hq
        · next hstyle =>
            obtain ⟨hrest, hfiles, hpositional⟩ := ih h
            refine ⟨fun e' he' => hreads e' he' hrest, ?_, hpositional⟩
            rw [hfiles, List.filterMap_cons]
            simp [dataFileOf, hstyle, hvalue]

theorem translateArgs_ok {heavyParams : List String} {input : List (String × JsValue)}
    {args : List (String × String)} (h : translateArgs heavyParams input = .ok args) :
    ∀ a ∈ args, validArgFlagName a.1 = true := by
  induction input generalizing args with
  | nil =>
      cases h
      nofun
  | cons p rest ih =>
      unfold translateArgs at h
      split at h
      · exact ih h
      · split_ifs at h
        · exact ih h
        · obtain ⟨_, hname, h⟩ := bind_eq_ok.mp h
          obtain ⟨text, -, h⟩ := bind_eq_ok.mp h
          obtain ⟨rendered, hrest, h⟩ := bind_eq_ok.mp h
          cases h
          unfold assertValidArgFlagName at hname
          split_ifs at hname with hvalid
          intro a ha
          rcases List.mem_cons.mp ha with rfl | ha
          · exact hvalid
          · exact ih hrest a ha

/-! ### What the agent checks of it -/

/-- The request as the agent decodes it. -/
def AgentDataFile.onWire (file : AgentDataFile) : Agent.DataFile where
  flag := file.flag.getD ""
  path := file.path
  stateId := file.stateId.getD ""
  stdinFromPath := file.stdinFromPath

def InvokeRequest.onWire (request : InvokeRequest) : Agent.InvokeRequest where
  executionId := request.executionId
  stepId := request.stepId
  function := request.function
  args := request.args
  positionalArgs := request.positionalArgs.getD []
  dataFiles := (request.dataFiles.getD []).map AgentDataFile.onWire
  timeoutMs := request.timeoutMs

/-- The two languages name the same flags. -/
theorem flagNamePattern_eq (name : String) : Agent.flagNamePattern name = validArgFlagName name := rfl

theorem stripFlagPrefix_of_matches {flag : String} (h : matchesFlagNamePattern flag = true) :
    ∃ name, Agent.stripFlagPrefix flag = some name ∧ Agent.flagNamePattern name = true := by
  unfold matchesFlagNamePattern at h
  split at h
  · next name hflag =>
      cases name with
      | nil => simp [validArgFlagName] at h
      | cons c name =>
          refine ⟨String.ofList (c :: name), by rw [Agent.stripFlagPrefix, hflag]; rfl, ?_⟩
          rw [flagNamePattern_eq]
          exact h
  · cases h

theorem SafePath.agent {path : String} (h : SafePath path) :
    Agent.assertSafeArgvValue path = .ok () := by
  have hsegments : ∀ s ∈ path.toList.splitOnP fun c => c = '/' || c = '\\', s ≠ ['.', '.'] := by
    simpa [hasParentSegment] using h.noParent
  have hany : ((path.toList.splitOnP fun r => r = '/' || r = '\\').filter (· ≠ [])).any
      (· = ['.', '.']) = false := by
    rw [List.any_eq_false]
    intro s hs
    simpa using hsegments s (List.mem_filter.mp hs).1
  rw [Agent.assertSafeArgvValue, if_neg h.noDash, hany]
  rfl

section
variable {α : Type} {p q : α → Bool}

/-- Splitting at more symbols splits the pieces. -/
theorem splitOnP_refine (h : ∀ a, p a = true → q a = true) (l : List α) :
    l.splitOnP q = (l.splitOnP p).flatMap (·.splitOnP q) := by
  induction l with
  | nil => simp [List.splitOnP_nil]
  | cons a rest ih =>
      rw [List.splitOnP_cons_eq_if_modifyHead a rest, List.splitOnP_cons_eq_if_modifyHead a rest]
      cases hp : p a with
      | true => simp [h a hp, ih, List.splitOnP_nil]
      | false =>
          obtain ⟨piece, pieces, hpieces⟩ := List.exists_cons_of_ne_nil (List.splitOnP_ne_nil p rest)
          rw [ih, hpieces]
          simp only [Bool.false_eq_true, if_false, List.modifyHead_cons, List.flatMap_cons]
          rw [List.splitOnP_cons_eq_if_modifyHead a piece]
          cases hq : q a with
          | true => simp
          | false =>
              obtain ⟨part, parts, hparts⟩ :=
                List.exists_cons_of_ne_nil (List.splitOnP_ne_nil q piece)
              simp [hparts]

theorem splitOnP_of_none {l : List α} (h : ∀ a ∈ l, p a = false) : l.splitOnP p = [l] := by
  induction l with
  | nil => simp [List.splitOnP_nil]
  | cons a rest ih =>
      rw [List.splitOnP_cons_eq_if_modifyHead a rest, h a List.mem_cons_self,
        ih fun b hb => h b (List.mem_cons_of_mem _ hb)]
      rfl

end

/-- The agent looks for a parent segment between slashes only. -/
theorem SafePath.noTraversal {path : String} (h : SafePath path) :
    (path.toList.splitOnP (· = '/')).any (· = ['.', '.']) = false := by
  rw [List.any_eq_false]
  intro s hs hdots
  have hs' : s = ['.', '.'] := by simpa using hdots
  have hmem : s ∈ path.toList.splitOnP fun c => c = '/' || c = '\\' := by
    rw [splitOnP_refine (p := (· = '/')) (by simp +contextual)]
    refine List.mem_flatMap.mpr ⟨s, hs, ?_⟩
    have hplain : ∀ c ∈ s, (decide (c = '/') || decide (c = '\\')) = false := by
      intro c hc
      have hdot : c = '.' := by simpa [hs'] using hc
      subst hdot
      rfl
    rw [splitOnP_of_none hplain]
    exact List.mem_singleton_self s
  have hnone := h.noParent
  rw [hasParentSegment, List.any_eq_false] at hnone
  exact hnone s hmem hdots

namespace Agent

theorem argTokens_ok {args : List (String × String)}
    (h : ∀ a ∈ args, flagNamePattern a.1 = true) : ∃ tokens, argTokens args = .ok tokens := by
  induction args with
  | nil => exact ⟨[], rfl⟩
  | cons a rest ih =>
      obtain ⟨tokens, htokens⟩ := ih fun b hb => h b (List.mem_cons_of_mem _ hb)
      refine ⟨("--" ++ a.1) :: a.2 :: tokens, ?_⟩
      simp [argTokens, h a List.mem_cons_self, htokens, bind, Except.bind]

/-- A data file the agent takes: one for standard input, or one behind a flag. -/
def TakesFile (df : DataFile) : Prop :=
  df.stdinFromPath = false → (∃ name, stripFlagPrefix df.flag = some name ∧
    flagNamePattern name = true) ∧ assertSafeArgvValue df.path = .ok ()

theorem dataFileTokens_ok {files : List DataFile} (h : ∀ df ∈ files, TakesFile df) :
    ∃ tokens, dataFileTokens files = .ok tokens := by
  induction files with
  | nil => exact ⟨[], rfl⟩
  | cons df rest ih =>
      obtain ⟨tokens, htokens⟩ := ih fun d hd => h d (List.mem_cons_of_mem _ hd)
      cases hstdin : df.stdinFromPath with
      | true => exact ⟨tokens, by rw [dataFileTokens, if_pos hstdin, htokens]⟩
      | false =>
          obtain ⟨⟨name, hname, hpattern⟩, hsafe⟩ := h df List.mem_cons_self hstdin
          refine ⟨("--" ++ name) :: df.path :: tokens, ?_⟩
          simp [dataFileTokens, hstdin, hname, hpattern, hsafe, htokens, bind, Except.bind,
            Except.mapError, Option.filter]

theorem positionalTokens_ok {args : List String}
    (h : ∀ a ∈ args, assertSafeArgvValue a = .ok ()) :
    ∃ tokens, positionalTokens args = .ok tokens := by
  induction args with
  | nil => exact ⟨[], rfl⟩
  | cons a rest ih =>
      obtain ⟨tokens, htokens⟩ := ih fun b hb => h b (List.mem_cons_of_mem _ hb)
      refine ⟨a :: tokens, ?_⟩
      simp [positionalTokens, h a List.mem_cons_self, htokens, bind, Except.bind, Except.mapError]

theorem buildArgs_ok {req : InvokeRequest} (hargs : ∀ a ∈ req.args, flagNamePattern a.1 = true)
    (hfiles : ∀ df ∈ req.dataFiles, TakesFile df)
    (hpositional : ∀ a ∈ req.positionalArgs, assertSafeArgvValue a = .ok ()) :
    ∃ argv, buildArgs req = .ok argv := by
  obtain ⟨args, hargs⟩ := argTokens_ok hargs
  obtain ⟨files, hfiles⟩ := dataFileTokens_ok hfiles
  obtain ⟨positional, hpositional⟩ := positionalTokens_ok hpositional
  exact ⟨args ++ files ++ positional, by rw [buildArgs, hargs, hfiles, hpositional]; rfl⟩

end Agent

theorem getD_some_of_pos {α : Type} (l : List α) :
    (if 0 < l.length then some l else none).getD [] = l := by
  cases l <;> rfl

/-- The request of the worker, taken apart. -/
theorem buildInvokeRequest_ok {params : BuildInvokeRequestParams} {request : InvokeRequest}
    (h : buildInvokeRequest params = .ok request) :
    ∃ stateId, (∀ e ∈ params.capability.invocationDescriptor, ReadsPath params.resolvedInput e) ∧
      request.onWire.dataFiles = (params.capability.invocationDescriptor.filterMap
        (dataFileOf params.resolvedInput stateId)).map AgentDataFile.onWire ∧
      (∀ a ∈ request.onWire.positionalArgs, SafePath a) ∧
      ∀ a ∈ request.onWire.args, validArgFlagName a.1 = true := by
  obtain ⟨⟨dataFiles, positionalArgs⟩, hheavy, h⟩ := bind_eq_ok.mp h
  obtain ⟨args, hargs, h⟩ := bind_eq_ok.mp h
  obtain ⟨out, hout, hheavy⟩ := bind_eq_ok.mp hheavy
  obtain ⟨hreads, hfiles, hpositional⟩ := renderEntries_ok hout
  cases hheavy
  cases h
  refine ⟨if params.capability.stateReuse = .stateIdKeyed ∧ params.contentHash ≠ some "" then
    params.contentHash else none, hreads, ?_, ?_, ?_⟩
  · simp only [InvokeRequest.onWire, getD_some_of_pos]
    rw [hfiles]
    rfl
  · intro a ha
    simp only [InvokeRequest.onWire, getD_some_of_pos, List.mem_map] at ha
    obtain ⟨q, hq, rfl⟩ := ha
    rw [List.mem_insertionSort] at hq
    rcases hpositional q hq with hq | hsafe
    · cases hq
    · exact hsafe
  · exact translateArgs_ok hargs

section
variable {params : BuildInvokeRequestParams} {request : InvokeRequest}

/-- The arguments of a rendered request are never refused. -/
theorem buildArgs_accepts (haccepted : AcceptedDescriptor params.capability.invocationDescriptor)
    (h : buildInvokeRequest params = .ok request) :
    ∃ argv, Agent.buildArgs request.onWire = .ok argv := by
  obtain ⟨stateId, hreads, hfiles, hpositional, hargs⟩ := buildInvokeRequest_ok h
  apply Agent.buildArgs_ok
  · exact hargs
  · intro df hdf hstdin
    rw [hfiles] at hdf
    obtain ⟨file, hfile, rfl⟩ := List.mem_map.mp hdf
    obtain ⟨e, he, hentry⟩ := List.mem_filterMap.mp hfile
    rcases hreads e he with hundefined | ⟨path, hvalue, hsafe⟩
    · cases hstyle : e.style <;> simp [dataFileOf, hstyle, hundefined] at hentry
    · cases hstyle : e.style with
      | flag =>
          obtain ⟨name, hname, hmatch⟩ := haccepted.flags e he hstyle
          simp only [dataFileOf, hstyle, hvalue, Option.some.injEq] at hentry
          subst hentry
          refine ⟨?_, hsafe.agent⟩
          simp only [AgentDataFile.onWire, hname, Option.getD_some]
          exact stripFlagPrefix_of_matches hmatch
      | positional => simp [dataFileOf, hstyle] at hentry
      | stdin =>
          simp only [dataFileOf, hstyle, hvalue, Option.some.injEq] at hentry
          subst hentry
          cases hstdin
  · exact fun a ha => (hpositional a ha).agent

/-- Every value for standard input is an absolute path. -/
def StdinAbsolute (params : BuildInvokeRequestParams) : Prop :=
  ∀ e ∈ params.capability.invocationDescriptor, e.style = .stdin →
    ∀ path, resolvedValue params.resolvedInput e.param = .json (.str path) →
      path.toList.head? = some '/'

/-- The path that standard input is read from is the value of an entry of that
style, and the worker has looked at it. -/
theorem stdin_file_of_find {df : Agent.DataFile} (h : buildInvokeRequest params = .ok request)
    (hfind : request.onWire.dataFiles.find? (·.stdinFromPath) = some df) :
    ∃ e ∈ params.capability.invocationDescriptor, e.style = .stdin ∧
      resolvedValue params.resolvedInput e.param = .json (.str df.path) ∧ SafePath df.path := by
  obtain ⟨stateId, hreads, hfiles, -⟩ := buildInvokeRequest_ok h
  have hstdin : df.stdinFromPath = true := List.find?_some hfind
  have hmem := List.mem_of_find?_eq_some hfind
  rw [hfiles] at hmem
  obtain ⟨file, hfile, rfl⟩ := List.mem_map.mp hmem
  obtain ⟨e, he, hentry⟩ := List.mem_filterMap.mp hfile
  rcases hreads e he with hundefined | ⟨path, hvalue, hsafe⟩
  · cases hstyle : e.style <;> simp [dataFileOf, hstyle, hundefined] at hentry
  · cases hstyle : e.style with
    | flag =>
        simp only [dataFileOf, hstyle, hvalue, Option.some.injEq] at hentry
        subst hentry
        cases hstdin
    | positional => simp [dataFileOf, hstyle] at hentry
    | stdin =>
        simp only [dataFileOf, hstyle, hvalue, Option.some.injEq] at hentry
        subst hentry
        exact ⟨e, he, hstyle, hvalue, hsafe⟩

/-- The only entry for standard input gives the file that it is read from. -/
theorem find_stdin_file {e : InvocationDescriptorEntry} {path : String}
    (haccepted : AcceptedDescriptor params.capability.invocationDescriptor)
    (h : buildInvokeRequest params = .ok request)
    (he : e ∈ params.capability.invocationDescriptor) (hstyle : e.style = .stdin)
    (hvalue : resolvedValue params.resolvedInput e.param = .json (.str path)) :
    ∃ df, request.onWire.dataFiles.find? (·.stdinFromPath) = some df ∧ df.path = path := by
  obtain ⟨stateId, -, hfiles, -⟩ := buildInvokeRequest_ok h
  have hfile : dataFileOf params.resolvedInput stateId e =
      some { path, stateId, stdinFromPath := true } := by
    simp only [dataFileOf, hstyle, hvalue]
  have hmem : ({ path, stateId, stdinFromPath := true } : AgentDataFile).onWire ∈
      request.onWire.dataFiles := by
    rw [hfiles]
    exact List.mem_map_of_mem (List.mem_filterMap.mpr ⟨e, he, hfile⟩)
  cases hfind : request.onWire.dataFiles.find? (·.stdinFromPath) with
  | none => exact absurd rfl (List.find?_eq_none.mp hfind _ hmem)
  | some df =>
      obtain ⟨e', he', hstyle', hvalue', -⟩ := stdin_file_of_find h hfind
      have hunique : e' = e := haccepted.stdin_unique he' hstyle' he hstyle
      rw [hunique, hvalue] at hvalue'
      cases hvalue'
      exact ⟨df, rfl, rfl⟩

/-- The file for standard input is refused if its path is not absolute, and for
no other reason. -/
theorem stdinSource_accepts_iff
    (haccepted : AcceptedDescriptor params.capability.invocationDescriptor)
    (h : buildInvokeRequest params = .ok request) :
    (∃ source, Agent.stdinSource request.onWire = .ok source) ↔ StdinAbsolute params := by
  constructor
  · rintro ⟨source, hsource⟩ e he hstyle path hvalue
    obtain ⟨df, hfind, rfl⟩ := find_stdin_file haccepted h he hstyle hvalue
    rw [Agent.stdinSource, hfind] at hsource
    dsimp only at hsource
    split_ifs at hsource with habsolute
    by_contra hrelative
    exact habsolute hrelative
  · intro habsolute
    cases hfind : request.onWire.dataFiles.find? (·.stdinFromPath) with
    | none => exact ⟨_, by rw [Agent.stdinSource, hfind]⟩
    | some df =>
        obtain ⟨e, he, hstyle, hvalue, hsafe⟩ := stdin_file_of_find h hfind
        have hslash := habsolute e he hstyle df.path hvalue
        refine ⟨.file df.path, ?_⟩
        rw [Agent.stdinSource, hfind]
        simp [hslash, hsafe.noTraversal]

end

/-- The agent takes what the worker renders for an accepted registration exactly
if the values for standard input are absolute paths. -/
theorem agent_accepts_iff {payload : RegistrationPayload} {capabilities : JsonObject}
    {fnName : String} {cap : Json} {params : BuildInvokeRequestParams} {request : InvokeRequest}
    (hvalid : validateRegistration payload = .ok [])
    (hcapabilities : payload.capabilityMetadata = some (.obj capabilities))
    (hcap : (fnName, cap) ∈ capabilities)
    (hdescriptor : descriptorOf cap = some params.capability.invocationDescriptor)
    (hrequest : buildInvokeRequest params = .ok request) :
    ((∃ argv, Agent.buildArgs request.onWire = .ok argv) ∧
      ∃ source, Agent.stdinSource request.onWire = .ok source) ↔ StdinAbsolute params := by
  have haccepted := validateRegistration_accepts hvalid hcapabilities hcap hdescriptor
  rw [stdinSource_accepts_iff haccepted hrequest]
  exact and_iff_right (buildArgs_accepts haccepted hrequest)

/-- A function that reads its only heavy parameter from standard input. -/
def readerCapability : Json := .obj [("mutates", .bool false),
  ("materializationCostClass", .str "heavy"), ("cowSupport", .bool false),
  ("changeDetectionSupport", .bool false), ("nestingDeclaration", .null),
  ("invocationDescriptor", .arr [.obj [("param", .str "table"), ("style", .str "stdin")]]),
  ("stateReuse", .str "none"), ("additiveWarmUpdate", .bool false)]

def readerPayload : RegistrationPayload where
  digest := some (.str "sha256:a")
  ociRef := some (.str "registry/reader")
  openapiSpec := some (.obj [("paths", .obj [("/read", .obj [("post",
    .obj [("operationId", .str "read")])])])])
  capabilityMetadata := some (.obj [("read", readerCapability)])

/-- The worker's parameters for a step that passes `path` to that function. -/
def readerParams (path : String) : BuildInvokeRequestParams where
  executionId := 1
  step := { id := "s", service := "reader", function := "read" }
  resolvedInput := [("table", .json (.str path))]
  timeoutMs := 1000
  capability := { invocationDescriptor := [{ param := "table", style := .stdin }] }

/-- The request that is rendered for an absolute path and for a relative one. -/
def readerRequest (path : String) : InvokeRequest where
  executionId := "1"
  stepId := "s"
  function := "read"
  args := []
  positionalArgs := none
  dataFiles := some [{ path, stdinFromPath := true }]
  timeoutMs := 1000

theorem agent_accepts_iff_absolute :
    ((∃ argv, Agent.buildArgs (readerRequest "/data/t.csv").onWire = .ok argv) ∧
      ∃ source, Agent.stdinSource (readerRequest "/data/t.csv").onWire = .ok source) ↔
        StdinAbsolute (readerParams "/data/t.csv") :=
  agent_accepts_iff (show validateRegistration readerPayload = .ok [] from rfl) rfl
    (List.mem_singleton_self ("read", readerCapability)) rfl rfl

/-- A path relative to the working directory passes the checks of the worker and
is refused by the agent. -/
theorem relative_stdin_path_refused :
    validateRegistration readerPayload = .ok [] ∧
      buildInvokeRequest (readerParams "t.csv") = .ok (readerRequest "t.csv") ∧
      Agent.stdinSource (readerRequest "t.csv").onWire = .error (.stdinNotAbsolute "t.csv") := by
  refine ⟨rfl, rfl, rfl⟩

end WorkflowPlatform
