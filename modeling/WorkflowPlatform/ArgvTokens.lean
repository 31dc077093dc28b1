import WorkflowPlatform.Errors
import WorkflowPlatform.ExecRunner

/-!
# The tokens of a command line

What the agent passes to a subprocess is a list of flags, each with its value,
and then the positional arguments. A subprocess that takes a leading dash for a
flag reads this list as it was meant only if no value starts with one. The agent
looks for a dash in the paths of data files and in positional arguments. It does
not look at the values of `args`.
-/
namespace WorkflowPlatform.Agent

def startsWithDash (token : String) : Bool := token.toList.head? = some '-'

/-- Flags, each followed by its value. -/
def flagTokens (pairs : List (String × String)) : List String :=
  pairs.flatMap fun p => ["--" ++ p.1, p.2]

theorem flagTokens_cons (p : String × String) (pairs : List (String × String)) :
    flagTokens (p :: pairs) = ("--" ++ p.1) :: p.2 :: flagTokens pairs := rfl

theorem flagTokens_append (pairs pairs' : List (String × String)) :
    flagTokens (pairs ++ pairs') = flagTokens pairs ++ flagTokens pairs' := List.flatMap_append

theorem flagTokens_injective {pairs pairs' : List (String × String)}
    (h : flagTokens pairs = flagTokens pairs') : pairs = pairs' := by
  induction pairs generalizing pairs' with
  | nil =>
      cases pairs' with
      | nil => rfl
      | cons p' rest' => cases h
  | cons p rest ih =>
      cases pairs' with
      | nil => cases h
      | cons p' rest' =>
          rw [flagTokens_cons, flagTokens_cons, List.cons.injEq, List.cons.injEq] at h
          obtain ⟨hname, hvalue, hrest⟩ := h
          have hname' : p.1 = p'.1 := by
            have hlist := congrArg String.toList hname
            rw [String.toList_append, String.toList_append] at hlist
            exact String.toList_injective (List.append_cancel_left hlist)
          rw [Prod.ext hname' hvalue, ih hrest]

theorem assertSafeArgvValue_noDash {value : String} (h : assertSafeArgvValue value = .ok ()) :
    startsWithDash value = false := by
  unfold assertSafeArgvValue at h
  split_ifs at h with hdash
  exact decide_eq_false hdash

theorem argTokens_eq {args : List (String × String)} {tokens : List String}
    (h : argTokens args = .ok tokens) :
    tokens = flagTokens args ∧ ∀ p ∈ args, flagNamePattern p.1 = true := by
  induction args generalizing tokens with
  | nil =>
      cases h
      exact ⟨rfl, nofun⟩
  | cons p rest ih =>
      unfold argTokens at h
      split_ifs at h with hname
      obtain ⟨tail, htail, h⟩ := bind_eq_ok.mp h
      cases h
      obtain ⟨rfl, hrest⟩ := ih htail
      refine ⟨rfl, ?_⟩
      intro q hq
      rcases List.mem_cons.mp hq with rfl | hq
      · simpa using hname
      · exact hrest q hq

/-- The flag and the path of a data file that is not for standard input. -/
def filePair (df : DataFile) : Option (String × String) :=
  if df.stdinFromPath then none else (stripFlagPrefix df.flag).map fun name => (name, df.path)

theorem dataFileTokens_eq {files : List DataFile} {tokens : List String}
    (h : dataFileTokens files = .ok tokens) :
    tokens = flagTokens (files.filterMap filePair) ∧
      ∀ p ∈ files.filterMap filePair, flagNamePattern p.1 = true ∧ startsWithDash p.2 = false := by
  induction files generalizing tokens with
  | nil =>
      cases h
      exact ⟨rfl, nofun⟩
  | cons df rest ih =>
      unfold dataFileTokens at h
      split_ifs at h with hstdin
      · have hnone : filePair df = none := if_pos hstdin
        rw [List.filterMap_cons_none hnone]
        exact ih h
      · split at h
        · cases h
        · next name hfilter =>
            obtain ⟨hname, hpattern⟩ := Option.filter_eq_some_iff.mp hfilter
            have hpair : filePair df = some (name, df.path) := by
              rw [filePair, if_neg hstdin, hname]
              rfl
            rw [List.filterMap_cons_some hpair]
            obtain ⟨u, hsafe, h⟩ := bind_eq_ok.mp h
            obtain ⟨tail, htail, h⟩ := bind_eq_ok.mp h
            cases h
            obtain ⟨rfl, hrest⟩ := ih htail
            refine ⟨rfl, ?_⟩
            intro q hq
            rcases List.mem_cons.mp hq with rfl | hq
            · exact ⟨hpattern, assertSafeArgvValue_noDash (mapError_eq_ok.mp hsafe)⟩
            · exact hrest q hq

theorem positionalTokens_eq {args tokens : List String} (h : positionalTokens args = .ok tokens) :
    tokens = args ∧ ∀ a ∈ args, startsWithDash a = false := by
  induction args generalizing tokens with
  | nil =>
      cases h
      exact ⟨rfl, nofun⟩
  | cons a rest ih =>
      obtain ⟨u, hsafe, h⟩ := bind_eq_ok.mp h
      obtain ⟨tail, htail, h⟩ := bind_eq_ok.mp h
      cases h
      obtain ⟨rfl, hrest⟩ := ih htail
      refine ⟨rfl, ?_⟩
      intro b hb
      rcases List.mem_cons.mp hb with rfl | hb
      · exact assertSafeArgvValue_noDash (mapError_eq_ok.mp hsafe)
      · exact hrest b hb

/-- The flags that a request comes to, with their values. -/
def flagPairs (req : InvokeRequest) : List (String × String) :=
  req.args ++ req.dataFiles.filterMap filePair

theorem buildArgs_eq {req : InvokeRequest} {argv : List String} (h : buildArgs req = .ok argv) :
    argv = flagTokens (flagPairs req) ++ req.positionalArgs ∧
      (∀ p ∈ flagPairs req, flagNamePattern p.1 = true) ∧
      (∀ p ∈ req.dataFiles.filterMap filePair, startsWithDash p.2 = false) ∧
      ∀ a ∈ req.positionalArgs, startsWithDash a = false := by
  obtain ⟨args, hargs, h⟩ := bind_eq_ok.mp h
  obtain ⟨files, hfiles, h⟩ := bind_eq_ok.mp h
  obtain ⟨positional, hpositional, h⟩ := bind_eq_ok.mp h
  cases h
  obtain ⟨rfl, hnames⟩ := argTokens_eq hargs
  obtain ⟨rfl, hflags⟩ := dataFileTokens_eq hfiles
  obtain ⟨rfl, hdash⟩ := positionalTokens_eq hpositional
  refine ⟨by rw [flagPairs, flagTokens_append], ?_, fun p hp => (hflags p hp).2, hdash⟩
  intro p hp
  rcases List.mem_append.mp hp with hp | hp
  · exact hnames p hp
  · exact (hflags p hp).1

/-- A command line of flags with their values and then the positional arguments of
the request, in which only the flags start with a dash. -/
def InjectionSafe (req : InvokeRequest) (argv : List String) : Prop :=
  ∃ pairs : List (String × String), argv = flagTokens pairs ++ req.positionalArgs ∧
    (∀ p ∈ pairs, flagNamePattern p.1 = true) ∧ (∀ p ∈ pairs, startsWithDash p.2 = false) ∧
    ∀ a ∈ req.positionalArgs, startsWithDash a = false

/-- The command line of a request cannot be misread exactly if no value among its
`args` starts with a dash: that is the one kind of token the agent does not check. -/
theorem buildArgs_injectionSafe_iff {req : InvokeRequest} {argv : List String}
    (h : buildArgs req = .ok argv) :
    InjectionSafe req argv ↔ ∀ p ∈ req.args, startsWithDash p.2 = false := by
  obtain ⟨hargv, hnames, hfiles, hpositional⟩ := buildArgs_eq h
  constructor
  · rintro ⟨pairs, hpairs, -, hvalues, -⟩ p hp
    rw [hargv] at hpairs
    have hsame : flagPairs req = pairs := flagTokens_injective (List.append_cancel_right hpairs)
    apply hvalues
    rw [← hsame]
    exact List.mem_append_left _ hp
  · intro hargs
    refine ⟨flagPairs req, hargv, hnames, ?_, hpositional⟩
    intro p hp
    rcases List.mem_append.mp hp with hp | hp
    · exact hargs p hp
    · exact hfiles p hp

theorem buildArgs_injectionSafe_report :
    InjectionSafe { executionId := "1", stepId := "s", function := "f", timeoutMs := 1
                    args := [("mode", "fast")], positionalArgs := ["/data/t"] }
      ["--mode", "fast", "/data/t"] :=
  (buildArgs_injectionSafe_iff rfl).mpr (by decide)

/-- A value that is a flag reaches the command line as one. -/
theorem arg_value_injected :
    buildArgs { executionId := "1", stepId := "s", function := "f", timeoutMs := 1
                args := [("mode", "--output=/etc/passwd")] } =
        .ok ["--mode", "--output=/etc/passwd"] ∧
      ¬ InjectionSafe { executionId := "1", stepId := "s", function := "f", timeoutMs := 1
                        args := [("mode", "--output=/etc/passwd")] }
        ["--mode", "--output=/etc/passwd"] := by
  refine ⟨rfl, ?_⟩
  rintro ⟨pairs, hpairs, -, hvalues, -⟩
  have hsame : [("mode", "--output=/etc/passwd")] = pairs := by
    apply flagTokens_injective
    rw [List.append_nil] at hpairs
    exact hpairs
  subst hsame
  have hdash := hvalues _ List.mem_cons_self
  exact absurd hdash (by decide)

end WorkflowPlatform.Agent
