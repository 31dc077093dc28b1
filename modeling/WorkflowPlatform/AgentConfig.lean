import WorkflowPlatform.AgentApi

/-!
# The configuration of the agent

The agent is configured by the flags it is started with, and by one variable of
its environment. The flags are read as the `flag` package reads them, durations as
`time.ParseDuration` does: a sum of decimal numbers with units, which fits into 64
bits.

An invocation gets the time its request asks for, converted to nanoseconds in 64
bits. The cap on that time is what keeps the product in range, and a cap of less
than a millisecond is none.
-/
namespace WorkflowPlatform.Agent

/-- A string of the language, which is any sequence of bytes. -/
abbrev GoString := List UInt8

def bytes (text : String) : GoString := text.toUTF8.data.toList

/-! ### Durations -/

def isDigit (b : UInt8) : Bool := 0x30 ≤ b && b ≤ 0x39

/-- The digits a text begins with, as a number of at most 63 bits. -/
def leadingInt (x : ℕ) : GoString → Option (ℕ × GoString)
  | [] => some (x, [])
  | b :: rest =>
      if isDigit b = false then some (x, b :: rest)
      else if 2 ^ 63 / 10 < x then none
      else
        let x := x * 10 + (b.toNat - 0x30)
        if 2 ^ 63 < x then none else leadingInt x rest

/-- The digits of a fraction, those that 63 bits hold, and how many these are. -/
def leadingFraction (x scale : ℕ) (overflow : Bool) : GoString → ℕ × ℕ × GoString
  | [] => (x, scale, [])
  | b :: rest =>
      if isDigit b = false then (x, scale, b :: rest)
      else
        let y := x * 10 + (b.toNat - 0x30)
        if overflow = true ∨ (2 ^ 63 - 1) / 10 < x ∨ 2 ^ 63 < y then
          leadingFraction x scale true rest
        else leadingFraction y (scale + 1) false rest

def unitMap : List (GoString × ℕ) :=
  [(bytes "ns", 1), (bytes "us", 1000), (bytes "µs", 1000), (bytes "μs", 1000),
    (bytes "ms", 1000000), (bytes "s", 1000000000), (bytes "m", 60 * 1000000000),
    (bytes "h", 3600 * 1000000000)]

def isUnitByte (b : UInt8) : Bool := !(b = 0x2E || isDigit b)

/-- The digits before and after the point, with how many the latter are. -/
def parseNumber (s : GoString) : Option ((ℕ × ℕ × ℕ) × GoString) :=
  match leadingInt 0 s with
  | none => none
  | some (v, 0x2E :: digits) =>
      let (f, scale, rest) := leadingFraction 0 0 false digits
      let pre := digits.length + 1 ≠ s.length
      let post := rest.length ≠ digits.length
      if pre ∨ post then some ((v, f, scale), rest) else none
  | some (v, rest) =>
      let pre := rest.length ≠ s.length
      if pre then some ((v, 0, 0), rest) else none

def parseUnit (s : GoString) : Option (ℕ × GoString) :=
  let u := s.takeWhile isUnitByte
  if u = [] then none
  else (unitMap.lookup u).map fun unit => (unit, s.dropWhile isUnitByte)

theorem leadingInt_length {x v : ℕ} {s rest : GoString} (h : leadingInt x s = some (v, rest)) :
    rest.length ≤ s.length := by
  induction s generalizing x with
  | nil =>
      rw [leadingInt, Option.some.injEq, Prod.mk.injEq] at h
      exact Nat.le_of_eq (congrArg List.length h.2.symm)
  | cons b digits ih =>
      rw [leadingInt] at h
      dsimp only at h
      split_ifs at h
      · rw [Option.some.injEq, Prod.mk.injEq] at h
        exact Nat.le_of_eq (congrArg List.length h.2.symm)
      · exact Nat.le_succ_of_le (ih h)

theorem leadingFraction_length (x scale : ℕ) (overflow : Bool) (s : GoString) :
    (leadingFraction x scale overflow s).2.2.length ≤ s.length := by
  induction s generalizing x scale overflow with
  | nil => exact Nat.le_refl 0
  | cons b digits ih =>
      rw [leadingFraction]
      dsimp only
      split_ifs
      · exact Nat.le_refl _
      · exact Nat.le_succ_of_le (ih _ _ _)
      · exact Nat.le_succ_of_le (ih _ _ _)

theorem parseNumber_length {number : ℕ × ℕ × ℕ} {s rest : GoString}
    (h : parseNumber s = some (number, rest)) : rest.length ≤ s.length := by
  unfold parseNumber at h
  split at h
  · cases h
  · next v digits hint =>
      have hdigits := leadingInt_length hint
      have hfraction := leadingFraction_length 0 0 false digits
      rw [List.length_cons] at hdigits
      dsimp only at h
      split_ifs at h
      rw [Option.some.injEq, Prod.mk.injEq] at h
      rw [← h.2]
      exact Nat.le_trans hfraction (by omega)
  · next v afterInt _ hint =>
      dsimp only at h
      split_ifs at h
      rw [Option.some.injEq, Prod.mk.injEq] at h
      rw [← h.2]
      exact leadingInt_length hint

theorem parseUnit_length {unit : ℕ} {s rest : GoString} (h : parseUnit s = some (unit, rest)) :
    rest.length < s.length := by
  unfold parseUnit at h
  dsimp only at h
  split_ifs at h with hu
  obtain ⟨u, -, hpair⟩ := Option.map_eq_some_iff.mp h
  rw [Prod.mk.injEq] at hpair
  have hboth := congrArg List.length (s.takeWhile_append_dropWhile (p := isUnitByte))
  have hpos := List.length_pos_iff.mpr hu
  rw [List.length_append] at hboth
  rw [← hpair.2]
  omega

section
-- `uint64(float64(f) * (float64(unit) / scale))`: of `f`, the digits in `scale`, the unit
variable (fraction : ℕ → ℕ → ℕ → ℕ)

/-- A number of units in nanoseconds. -/
def amount (number : ℕ × ℕ × ℕ) (unit : ℕ) : Option ℕ :=
  let (v, f, scale) := number
  if 2 ^ 63 / unit < v then none
  else
    let v := v * unit
    if 0 < f then
      let v := (v + fraction f scale unit) % 2 ^ 64
      if 2 ^ 63 < v then none else some v
    else some v

/-- One number with its unit, and what follows it. -/
def parseTerm (s : GoString) : Option (ℕ × GoString) :=
  if s.head?.any isUnitByte then none
  else do
    let (number, afterNumber) ← parseNumber s
    let (unit, rest) ← parseUnit afterNumber
    let v ← amount fraction number unit
    some (v, rest)

theorem parseTerm_length {v : ℕ} {s rest : GoString} (h : parseTerm fraction s = some (v, rest)) :
    rest.length < s.length := by
  unfold parseTerm at h
  split_ifs at h
  simp only [Option.bind_eq_bind, Option.bind_eq_some_iff] at h
  obtain ⟨⟨number, afterNumber⟩, hnumber, ⟨unit, afterUnit⟩, hunit, w, -, hrest⟩ := h
  rw [Option.some.injEq, Prod.mk.injEq] at hrest
  rw [← hrest.2]
  exact Nat.lt_of_lt_of_le (parseUnit_length hunit) (parseNumber_length hnumber)

/-- The sum of the terms, which is of 64 bits and at most `2 ^ 63`. -/
def parseTerms (d : ℕ) (s : GoString) : Option ℕ :=
  if s = [] then some d
  else
    match h : parseTerm fraction s with
    | none => none
    | some (v, rest) =>
        let d := (d + v) % 2 ^ 64
        if 2 ^ 63 < d then none else parseTerms d rest
termination_by s.length
decreasing_by exact parseTerm_length fraction h

theorem parseTerms_term {d v : ℕ} {s rest : GoString} (hs : s ≠ [])
    (hterm : parseTerm fraction s = some (v, rest)) :
    parseTerms fraction d s =
      if 2 ^ 63 < (d + v) % 2 ^ 64 then none else parseTerms fraction ((d + v) % 2 ^ 64) rest := by
  rw [parseTerms, if_neg hs]
  split
  · next hnone => rw [hterm] at hnone; cases hnone
  · next v' rest' hsome =>
      rw [hterm, Option.some.injEq, Prod.mk.injEq] at hsome
      obtain ⟨rfl, rfl⟩ := hsome
      rfl

theorem parseTerms_le {d sum : ℕ} {s : GoString} (hd : d ≤ 2 ^ 63)
    (h : parseTerms fraction d s = some sum) : sum ≤ 2 ^ 63 := by
  induction d, s using parseTerms.induct fraction with
  | case1 d =>
      rw [parseTerms, if_pos rfl, Option.some.injEq] at h
      exact h ▸ hd
  | case2 d s hs hterm =>
      rw [parseTerms, if_neg hs] at h
      split at h
      · cases h
      · next hsome => rw [hterm] at hsome; cases hsome
  | case3 d s hs v rest hterm next hover =>
      rw [parseTerms_term fraction hs hterm, if_pos hover] at h
      cases h
  | case4 d s hs v rest hterm next hover ih =>
      rw [parseTerms_term fraction hs hterm, if_neg hover] at h
      exact ih (Nat.le_of_not_lt hover) h

def parseSign : GoString → Bool × GoString
  | 0x2D :: rest => (true, rest)
  | 0x2B :: rest => (false, rest)
  | s => (false, s)

/-- `time.ParseDuration` -/
def parseDuration (s : GoString) : Option ℤ :=
  let (neg, s) := parseSign s
  if s = bytes "0" then some 0
  else if s = [] then none
  else
    match parseTerms fraction 0 s with
    | none => none
    | some d =>
        if neg = true then some (-d)
        else if 2 ^ 63 - 1 < d then none
        else some d

/-- A duration is of 64 bits. -/
theorem parseDuration_range {s : GoString} {d : ℤ} (h : parseDuration fraction s = some d) :
    -2 ^ 63 ≤ d ∧ d < 2 ^ 63 := by
  unfold parseDuration at h
  dsimp only at h
  split at h
  · rw [← Option.some.inj h]
    decide
  · split at h
    · cases h
    · split at h
      · cases h
      · next sum hsum =>
          have hle := parseTerms_le fraction (Nat.zero_le _) hsum
          split_ifs at h <;> rw [← Option.some.inj h] <;> omega

/-! ### Flags -/

/-- The flags that `Parse` defines. -/
inductive Flag where
  | listen | exec | stateDir | dedupTTL | maxInvokeTimeout
deriving DecidableEq

def Flag.all : List Flag := [.listen, .exec, .stateDir, .dedupTTL, .maxInvokeTimeout]

def Flag.name : Flag → GoString
  | .listen => bytes "listen"
  | .exec => bytes "exec"
  | .stateDir => bytes "state-dir"
  | .dedupTTL => bytes "dedup-ttl"
  | .maxInvokeTimeout => bytes "max-invoke-timeout"

/-- The variables behind the flags, with their defaults. -/
structure FlagValues extends Config where
  listen : GoString := bytes ":9464"
  execPath : GoString := []
  stateDir : GoString := bytes "/var/run/agent-state"

inductive FlagError where
  | badSyntax (arg : GoString)
  | help
  | notDefined (name : GoString)
  | needsArgument (name : GoString)
  | invalidValue (value name : GoString)
deriving DecidableEq

/-- What one argument is to the `flag` package. -/
inductive Token where
  /-- The end of the flags: an argument that is no flag, or the terminator. -/
  | stop
  | bad
  | flag (name : GoString) (value : Option GoString)

def tokenOf : GoString → Token
  | 0x2D :: rest =>
      if rest = [] ∨ rest = [0x2D] then .stop
      else
        match (if rest.head? = some 0x2D then rest.tail else rest) with
        | [] => .bad
        | first :: name =>
            if first = 0x2D ∨ first = 0x3D then .bad
            else
              match name.dropWhile (· ≠ 0x3D) with
              | [] => .flag (first :: name) none
              | _ :: value => .flag (first :: name.takeWhile (· ≠ 0x3D)) (some value)
  | _ => .stop

def formal (name : GoString) : Except FlagError Flag :=
  match Flag.all.find? (·.name = name) with
  | some flag => .ok flag
  | none =>
      if name = bytes "help" ∨ name = bytes "h" then .error .help else .error (.notDefined name)

/-- `flag.Value.Set` -/
def FlagValues.set (values : FlagValues) (flag : Flag) (value : GoString) :
    Except FlagError FlagValues :=
  let duration (store : ℤ → FlagValues) : Except FlagError FlagValues :=
    match parseDuration fraction value with
    | some d => .ok (store d)
    | none => .error (.invalidValue value flag.name)
  match flag with
  | .listen => .ok { values with listen := value }
  | .exec => .ok { values with execPath := value }
  | .stateDir => .ok { values with stateDir := value }
  | .dedupTTL => duration fun d => { values with dedupTTL := d }
  | .maxInvokeTimeout => duration fun d => { values with maxInvokeTimeout := d }

/-- `FlagSet.Parse` -/
def parseFlags (values : FlagValues) : List GoString → Except FlagError FlagValues
  | [] => .ok values
  | arg :: rest =>
      match tokenOf arg with
      | .stop => .ok values
      | .bad => .error (.badSyntax arg)
      | .flag name (some value) =>
          match formal name with
          | .error err => .error err
          | .ok flag =>
              match values.set fraction flag value with
              | .error err => .error err
              | .ok values => parseFlags values rest
      | .flag name none =>
          match formal name, rest with
          | .error err, _ => .error err
          | .ok _, [] => .error (.needsArgument name)
          | .ok flag, value :: rest =>
              match values.set fraction flag value with
              | .error err => .error err
              | .ok values => parseFlags values rest

structure StartupConfig extends FlagValues where
  authToken : GoString

inductive ConfigError where
  | flag (err : FlagError)
  | config (text : String)
deriving DecidableEq

/-- `authToken` is the variable `AGENT_AUTH_TOKEN` of the environment. -/
def parse (authToken : GoString) (args : List GoString) : Except ConfigError StartupConfig :=
  match parseFlags fraction {} args with
  | .error err => .error (.flag err)
  | .ok values =>
      if values.execPath = [] then .error (.config "config: --exec is required")
      else .ok { values with authToken }

/-! ### The cap -/

/-- The durations are of 64 bits. -/
structure Config.InRange (cfg : Config) : Prop where
  dedupTTL : -2 ^ 63 ≤ cfg.dedupTTL ∧ cfg.dedupTTL < 2 ^ 63
  maxInvokeTimeout : -2 ^ 63 ≤ cfg.maxInvokeTimeout ∧ cfg.maxInvokeTimeout < 2 ^ 63

variable {fraction} {values values' : FlagValues}

theorem FlagValues.set_inRange {flag : Flag} {value : GoString} (hvalues : values.InRange)
    (h : values.set fraction flag value = .ok values') : values'.InRange := by
  unfold FlagValues.set at h
  cases flag with
  | listen | exec | stateDir =>
      rw [← Except.ok.inj h]
      exact hvalues
  | dedupTTL =>
      dsimp only at h
      split at h
      · next d hd =>
          rw [← Except.ok.inj h]
          exact ⟨parseDuration_range fraction hd, hvalues.maxInvokeTimeout⟩
      · cases h
  | maxInvokeTimeout =>
      dsimp only at h
      split at h
      · next d hd =>
          rw [← Except.ok.inj h]
          exact ⟨hvalues.dedupTTL, parseDuration_range fraction hd⟩
      · cases h

theorem parseFlags_inRange {args : List GoString} (hvalues : values.InRange)
    (h : parseFlags fraction values args = .ok values') : values'.InRange := by
  fun_induction parseFlags fraction values args with
  | case1 | case2 =>
      rw [← Except.ok.inj h]
      exact hvalues
  | case6 values arg rest name value htoken flag hflag next hset ih =>
      exact ih (FlagValues.set_inRange hvalues hset) h
  | case10 values arg name htoken flag value rest hflag next hset ih =>
      exact ih (FlagValues.set_inRange hvalues hset) h
  | _ => cases h

theorem parse_inRange {authToken : GoString} {args : List GoString} {cfg : StartupConfig}
    (h : parse fraction authToken args = .ok cfg) : cfg.InRange := by
  unfold parse at h
  split at h
  · cases h
  · next values hvalues =>
      split_ifs at h
      rw [← Except.ok.inj h]
      exact parseFlags_inRange ⟨by decide, by decide⟩ hvalues

/-- The time the request asks for, in nanoseconds. -/
def OwnTimeout (req : InvokeRequest) : Prop :=
  timeout req = req.timeoutMs * 1000000 ∧ 0 < timeout req

/-- An invocation gets the time its request asks for when the agent caps that time,
or the request asks for less than 292 years. -/
theorem timeout_own_iff {authToken : GoString} {args : List GoString} {cfg : StartupConfig}
    (hcfg : parse fraction authToken args = .ok cfg) {req : InvokeRequest}
    (hreq : checkRequest cfg.toConfig req = .ok ()) :
    OwnTimeout req ↔ 1000000 ≤ cfg.maxInvokeTimeout ∨ req.timeoutMs ≤ 9223372036854 := by
  obtain ⟨hpos, hcap⟩ := checkRequest_ok hreq
  have hrange := (parse_inRange hcfg).maxInvokeTimeout.2
  have hexact := timeout_eq_iff hpos
  constructor
  · intro ⟨hown, _⟩
    exact .inr (hexact.mp hown)
  · intro hsmall
    have hle : req.timeoutMs ≤ 9223372036854 := by
      rcases hsmall with hcapped | hle
      · exact Int.le_trans (hcap ((milliseconds_pos_iff _).mpr hcapped)) (milliseconds_le hrange)
      · exact hle
    have hown := hexact.mpr hle
    exact ⟨hown, by omega⟩

end

/-! ### A cap of nothing -/

/-- The exact product, rounded down. -/
def exactFraction (f scale unit : ℕ) : ℕ := f * unit / 10 ^ scale

def uncappedArgs : List GoString :=
  [bytes "--exec", bytes "/bin/true", bytes "--max-invoke-timeout", bytes "0"]

def uncappedConfig : StartupConfig where
  execPath := bytes "/bin/true"
  maxInvokeTimeout := 0
  authToken := []

theorem parse_uncappedArgs : parse exactFraction [] uncappedArgs = .ok uncappedConfig := rfl

def endlessRequest : InvokeRequest where
  executionId := "e1"
  stepId := "s1"
  function := "f"
  timeoutMs := 9223372036855

theorem endlessRequest_timeout : OwnTimeout endlessRequest ↔
    1000000 ≤ uncappedConfig.maxInvokeTimeout ∨ endlessRequest.timeoutMs ≤ 9223372036854 :=
  timeout_own_iff parse_uncappedArgs rfl

/-- An admitted request for 292 years, whose time is over before it begins. -/
theorem endlessRequest_wraps : parse exactFraction [] uncappedArgs = .ok uncappedConfig ∧
    checkRequest uncappedConfig.toConfig endlessRequest = .ok () ∧ ¬ OwnTimeout endlessRequest ∧
    timeout endlessRequest < 0 := by
  refine ⟨rfl, rfl, ?_, by decide⟩
  intro hown
  exact absurd hown.2 (by decide)

end WorkflowPlatform.Agent
