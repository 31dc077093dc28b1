import WorkflowPlatform.AgentApi
import WorkflowPlatform.JsonScanner

/-!
# Running the wrapped command line

The arguments and the input of the subprocess, made from a request, and the
response, made from what the subprocess has written and how it ended. The two
buffers keep the first bytes of a stream and drop the rest.
-/
namespace WorkflowPlatform.Agent

/-- `/^[a-zA-Z][a-zA-Z0-9-]*$/` -/
def flagNamePattern (name : String) : Bool :=
  match name.toList with
  | [] => false
  | c :: rest => c.isAlpha && rest.all fun d => d.isAlphanum || d = '-'

inductive ArgvError where
  | looksLikeFlag (value : String)
  | pathTraversal (value : String)

inductive RunnerError where
  | invalidArgFlagName (flagName : String)
  | invalidDataFileFlag (flag : String)
  | dataFilePath (flag : String) (err : ArgvError)
  | positionalArg (err : ArgvError)
  | stdinNotAbsolute (path : String)
  | stdinTraversal (path : String)

section
-- `%q`
variable (quote : String → String)

def ArgvError.text : ArgvError → String
  | .looksLikeFlag value => s!"value {quote value} looks like a flag (starts with '-')"
  | .pathTraversal value => s!"value {quote value} contains a path-traversal segment"

def RunnerError.text : RunnerError → String
  | .invalidArgFlagName flagName => s!"execrunner: invalid arg flag name {quote flagName}"
  | .invalidDataFileFlag flag => s!"execrunner: invalid dataFile flag {quote flag}"
  | .dataFilePath flag err =>
      s!"execrunner: dataFile path for flag {quote flag}: {ArgvError.text quote err}"
  | .positionalArg err => s!"execrunner: positional arg: {ArgvError.text quote err}"
  | .stdinNotAbsolute path =>
      s!"execrunner: stdin-from-path {quote path} must be an absolute path"
  | .stdinTraversal path =>
      s!"execrunner: stdin-from-path {quote path} contains a path-traversal segment"

end

def assertSafeArgvValue (value : String) : Except ArgvError Unit :=
  if value.toList.head? = some '-' then .error (.looksLikeFlag value)
  else if ((value.toList.splitOnP fun r => r = '/' || r = '\\').filter (· ≠ [])).any (· = ['.', '.'])
  then .error (.pathTraversal value)
  else .ok ()

def stripFlagPrefix (flag : String) : Option String :=
  match flag.toList with
  | '-' :: '-' :: c :: name => some (String.ofList (c :: name))
  | _ => none

def argTokens : List (String × String) → Except RunnerError (List String)
  | [] => .ok []
  | (flagName, value) :: rest =>
      if !flagNamePattern flagName then .error (.invalidArgFlagName flagName)
      else do
        let args ← argTokens rest
        .ok (("--" ++ flagName) :: value :: args)

def dataFileTokens : List DataFile → Except RunnerError (List String)
  | [] => .ok []
  | df :: rest =>
      if df.stdinFromPath then dataFileTokens rest
      else match (stripFlagPrefix df.flag).filter flagNamePattern with
        | none => .error (.invalidDataFileFlag df.flag)
        | some name => do
            (assertSafeArgvValue df.path).mapError (.dataFilePath df.flag)
            let args ← dataFileTokens rest
            .ok (("--" ++ name) :: df.path :: args)

def positionalTokens : List String → Except RunnerError (List String)
  | [] => .ok []
  | positional :: rest => do
      (assertSafeArgvValue positional).mapError .positionalArg
      let args ← positionalTokens rest
      .ok (positional :: args)

def buildArgs (req : InvokeRequest) : Except RunnerError (List String) := do
  let args ← argTokens req.args
  let dataFiles ← dataFileTokens req.dataFiles
  let positional ← positionalTokens req.positionalArgs
  .ok (args ++ dataFiles ++ positional)

/-- What the subprocess reads: a file that is yet to be opened, bytes, or nothing. -/
inductive StdinSource where
  | file (path : String)
  | bytes (data : List UInt8)
  | unset

def stdinSource (req : InvokeRequest) : Except RunnerError StdinSource :=
  match req.dataFiles.find? (·.stdinFromPath) with
  | some df =>
      if df.path.toList.head? ≠ some '/' then .error (.stdinNotAbsolute df.path)
      else if (df.path.toList.splitOnP (· = '/')).any (· = ['.', '.']) then
        .error (.stdinTraversal df.path)
      else .ok (.file df.path)
  | none => .ok (if req.stdin.isEmpty then .unset else .bytes req.stdin)

/-! ### The buffers and the response -/

/-- 8 MiB for each stream -/
def maxCapturedOutputBytes : ℕ := 8388608

structure LimitedBuffer where
  buf : List UInt8 := []
  max : ℕ

/-- `Write`, and the number of bytes it reports. -/
def LimitedBuffer.write (l : LimitedBuffer) (p : List UInt8) : LimitedBuffer × ℕ :=
  let remaining : ℤ := l.max - l.buf.length
  if remaining ≤ 0 then (l, p.length)
  else if remaining < p.length then
    ({ l with buf := l.buf ++ p.take remaining.toNat }, p.length)
  else ({ l with buf := l.buf ++ p }, p.length)

def LimitedBuffer.writeAll (l : LimitedBuffer) (writes : List (List UInt8)) : LimitedBuffer :=
  writes.foldl (fun l p => (l.write p).1) l

/-- What `cmd.Run` returns if not nil. -/
inductive RunErr where
  | exitError (code : ℤ)
  | other (text : String)

/-- What a subprocess writes to its streams, and how it ends. -/
structure ProcessRun where
  stdout : List (List UInt8)
  stderr : List (List UInt8) := []
  runErr : Option RunErr := none
  deadlineExceeded : Bool := false

inductive Status where
  | ok
  | error
  | timeout
deriving DecidableEq

def Status.text : Status → String
  | .ok => "ok"
  | .error => "error"
  | .timeout => "timeout"

structure InvokeResponse where
  status : Status
  stdout : List UInt8 := []
  stderr : List UInt8 := []
  exitCode : ℤ
  output : Option ParsedJson := none

/-- The most arrays and objects inside one another that `json.Unmarshal` reads. -/
def maxNestingDepth : ℕ := 10000

section
variable (quote : String → String) (read : JsonScanner.Readings)

/-- `json.Unmarshal` into a `json.RawMessage`. The text itself is passed on; what it
denotes is given here. -/
def unmarshal (text : List UInt8) : Option ParsedJson :=
  if JsonScanner.nesting read text ≤ maxNestingDepth then JsonScanner.parse read text else none

def failedResponse (err : RunnerError) : InvokeResponse where
  status := .error
  exitCode := -1
  stderr := (err.text quote).toUTF8.toList

/-- The response to a subprocess that has been started. -/
def response (p : ProcessRun) : InvokeResponse :=
  let stdout := (({ max := maxCapturedOutputBytes } : LimitedBuffer).writeAll p.stdout).buf
  let stderr := (({ max := maxCapturedOutputBytes } : LimitedBuffer).writeAll p.stderr).buf
  match p.runErr with
  | none => { status := .ok, stdout, stderr, exitCode := 0, output := unmarshal read stdout }
  | some err =>
      if p.deadlineExceeded then { status := .timeout, stdout, stderr, exitCode := -1 }
      else match err with
        | .exitError code => { status := .error, stdout, stderr, exitCode := code }
        | .other text =>
            { status := .error, stdout
              stderr := if stderr.isEmpty then text.toUTF8.toList else stderr
              exitCode := -1 }

def run (req : InvokeRequest) (p : ProcessRun) : InvokeResponse :=
  match buildArgs req, stdinSource req with
  | .error err, _ => failedResponse quote err
  | .ok _, .error err => failedResponse quote err
  | .ok _, .ok _ => response read p

end
end WorkflowPlatform.Agent
