import WorkflowPlatform.AgentAnswers
import WorkflowPlatform.JsNumbers
import WorkflowPlatform.RequestRendering

/-!
# From standard output to the checkpoint

What a command line writes is kept up to a limit, parsed, put into a response,
read by the worker and recorded. An object gets as far as the worker if its text
fits into the buffer and is not nested too deep for the parser. If not, the response
has no output, and the worker takes that for the empty object. It is recorded as it
is if, besides, the store does not refuse it and none of its numerals is so large
that it is read as an infinity.
-/
namespace WorkflowPlatform

namespace Agent

section
-- the text of bytes that are taken for UTF-8
variable (decode : List UInt8 → String)

/-- The body of a response as the worker decodes it. -/
def InvokeResponse.onWire (response : InvokeResponse) : ParsedJson :=
  .obj ([(.text "status", .str (.text response.status.text)),
    (.text "stdout", .str (.text (decode response.stdout))),
    (.text "stderr", .str (.text (decode response.stderr))),
    (.text "exitCode", .num (.finite (JsNumber.ofInt response.exitCode)))] ++
      (response.output.map fun output => (JsString.text "output", output)).toList)

theorem readDispatch_absent {response : InvokeResponse} (hstatus : response.status = .ok)
    (houtput : response.output = none) :
    readDispatch (response.onWire decode) = .ok (.ok []) := by
  simp only [InvokeResponse.onWire, hstatus, houtput]
  rfl

theorem readDispatch_object {response : InvokeResponse} {fields : ParsedObject}
    (hstatus : response.status = .ok) (houtput : response.output = some (.obj fields)) :
    readDispatch (response.onWire decode) = .ok (.ok fields) := by
  simp only [InvokeResponse.onWire, hstatus, houtput]
  rfl

end

/-! ### The buffer -/

theorem LimitedBuffer.write_max (l : LimitedBuffer) (p : List UInt8) :
    (l.write p).1.max = l.max := by
  simp only [write]
  split_ifs <;> rfl

/-- The buffer holds the first bytes of what has been written. -/
theorem LimitedBuffer.write_buf {l : LimitedBuffer} {written : List UInt8}
    (hl : l.buf = written.take l.max) (p : List UInt8) :
    (l.write p).1.buf = (written ++ p).take l.max := by
  have hlength : l.buf.length = min l.max written.length := by rw [hl, List.length_take]
  rw [List.take_append]
  simp only [write]
  split_ifs with hfull hcut
  · have hnone : l.max - written.length = 0 := by omega
    rw [hnone, List.take_zero, List.append_nil, hl]
  · have hleft : l.max - written.length = ((l.max : ℤ) - l.buf.length).toNat := by omega
    rw [hleft, hl]
  · have hall : p.length ≤ l.max - written.length := by omega
    rw [List.take_of_length_le hall, hl]

theorem LimitedBuffer.writeAll_buf {l : LimitedBuffer} {written : List UInt8}
    (hl : l.buf = written.take l.max) (writes : List (List UInt8)) :
    (l.writeAll writes).buf = (written ++ writes.flatten).take l.max := by
  induction writes generalizing l written with
  | nil => rw [List.flatten_nil, List.append_nil, ← hl, writeAll, List.foldl_nil]
  | cons p rest ih =>
      have hnext : (l.write p).1.buf = (written ++ p).take (l.write p).1.max := by
        rw [l.write_max, write_buf hl]
      rw [List.flatten_cons, ← List.append_assoc, ← l.write_max p]
      exact ih hnext

/-- However the bytes are cut into writes, the first of them are kept. -/
theorem captured_eq (max : ℕ) (writes : List (List UInt8)) :
    (({ max } : LimitedBuffer).writeAll writes).buf = writes.flatten.take max := by
  have hempty : ({ max } : LimitedBuffer).buf = ([] : List UInt8).take max := List.take_nil.symm
  exact LimitedBuffer.writeAll_buf hempty writes

/-! ### The response -/

/-- The text fits into the buffer and is not nested too deep. -/
def Fits (read : JsonScanner.Readings) (stdout : List UInt8) : Prop :=
  (JsonScanner.trimEnd stdout).length ≤ maxCapturedOutputBytes ∧
    JsonScanner.nesting read (JsonScanner.trimEnd stdout) ≤ maxNestingDepth

instance (read : JsonScanner.Readings) (stdout : List UInt8) : Decidable (Fits read stdout) :=
  inferInstanceAs (Decidable (_ ∧ _))

section
variable {quote : String → String} {read : JsonScanner.Readings} {stdout : List UInt8}
variable {fields : ParsedObject}

theorem unmarshal_captured (h : JsonScanner.parse read stdout = some (.obj fields)) :
    unmarshal read (stdout.take maxCapturedOutputBytes) =
      if Fits read stdout then some (.obj fields) else none := by
  have hspace : ∀ c ∈ stdout.rtakeWhile JsonScanner.isSpace, JsonScanner.isSpace c = true :=
    fun c hc => List.mem_rtakeWhile_imp hc
  have htext : JsonScanner.trimEnd stdout ++ stdout.rtakeWhile JsonScanner.isSpace = stdout :=
    List.rdropWhile_append_rtakeWhile ..
  rw [unmarshal, JsonScanner.parse_take h fun n => by simp]
  by_cases hlength : (JsonScanner.trimEnd stdout).length ≤ maxCapturedOutputBytes
  · have hnesting : JsonScanner.nesting read (stdout.take maxCapturedOutputBytes) =
        JsonScanner.nesting read (JsonScanner.trimEnd stdout) := by
      rw [← htext, List.take_append, List.take_of_length_le hlength, htext]
      exact JsonScanner.nestingFrom_append_space _ fun c hc => hspace c (List.mem_of_mem_take hc)
    rw [hnesting, if_pos hlength]
    simp [Fits, hlength]
  · have hfits : ¬ Fits read stdout := fun hfits => hlength hfits.1
    rw [if_neg hlength, if_neg hfits]
    split_ifs <;> rfl

/-- What the worker reads from the response to a subprocess that has written an
object and exited with 0. -/
theorem readDispatch_run {req : InvokeRequest} {p : ProcessRun} {argv : List String}
    {source : StdinSource} (hargs : buildArgs req = .ok argv)
    (hstdin : stdinSource req = .ok source) (hexit : p.runErr = none)
    (hstdout : JsonScanner.parse read p.stdout.flatten = some (.obj fields))
    (decode : List UInt8 → String) :
    readDispatch ((run quote read req p).onWire decode) =
      .ok (.ok (if Fits read p.stdout.flatten then fields else [])) := by
  have hresponse : run quote read req p = response read p := by
    rw [run, hargs, hstdin]
  have hstatus : (response read p).status = .ok := by
    simp only [response, hexit]
  have houtput : (response read p).output =
      if Fits read p.stdout.flatten then some (.obj fields) else none := by
    rw [← unmarshal_captured hstdout, ← captured_eq]
    simp only [response, hexit]
  rw [hresponse]
  split_ifs at houtput ⊢
  · exact readDispatch_object decode hstatus houtput
  · exact readDispatch_absent decode hstatus houtput

end
end Agent

/-! ### The checkpoint -/

/-- The answer is the agent's response to the request, which it accepts, after such a
run of the subprocess. -/
structure AnswersWith (quote : String → String) (decode : List UInt8 → String)
    (read : JsonScanner.Readings) (p : Agent.ProcessRun) (request : InvokeRequest)
    (answer : FetchOutcome) : Prop where
  args : ∃ argv, Agent.buildArgs request.onWire = .ok argv
  stdin : ∃ source, Agent.stdinSource request.onWire = .ok source
  answer : ∃ text, answer = .response 200 (.complete text
    (some ((Agent.run quote read request.onWire p).onWire decode)))

/-- What `dispatchStep` returns. -/
def dispatched (deps : WorkerDeps) (c : Choice) (locked : Row → Bool) (db : Db)
    (params : BuildInvokeRequestParams) : Except Failure DispatchResult :=
  ((dispatchStep deps.agentBaseUrl params deps.agentAuthToken).run
    (platform.handle c locked db) {}).1

/-- The object is what a cycle gets for the request it sends, and what it commits for
its execution, as checkpoint and as output of the step. -/
structure OutputKept (deps : WorkerDeps) (c : Choice) (locked : Row → Bool) (db : Db)
    (id : ℕ) (e : Execution) (runId : ℕ) (request : InvokeRequest) (fields : ParsedObject) :
    Prop where
  dispatched : ∀ params, buildInvokeRequest params = .ok request →
    WorkflowPlatform.dispatched deps c locked db params = .ok (.ok fields)
  committed : (runOnce deps c locked db).1 = true
  checkpoint : ((runOnce deps c locked db).2.checkpoints id e.step).map ParsedJson.ofFields =
    some fields
  output : (((runOnce deps c locked db).2.runNodeOutputs runId).lookup e.step).map
    ParsedJson.ofFields = some fields

/-- No other object is there for the execution or the step; the inserts would keep it. -/
structure NoOtherRecorded (db : Db) (id : ℕ) (e : Execution) (runId : ℕ)
    (fields : ParsedObject) : Prop where
  checkpoint : ∀ earlier, db.checkpoints id e.step = some earlier →
    ParsedJson.ofFields earlier = fields
  output : ∀ earlier, (db.runNodeOutputs runId).lookup e.step = some earlier →
    ParsedJson.ofFields earlier = fields

section
variable {deps : WorkerDeps} {c : Choice} {locked : Row → Bool} {db : Db}
variable {params : BuildInvokeRequestParams} {request : InvokeRequest} {fields : ParsedObject}
variable {id : ℕ} {e : Execution} {runId : ℕ} {run : WorkflowRun} {node : Step}

theorem dispatched_eq (hparams : buildInvokeRequest params = .ok request) :
    dispatched deps c locked db params = answerResult deps c.answer := by
  rw [dispatched, run_dispatchStep, hparams]
  rfl

/-- The parameters that a cycle builds its request from. -/
theorem stepRequest_params (h : stepRequest deps db runId run id e = .ok (node, request)) :
    ∃ params, buildInvokeRequest params = .ok request := by
  simp only [stepRequest, bind_eq_ok, Except.ok.injEq, Prod.mk.injEq] at h
  obtain ⟨_, -, _, -, _, hrequest, -, rfl⟩ := h
  exact ⟨_, hrequest⟩

theorem CompletedCycle.recorded {now : ℕ} {output : JsonObject} {db' : Db}
    (h : CompletedCycle deps now id e runId run output db db') :
    (db'.runNodeOutputs runId).lookup e.step =
      some (((db.runNodeOutputs runId).lookup e.step).getD output) := by
  rw [h.output]
  cases hfound : (db.runNodeOutputs runId).lookup e.step with
  | some existing => simpa using hfound
  | none => simp [List.lookup_append, hfound]

/-- What a column has after an insert that keeps an earlier object. -/
theorem kept_object_iff {earlier : Option JsonObject}
    (haccept : ParsedJson.fieldsRefused fields = false) :
    (some (earlier.getD (ParsedJson.storedFields fields))).map ParsedJson.ofFields = some fields ↔
      (earlier = none → ParsedJson.fieldsFinite fields = true) ∧
        ∀ o, earlier = some o → ParsedJson.ofFields o = fields := by
  cases earlier with
  | some o => simp
  | none =>
      simp only [Option.getD_none, Option.map_some, Option.some.injEq, forall_const, reduceCtorEq,
        false_implies, and_true]
      constructor
      · intro h
        rw [← h]
        exact ParsedJson.fieldsFinite_ofFields _
      · exact ParsedJson.ofFields_storedFields haccept

/-- The worker's part: an object is kept if it arrives, the store takes it, it has no
infinity, and no other one is there. -/
theorem outputKept_iff (hclaim : claimedRun db c.now locked = some (id, e, runId, run))
    (hrequest : stepRequest deps db runId run id e = .ok (node, request)) {got : ParsedObject}
    (hgot : answerResult deps c.answer = .ok (.ok got)) :
    OutputKept deps c locked db id e runId request fields ↔
      (got = fields ∧ ParsedJson.fieldsRefused fields = false ∧
        ParsedJson.fieldsFinite fields = true) ∧ NoOtherRecorded db id e runId fields := by
  have hsuccess := runOnce_success hclaim hrequest hgot
  constructor
  · intro h
    obtain ⟨params, hparams⟩ := stepRequest_params hrequest
    have harrived := h.dispatched params hparams
    rw [dispatched_eq hparams, hgot] at harrived
    obtain rfl : got = fields := DispatchResult.ok.inj (Except.ok.inj harrived)
    rcases hsuccess with ⟨-, huntouched⟩ | ⟨haccept, -, hcompleted⟩
    · have hcommitted := h.committed
      rw [huntouched] at hcommitted
      cases hcommitted
    · have hcheckpoint := h.checkpoint
      have houtput := h.output
      rw [hcompleted.checkpoint, kept_object_iff haccept] at hcheckpoint
      rw [hcompleted.recorded, kept_object_iff haccept] at houtput
      refine ⟨⟨rfl, haccept, ?_⟩, hcheckpoint.2, houtput.2⟩
      cases hearlier : db.checkpoints id e.step with
      | none => exact hcheckpoint.1 hearlier
      | some earlier =>
          rw [← hcheckpoint.2 earlier hearlier]
          exact ParsedJson.fieldsFinite_ofFields earlier
  · rintro ⟨⟨rfl, haccept, hfinite⟩, hother⟩
    rcases hsuccess with ⟨hrefused, -⟩ | ⟨-, hworked, hcompleted⟩
    · rw [haccept] at hrefused
      cases hrefused
    · refine ⟨fun params hparams => (dispatched_eq hparams).trans hgot, hworked, ?_, ?_⟩
      · rw [hcompleted.checkpoint, kept_object_iff haccept]
        exact ⟨fun _ => hfinite, hother.checkpoint⟩
      · rw [hcompleted.recorded, kept_object_iff haccept]
        exact ⟨fun _ => hfinite, hother.output⟩

/-- What the agent's answer to a request comes to. -/
theorem AnswersWith.result {quote decode} {read : JsonScanner.Readings} {p : Agent.ProcessRun}
    (h : AnswersWith quote decode read p request c.answer) (hexit : p.runErr = none)
    (hstdout : JsonScanner.parse read p.stdout.flatten = some (.obj fields)) :
    answerResult deps c.answer =
      .ok (.ok (if Agent.Fits read p.stdout.flatten then fields else [])) := by
  obtain ⟨argv, hargs⟩ := h.args
  obtain ⟨source, hstdin⟩ := h.stdin
  obtain ⟨text, hanswer⟩ := h.answer
  rw [hanswer, ← Agent.readDispatch_run hargs hstdin hexit hstdout decode]
  rfl

/-- What is returned and recorded of an object that a command line has written. -/
theorem AnswersWith.kept_iff {quote decode} {read : JsonScanner.Readings} {p : Agent.ProcessRun}
    (h : AnswersWith quote decode read p request c.answer) (hexit : p.runErr = none)
    (hstdout : JsonScanner.parse read p.stdout.flatten = some (.obj fields))
    (hclaim : claimedRun db c.now locked = some (id, e, runId, run))
    (hrequest : stepRequest deps db runId run id e = .ok (node, request)) :
    OutputKept deps c locked db id e runId request fields ↔
      (Agent.Fits read p.stdout.flatten ∧ ParsedJson.fieldsRefused fields = false ∧
          ParsedJson.fieldsFinite fields = true ∨
        fields = []) ∧ NoOtherRecorded db id e runId fields := by
  rw [outputKept_iff hclaim hrequest (h.result hexit hstdout)]
  apply and_congr_left'
  split_ifs with hfits
  · constructor
    · exact fun hkept => .inl ⟨hfits, hkept.2⟩
    · rintro (hkept | rfl)
      · exact ⟨rfl, hkept.2⟩
      · exact ⟨rfl, rfl, rfl⟩
  · constructor
    · exact fun hkept => .inr hkept.1.symm
    · rintro (hkept | rfl)
      · exact absurd hkept.1 hfits
      · exact ⟨rfl, rfl, rfl⟩

/-- An object that a command line has written is what every dispatch returns exactly if
its text fits, or it is empty; and it is returned and recorded exactly if, besides,
none of its strings and keys has U+0000 or an unpaired surrogate, none of its numerals
is read as an infinity, and no other object is recorded already. -/
theorem output_kept_iff {quote decode} {read : JsonScanner.Readings} {p : Agent.ProcessRun}
    (hexit : p.runErr = none)
    (hstdout : JsonScanner.parse read p.stdout.flatten = some (.obj fields)) :
    (∀ params request, buildInvokeRequest params = .ok request →
      AnswersWith quote decode read p request c.answer →
      (dispatched deps c locked db params = .ok (.ok fields) ↔
        ((JsonScanner.trimEnd p.stdout.flatten).length ≤ Agent.maxCapturedOutputBytes ∧
          JsonScanner.nesting read (JsonScanner.trimEnd p.stdout.flatten) ≤
            Agent.maxNestingDepth) ∨
        fields = [])) ∧
    ∀ id e runId run node request, claimedRun db c.now locked = some (id, e, runId, run) →
      stepRequest deps db runId run id e = .ok (node, request) →
      AnswersWith quote decode read p request c.answer →
      (OutputKept deps c locked db id e runId request fields ↔
        (((JsonScanner.trimEnd p.stdout.flatten).length ≤ Agent.maxCapturedOutputBytes ∧
          JsonScanner.nesting read (JsonScanner.trimEnd p.stdout.flatten) ≤
            Agent.maxNestingDepth) ∧
          ParsedJson.fieldsRefused fields = false ∧ ParsedJson.fieldsFinite fields = true ∨
        fields = []) ∧ NoOtherRecorded db id e runId fields) := by
  constructor
  · intro params request hparams hanswer
    rw [dispatched_eq hparams, hanswer.result hexit hstdout]
    change _ ↔ Agent.Fits read p.stdout.flatten ∨ fields = []
    split_ifs with hfits
    · simp [hfits]
    · simp [hfits, eq_comm]
  · intro id e runId run node request hclaim hrequest hanswer
    exact hanswer.kept_iff hexit hstdout hclaim hrequest

end

/-! ### An object that is lost -/

/-- Literals of plain characters only. -/
def asciiReadings : JsonScanner.Readings where
  number _ := .finite .zero
  string raw := .text (String.ofList (raw.map fun c => Char.ofNat c.toNat))

/-- The text of an object whose only field is a string of `n` letters. -/
def letterText (n : ℕ) : List UInt8 :=
  ['\x7b', '"', 'k', '"', ':', '"'].map JsonScanner.byte ++
    List.replicate n (JsonScanner.byte 'a') ++ [JsonScanner.byte '"', JsonScanner.byte '\x7d']

def letterFields (read : JsonScanner.Readings) (n : ℕ) : ParsedObject :=
  [(read.string [JsonScanner.byte 'k'],
    .str (read.string (List.replicate n (JsonScanner.byte 'a'))))]

/-- A subprocess that writes that text at once and exits with 0. -/
def letterRun (n : ℕ) : Agent.ProcessRun where
  stdout := [letterText n]

/-- The request that is sent for the first step. -/
def firstRequest : InvokeRequest where
  executionId := "1"
  stepId := "first"
  function := "run"
  args := []
  timeoutMs := 1000

theorem first_claimed : ∃ e run node,
    claimedRun (readerDb "first") 0 unlocked = some (1, e, 1, run) ∧
    stepRequest workerDeps (readerDb "first") 1 run 1 e = .ok (node, firstRequest) :=
  ⟨_, _, _, rfl, rfl⟩

/-- The agent's answer to it after a run of the subprocess. -/
def answeredChoice (read : JsonScanner.Readings) (p : Agent.ProcessRun) : Choice where
  now := 0
  answer := .response 200 (.complete "" (some ((Agent.run String.quote read firstRequest.onWire
    p).onWire fun raw => String.ofList (raw.map fun c => Char.ofNat c.toNat))))

theorem answeredChoice_answers (read : JsonScanner.Readings) (p : Agent.ProcessRun) :
    AnswersWith String.quote (fun raw => String.ofList (raw.map fun c => Char.ofNat c.toNat)) read p
      firstRequest (answeredChoice read p).answer where
  args := ⟨_, rfl⟩
  stdin := ⟨_, rfl⟩
  answer := ⟨_, rfl⟩

section
variable (read : JsonScanner.Readings)

theorem scanFrom_letters (raw : List UInt8) (stack : List JsonScanner.Frame) (n : ℕ) :
    JsonScanner.scanFrom read { mode := .inString raw, stack }
      (List.replicate n (JsonScanner.byte 'a')) =
      some { mode := .inString (raw ++ List.replicate n (JsonScanner.byte 'a')), stack } := by
  induction n generalizing raw with
  | zero =>
      rw [List.replicate_zero, List.append_nil]
      rfl
  | succ n ih =>
      rw [List.replicate_succ]
      refine (ih (raw ++ [JsonScanner.byte 'a'])).trans ?_
      rw [List.append_assoc, List.singleton_append]

theorem parse_letterText (n : ℕ) :
    JsonScanner.parse read (letterText n) = some (.obj (letterFields read n)) := by
  have hopen : JsonScanner.scanFrom read {}
      (['\x7b', '"', 'k', '"', ':', '"'].map JsonScanner.byte) =
      some { mode := .inString [], stack := [.member [] (read.string [JsonScanner.byte 'k'])] } :=
    rfl
  have hclose (raw : List UInt8) : (JsonScanner.scanFrom read
      { mode := .inString raw, stack := [.member [] (read.string [JsonScanner.byte 'k'])] }
      [JsonScanner.byte '"', JsonScanner.byte '\x7d']).bind (JsonScanner.eof read) =
      some (.obj [(read.string [JsonScanner.byte 'k'], .str (read.string raw))]) := rfl
  rw [JsonScanner.parse, letterText, JsonScanner.scanFrom_append, JsonScanner.scanFrom_append,
    hopen, Option.bind_some, scanFrom_letters, Option.bind_some, List.nil_append, hclose]
  rfl

end

theorem letterRun_parse (n : ℕ) : JsonScanner.parse asciiReadings (letterRun n).stdout.flatten =
    some (.obj (letterFields asciiReadings n)) := by
  rw [letterRun, List.flatten_singleton]
  exact parse_letterText asciiReadings n

theorem output_kept_iff_letter : ∃ e run,
    claimedRun (readerDb "first") 0 unlocked = some (1, e, 1, run) ∧
    OutputKept workerDeps (answeredChoice asciiReadings (letterRun 1)) unlocked (readerDb "first")
      1 e 1 firstRequest (letterFields asciiReadings 1) := by
  obtain ⟨e, run, node, hclaim, hrequest⟩ := first_claimed
  have hkept := (output_kept_iff rfl (letterRun_parse 1)).2 1 e 1 run node firstRequest hclaim
    hrequest (answeredChoice_answers asciiReadings (letterRun 1))
  refine ⟨e, run, hclaim, hkept.mpr ⟨.inl ⟨⟨by decide, by decide⟩, rfl, rfl⟩, ?_, ?_⟩⟩
  · rintro _ ⟨⟩
  · rintro _ ⟨⟩

theorem letterText_trimmed (n : ℕ) : JsonScanner.trimEnd (letterText n) = letterText n := by
  have hlast : letterText n = (['\x7b', '"', 'k', '"', ':', '"'].map JsonScanner.byte ++
      List.replicate n (JsonScanner.byte 'a') ++ [JsonScanner.byte '"']) ++
        [JsonScanner.byte '\x7d'] := by
    simp [letterText]
  rw [hlast]
  exact List.rdropWhile_concat_neg _ _ _ (by decide)

/-- A text that is longer than the buffer is cut off by the agent, and the worker
takes what is left for the empty object. -/
theorem letters_lost {n : ℕ} (hn : Agent.maxCapturedOutputBytes ≤ n) :
    JsonScanner.parse asciiReadings (letterRun n).stdout.flatten =
        some (.obj (letterFields asciiReadings n)) ∧
      ∃ e run node, claimedRun (readerDb "first") 0 unlocked = some (1, e, 1, run) ∧
        stepRequest workerDeps (readerDb "first") 1 run 1 e = .ok (node, firstRequest) ∧
        ¬ OutputKept workerDeps (answeredChoice asciiReadings (letterRun n)) unlocked
          (readerDb "first") 1 e 1 firstRequest (letterFields asciiReadings n) := by
  have htext : (letterRun n).stdout.flatten = letterText n := List.flatten_singleton
  have hlong : ¬ Agent.Fits asciiReadings (letterRun n).stdout.flatten := by
    intro hfits
    have hlength := hfits.1
    rw [htext, letterText_trimmed] at hlength
    simp only [letterText, List.length_append, List.length_map, List.length_cons,
      List.length_nil, List.length_replicate] at hlength
    omega
  obtain ⟨e, run, node, hclaim, hrequest⟩ := first_claimed
  refine ⟨letterRun_parse n, e, run, node, hclaim, hrequest, ?_⟩
  rw [(answeredChoice_answers asciiReadings (letterRun n)).kept_iff rfl (letterRun_parse n) hclaim
    hrequest]
  simp [hlong, letterFields]

/-- An object of eight mebibytes is recorded as the empty object. -/
theorem long_object_lost :
    JsonScanner.parse asciiReadings (letterRun 8388608).stdout.flatten =
        some (.obj (letterFields asciiReadings 8388608)) ∧
      ∃ e run node, claimedRun (readerDb "first") 0 unlocked = some (1, e, 1, run) ∧
        stepRequest workerDeps (readerDb "first") 1 run 1 e = .ok (node, firstRequest) ∧
        ¬ OutputKept workerDeps (answeredChoice asciiReadings (letterRun 8388608)) unlocked
          (readerDb "first") 1 e 1 firstRequest (letterFields asciiReadings 8388608) :=
  letters_lost (Nat.le_refl 8388608)

/-- A numeral that is read as an infinity arrives and is recorded as `null`. -/
example : ∃ e run, claimedRun (readerDb "first") 0 unlocked = some (1, e, 1, run) ∧
    ¬ OutputKept workerDeps
      (answeredChoice { asciiReadings with number _ := .infinite false }
        { stdout := ["\x7b\"k\":1e400\x7d".toList.map JsonScanner.byte] })
      unlocked (readerDb "first") 1 e 1 firstRequest [(.text "k", .num (.infinite false))] := by
  obtain ⟨e, run, node, hclaim, hrequest⟩ := first_claimed
  refine ⟨e, run, hclaim, ?_⟩
  rw [(answeredChoice_answers _ _).kept_iff rfl rfl hclaim hrequest]
  simp [ParsedJson.fieldsFinite, ParsedJson.finite]

end WorkflowPlatform
