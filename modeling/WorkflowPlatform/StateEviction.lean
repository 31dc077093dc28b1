import WorkflowPlatform.AgentConfig
import WorkflowPlatform.LexicalPath

/-!
# What an eviction removes

The agent removes one directory below its state directory. A request names it by
a token that leads neither up nor down, and the path put together from the two is
looked at once more before anything is removed. The token alone keeps the path
inside; the second look lets every token through that the first has accepted.
-/
namespace WorkflowPlatform.Agent

namespace Filepath

/-- `/` -/
def separator : UInt8 := 0x2F

/-- `.` -/
def dot : UInt8 := 0x2E

def clean (path : GoString) : GoString := LexicalPath.clean separator dot path

def join (elem : List GoString) : GoString := LexicalPath.join separator dot elem

def dir (path : GoString) : GoString := LexicalPath.dir separator dot path

/-- The names from the root down to where a path leads, in a tree without links. -/
def locate (cwd : List GoString) (path : GoString) : List GoString :=
  LexicalPath.locate separator dot cwd path

theorem dot_ne_separator : dot ≠ separator := by decide

end Filepath
open Filepath

/-! ### The handler -/

structure EvictRequest where
  stateId : GoString

structure EvictResponse where
  ack : Bool
deriving DecidableEq

structure RemoveError where
  text : String
  notExist : Bool

/-- `[A-Za-z0-9_.-]`. A byte that starts no character of its own reads as U+FFFD,
which is not of the class either. -/
def isStateIDByte (b : UInt8) : Bool :=
  (0x41 ≤ b && b ≤ 0x5A) || (0x61 ≤ b && b ≤ 0x7A) || (0x30 ≤ b && b ≤ 0x39) ||
    b = 0x5F || b = 0x2E || b = 0x2D

def stateIDPattern (id : GoString) : Bool :=
  1 ≤ id.length && id.length ≤ 255 && id.all isStateIDByte

def isValidStateID (id : GoString) : Bool :=
  if id = [] ∨ id = [dot] ∨ id = [dot, dot] then false else stateIDPattern id

def statusMethodNotAllowed : ℕ := 405
def statusInternalServerError : ℕ := 500

/-- The reply, and the paths `os.RemoveAll` has been called on. The body has been
decoded, or the decoder has failed with a text. -/
def evictHandler (cfg : StartupConfig) (removeAll : GoString → Option RemoveError) (method : String)
    (body : Except String EvictRequest) : Except HttpError EvictResponse × List GoString :=
  if method ≠ "POST" then (.error ⟨"method not allowed", statusMethodNotAllowed⟩, [])
  else
    match body with
    | .error err => (.error ⟨"malformed request body: " ++ err, statusBadRequest⟩, [])
    | .ok req =>
        if isValidStateID req.stateId = false then
          (.error ⟨"stateId must be a non-empty path-safe token (no '/', no '..')",
            statusBadRequest⟩, [])
        else
          let stateDir := clean cfg.stateDir
          let target := join [stateDir, req.stateId]
          if dir target ≠ stateDir then
            (.error ⟨"stateId resolved outside state-dir", statusBadRequest⟩, [])
          else
            match removeAll target with
            | none => (.ok ⟨true⟩, [target])
            | some err =>
                if err.notExist then (.ok ⟨true⟩, [target])
                else (.error ⟨"evict failed: " ++ err.text, statusInternalServerError⟩, [target])

/-! ### What is removed -/

/-- A path that can be removed with everything under it: its directory is the one
configured, and all it leads to lies strictly below where that one leads. -/
structure Evictable (stateDir target : GoString) : Prop where
  parent : dir target = clean stateDir
  other : target ≠ clean stateDir
  below : ∀ cwd, locate cwd stateDir <+: locate cwd target
  notAbove : ∀ cwd, ¬ locate cwd target <+: locate cwd stateDir

theorem isName_of_isValidStateID {id : GoString} (h : isValidStateID id = true) :
    LexicalPath.IsName separator dot id := by
  unfold isValidStateID at h
  split_ifs at h with hdots
  simp only [not_or] at hdots
  obtain ⟨hempty, hdot, hdotdot⟩ := hdots
  refine ⟨?_, hempty, hdot, hdotdot⟩
  intro hsep
  simp only [stateIDPattern, Bool.and_eq_true, List.all_eq_true] at h
  have hbyte := h.2 separator hsep
  exact absurd hbyte (by decide)

theorem dir_join {id : GoString} (h : isValidStateID id = true) (stateDir : GoString) :
    dir (join [clean stateDir, id]) = clean stateDir :=
  LexicalPath.dir_join_clean dot_ne_separator stateDir (isName_of_isValidStateID h)

/-- One name below the state directory, from wherever the paths start. -/
theorem locate_join {id : GoString} (h : isValidStateID id = true) (cwd : List GoString)
    (stateDir : GoString) :
    locate cwd (join [clean stateDir, id]) = locate cwd stateDir ++ [id] :=
  LexicalPath.locate_join_clean dot_ne_separator stateDir (isName_of_isValidStateID h)

theorem evictable_join {id : GoString} (h : isValidStateID id = true) (stateDir : GoString) :
    Evictable stateDir (join [clean stateDir, id]) := by
  have hlocate := fun cwd => locate_join h cwd stateDir
  have hnotAbove : ∀ cwd, ¬ locate cwd (join [clean stateDir, id]) <+: locate cwd stateDir := by
    intro cwd hprefix
    have hlength := hprefix.length_le
    rw [hlocate cwd, List.length_append, List.length_singleton] at hlength
    omega
  refine ⟨dir_join h stateDir, ?_, ?_, hnotAbove⟩
  · intro hsame
    have hclean : locate [] (clean stateDir) = locate [] stateDir :=
      LexicalPath.locate_clean dot_ne_separator stateDir
    have hself := hnotAbove []
    rw [hsame, hclean] at hself
    exact hself List.prefix_rfl
  · intro cwd
    rw [hlocate cwd]
    exact List.prefix_append _ _

section
variable {cfg : StartupConfig} {removeAll : GoString → Option RemoveError} {req : EvictRequest}

theorem evictHandler_method {method : String} {body : Except String EvictRequest}
    (h : method ≠ "POST") : evictHandler cfg removeAll method body =
      (.error ⟨"method not allowed", statusMethodNotAllowed⟩, []) := if_pos h

theorem evictHandler_invalid (h : isValidStateID req.stateId = false) :
    evictHandler cfg removeAll "POST" (.ok req) =
      (.error ⟨"stateId must be a non-empty path-safe token (no '/', no '..')", statusBadRequest⟩,
        []) := by
  rw [evictHandler, if_neg (not_not.mpr rfl)]
  exact if_pos h

/-- An accepted token is acted on: the second look lets it through. -/
theorem evictHandler_removes (h : isValidStateID req.stateId = true) :
    (evictHandler cfg removeAll "POST" (.ok req)).2 = [join [clean cfg.stateDir, req.stateId]] := by
  rw [evictHandler, if_neg (not_not.mpr rfl)]
  dsimp only
  rw [if_neg (by rw [h]; exact Bool.noConfusion), if_neg (not_not.mpr (dir_join h cfg.stateDir))]
  cases removeAll (join [clean cfg.stateDir, req.stateId]) with
  | none => rfl
  | some err =>
      dsimp only
      split_ifs <;> rfl

end

/-- Whatever is asked of the agent, it removes nothing, or the one directory below
its own that a token names; and no request with a valid token fails the second look. -/
theorem evict_inside (cfg : StartupConfig) (removeAll : GoString → Option RemoveError)
    (method : String) (body : Except String EvictRequest) :
    ((∃ err, evictHandler cfg removeAll method body = (.error err, [])) ∨
      ∃ req, body = .ok req ∧
        (evictHandler cfg removeAll method body).2 = [join [clean cfg.stateDir, req.stateId]] ∧
        Evictable cfg.stateDir (join [clean cfg.stateDir, req.stateId])) ∧
    ∀ req, isValidStateID req.stateId = true →
      dir (join [clean cfg.stateDir, req.stateId]) = clean cfg.stateDir ∧
        (evictHandler cfg removeAll "POST" (.ok req)).2 =
          [join [clean cfg.stateDir, req.stateId]] := by
  refine ⟨?_, fun req h => ⟨dir_join h cfg.stateDir, evictHandler_removes h⟩⟩
  by_cases hmethod : method = "POST"
  · subst hmethod
    cases body with
    | error err => exact .inl ⟨_, rfl⟩
    | ok req =>
        cases hvalid : isValidStateID req.stateId with
        | true => exact .inr ⟨req, rfl, evictHandler_removes hvalid, evictable_join hvalid _⟩
        | false => exact .inl ⟨_, evictHandler_invalid hvalid⟩
  · exact .inl ⟨_, evictHandler_method hmethod⟩

-- The second look alone would let a token through that leads above the directory.
example : dir (join [clean [dot], [dot, dot]]) = clean [dot] := by decide

end WorkflowPlatform.Agent
