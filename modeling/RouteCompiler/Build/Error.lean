import RouteCompiler.Generation.Error
import RouteCompiler.Model.Tag

/-!
# Errors of builds

What can go wrong while builds are accepted, run and deployed.  An error of
generation or of the model is passed on as it is.
-/

namespace RouteCompiler

/-- Why a build cannot be accepted, run or deployed. -/
inductive BuildError where
  /-- The tag to be built does not exist. -/
  | tagNotFound (key : TagKey)
  /-- Nothing is stored under a tag. -/
  | snapshotNotFound (key : TagKey)
  /-- No further build can wait. -/
  | queueFull (capacity : UInt64)
  /-- No build is known by an identifier. -/
  | buildNotFound (id : String)
  /-- What was generated could not be handed over. -/
  | deployment (key : TagKey) (reason : String)
  /-- The store of snapshots failed. -/
  | repository (reason : String)
  /-- Generation failed. -/
  | generation (e : GenerationError)
  /-- The configuration cannot be used. -/
  | invalidConfig (reason : String)
  /-- An operation on files failed. -/
  | file (path reason : String)
  /-- No more builds are accepted. -/
  | shuttingDown
  /-- The snapshot, or an operation on stored snapshots, is at fault. -/
  | model (e : ModelError)
  /-- A build ended in a way that nobody foresaw. -/
  | internal (text : String)
  deriving DecidableEq, Repr

namespace BuildError

/-- The text of an error. -/
def message : BuildError → String
  | tagNotFound key => s!"tag '{key.toText}' not found"
  | snapshotNotFound key => s!"snapshot for tag '{key.toText}' not found"
  | queueFull capacity => s!"build queue is full ({capacity} pending builds)"
  | buildNotFound id => s!"build '{id}' not found"
  | deployment key reason => s!"deployment of '{key.toText}' failed: {reason}"
  | repository reason => s!"repository error: {reason}"
  | generation e => e.message
  | invalidConfig reason => s!"invalid configuration: {reason}"
  | file path reason => s!"I/O error at '{path}': {reason}"
  | shuttingDown => "build server is shutting down"
  | model e => e.message
  | internal text => s!"internal error: {text}"

/-- Whether the error lies in what the user asked for, not in the machinery. -/
def isInputError : BuildError → Bool
  | tagNotFound _ | snapshotNotFound _ => true
  | generation e => e.isInputError
  | model e => e.isInputError
  | _ => false

/-- The error as an issue of a build. -/
def toIssue : BuildError → Issue
  | generation e => e.toIssue
  | model e => e.toIssue
  | e => ⟨.error, e.message, none, none, none⟩

end BuildError

end RouteCompiler
