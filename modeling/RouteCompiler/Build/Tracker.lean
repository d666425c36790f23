import RouteCompiler.Build.Error
import RouteCompiler.Model.Encoding

/-!
# Build records

Every accepted build has a record.  A tag has at most one build in flight:
registering a tag again names the build that is.  Finished builds are remembered
up to a limit; beyond it those that ended first are forgotten.

Identifiers and clock readings come from outside.  Identifiers grow in the order
in which they are drawn.
-/

namespace RouteCompiler

/-- What identifies a build. -/
abbrev BuildId := String

/-- The record of a build. -/
structure BuildRecord where
  id : BuildId
  key : TagKey
  status : BuildStatus
  submittedAt : Instant
  startedAt : Option Instant := none
  endedAt : Option Instant := none
  error : Option String := none
  deriving DecidableEq

namespace BuildRecord

/-- A record as a datum. -/
def encode (r : BuildRecord) : Datum :=
  .ofMembers [
    .always "id" (Codec.encode r.id),
    .always "key" (Codec.encode r.key),
    .always "status" (Codec.encode r.status),
    .always "submittedAt" (Codec.encode r.submittedAt),
    .omitIf r.startedAt.isNone "startedAt" (Codec.encode r.startedAt),
    .omitIf r.endedAt.isNone "endedAt" (Codec.encode r.endedAt),
    .omitIf r.error.isNone "error" (Codec.encode r.error)]

/-- Whether the build has ended. -/
def isFinished (r : BuildRecord) : Bool :=
  r.status.isTerminal

/-- The numbers of the moment at which a build ended. -/
def endFields (r : BuildRecord) : List Int :=
  (r.endedAt.map Instant.fields).getD []

/-- Whether a build is forgotten no later than another: it ended before it, or at
the same moment and has no greater identifier. -/
def isForgottenBefore (r s : BuildRecord) : Bool :=
  decide (r.endFields < s.endFields) || (r.endFields == s.endFields && decide (r.id ≤ s.id))

end BuildRecord

/-- The records of builds. -/
structure Tracker where
  /-- How many finished builds are remembered. -/
  historyLimit : Nat
  builds : SortedMap BuildId BuildRecord
  /-- The build in flight of each tag that has one. -/
  inFlight : SortedMap TagKey BuildId

/-- What became of a registration. -/
inductive Registration where
  /-- A new build is registered. -/
  | fresh (id : BuildId)
  /-- The tag has a build in flight already. -/
  | existing (id : BuildId)
  deriving DecidableEq, Repr

namespace Registration

/-- The build of the tag, new or not. -/
def id : Registration → BuildId
  | fresh id | existing id => id

end Registration

namespace Tracker

/-- No builds. -/
def empty (historyLimit : Nat) : Tracker :=
  ⟨historyLimit, .empty, .empty⟩

/-! ## Looking -/

/-- The record of a build. -/
def build (t : Tracker) (id : BuildId) : Except BuildError BuildRecord :=
  match t.builds.find? id with
  | some r => .ok r
  | none => .error (.buildNotFound id)

/-- The builds that have not ended, by identifier. -/
def active (t : Tracker) : List BuildRecord :=
  t.builds.values.filter fun r => !r.isFinished

/-- What somebody who waits for a build is told, if there is something to tell
by now: the record of a build that has ended, or that there is none. -/
def answer? (t : Tracker) (id : BuildId) : Option (Except BuildError BuildRecord) :=
  match t.build id with
  | .ok r => if r.isFinished then some (.ok r) else none
  | .error e => some (.error e)

/-! ## Accepting -/

/-- Register a build of a tag under a new identifier, unless one is in
flight. -/
def register (t : Tracker) (key : TagKey) (id : BuildId) (now : Instant) :
    Registration × Tracker :=
  match t.inFlight.find? key with
  | some other => (.existing other, t)
  | none =>
      let r : BuildRecord := {
        id, key, status := .scheduled, submittedAt := now }
      (.fresh id, { t with
        builds := t.builds.insert id r
        inFlight := t.inFlight.insert key id })

/-- Forget a build that was registered and never scheduled. -/
def discard (t : Tracker) (id : BuildId) : Tracker :=
  match t.builds.find? id with
  | some r => { t with builds := t.builds.erase id, inFlight := t.inFlight.erase r.key }
  | none => t

/-! ## Running -/

/-- Note that a build runs. -/
def start (t : Tracker) (id : BuildId) (now : Instant) : Except BuildError Tracker := do
  let r ← t.build id
  return { t with
    builds := t.builds.insert id { r with status := .building, startedAt := some now } }

/-- The finished builds that are too many, those that ended first. -/
def surplus (t : Tracker) : List BuildRecord :=
  let finished := t.builds.values.filter BuildRecord.isFinished
  (finished.mergeSort BuildRecord.isForgottenBefore).take (finished.length - t.historyLimit)

/-- Forget the finished builds that are too many. -/
def forgetSurplus (t : Tracker) : Tracker :=
  { t with builds := t.surplus.foldl (fun builds r => builds.erase r.id) t.builds }

/-- No build of a tag is in flight any more, if it was the given one. -/
def land (t : Tracker) (key : TagKey) (id : BuildId) : Tracker :=
  if t.inFlight.find? key = some id then { t with inFlight := t.inFlight.erase key } else t

/-- Note that a build has ended, with what went wrong if something did. -/
def finish (t : Tracker) (id : BuildId) (error : Option String) (now : Instant) :
    Except BuildError Tracker := do
  let r ← t.build id
  let ended := { r with
    status := if error.isNone then .successful else .failed
    error
    endedAt := some now }
  let t := { t with builds := t.builds.insert id ended }
  return (t.land r.key id).forgetSurplus

/-- Note that a build was successful. -/
def complete (t : Tracker) (id : BuildId) (now : Instant) : Except BuildError Tracker :=
  t.finish id none now

/-- Note that a build failed. -/
def fail (t : Tracker) (id : BuildId) (error : String) (now : Instant) :
    Except BuildError Tracker :=
  t.finish id (some error) now

end Tracker

end RouteCompiler
