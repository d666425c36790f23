import RouteCompiler.Model.Issue
import RouteCompiler.Time.Instant

/-!
# Tags

A tag names a snapshot that no longer changes, and records how far its build has
come and what came of it.

Main results:

- Lemma `not_canMoveTo_self`: no status leads to itself.
-/

namespace RouteCompiler

/-- How far the build of a tag has come. -/
inductive BuildStatus where
  | created
  | scheduled
  | building
  | successful
  | failed
  deriving DecidableEq, Repr

namespace BuildStatus

/-- The name of a status. -/
def name : BuildStatus → String
  | created => "Created"
  | scheduled => "Scheduled"
  | building => "Building"
  | successful => "Successful"
  | failed => "Failed"

/-- All statuses. -/
def all : List BuildStatus :=
  [created, scheduled, building, successful, failed]

/-- Whether the build has ended. -/
def isTerminal : BuildStatus → Bool
  | successful | failed => true
  | _ => false

/-- Whether the build has been accepted and has not ended. -/
def isInFlight : BuildStatus → Bool
  | scheduled | building => true
  | _ => false

/-- Whether a status may follow another.  A build that has ended may be
scheduled again. -/
def canMoveTo : BuildStatus → BuildStatus → Bool
  | created, scheduled | successful, scheduled | failed, scheduled => true
  | scheduled, building | scheduled, failed => true
  | building, successful | building, failed => true
  | _, _ => false

/-- No status leads to itself. -/
theorem not_canMoveTo_self (s : BuildStatus) : s.canMoveTo s = false := by
  cases s <;> rfl

end BuildStatus

/-- The name of the working copy of a group, which no tag may have. -/
def masterTag : String := "master"

/-- A tag of a group of an organization. -/
structure TagKey where
  org : String
  group : String
  tag : String
  deriving DecidableEq, Repr

namespace TagKey

instance : Ord TagKey :=
  ⟨fun k l => (compare k.org l.org).then ((compare k.group l.group).then (compare k.tag l.tag))⟩

instance : Std.TransOrd TagKey :=
  inferInstanceAs (Std.TransCmp (compareLex (compareOn org)
    (compareLex (compareOn group) (compareOn tag))))

instance : Std.LawfulEqOrd TagKey where
  eq_of_compare {k l} h := by
    simp only [compare, Ordering.then_eq_eq] at h
    cases k
    cases l
    simp only [mk.injEq]
    exact ⟨Std.LawfulEqOrd.eq_of_compare h.1, Std.LawfulEqOrd.eq_of_compare h.2.1,
      Std.LawfulEqOrd.eq_of_compare h.2.2⟩

/-- The text of a key. -/
def toText (k : TagKey) : String :=
  s!"{k.org}/{k.group}/{k.tag}"

end TagKey

/-- The record of a tag. -/
structure Tag where
  name : String
  description : String := ""
  createdBy : String := ""
  createdAt : Instant
  builtAt : Option Instant := none
  status : BuildStatus := .created
  issues : List Issue := []
  deriving DecidableEq

namespace Tag

/-- Whether an issue of the tag is an error. -/
def hasErrors (t : Tag) : Bool :=
  t.issues.any fun i => i.severity == .error

end Tag

end RouteCompiler
