import RouteCompiler.Build.Error

/-!
# Diagnoses

What the program says when it cannot do what it was asked: what failed, and why.
Each cause explains what is said before it.
-/

namespace RouteCompiler

/-- What failed, and the causes, the nearest one first. -/
structure Diagnosis where
  message : String
  causes : List String := []
  deriving DecidableEq, Repr

/-- What lies behind an error of the model. -/
def ModelError.causes : ModelError → List String
  | .unreadableSnapshot _ reason => [reason]
  | _ => []

/-- What lies behind an error of generation. -/
def GenerationError.causes : GenerationError → List String
  | .file _ reason => [reason]
  | .model e => e.causes
  | _ => []

/-- What lies behind an error of builds. -/
def BuildError.causes : BuildError → List String
  | .file _ reason => [reason]
  | .generation e => e.causes
  | .model e => e.causes
  | _ => []

namespace Diagnosis

/-- The diagnosis of an error of the model. -/
def ofModel (e : ModelError) : Diagnosis :=
  ⟨e.message, e.causes⟩

/-- The diagnosis of an error of generation. -/
def ofGeneration (e : GenerationError) : Diagnosis :=
  ⟨e.message, e.causes⟩

/-- The diagnosis of an error of builds. -/
def ofBuild (e : BuildError) : Diagnosis :=
  ⟨e.message, e.causes⟩

/-- Say what was attempted. -/
def within (context : String) (d : Diagnosis) : Diagnosis :=
  ⟨context, d.message :: d.causes⟩

/-! ## Writing -/

/-- A text whose lines after the first are indented. -/
def indented (width : Nat) (text : String) : String :=
  let lines := (Text.splitOn '\n' text.toList).map String.ofList
  Text.joinWith (String.ofList ('\n' :: List.replicate width ' ')) lines

/-- The line of one of several causes. -/
def numberedCause (number : Nat) (cause : String) : String :=
  let digits := toString number
  String.ofList (List.replicate (5 - digits.length) ' ') ++ digits ++ ": " ++ indented 7 cause

/-- The lines of the causes; a single one has no number. -/
def causeLines : List String → List String
  | [cause] => ["    " ++ indented 4 cause]
  | causes => causes.mapIdx numberedCause

/-- The text of a diagnosis. -/
def toText (d : Diagnosis) : String :=
  let lines := if d.causes.isEmpty then [] else "" :: "Caused by:" :: causeLines d.causes
  Text.joinWith "\n" (s!"Error: {d.message}" :: lines) ++ "\n"

end Diagnosis

end RouteCompiler
