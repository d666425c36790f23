import RouteCompiler.Text.Slice

/-!
# Validation

A validation lists every failure of a value, each with the path of the field at
fault.  No failure means that the value is valid.
-/

namespace RouteCompiler

/-- The kinds of validation failures. -/
inductive FailureKind where
  | required
  | format
  | duplicate
  | constraint
  deriving DecidableEq, Repr

namespace FailureKind

/-- The name of a kind of failure. -/
def name : FailureKind → String
  | required => "required"
  | format => "format"
  | duplicate => "duplicate"
  | constraint => "constraint"

end FailureKind

/-- A field at fault, with what is wrong. -/
structure Failure where
  field : String
  message : String
  kind : FailureKind
  deriving DecidableEq, Repr

namespace Failure

/-- A field that must not be blank is. -/
def required (field : String) : Failure :=
  ⟨field, s!"'{field}' is required but was not provided", .required⟩

/-- A field is not of the right form. -/
def format (field message : String) : Failure :=
  ⟨field, message, .format⟩

/-- A name is used a second time. -/
def duplicate (field name : String) : Failure :=
  ⟨field, s!"'{name}' is defined more than once", .duplicate⟩

/-- A rule across fields is broken. -/
def constraint (field message : String) : Failure :=
  ⟨field, message, .constraint⟩

/-- The failure of a part, seen from the whole: the path of the part comes in
front. -/
def within (path : String) (f : Failure) : Failure :=
  { f with field := s!"{path}.{f.field}" }

/-- The text of a failure. -/
def toText (f : Failure) : String :=
  s!"validation error for '{f.field}': {f.message}"

/-- The text of a list of failures. -/
def listText : List Failure → String
  | [] => "no validation errors"
  | [f] => f.toText
  | fs =>
      s!"{fs.length} validation errors:\n" ++
        String.join (fs.map fun f => s!"  - {f.toText}\n")

/-- A blank field that must not be blank. -/
def requireText (field value : String) : List Failure :=
  if Text.isBlankText value then [required field] else []

end Failure

/-- The failures of the items of a list, each item seen with its place and with
the items before it. -/
def failuresOfItems {α : Type} (check : Nat → List α → α → List Failure) :
    List α → List α → List Failure
  | _, [] => []
  | earlier, a :: rest =>
      check earlier.length earlier a ++ failuresOfItems check (earlier ++ [a]) rest

end RouteCompiler
